import BareHttp.Epoll.Projection
import BareHttp.Epoll.RequestBuffer
import BareHttp.Epoll.Segmentation
import BareHttp.Http.Readback
import BareHttp.Parser.Grammar

/-!
# What the server says to whom

The whole way from the bytes a client sends to the bytes it gets, in the middle of any run of the
loop.  A `Turn` is one event on a client, as it was recorded: what `recv` returned, the request that
was handed on, the socket it was answered on, and the calls of the answer.

The turns of a connection are those of a single client (`follows_of_run`).  So every answer belongs
to a request that this connection has sent, goes to this connection, and is the last thing that
happens on it (`answer_of_run`); a request without a body is answered when its last byte is there,
and not before (`request_of_run`); and what goes out on a connection is one response, which can be
read back, or nothing (`response_of_run`).
-/

namespace BareHttp
namespace Epoll
namespace Loop

open Pico Transition

/-- The answer to a request: the socket it goes to, and the calls that were made for it. -/
structure Answer where
  on : Option Object
  request : HttpRequest
  calls : List Event

/-- One event on a client. -/
structure Turn where
  conn : ℕ
  result : RecvResult
  env : Env
  answer : Option Answer

/-- The request that was answered. -/
def Turn.request (x : Turn) : Option HttpRequest := x.answer.map Answer.request

/-- What is sent to connection `k`. -/
def Turn.sentTo (k : ℕ) (x : Turn) : Bytes :=
  match x.answer with
  | some a => if a.on = some (.socket k) then acceptedBytes a.calls else []
  | none => []

/-- The answer that a deed begins, if these are the calls behind it. -/
def Deed.answer (calls : List Event) : Deed → Option Answer
  | .answers on request => some ⟨on, request, calls⟩
  | _ => none

/-- What a step shows. -/
def turn (sc : ServerConf) (s : State) (l : Label) : Option Turn :=
  match l with
  | .io _ env _ =>
    (step sc s l).bind fun s' =>
      match recorded s s' with
      | .receives (some (.socket k)) r :: ds =>
        some ⟨k, r, env, ds.findSome? (Deed.answer (ds.filterMap Deed.call))⟩
      | _ => none
  | _ => none

/-- The turns of connection `k`. -/
def turnsOf (k : ℕ) (xs : List Turn) : List Turn := xs.filter fun x => x.conn = k

/-- The bytes that came in. -/
def bytesIn (xs : List Turn) : Bytes := xs.flatMap fun x => x.result.bytes

/-- The answer that belongs to an outcome of connection `k`. -/
def answerOf (sc : ServerConf) (k : ℕ) (env : Env) : ClientOutcome → Option Answer
  | .dispatch request => some ⟨some (.socket k), request, answerCalls sc request env⟩
  | _ => none

theorem answerOf_withFd (sc : ServerConf) (k : ℕ) (env : Env) (fd : ℕ) (o : ClientOutcome) :
    answerOf sc k env (o.withFd fd) = answerOf sc k env o := by
  cases o <;> rfl

theorem answerOf_eq_some {sc : ServerConf} {k : ℕ} {env : Env} {o : ClientOutcome} {a : Answer}
    (h : answerOf sc k env o = some a) :
    o = .dispatch a.request ∧ a.on = some (.socket k) ∧
      a.calls = answerCalls sc a.request env := by
  cases o with
  | dispatch request =>
    obtain rfl := Option.some.inj h
    exact ⟨rfl, rfl, rfl⟩
  | keep | close | corrupt => exact absurd h (by simp [answerOf])

/-- The turns of a single client, from `cd` on, and what is left of it. -/
inductive Follows (sc : ServerConf) :
    Option ClientData → List Turn → Option ClientData → Prop
  | nil (v : Option ClientData) : Follows sc v [] v
  | cons {cd : ClientData} {x : Turn} {xs : List Turn} {v : Option ClientData}
      (hadm : Admissible cd x.result)
      (hanswer : x.answer = answerOf sc x.conn x.env (clientIo cd x.result))
      (h : Follows sc (change cd x.result).after xs v) : Follows sc (some cd) (x :: xs) v

variable {sc : ServerConf} {tail k : ℕ} {nodes : List ℕ} {s s' t : State} {l : Label}
  {ls : List Label} {v : Option ClientData}

theorem Follows.snoc {cd : ClientData} {x : Turn} {xs : List Turn}
    (h : Follows sc v xs (some cd)) (hadm : Admissible cd x.result)
    (hanswer : x.answer = answerOf sc x.conn x.env (clientIo cd x.result)) :
    Follows sc v (xs ++ [x]) (change cd x.result).after := by
  generalize hw : some cd = w at h
  induction h with
  | nil v => exact hw ▸ .cons hadm hanswer (.nil _)
  | cons hadm' hanswer' h ih => exact .cons hadm' hanswer' (ih hw)

/-- An answer goes where the request came from. -/
theorem Follows.own {xs : List Turn} {w : Option ClientData} (h : Follows sc v xs w) {x : Turn}
    (hx : x ∈ xs) {a : Answer} (ha : x.answer = some a) :
    a.on = some (.socket x.conn) ∧ a.calls = answerCalls sc a.request x.env := by
  induction h with
  | nil v => exact absurd hx List.not_mem_nil
  | cons hadm hanswer h ih =>
    rcases List.mem_cons.mp hx with rfl | hx
    · exact (answerOf_eq_some (hanswer.symm.trans ha)).2
    · exact ih hx

/-- What is gone has no turns. -/
theorem Follows.eq_nil {xs : List Turn} (h : Follows sc none xs v) : xs = [] ∧ v = none := by
  cases h
  exact ⟨rfl, rfl⟩

/-! ## The turns of a connection in the loop -/

/-- The turn that the deeds of an event make. -/
theorem turn_of_deeds {c : Client} {r : RecvResult} {env : Env} {kept : List ℕ}
    (hs : step sc s (.io r env kept) = some s') (h : recorded s s' = c.deeds sc r env) :
    turn sc s (.io r env kept) =
      some ⟨c.conn, r, env, answerOf sc c.conn env (clientIo c.cd r)⟩ := by
  simp only [turn, hs, Option.bind_some, h, Client.deeds]
  cases clientIo c.cd r <;>
    simp [Deed.answer, answerOf, Deed.call, List.filterMap_cons, List.filterMap_map,
      List.findSome?_cons, Function.comp_def]

/-- `recv` returns what it can. -/
theorem admissible_of_step {p : ℕ} {c : Client} {rest : List EventData} {r : RecvResult} {env : Env}
    {kept : List ℕ} (hs : step sc s (.io r env kept) = some s')
    (hbatch : s.batch = .client p :: rest) (hc : s.clients.data p = some c) :
    Admissible c.cd r := by
  simp only [step, if_pos (status_of_step hs), hbatch] at hs
  exact State.admissible_of_clientEvent hc hs

/-- **One step.**  It is a turn of connection `k`, taken by the client there, or it leaves the
connection where it stands. -/
theorem turn_of_step (hl : Listed tail s nodes) (hs : step sc s l = some s') (hst : Stands k s v) :
    (turnsOf k (turn sc s l).toList = [] ∧ Stands k s' v) ∨
      ∃ cd x, v = some cd ∧ turnsOf k (turn sc s l).toList = [x] ∧ Admissible cd x.result ∧
        x.answer = answerOf sc x.conn x.env (clientIo cd x.result) ∧
        (s'.status = .running → Stands k s' (change cd x.result).after) := by
  have hm := move_of_step hl hs
  rcases recorded_of_move hl hm with
    ⟨p, c, r, env, kept, rest, rfl, hbatch, hc, hdeeds⟩ | ⟨hnone, hdeeds⟩
  · rw [turn_of_deeds hs hdeeds]
    by_cases hk : c.conn = k
    · subst hk
      obtain rfl := stands_client hl hst hc
      refine .inr ⟨_, ⟨c.conn, r, env, answerOf sc c.conn env (clientIo c.cd r)⟩, rfl, ?_, ?_, ?_,
        fun hs' => (stands_of_event hl hm hs' hbatch hc).2.2⟩
      · simp [turnsOf]
      · exact admissible_of_step hs hbatch hc
      · simp only [anonymous, clientIo_withFd, answerOf_withFd]
    · refine .inl ⟨by simp [turnsOf, hk], stands_of_other hl hm hst ?_⟩
      rintro q d hq hd rfl
      obtain rfl : p = q := by simpa [State.concerns, hbatch] using hq
      exact hk (by rw [Option.some.inj (hc.symm.trans hd)])
  · refine .inl ⟨?_, stands_of_other hl hm hst fun p c hp hc => absurd hc (hnone p c hp)⟩
    have hturn : turn sc s l = none := by
      cases l with
      | io r env kept => simp only [turn, hs, Option.bind_some, hdeeds]
      | wait | waitFails | accept | acceptFails | release => rfl
    rw [hturn]
    rfl

/-- The turns of every connection so far are those of a single client, and while the loop goes on
the connection stands where they lead. -/
structure Told (sc : ServerConf) (tail : ℕ) (s : State) (h : List Turn) : Prop where
  listed : s.status = .running → ∃ nodes, Listed tail s nodes
  follows : ∀ k, ∃ v, Follows sc (some (newClient 0)) (turnsOf k h) v ∧
    (s.status = .running → Stands k s v)

theorem told_of_step {h : List Turn} (ht : Told sc tail s h) (hs : step sc s l = some s') :
    Told sc tail s' (h ++ (turn sc s l).toList) := by
  have hrun := status_of_step hs
  obtain ⟨nodes, hl⟩ := ht.listed hrun
  refine ⟨hl.of_move (move_of_step hl hs), fun k => ?_⟩
  obtain ⟨v, hfollows, hstands⟩ := ht.follows k
  rw [turnsOf, List.filter_append]
  rcases turn_of_step hl hs (hstands hrun) with ⟨hnone, hst⟩ |
    ⟨cd, x, rfl, hone, hadm, hanswer, hst⟩
  · refine ⟨v, ?_, fun _ => hst⟩
    rw [turnsOf] at hnone
    rwa [hnone, List.append_nil]
  · refine ⟨_, ?_, hst⟩
    rw [turnsOf] at hone
    rw [hone]
    exact hfollows.snoc hadm hanswer

/-- **The turns of a connection are those of a single client.** -/
theorem follows_of_run (active sockfd epollfd : ℕ) (base : List ℕ) (vars : Vars)
    (h : run (step sc) (State.initial active sockfd epollfd base vars) ls = some t) (k : ℕ) :
    ∃ v, Follows sc (some (newClient 0)) (turnsOf k
        (trace (step sc) (turn sc) (State.initial active sockfd epollfd base vars) ls)) v ∧
      (t.status = .running → Stands k t v) := by
  have htold := run_invariant_trace (R := Told sc active) (fun _ _ _ _ ht hs => told_of_step ht hs)
    (h := []) ⟨fun _ => ⟨[], .initial sockfd epollfd base vars⟩,
      fun k => ⟨_, .nil _, fun _ => .waiting (Nat.zero_le k)⟩⟩ h
  rw [List.nil_append] at htold
  exact htold.follows k

/-! ## Every answer was asked for -/

/-- What a client is given in the state `cd`, in which `b` was received: it reads headers, or it has
read those of a request. -/
def Progress (b : Bytes) (cd : ClientData) : Prop :=
  ReadingHeaders b cd ∨
    (cd.state = .readingBody ∧ ∃ p w rest, b = w ++ rest ∧ RequestText p w ∧
      cd.httpRq = HttpRequest.zeroed.filled p)

/-- **The request is one that was received**, from its first byte on; the body is another matter. -/
def Asked (b : Bytes) (request : HttpRequest) : Prop :=
  ∃ p w rest body, b = w ++ rest ∧ RequestText p w ∧
    request = { HttpRequest.zeroed.filled p with body }

/-- A parse that ends in the middle of what was received. -/
theorem text_of_parse {lastLen : ℕ} {b rest : Bytes} {p : Parsed}
    (h : phrParseRequest maxHeaders maxHeaders lastLen b = .done p rest) :
    ∃ w, b = w ++ rest ∧ RequestText p w :=
  (parseRequest_eq_done_iff.mp (parseRequest_of_phrParseRequest h)).2

/-- One more piece of the headers. -/
theorem progress_of_headers {b c : Bytes} {cd : ClientData} (h : ReadingHeaders b cd)
    (hfit : b.length + c.length ≤ maxBuffr) :
    (∀ cd', clientIo cd (.data c) = .keep cd' → Progress (b ++ c) cd') ∧
      ∀ request, clientIo cd (.data c) = .dispatch request → Asked (b ++ c) request := by
  rw [clientIo_readingHeaders h hfit]
  cases hparse : phrParseRequest maxHeaders maxHeaders b.length (b ++ c) with
  | incomplete =>
    split_ifs
    · exact ⟨by simp, by simp⟩
    · exact ⟨fun cd' heq => ClientOutcome.keep.inj heq ▸ .inl (readingHeaders_advance h), by simp⟩
  | fail e => cases e <;> exact ⟨by simp, by simp⟩
  | done p rest =>
    obtain ⟨w, hw, htext⟩ := text_of_parse hparse
    have hfilled := filled_eq_zeroed_filled h p
    simp only
    split_ifs
    · exact ⟨by simp, by simp⟩
    · exact ⟨by simp, fun request heq =>
        ClientOutcome.dispatch.inj heq ▸ ⟨p, w, rest, _, hw, htext, hfilled⟩⟩
    · exact ⟨fun cd' heq => ClientOutcome.keep.inj heq ▸ .inr ⟨rfl, p, w, rest, hw, htext, hfilled⟩,
        by simp⟩

/-- One more piece of the body. -/
theorem progress_of_body {b c : Bytes} {cd : ClientData} (hst : cd.state = .readingBody)
    (hb : ∃ p w rest, b = w ++ rest ∧ RequestText p w ∧ cd.httpRq = HttpRequest.zeroed.filled p)
    (hfit : ¬ maxBuffr < cd.rqSize + c.length) :
    (∀ cd', clientIo cd (.data c) = .keep cd' → Progress (b ++ c) cd') ∧
      ∀ request, clientIo cd (.data c) = .dispatch request → Asked (b ++ c) request := by
  obtain ⟨p, w, rest, rfl, htext, hrq⟩ := hb
  simp only [clientIo, if_neg hfit, hst, readBody]
  split_ifs
  · refine ⟨by simp, fun request heq => ?_⟩
    rw [← ClientOutcome.dispatch.inj heq, httpAddBody, hrq]
    exact ⟨p, w, rest ++ c, _, by simp, htext, rfl⟩
  · refine ⟨fun cd' heq => ?_, by simp⟩
    rw [← ClientOutcome.keep.inj heq]
    exact .inr ⟨rfl, p, w, rest ++ c, by simp, htext, hrq⟩

/-- **One event.**  What is kept has progressed, and what is dispatched was asked for. -/
theorem progress_of_event {b : Bytes} {cd : ClientData} (h : Progress b cd) (r : RecvResult) :
    (∀ cd', clientIo cd r = .keep cd' → Progress (b ++ r.bytes) cd') ∧
      ∀ request, clientIo cd r = .dispatch request → Asked (b ++ r.bytes) request := by
  cases r with
  | closed | error => exact ⟨by simp [clientIo], by simp [clientIo]⟩
  | wouldBlock =>
    refine ⟨fun cd' heq => ?_, by simp [clientIo]⟩
    obtain rfl : cd = cd' := ClientOutcome.keep.inj heq
    simpa [RecvResult.bytes] using h
  | data c =>
    by_cases hfit : maxBuffr < cd.rqSize + c.length
    · exact ⟨by simp [clientIo, hfit], by simp [clientIo, hfit]⟩
    · rcases h with h | ⟨hst, h⟩
      · exact progress_of_headers h (by rw [← h.rqSize_eq]; omega)
      · exact progress_of_body hst h hfit

theorem bytesIn_cons (x : Turn) (xs : List Turn) :
    bytesIn (x :: xs) = x.result.bytes ++ bytesIn xs :=
  rfl

/-- A single client: an answer is its last turn, and was asked for. -/
theorem Follows.asked {b : Bytes} {cd : ClientData} {xs : List Turn}
    (h : Follows sc (some cd) xs v) (hb : Progress b cd) {before after : List Turn} {x : Turn}
    (hxs : xs = before ++ x :: after) {a : Answer} (hx : x.answer = some a) :
    after = [] ∧ Asked (b ++ bytesIn (before ++ [x])) a.request := by
  induction before generalizing b cd xs with
  | nil =>
    obtain rfl := hxs
    obtain - | ⟨-, hanswer, h⟩ := h
    have hio := (answerOf_eq_some (hanswer.symm.trans hx)).1
    have hafter : (change cd x.result).after = none := by simp [change, hio, Change.ofOutcome]
    rw [hafter] at h
    refine ⟨h.eq_nil.1, ?_⟩
    simpa [bytesIn] using (progress_of_event hb x.result).2 a.request hio
  | cons y before ih =>
    obtain rfl := hxs
    obtain - | ⟨-, -, h⟩ := h
    cases hio : clientIo cd y.result with
    | keep cd' =>
      have hafter : (change cd y.result).after = some cd' := by
        simp [change, hio, Change.ofOutcome]
      rw [hafter] at h
      have hrest := ih h ((progress_of_event hb y.result).1 cd' hio) rfl
      rwa [List.append_assoc] at hrest
    | close | dispatch | corrupt =>
      have hafter : (change cd y.result).after = none := by simp [change, hio, Change.ofOutcome]
      rw [hafter] at h
      exact absurd h.eq_nil.1 (by simp)

theorem Turn.conn_of_mem {x : Turn} {xs : List Turn} (h : x ∈ turnsOf k xs) : x.conn = k := by
  simpa using (List.mem_filter.mp h).2

/-- **Every answer was asked for.**  Whatever happens in the loop, when a request of a connection is
handed on, it is one that this connection has sent, from its first byte on; the answer goes to this
connection, and nothing happens on it afterwards. -/
theorem answer_of_run (active sockfd epollfd : ℕ) (base : List ℕ) (vars : Vars)
    (h : run (step sc) (State.initial active sockfd epollfd base vars) ls = some t)
    {before after : List Turn} {x : Turn} {a : Answer}
    (hturns : turnsOf k
      (trace (step sc) (turn sc) (State.initial active sockfd epollfd base vars) ls) =
        before ++ x :: after) (hx : x.answer = some a) :
    after = [] ∧ a.on = some (.socket k) ∧ Asked (bytesIn (before ++ [x])) a.request := by
  obtain ⟨v, hfollows, -⟩ := follows_of_run active sockfd epollfd base vars h k
  have hmem : x ∈ turnsOf k
      (trace (step sc) (turn sc) (State.initial active sockfd epollfd base vars) ls) := by
    rw [hturns]
    simp
  obtain ⟨hlast, hasked⟩ := hfollows.asked (.inl (readingHeaders_newClient 0)) hturns hx
  refine ⟨hlast, ?_, by simpa using hasked⟩
  rw [(hfollows.own hmem hx).1, Turn.conn_of_mem hmem]

/-- The turns of the second client of `crowdedLabels`, whose request comes in two pieces. -/
def crowdedTurns : List Turn :=
  turnsOf 1 (trace (step sampleConf) (turn sampleConf) started crowdedLabels)

theorem crowded_requests :
    crowdedTurns.map Turn.request =
        [none, some (HttpRequest.zeroed.filled ⟨ascii "GET", ascii "/a.txt", 1, []⟩)] ∧
      crowdedTurns.map Turn.result =
        [.data (ascii "GET /a"), .data (ascii ".txt HTTP/1.1\r\n\r\n")] := by
  decide +kernel

theorem answer_of_run_crowded :
    Asked (ascii "GET /a.txt HTTP/1.1\r\n\r\n")
      (HttpRequest.zeroed.filled ⟨ascii "GET", ascii "/a.txt", 1, []⟩) := by
  have hrun : (run (step sampleConf) started crowdedLabels).isSome = true := by decide +kernel
  obtain ⟨t, h⟩ := Option.isSome_iff_exists.mp hrun
  obtain ⟨hrequests, hresults⟩ := crowded_requests
  obtain ⟨y, xs, hxs, -, hrest⟩ := List.map_eq_cons_iff.mp hrequests
  obtain ⟨x, xs, rfl, hx, hnil⟩ := List.map_eq_cons_iff.mp hrest
  obtain rfl := List.map_eq_nil_iff.mp hnil
  obtain ⟨a, ha, hrequest⟩ := Option.map_eq_some_iff.mp hx
  have hbytes : bytesIn ([y] ++ [x]) = ascii "GET /a.txt HTTP/1.1\r\n\r\n" := by
    simp only [hxs, List.map_cons, List.map_nil, List.cons.injEq, and_true] at hresults
    simp only [bytesIn, List.singleton_append, List.flatMap_cons, List.flatMap_nil, hresults]
    decide
  have hturns : turnsOf 1 (trace (step sampleConf) (turn sampleConf) started crowdedLabels) =
      [y] ++ x :: [] := hxs
  rw [← hbytes, ← hrequest]
  exact (answer_of_run 0 5 6 [0, 1, 2, 3, 4] ⟨0, 0, 0, 0, .incomplete⟩ h hturns ha).2.2

/-! ## Every request without a body is answered -/

/-- No end of file and no error. -/
def Open (xs : List Turn) : Prop := ∀ x ∈ xs, x.result = .wouldBlock ∨ ∃ c, x.result = .data c

/-- One more piece of a request without a body, of which `b` was there. -/
theorem clientIo_of_request {b c w z : Bytes} {p : Parsed} {cd : ClientData}
    (hb : ReadingHeaders b cd) (htext : RequestText p w) (hmax : p.headers.length ≤ maxHeaders)
    (hbody : httpGetContentLength (HttpRequest.zeroed.filled p) = 0) (hlt : b.length < w.length)
    (hfit : b.length + c.length < maxBuffr) (hpre : b ++ c <+: w ++ z) :
    clientIo cd (.data c) =
      if w.length ≤ b.length + c.length then .dispatch (HttpRequest.zeroed.filled p)
      else .keep (cd.advance c cd.httpRq.cleared) := by
  rw [clientIo_readingHeaders hb (Nat.le_of_lt hfit)]
  by_cases hdone : w.length ≤ b.length + c.length
  · obtain ⟨rest, hrest⟩ : w <+: b ++ c :=
      List.prefix_of_prefix_length_le (List.prefix_append w z) hpre (by simpa using hdone)
    have hwhole : phrParseRequest maxHeaders maxHeaders b.length (b ++ c) = .done p rest := by
      refine phrParseRequest_whole
        (parseRequest_eq_done_iff.mpr ⟨⟨hmax, hmax⟩, w, hrest.symm, htext⟩) ?_
      rw [← hrest, List.length_append]
      omega
    simp only [hwhole, filled_eq_zeroed_filled hb, hbody, if_true,
      tooLong_zero (Nat.le_sub_one_of_lt hfit), Bool.false_eq_true, if_false, if_pos hdone]
  · obtain ⟨rest, hrest⟩ : b ++ c <+: w :=
      List.prefix_of_prefix_length_le hpre (List.prefix_append w z)
        (by simpa using Nat.le_of_not_le hdone)
    have hcut : phrParseRequest maxHeaders maxHeaders b.length (b ++ c) = .incomplete := by
      refine phrParseRequest_cut (x := rest) (r := p) ?_ ?_
      · rw [hrest]
        exact parseRequest_eq_done_iff.mpr ⟨⟨hmax, hmax⟩, w, by simp, htext⟩
      · rintro rfl
        rw [List.append_nil] at hrest
        exact hdone (by rw [← hrest, List.length_append])
    simp only [hcut, if_neg (Nat.not_le.mpr hfit), if_neg hdone]

/-- A single client that sends a request without a body, and what is behind it. -/
theorem Follows.answered {b w z : Bytes} {p : Parsed} {cd : ClientData} {xs : List Turn}
    (h : Follows sc (some cd) xs v) (hb : ReadingHeaders b cd)
    (htext : RequestText p w) (hmax : p.headers.length ≤ maxHeaders)
    (hbody : httpGetContentLength (HttpRequest.zeroed.filled p) = 0) (hlt : b.length < w.length)
    (hopen : Open xs) (hfit : (b ++ bytesIn xs).length < maxBuffr)
    (hpre : b ++ bytesIn xs <+: w ++ z) :
    (w.length ≤ (b ++ bytesIn xs).length →
        ∃ before x, xs = before ++ [x] ∧ x.request = some (HttpRequest.zeroed.filled p)) ∧
      ((b ++ bytesIn xs).length < w.length →
        (∀ x ∈ xs, x.request = none) ∧ ∃ cd', v = some cd') := by
  induction xs generalizing b cd with
  | nil =>
    cases h
    simp [bytesIn, hlt]
  | cons y xs ih =>
    obtain - | ⟨hadm, hanswer, h⟩ := h
    rw [bytesIn_cons, ← List.append_assoc] at hfit hpre ⊢
    have hopen' : Open xs := fun x hx => hopen x (List.mem_cons_of_mem y hx)
    -- an event that keeps the client
    have hkeep : ∀ cd', clientIo cd y.result = .keep cd' →
        ReadingHeaders (b ++ y.result.bytes) cd' → (b ++ y.result.bytes).length < w.length →
        (w.length ≤ (b ++ y.result.bytes ++ bytesIn xs).length →
          ∃ before x, y :: xs = before ++ [x] ∧
            x.request = some (HttpRequest.zeroed.filled p)) ∧
          ((b ++ y.result.bytes ++ bytesIn xs).length < w.length →
            (∀ x ∈ y :: xs, x.request = none) ∧ ∃ cd', v = some cd') := by
      intro cd' hio hb' hlt'
      have hafter : (change cd y.result).after = some cd' := by
        simp [change, hio, Change.ofOutcome]
      rw [hafter] at h
      obtain ⟨hdone, hwait⟩ := ih h hb' hlt' hopen' hfit hpre
      refine ⟨fun hle => ?_, fun hlt => ?_⟩
      · obtain ⟨before, x, rfl, hx⟩ := hdone hle
        exact ⟨y :: before, x, rfl, hx⟩
      · obtain ⟨hnone, hlive⟩ := hwait hlt
        have hsilent : y.request = none := by rw [Turn.request, hanswer, hio]; rfl
        exact ⟨List.forall_mem_cons.mpr ⟨hsilent, hnone⟩, hlive⟩
    rcases hopen y List.mem_cons_self with hy | ⟨c, hy⟩
    · have hbytes : b ++ y.result.bytes = b := by
        rw [hy]
        exact List.append_nil b
      exact hkeep cd (by rw [hy]; rfl) (by rwa [hbytes]) (by rwa [hbytes])
    · have hsplit : (b ++ c).length ≤ (b ++ y.result.bytes ++ bytesIn xs).length := by
        simp [hy, RecvResult.bytes]
      have hio := clientIo_of_request hb htext hmax hbody hlt (c := c) (z := z)
        (by rw [← List.length_append]; omega)
        ((List.prefix_append _ _).trans (by simpa [hy, RecvResult.bytes] using hpre))
      rw [← List.length_append] at hio
      by_cases hdone : w.length ≤ (b ++ c).length
      · rw [if_pos hdone, ← hy] at hio
        have hafter : (change cd y.result).after = none := by simp [change, hio, Change.ofOutcome]
        rw [hafter] at h
        obtain ⟨rfl, -⟩ := h.eq_nil
        exact ⟨fun _ => ⟨[], y, rfl, by rw [Turn.request, hanswer, hio]; rfl⟩, fun hlt => by omega⟩
      · rw [if_neg hdone, ← hy] at hio
        refine hkeep _ hio ?_ ?_ <;> simp only [hy, RecvResult.bytes]
        · exact readingHeaders_advance hb
        · exact Nat.lt_of_not_le hdone

/-- **Every request without a body is answered**, as soon as it is complete and not earlier,
whatever the pieces it comes in, whatever is sent behind it, and whatever the other clients do. -/
theorem request_of_run (active sockfd epollfd : ℕ) (base : List ℕ) (vars : Vars)
    (h : run (step sc) (State.initial active sockfd epollfd base vars) ls = some t)
    {xs : List Turn} (hxs : turnsOf k
      (trace (step sc) (turn sc) (State.initial active sockfd epollfd base vars) ls) = xs)
    (hopen : Open xs) {p : Parsed} {w z : Bytes} (htext : RequestText p w)
    (hmax : p.headers.length ≤ maxHeaders)
    (hbody : httpGetContentLength (HttpRequest.zeroed.filled p) = 0)
    (hfit : (bytesIn xs).length < maxBuffr) (hpre : bytesIn xs <+: w ++ z) :
    (w.length ≤ (bytesIn xs).length →
        ∃ before x, xs = before ++ [x] ∧ x.request = some (HttpRequest.zeroed.filled p)) ∧
      ((bytesIn xs).length < w.length →
        (∀ x ∈ xs, x.request = none) ∧ (t.status = .running → k < t.accepted →
          ∃ a c, t.clients.data a = some c ∧ c.conn = k)) := by
  obtain ⟨v, hfollows, hstands⟩ := follows_of_run active sockfd epollfd base vars h k
  rw [hxs] at hfollows
  have hpos : 0 < w.length := by
    obtain ⟨lead, version, e, text, j, k, -, -, -, -, rfl⟩ := htext.parts
    simp
  obtain ⟨hdone, hwait⟩ := hfollows.answered (readingHeaders_newClient 0) htext hmax hbody hpos
    hopen (z := z) (by simpa using hfit) (by simpa using hpre)
  refine ⟨by simpa using hdone, fun hlt => ?_⟩
  obtain ⟨hnone, cd, rfl⟩ := hwait (by simpa using hlt)
  refine ⟨hnone, fun ht hk => ?_⟩
  generalize hcd : some cd = v at hstands
  obtain hle | ⟨a, c, hc, hck⟩ | - := hstands ht
  · exact absurd hk (Nat.not_lt.mpr hle)
  · exact ⟨a, c, hc, hck⟩
  · exact absurd hcd (by simp)

theorem request_of_run_crowded :
    ∃ before x, crowdedTurns = before ++ [x] ∧
      x.request = some (HttpRequest.zeroed.filled ⟨ascii "GET", ascii "/a.txt", 1, []⟩) := by
  have hrun : (run (step sampleConf) started crowdedLabels).isSome = true := by decide +kernel
  obtain ⟨t, h⟩ := Option.isSome_iff_exists.mp hrun
  have hresults := crowded_requests.2
  have hxs : turnsOf 1 (trace (step sampleConf) (turn sampleConf) started crowdedLabels) =
      crowdedTurns := rfl
  have hopen : Open crowdedTurns := by
    intro x hx
    have hmem := List.mem_map_of_mem (f := Turn.result) hx
    rw [hresults] at hmem
    rcases List.mem_cons.mp hmem with heq | hmem
    · exact .inr ⟨_, heq⟩
    · exact .inr ⟨_, List.mem_singleton.mp hmem⟩
  have hbytes : bytesIn crowdedTurns = ascii "GET /a.txt HTTP/1.1\r\n\r\n" := by
    rw [bytesIn, ← List.flatMap_map, hresults]
    decide
  have hdone : parseRequest maxHeaders maxHeaders (ascii "GET /a.txt HTTP/1.1\r\n\r\n") =
      .done ⟨ascii "GET", ascii "/a.txt", 1, []⟩ [] := by decide +kernel
  obtain ⟨-, w, hw, htext⟩ := parseRequest_eq_done_iff.mp hdone
  rw [List.append_nil] at hw
  exact (request_of_run (z := []) 0 5 6 [0, 1, 2, 3, 4] ⟨0, 0, 0, 0, .incomplete⟩ h hxs hopen htext
    (by decide) (by decide) (by rw [hbytes]; decide)
    (by rw [hbytes, hw]; exact List.prefix_append w [])).1 (by rw [hbytes, hw])

/-! ## One response -/

/-- All calls of `send` take what they are given, and all dates can be printed. -/
structure Plain (env : Env) : Prop where
  send : ∀ n, env.send n = .all
  date : ∀ n date, env.strftime n = some date → Clean date

/-- A response that `phr_parse_response` reads back, with a status line the server writes. -/
def IsResponse (bytes : Bytes) : Prop :=
  ∃ header p body, bytes = header ++ body ∧
    (∀ lastLen < header.length,
      phrParseResponse maxHeaders maxHeaders lastLen bytes = .done p body) ∧
    ∃ status : HttpStatus, p.minorVersion = 0 ∧ p.status = status.code ∧ p.msg = statusText status

/-- The answer to a request. -/
theorem response_of_request (hsig : Clean sc.serverSignature) {env : Env} (henv : Plain env)
    (request : HttpRequest) :
    (httpProcessRequest sc request ⟨env, []⟩).2.sent = [] ∨
      IsResponse (httpProcessRequest sc request ⟨env, []⟩).2.sent := by
  obtain ⟨-, hsent⟩ := httpProcessRequest_spec sc request ⟨env, []⟩
  rw [hsent]
  rcases sound_plan henv.send hsig henv.date request with ⟨ret, hsilent⟩ |
    ⟨res, body, ⟨hok, hmax⟩, hdel, -⟩
  · exact .inl (by simp [hsilent, Plan.delivered, World.sent])
  · refine .inr ⟨fullText res, res.parsed, body, ?_, ?_, res.status, rfl, rfl, rfl⟩
    · rw [hdel]
      rfl
    · rw [hdel]
      exact fun lastLen hlast => phrParseResponse_fullText hok hmax body hlast

/-- What goes to a connection goes there in its own turns. -/
theorem flatMap_sentTo {xs : List Turn}
    (hown : ∀ x ∈ xs, ∀ a, x.answer = some a → a.on = some (.socket x.conn)) :
    xs.flatMap (Turn.sentTo k) = (turnsOf k xs).flatMap (Turn.sentTo k) := by
  induction xs with
  | nil => rfl
  | cons x xs ih =>
    obtain ⟨hx, hxs⟩ := List.forall_mem_cons.mp hown
    by_cases hk : x.conn = k
    · simp only [turnsOf, List.filter_cons, hk, decide_true, if_true, List.flatMap_cons]
      rw [ih hxs, turnsOf]
    · have hnone : x.sentTo k = [] := by
        unfold Turn.sentTo
        split
        · next a ha => rw [hx a ha, if_neg (by simp [hk])]
        · rfl
      simp only [turnsOf, List.filter_cons, hk, decide_false, Bool.false_eq_true, if_false,
        List.flatMap_cons, hnone, List.nil_append]
      rw [ih hxs, turnsOf]

/-- What a turn sends is the answer to its request. -/
theorem Turn.sentTo_eq {x : Turn} {a : Answer} (hx : x.answer = some a)
    (hon : a.on = some (.socket k)) (hcalls : a.calls = answerCalls sc a.request x.env) :
    x.sentTo k = (httpProcessRequest sc a.request ⟨x.env, []⟩).2.sent := by
  simp only [sentTo, hx, if_pos hon, hcalls]
  rfl

/-- **One response.**  If the sockets take what they are given, what is sent to a connection in the
whole run is nothing, or one response to a request that came in on it. -/
theorem response_of_run (active sockfd epollfd : ℕ) (base : List ℕ) (vars : Vars)
    (h : run (step sc) (State.initial active sockfd epollfd base vars) ls = some t)
    {xs : List Turn}
    (hxs : trace (step sc) (turn sc) (State.initial active sockfd epollfd base vars) ls = xs)
    (hsig : Clean sc.serverSignature) (henv : ∀ x ∈ turnsOf k xs, Plain x.env) :
    xs.flatMap (Turn.sentTo k) = [] ∨
      IsResponse (xs.flatMap (Turn.sentTo k)) ∧
        ∃ request, Asked (bytesIn (turnsOf k xs)) request := by
  have hfollows := follows_of_run active sockfd epollfd base vars h
  rw [hxs] at hfollows
  have hown : ∀ x ∈ xs, ∀ a, x.answer = some a → a.on = some (.socket x.conn) := by
    intro x hx a ha
    obtain ⟨v, hv, -⟩ := hfollows x.conn
    exact (hv.own (List.mem_filter.mpr ⟨hx, by simp⟩) ha).1
  rw [flatMap_sentTo hown]
  obtain ⟨v, hv, -⟩ := hfollows k
  have hconn : ∀ x ∈ turnsOf k xs, x.conn = k := fun x => Turn.conn_of_mem
  generalize turnsOf k xs = ys at hv henv hconn ⊢
  by_cases hnone : ∀ x ∈ ys, x.answer = none
  · refine .inl (List.flatMap_eq_nil_iff.mpr fun x hx => ?_)
    simp only [Turn.sentTo, hnone x hx]
  push Not at hnone
  obtain ⟨x, hx, hanswer⟩ := hnone
  obtain ⟨a, ha⟩ := Option.ne_none_iff_exists'.mp hanswer
  obtain ⟨before, after, rfl⟩ := List.append_of_mem hx
  obtain ⟨rfl, hasked⟩ := hv.asked (.inl (readingHeaders_newClient 0)) rfl ha
  -- nothing was answered before, since that would have been the last turn
  have hbefore : before.flatMap (Turn.sentTo k) = [] := by
    refine List.flatMap_eq_nil_iff.mpr fun y hy => ?_
    cases hy' : y.answer with
    | none => simp only [Turn.sentTo, hy']
    | some b =>
      obtain ⟨first, rest, rfl⟩ := List.append_of_mem hy
      obtain ⟨hnil, -⟩ := hv.asked (.inl (readingHeaders_newClient 0))
        (List.append_assoc first (y :: rest) [x]) hy'
      exact absurd hnil (by simp)
  obtain ⟨hon, hcalls⟩ := hv.own hx ha
  rw [hconn x hx] at hon
  rw [List.flatMap_append, hbefore, List.flatMap_singleton, List.nil_append,
    Turn.sentTo_eq ha hon hcalls]
  rcases response_of_request hsig (henv x hx) a.request with hnil | hresponse
  · exact .inl hnil
  · exact .inr ⟨hresponse, a.request, by simpa using hasked⟩

/-- What the calls of a turn return is what its label says. -/
theorem exists_label_of_turn {x : Turn} (hx : x ∈ trace (step sc) (turn sc) s ls) :
    ∃ r kept, Label.io r x.env kept ∈ ls := by
  induction ls generalizing s with
  | nil => exact absurd hx (by simp [trace])
  | cons l ls ih =>
    rw [trace, List.mem_append] at hx
    rcases hx with hx | hx
    · cases l with
      | io r env kept =>
        simp only [turn, Option.mem_toList] at hx
        obtain ⟨s', -, hturn⟩ := Option.bind_eq_some_iff.mp hx
        split at hturn
        · obtain rfl := Option.some.inj hturn
          exact ⟨r, kept, List.mem_cons_self⟩
        · exact absurd hturn (by simp)
      | wait | waitFails | accept | acceptFails | release => exact absurd hx (by simp [turn])
    · split at hx
      · obtain ⟨r, kept, hmem⟩ := ih hx
        exact ⟨r, kept, List.mem_cons_of_mem l hmem⟩
      · exact absurd hx (by simp)

theorem response_of_run_crowded :
    IsResponse ((trace (step sampleConf) (turn sampleConf) started crowdedLabels).flatMap
      (Turn.sentTo 1)) := by
  have hrun : (run (step sampleConf) started crowdedLabels).isSome = true := by decide +kernel
  obtain ⟨t, h⟩ := Option.isSome_iff_exists.mp hrun
  have hplain : Plain plainEnv := by
    refine ⟨fun _ => rfl, fun n date h => ?_⟩
    obtain rfl : ascii "Thu, 01 Jan 1970 00:00:00 GMT" = date := Option.some.inj h
    decide
  have henv : ∀ x ∈ crowdedTurns, Plain x.env := by
    intro x hx
    obtain ⟨r, kept, hmem⟩ := exists_label_of_turn (List.mem_of_mem_filter hx)
    have henv : x.env = plainEnv := by
      simp only [crowdedLabels, List.mem_cons, List.not_mem_nil, or_false, reduceCtorEq, false_or,
        Label.io.injEq] at hmem
      rcases hmem with ⟨-, h, -⟩ | ⟨-, h, -⟩ | ⟨-, h, -⟩ | ⟨-, h, -⟩ <;> exact h
    exact henv ▸ hplain
  have hne : (trace (step sampleConf) (turn sampleConf) started crowdedLabels).flatMap
      (Turn.sentTo 1) ≠ [] := by decide +kernel
  exact ((response_of_run 0 5 6 [0, 1, 2, 3, 4] ⟨0, 0, 0, 0, .incomplete⟩ h rfl (by decide)
    henv).resolve_left hne).1

end Loop
end Epoll
end BareHttp
