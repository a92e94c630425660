import Mathlib.Data.Multiset.Filter
import BareHttp.Epoll.Loop

/-!
# Answering a client and tearing it down

What the calls of `http_process_request` and the branches behind them do to the state of
the loop.  The calls are followed with the ledger of `Http.OpenFiles`: at every point the
table is the one before the request with what is in the ledger added, and without the
client's descriptor once `EPIPE` was reported (`Served`).  No other client's socket is
closed or loses its registration.

The seven branches leave the same but for one thing (`acts_spec`).  A registration that the
client's socket has because another process keeps a copy of it goes only where
`EPOLL_CTL_DEL` comes before the descriptor is closed.
-/

namespace BareHttp
namespace Epoll
namespace Loop

open PointerList

namespace State

/-- `close` changes the table and the sockets. -/
theorem closeFd_eq (s : State) (fd : ℕ) :
    s.closeFd fd =
      { s with
        table := Function.update s.table fd none
        sockets := (s.closeFd fd).sockets } := by
  unfold closeFd
  split
  · rfl
  · rfl
  · next hnone => rw [← hnone, Function.update_eq_self]

/-- `EPOLL_CTL_DEL` changes the sockets. -/
theorem epollDel_eq (s : State) (fd : ℕ) :
    s.epollDel fd = { s with sockets := (s.epollDel fd).sockets } := by
  unfold epollDel
  split
  · split <;> rfl
  · rfl

/-- What `close` does to the sockets depends on the table and the sockets alone. -/
theorem closeFd_sockets_congr {s t : State} (htable : t.table = s.table)
    (hsockets : t.sockets = s.sockets) (fd : ℕ) :
    (t.closeFd fd).sockets = (s.closeFd fd).sockets := by
  unfold closeFd
  rw [htable, hsockets]
  split <;> first | rfl | exact hsockets

theorem epollDel_sockets_congr {s t : State} (htable : t.table = s.table)
    (hsockets : t.sockets = s.sockets) (fd : ℕ) :
    (t.epollDel fd).sockets = (s.epollDel fd).sockets := by
  unfold epollDel
  rw [htable, hsockets]
  split
  · split <;> first | rfl | exact hsockets
  · exact hsockets

theorem closeFd_sockets {s : State} {fd k : ℕ} (h : s.table fd = some (.socket k)) :
    (s.closeFd fd).sockets =
      Function.update s.sockets k { s.sockets k with here := false }.settle := by
  simp [closeFd, h]

theorem closeFd_sockets_of_ne {s : State} {fd : ℕ} (h : ∀ k, s.table fd ≠ some (.socket k)) :
    (s.closeFd fd).sockets = s.sockets := by
  unfold closeFd
  split
  · next k hk => exact absurd hk (h k)
  · rfl
  · rfl

theorem epollDel_sockets_of_ne {s : State} {fd : ℕ} (h : ∀ k, s.table fd ≠ some (.socket k)) :
    (s.epollDel fd).sockets = s.sockets := by
  unfold epollDel
  split
  · next k hk => exact absurd hk (h k)
  · rfl

end State

@[simp] theorem Socket.settle_here (s : Socket) : s.settle.here = s.here := by
  unfold settle
  split <;> rfl

@[simp] theorem Socket.settle_elsewhere (s : Socket) : s.settle.elsewhere = s.elsewhere := by
  unfold settle
  split <;> rfl

theorem Socket.settle_registration (s : Socket) :
    s.settle.registration =
      if s.here || s.elsewhere then s.registration else none := by
  unfold settle
  split <;> rfl

/-! ## The calls of `http_process_request` -/

/-- Where a request stands that was begun in `s₀`: `fd` and `k` are the descriptor and the
connection of its client. -/
structure Served (fd k : ℕ) (kept : List ℕ) (s₀ : State) (l : Ledger) (s : State) : Prop where
  same : s = { s₀ with table := s.table, sockets := s.sockets, deeds := s.deeds }
  nodup : l.own.Nodup
  fresh : ∀ f ∈ l.own, s₀.table f = none
  table : ∀ f, s.table f =
    if f ∈ l.own then some .file else if l.gone = true ∧ f = fd then none else s₀.table f
  others : ∀ k', k' ≠ k → (s.sockets k').here = (s₀.sockets k').here ∧
    (s.sockets k').registration = (s₀.sockets k').registration
  stays : l.gone = false → (s.sockets k).here = true ∧
    (s.sockets k).registration = (s₀.sockets k).registration
  leaves : l.gone = true → (s.sockets k).here = false ∧
    ((s.sockets k).registration = none ∨ (s.sockets k).elsewhere = true)
  elsewhere : ∀ k', (s.sockets k').elsewhere = true →
    (s₀.sockets k').elsewhere = true ∨ k' ∈ kept

namespace Served

variable {fd k : ℕ} {kept : List ℕ} {s₀ s s' : State} {l l' : Ledger}

theorem refl (hhere : (s₀.sockets k).here = true) : Served fd k kept s₀ ⟨false, 0⟩ s₀ where
  same := rfl
  nodup := Multiset.nodup_zero
  fresh := by simp
  table := by simp
  others _ _ := ⟨rfl, rfl⟩
  stays _ := ⟨hhere, rfl⟩
  leaves := by simp
  elsewhere _ := .inl

/-- A number that is free now and was not given to the request was free before. -/
theorem free (h : Served fd k kept s₀ l s) (hgone : l.gone = false) {f : ℕ}
    (hf : s.table f = none) : f ∉ l.own ∧ s₀.table f = none := by
  have htable := h.table f
  rw [hf] at htable
  by_cases hmem : f ∈ l.own
  · rw [if_pos hmem] at htable
    exact absurd htable (by simp)
  · rw [if_neg hmem, if_neg (by simp [hgone])] at htable
    exact ⟨hmem, htable.symm⟩

/-- The request opens something. -/
theorem opens (h : Served fd k kept s₀ l s) (hgone : l.gone = false) {f : ℕ}
    (hf : s.table f = none) :
    Served fd k kept s₀ { l with own := f ::ₘ l.own }
      { s with table := Function.update s.table f (some .file) } := by
  obtain ⟨hmem, hfree⟩ := h.free hgone hf
  have hsame := h.same
  refine ⟨?_, Multiset.nodup_cons.mpr ⟨hmem, h.nodup⟩, fun g hg => ?_, fun g => ?_, h.others,
    h.stays, h.leaves, h.elsewhere⟩
  · rw [hsame]
  · rcases Multiset.mem_cons.mp hg with rfl | hg
    · exact hfree
    · exact h.fresh g hg
  · by_cases hgf : g = f
    · subst hgf
      simp
    · simp only [Function.update_of_ne hgf, h.table g, Multiset.mem_cons, hgf, false_or]

/-- The request closes something it has opened. -/
theorem closes (h : Served fd k kept s₀ l s) (hgone : l.gone = false) {f : ℕ}
    (hf : f ∈ l.own) :
    Served fd k kept s₀ { l with own := l.own.erase f } (s.closeFd f) := by
  have hfile : s.table f = some .file := by rw [h.table, if_pos hf]
  have hsockets : (s.closeFd f).sockets = s.sockets :=
    State.closeFd_sockets_of_ne (by simp [hfile])
  have hsame := h.same
  rw [State.closeFd_eq, hsockets]
  refine ⟨?_, Multiset.Nodup.erase f h.nodup,
    fun g hg => h.fresh g (Multiset.mem_of_mem_erase hg), fun g => ?_, h.others, h.stays,
    h.leaves, h.elsewhere⟩
  · rw [hsame]
  · by_cases hgf : g = f
    · subst hgf
      have hnot : g ∉ l.own.erase g := Multiset.Nodup.notMem_erase h.nodup
      simp [hnot, hgone, h.fresh g hf]
    · simp only [Function.update_of_ne hgf, h.table g, Multiset.mem_erase_of_ne hgf]

/-- `tcp_send` closes the client's descriptor. -/
theorem shutdown (h : Served fd k kept s₀ l s) (hfd : s₀.table fd = some (.socket k)) :
    Served fd k kept s₀ { l with gone := true } (s.closeFd fd) := by
  have hown : fd ∉ l.own := fun hmem => by
    rw [h.fresh fd hmem] at hfd
    exact absurd hfd (by simp)
  have hsame := h.same
  have htable : ∀ f, Function.update s.table fd none f =
      if f ∈ l.own then some .file else if (true = true) ∧ f = fd then none else s₀.table f := by
    intro f
    by_cases hf : f = fd
    · subst hf
      simp [hown]
    · simp only [Function.update_of_ne hf, h.table f, hf, and_false, if_false]
  cases hgone : l.gone with
  | false =>
    have hsocket : s.table fd = some (.socket k) := by
      rw [h.table, if_neg hown, if_neg (by simp [hgone]), hfd]
    rw [State.closeFd_eq, State.closeFd_sockets hsocket]
    refine ⟨?_, h.nodup, h.fresh, htable, fun k' hk' => ?_, fun hfalse => absurd hfalse (by simp),
      fun _ => ⟨by simp, ?_⟩, fun k' hk' => ?_⟩
    · rw [hsame]
    · simpa [Function.update_of_ne hk'] using h.others k' hk'
    · cases helse : (s.sockets k).elsewhere with
      | false => exact .inl (by simp [Socket.settle_registration, helse])
      | true => exact .inr (by simp [helse])
    · by_cases hkk : k' = k
      · subst hkk
        exact h.elsewhere k' (by simpa using hk')
      · exact h.elsewhere k' (by simpa [Function.update_of_ne hkk] using hk')
  | true =>
    have hnone : s.table fd = none := by
      rw [h.table, if_neg hown, if_pos ⟨hgone, rfl⟩]
    have hsockets : (s.closeFd fd).sockets = s.sockets :=
      State.closeFd_sockets_of_ne (by simp [hnone])
    rw [State.closeFd_eq, hsockets]
    refine ⟨?_, h.nodup, h.fresh, htable, h.others, fun hfalse => absurd hfalse (by simp),
      fun _ => h.leaves hgone, h.elsewhere⟩
    rw [hsame]

/-- What a script leaves running keeps copies. -/
theorem fork (h : Served fd k kept s₀ l s) : Served fd k kept s₀ l (s.fork kept) := by
  have hsockets : ∀ k', ((s.fork kept).sockets k').here = (s.sockets k').here ∧
      ((s.fork kept).sockets k').registration = (s.sockets k').registration ∧
      ((s.sockets k').elsewhere = true → ((s.fork kept).sockets k').elsewhere = true) ∧
      (((s.fork kept).sockets k').elsewhere = true →
        (s.sockets k').elsewhere = true ∨ k' ∈ kept) := by
    intro k'
    simp only [State.fork]
    split
    · next hk => exact ⟨rfl, rfl, fun _ => rfl, fun _ => .inr hk.1⟩
    · exact ⟨rfl, rfl, id, .inl⟩
  have hsame := h.same
  refine ⟨?_, h.nodup, h.fresh, h.table, fun k' hk' => ?_, fun hgone => ?_, fun hgone => ?_,
    fun k' hk' => ?_⟩
  · rw [State.fork, hsame]
  · rw [(hsockets k').1, (hsockets k').2.1]
    exact h.others k' hk'
  · rw [(hsockets k).1, (hsockets k).2.1]
    exact h.stays hgone
  · rw [(hsockets k).1, (hsockets k).2.1]
    exact ⟨(h.leaves hgone).1, (h.leaves hgone).2.imp_right (hsockets k).2.2.1⟩
  · rcases (hsockets k').2.2.2 hk' with hold | hkept
    · exact h.elsewhere k' hold
    · exact .inr hkept

/-- Something is recorded. -/
theorem log (h : Served fd k kept s₀ l s) (ds : List Deed) :
    Served fd k kept s₀ l { s with deeds := ds } := by
  have hsame := h.same
  refine ⟨?_, h.nodup, h.fresh, h.table, h.others, h.stays, h.leaves, h.elsewhere⟩
  rw [hsame]

/-- **One call.** -/
theorem of_call (h : Served fd k kept s₀ l s) (hfd : s₀.table fd = some (.socket k)) {e : Event}
    (hl : l.enter e = some l') (hs : s.call fd kept e = some s') :
    Served fd k kept s₀ l' s' := by
  cases e with
  | openat2 path f =>
    cases f with
    | none =>
      rw [← Option.some.inj hl, ← Option.some.inj hs]
      exact h
    | some f =>
      obtain ⟨hgone, rfl⟩ : l.gone = false ∧ { l with own := f ::ₘ l.own } = l' := by
        simpa [Ledger.enter] using hl
      obtain ⟨hfree, rfl⟩ : s.table f = none ∧
          { s with table := Function.update s.table f (some .file) } = s' := by
        simpa [State.call] using hs
      exact h.opens hgone hfree
  | pipe ends =>
    obtain ⟨hgone, rfl⟩ : l.gone = false ∧
        { l with own := ends.2 ::ₘ ends.1 ::ₘ l.own } = l' := by
      simpa [Ledger.enter] using hl
    simp only [State.call] at hs
    split at hs
    · next hfree =>
      rw [← Option.some.inj hs]
      have hfirst := h.opens hgone hfree.1
      exact hfirst.opens hgone (by
        simpa [Function.update_of_ne (Ne.symm hfree.2.2)] using hfree.2.1)
    · exact absurd hs (by simp)
  | close f =>
    obtain ⟨⟨hgone, hmem⟩, rfl⟩ : (l.gone = false ∧ f ∈ l.own) ∧
        { l with own := l.own.erase f } = l' := by
      simpa [Ledger.enter] using hl
    rw [← Option.some.inj hs]
    exact h.closes hgone hmem
  | shutdown =>
    rw [← Option.some.inj hl, ← Option.some.inj hs]
    exact h.shutdown hfd
  | fork pid =>
    rw [← Option.some.inj hl, ← Option.some.inj hs]
    exact h.fork
  | send | sendfile | write | read | waitpid =>
    rw [← Option.some.inj hl, ← Option.some.inj hs]
    exact h

theorem of_calls (h : Served fd k kept s₀ l s) (hfd : s₀.table fd = some (.socket k))
    {es : List Event} (hl : l.enters es = some l') (hs : s.calls fd kept es = some s') :
    Served fd k kept s₀ l' s' := by
  induction es generalizing l s with
  | nil =>
    rw [← Option.some.inj hl, ← Option.some.inj hs]
    exact h
  | cons e es ih =>
    obtain ⟨l₁, hl₁, hl'⟩ := Option.bind_eq_some_iff.mp hl
    obtain ⟨s₁, hs₁, hs'⟩ := Option.bind_eq_some_iff.mp hs
    exact ih ((h.log _).of_call hfd hl₁ hs₁) hl' hs'

end Served

theorem State.call_deeds {s s' : State} {fd : ℕ} {kept : List ℕ} {e : Event}
    (h : s.call fd kept e = some s') : s'.deeds = s.deeds := by
  cases e with
  | openat2 path f =>
    cases f with
    | none => rw [← Option.some.inj h]
    | some f =>
      simp only [call] at h
      split at h
      · rw [← Option.some.inj h]
      · exact absurd h (by simp)
  | pipe ends =>
    simp only [call] at h
    split at h
    · rw [← Option.some.inj h]
    · exact absurd h (by simp)
  | close f => rw [← Option.some.inj h, closeFd_eq]
  | shutdown => rw [← Option.some.inj h, closeFd_eq]
  | fork | send | sendfile | write | read | waitpid =>
    obtain rfl := Option.some.inj h
    rfl

/-- The calls are recorded as they are made. -/
theorem State.calls_deeds {s s' : State} {fd : ℕ} {kept : List ℕ} {es : List Event}
    (h : s.calls fd kept es = some s') : s'.deeds = s.deeds ++ es.map .makes := by
  induction es generalizing s with
  | nil =>
    obtain rfl := Option.some.inj h
    exact (List.append_nil _).symm
  | cons e es ih =>
    obtain ⟨s₁, hcall, hrest⟩ := Option.bind_eq_some_iff.mp h
    rw [ih hrest, call_deeds hcall, List.append_assoc]
    rfl

/-- The calls of an answer are in order. -/
theorem enters_answerCalls (sc : ServerConf) (request : HttpRequest) (env : Env) :
    ∃ g, Ledger.enters ⟨false, 0⟩ (answerCalls sc request env) =
      some ⟨g, leftOpen sc request env⟩ := by
  obtain ⟨g, es, hes, hledger⟩ := httpProcessRequest_books 0 sc request ⟨env, []⟩
  rw [List.nil_append] at hes
  refine ⟨g, ?_⟩
  rw [answerCalls, hes, hledger, Multiset.add_zero]

/-- The client's descriptor is gone exactly where `EPIPE` was reported. -/
theorem gone_iff {l l' : Ledger} {es : List Event} (h : l.enters es = some l') :
    l'.gone = true ↔ l.gone = true ∨ .shutdown ∈ es := by
  induction es generalizing l with
  | nil =>
    obtain rfl := Option.some.inj h
    simp
  | cons e es ih =>
    obtain ⟨l₁, hl₁, hrest⟩ := Option.bind_eq_some_iff.mp h
    rw [ih hrest]
    have hstep : l₁.gone = true ↔ l.gone = true ∨ e = .shutdown := by
      cases e with
      | openat2 path f =>
        cases f with
        | none => simp [← Option.some.inj hl₁]
        | some f =>
          obtain ⟨hgone, rfl⟩ : l.gone = false ∧ { l with own := f ::ₘ l.own } = l₁ := by
            simpa [Ledger.enter] using hl₁
          simp
      | pipe ends =>
        obtain ⟨hgone, rfl⟩ : l.gone = false ∧
            { l with own := ends.2 ::ₘ ends.1 ::ₘ l.own } = l₁ := by
          simpa [Ledger.enter] using hl₁
        simp
      | close f =>
        obtain ⟨-, rfl⟩ : (l.gone = false ∧ f ∈ l.own) ∧
            { l with own := l.own.erase f } = l₁ := by
          simpa [Ledger.enter] using hl₁
        simp
      | shutdown => simp [← Option.some.inj hl₁]
      | fork | send | sendfile | write | read | waitpid => simp [← Option.some.inj hl₁]
    rw [hstep, List.mem_cons, or_assoc, @eq_comm _ Event.shutdown e]

/-! ## The branches that tear a client down -/

/-- The orders in which the three calls are made. -/
def orders : List (List Action) :=
  [[.close, .remove, .epollDel], [.close, .epollDel, .remove], [.remove, .close, .epollDel],
    [.remove, .epollDel, .close]]

theorem closeActions_mem_orders (cause : CloseCause) : closeActions cause ∈ orders := by
  cases cause <;> decide

theorem answeredActions_mem_orders (state : ClientState) : answeredActions state ∈ orders := by
  cases state <;> decide

/-- `remove_client`, where it finds its argument. -/
theorem State.removeClient_eq {s : State} {k : ℕ} {m : Memory Client}
    (hremove : s.clients.remove s.vars.cd s.accepted .head = .removed m)
    (hconn : (s.clients.data s.vars.cd).map Client.conn = some k) :
    s.removeClient = { s with clients := m, history := s.history ++ [.freed k] } := by
  obtain ⟨c, hc, rfl⟩ := Option.map_eq_some_iff.mp hconn
  simp [removeClient, hremove, hc]

/-- The `close` of a branch. -/
theorem State.act_close_eq {s : State} {k : ℕ} (hgiven : s.given s.vars.clientfd = some k) :
    s.act .close =
      { s with
        table := Function.update s.table s.vars.clientfd none
        sockets := (s.closeFd s.vars.clientfd).sockets
        history := s.history ++ [.closed k] } := by
  rw [act, closeFd_eq, hgiven]
  rfl

/-- **What a branch leaves**, where `remove_client` finds its argument. -/
theorem acts_spec {s : State} {k : ℕ} {m : Memory Client} {as : List Action} (has : as ∈ orders)
    (hremove : s.clients.remove s.vars.cd s.accepted .head = .removed m)
    (hconn : (s.clients.data s.vars.cd).map Client.conn = some k)
    (hgiven : s.given s.vars.clientfd = some k) :
    ∃ sockets history,
      as.foldl State.act s =
        { s with
          clients := m
          table := Function.update s.table s.vars.clientfd none
          sockets := sockets
          history := s.history ++ history } ∧
      (history = [.closed k, .freed k] ∨ history = [.freed k, .closed k]) ∧
      sockets =
        if as = [.remove, .epollDel, .close] then
          ((s.epollDel s.vars.clientfd).closeFd s.vars.clientfd).sockets
        else (s.closeFd s.vars.clientfd).sockets := by
  -- on a descriptor that has been closed `EPOLL_CTL_DEL` fails
  have hdel : ∀ (t : State) (fd : ℕ), t.table fd = none → t.epollDel fd = t := by
    intro t fd ht
    rw [State.epollDel_eq, State.epollDel_sockets_of_ne (by simp [ht])]
  -- `t` and `u` are the states in which one of the other two calls has been made
  let t : State := { s with clients := m, history := s.history ++ [.freed k] }
  let u : State :=
    { s with
      table := Function.update s.table s.vars.clientfd none
      sockets := (s.closeFd s.vars.clientfd).sockets
      history := s.history ++ [.closed k] }
  have ht : s.act .remove = t := State.removeClient_eq hremove hconn
  have hu : s.act .close = u := State.act_close_eq hgiven
  have hremoved : u.act .remove = { u with clients := m, history := u.history ++ [.freed k] } :=
    State.removeClient_eq (s := u) hremove hconn
  have hkept : u.act .epollDel = u := hdel u _ (by simp [u])
  simp only [orders, List.mem_cons, List.not_mem_nil, or_false] at has
  rcases has with rfl | rfl | rfl | rfl
  · refine ⟨_, [.closed k, .freed k], ?_, .inl rfl, (if_neg (by decide)).symm⟩
    simp only [List.foldl_cons, List.foldl_nil, hu, hremoved]
    rw [State.act, hdel _ _ (by simp [u])]
    simp [u]
  · refine ⟨_, [.closed k, .freed k], ?_, .inl rfl, (if_neg (by decide)).symm⟩
    simp only [List.foldl_cons, List.foldl_nil, hu, hkept, hremoved]
    simp [u]
  · refine ⟨_, [.freed k, .closed k], ?_, .inr rfl, (if_neg (by decide)).symm⟩
    have hclosed := State.act_close_eq (s := t) (k := k) hgiven
    rw [State.closeFd_sockets_congr (s := s) (t := t) rfl rfl] at hclosed
    simp only [List.foldl_cons, List.foldl_nil, ht, hclosed]
    rw [State.act, hdel _ _ (by simp [t])]
    simp [t]
  · refine ⟨_, [.freed k, .closed k], ?_, .inr rfl, (if_pos rfl).symm⟩
    have hdeleted : (t.epollDel s.vars.clientfd).sockets = (s.epollDel s.vars.clientfd).sockets :=
      State.epollDel_sockets_congr (s := s) (t := t) rfl rfl _
    have hsockets : ((t.epollDel s.vars.clientfd).closeFd s.vars.clientfd).sockets =
        ((s.epollDel s.vars.clientfd).closeFd s.vars.clientfd).sockets := by
      refine State.closeFd_sockets_congr ?_ hdeleted _
      rw [State.epollDel_eq, State.epollDel_eq s]
    have hact : t.act .epollDel = { t with sockets := (t.epollDel s.vars.clientfd).sockets } :=
      State.epollDel_eq t s.vars.clientfd
    have hclosed := State.act_close_eq
      (s := { t with sockets := (t.epollDel s.vars.clientfd).sockets }) (k := k) hgiven
    simp only [List.foldl_cons, List.foldl_nil, ht, hact, hclosed]
    rw [← hsockets, State.epollDel_eq t]
    simp [t]

end Loop
end Epoll
end BareHttp
