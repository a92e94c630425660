import Mathlib.Data.List.Count
import BareHttp.Epoll.Registration

/-!
# The table of clients

`active_clients` is never initialised, and seven branches take clients out of it in different
orders of `close`, `remove_client` and `EPOLL_CTL_DEL`.  Where no other process keeps copies
of the sockets, all of them keep the same invariant (`ClientTable`): the cells in front of
the first value of `active_clients` are the clients that were accepted and are not closed,
`remove_client` finds each of them there, and a client is used, then closed and freed once,
both in the same event, and not used again.

What was done to a client is read off the history of the loop (`State.record`).
-/

namespace BareHttp
namespace Epoll
namespace Loop

open PointerList Transition

variable {sc : ServerConf} {tail p : ℕ} {nodes : List ℕ} {s s' t : State} {l : Label}
  {ls : List Label}

/-- The connection an access is about. -/
def Access.conn : Access → ℕ
  | .used k => k
  | .closed k => k
  | .freed k => k

/-- What was done to connection `k`. -/
def State.record (s : State) (k : ℕ) : List Access := s.history.filter fun x => x.conn = k

/-- A client in use: it was used, and nothing else. -/
def InUse (k : ℕ) (xs : List Access) : Prop := ∃ n, xs = List.replicate n (.used k)

/-- A client that is gone: it was used, then closed and freed, and that is all. -/
def Finished (k : ℕ) (xs : List Access) : Prop :=
  ∃ n, xs = List.replicate n (.used k) ++ [.closed k, .freed k] ∨
    xs = List.replicate n (.used k) ++ [.freed k, .closed k]

/-- What the history says of the clients. -/
structure Recorded (s : State) : Prop where
  new : ∀ k, s.accepted ≤ k → s.record k = []
  inUse : ∀ a c, s.clients.data a = some c → InUse c.conn (s.record c.conn)
  finished : ∀ k, k < s.accepted → (∀ a c, s.clients.data a = some c → c.conn ≠ k) →
    Finished k (s.record k)

/-- Accesses to one connection are in its record and in no other. -/
theorem filter_conn_append {xs ys : List Access} {k : ℕ} (hys : ∀ x ∈ ys, x.conn = k) (k' : ℕ) :
    (xs ++ ys).filter (fun x => x.conn = k') =
      if k' = k then xs.filter (fun x => x.conn = k') ++ ys
      else xs.filter fun x => x.conn = k' := by
  rw [List.filter_append]
  split
  · next hk =>
    congr 1
    exact List.filter_eq_self.mpr fun x hx => by simp [hys x hx, hk]
  · next hk =>
    have hnil : ys.filter (fun x => x.conn = k') = [] :=
      List.filter_eq_nil_iff.mpr fun x hx => by simp [hys x hx, Ne.symm hk]
    rw [hnil, List.append_nil]

theorem InUse.used {k : ℕ} {xs : List Access} (h : InUse k xs) (n : ℕ) :
    InUse k (xs ++ List.replicate n (.used k)) := by
  obtain ⟨m, rfl⟩ := h
  exact ⟨m + n, by rw [List.replicate_add]⟩

namespace Recorded

theorem initial (sockfd epollfd : ℕ) (base : List ℕ) (vars : Vars) :
    Recorded (State.initial tail sockfd epollfd base vars) where
  new _ _ := rfl
  inUse := by simp [State.initial, Memory.data]
  finished := by simp [State.initial]

/-- Steps without an access. -/
theorem congr (h : Recorded s) (hclients : s'.clients = s.clients)
    (haccepted : s'.accepted = s.accepted) (hhistory : s'.history = s.history) : Recorded s' := by
  have hrecord : s'.record = s.record := by
    funext k
    rw [State.record, State.record, hhistory]
  refine ⟨?_, ?_, ?_⟩
  · rw [haccepted, hrecord]
    exact h.new
  · rw [hclients, hrecord]
    exact h.inUse
  · rw [hclients, haccepted, hrecord]
    exact h.finished

/-- A client is accepted. -/
theorem enroll (h : Recorded s) {fd a : ℕ} (hcell : s.clients.cells a = none)
    (rest : List EventData) (added : Bool) : Recorded (s.enroll fd a added rest) := by
  have hdata := State.data_enroll hcell fd added rest
  refine ⟨fun k hk => h.new k (Nat.le_of_succ_le hk), fun b c hc => ?_, fun k hk hgone => ?_⟩
  · rcases (hdata b c).mp hc with ⟨-, rfl⟩ | hc
    · exact ⟨0, h.new s.accepted (Nat.le_refl _)⟩
    · exact h.inUse b c hc
  · have hka : k ≠ s.accepted := fun heq =>
      hgone a _ ((hdata a _).mpr (.inl ⟨rfl, rfl⟩)) heq.symm
    exact h.finished k (Nat.lt_of_le_of_ne (Nat.le_of_lt_succ hk) hka) fun b c hc =>
      hgone b c ((hdata b c).mpr (.inr hc))

/-- A client is used and kept. -/
theorem keep (h : Recorded s) (hl : Listed tail s nodes) {c : Client} {cd : ClientData} {n : ℕ}
    (hc : s.clients.data p = some c) (hfd : cd.fd = c.cd.fd)
    (hclients : s'.clients = s.clients.set p ⟨cd, c.conn⟩) (haccepted : s'.accepted = s.accepted)
    (hhistory : s'.history = s.history ++ List.replicate n (.used c.conn)) : Recorded s' := by
  have hrecord : ∀ k, s'.record k =
      if k = c.conn then s.record k ++ List.replicate n (.used c.conn) else s.record k := by
    intro k
    rw [State.record, hhistory]
    exact filter_conn_append (fun x hx => by rw [List.eq_of_mem_replicate hx]; rfl) k
  have hkey := Listed.key_set hc hfd
  rw [← hclients] at hkey
  refine ⟨fun k hk => ?_, fun b d hd => ?_, fun k hk hgone => ?_⟩
  · rw [haccepted] at hk
    rw [hrecord, if_neg (Nat.ne_of_gt (Nat.lt_of_lt_of_le (hl.conn_lt p c hc) hk))]
    exact h.new k hk
  · obtain ⟨d', hd', hconn, -⟩ := Listed.exists_of_key (hkey b).symm hd
    rw [hrecord, ← hconn]
    split
    · next heq =>
      rw [← heq]
      exact (h.inUse b d' hd').used n
    · exact h.inUse b d' hd'
  · have hold : ∀ b d, s.clients.data b = some d → d.conn ≠ k := by
      intro b d hd
      obtain ⟨d', hd', hconn, -⟩ := Listed.exists_of_key (hkey b) hd
      rw [← hconn]
      exact hgone b d' hd'
    rw [hrecord, if_neg (hold p c hc).symm]
    exact h.finished k (haccepted ▸ hk) hold

/-- A client is taken out of the list, and what `ys` says has been done to it. -/
theorem finish {c : Client} {ys : List Access} (h : Recorded s)
    (hc : s.clients.data p = some c) (hlt : c.conn < s.accepted)
    (hinj : ∀ b d, s.clients.data b = some d → d.conn = c.conn → b = p)
    (hdata : ∀ b d, s'.clients.data b = some d ↔ b ≠ p ∧ s.clients.data b = some d)
    (haccepted : s'.accepted = s.accepted) (hhistory : s'.history = s.history ++ ys)
    (hys : ∀ x ∈ ys, x.conn = c.conn)
    (hfinish : ∀ xs, InUse c.conn xs → Finished c.conn (xs ++ ys)) : Recorded s' := by
  have hrecord : ∀ k, s'.record k = if k = c.conn then s.record k ++ ys else s.record k := by
    intro k
    rw [State.record, hhistory]
    exact filter_conn_append hys k
  refine ⟨fun k hk => ?_, fun b d hd => ?_, fun k hk hgone => ?_⟩
  · rw [haccepted] at hk
    rw [hrecord, if_neg (Nat.ne_of_gt (Nat.lt_of_lt_of_le hlt hk))]
    exact h.new k hk
  · obtain ⟨hb, hd'⟩ := (hdata b d).mp hd
    rw [hrecord, if_neg fun heq => hb (hinj b d hd' heq)]
    exact h.inUse b d hd'
  · rw [hrecord]
    split
    · next heq =>
      subst heq
      exact hfinish _ (h.inUse p c hc)
    · next hne =>
      refine h.finished k (haccepted ▸ hk) fun b d hd => ?_
      by_cases hb : b = p
      · subst hb
        rw [Option.some.inj (hd.symm.trans hc)]
        exact Ne.symm hne
      · exact hgone b d ((hdata b d).mpr ⟨hb, hd⟩)

/-- A client is torn down. -/
theorem tear {c : Client} {rest : List EventData} {kept : List ℕ} {own : Multiset ℕ}
    {first : Prop} (h : Recorded s) (hl : Listed tail s nodes)
    (hc : s.clients.data p = some c) (htorn : TornDown s p c rest kept own first s') :
    Recorded s' := by
  obtain ⟨ys, hhistory, hys, hfinish⟩ : ∃ ys, s'.history = s.history ++ ys ∧
      (∀ x ∈ ys, x.conn = c.conn) ∧
      ∀ xs, InUse c.conn xs → Finished c.conn (xs ++ ys) := by
    obtain ⟨n, hhistory⟩ := htorn.history
    rcases hhistory with hhist | hhist
    · refine ⟨_, hhist.trans (List.append_assoc ..), ?_, fun xs hxs => ?_⟩
      · simp [Access.conn, or_imp, forall_and]
      · obtain ⟨m, hm⟩ := hxs.used n
        exact ⟨m, .inl (by rw [← hm, List.append_assoc])⟩
    · refine ⟨_, hhist.trans (List.append_assoc ..), ?_, fun xs hxs => ?_⟩
      · simp [Access.conn, or_imp, forall_and]
      · obtain ⟨m, hm⟩ := hxs.used n
        exact ⟨m, .inr (by rw [← hm, List.append_assoc])⟩
  exact h.finish hc (hl.conn_lt p c hc) (fun b d hd heq => hl.conn_inj hd hc heq)
    (hl.data_tear hc htorn) htorn.accepted hhistory hys hfinish

/-- **One step.** -/
theorem of_move (h : Recorded s) (hl : Listed tail s nodes) (hm : Move sc s l s')
    (hs' : s'.status = .running) : Recorded s' := by
  cases hm with
  | waits => exact h.congr rfl rfl rfl
  | accepts fd a added rest hbatch hfd ha hcell => exact h.enroll hcell rest added
  | keeps p c cd rest r env hbatch hc hadm hio n =>
    exact h.keep (n := n) hl hc (fd_of_keep hio) rfl rfl rfl
  | tears p c rest r env kept _ hbatch hc hadm hkeep hcorrupt htorn => exact h.tear hl hc htorn
  | releases => exact h.congr rfl rfl rfl
  | waitFails | acceptFails | dangles | overflows => exact absurd hs' (by simp)

end Recorded

/-- **The table of clients.**  `tail` is the first value of `active_clients`. -/
structure ClientTable (tail : ℕ) (s : State) (nodes : List ℕ) : Prop where
  /-- The cells that are allocated form a list without repetitions up to that value. -/
  linked : Linked s.clients.cells tail s.clients.head nodes
  nodup : nodes.Nodup
  mem_iff : ∀ a, a ∈ nodes ↔ ∃ c, s.clients.data a = some c
  /-- `remove_client` finds each of them in front of it, and leaves the others as they are. -/
  removes : ∀ a ∈ nodes, ∃ m,
    (∀ fuel, nodes.length ≤ fuel → s.clients.remove a fuel .head = .removed m) ∧
    Linked m.cells tail m.head (nodes.erase a) ∧ m.data a = none ∧
    ∀ b, b ≠ a → m.data b = s.clients.data b
  /-- They are the clients that were accepted and are not closed. -/
  open_iff : ∀ k, (∃ a ∈ nodes, ∃ c, s.clients.data a = some c ∧ c.conn = k) ↔
    k < s.accepted ∧ .closed k ∉ s.history
  distinct : ∀ a b c d, s.clients.data a = some c → s.clients.data b = some d →
    c.conn = d.conn → a = b
  /-- Their descriptors denote their sockets, and no other descriptor denotes a socket. -/
  descriptor : ∀ fd k, s.table fd = some (.socket k) ↔
    ∃ a c, s.clients.data a = some c ∧ c.conn = k ∧ c.cd.fd = fd
  /-- Their sockets are open, and no others. -/
  here_iff : ∀ k, (s.sockets k).here = true ↔ k < s.accepted ∧ .closed k ∉ s.history
  /-- What is closed has no descriptor any more. -/
  closed : ∀ k, .closed k ∈ s.history →
    (s.sockets k).here = false ∧ ∀ fd, s.table fd ≠ some (.socket k)
  /-- A client is closed once and freed once, in the same event, and not used behind it. -/
  inUse : ∀ k, .closed k ∉ s.history → InUse k (s.record k)
  finished : ∀ k, .closed k ∈ s.history → Finished k (s.record k)

theorem mem_record {k : ℕ} {x : Access} (hx : x.conn = k) : x ∈ s.record k ↔ x ∈ s.history := by
  simp [State.record, hx]

/-- The table is what the list and the history say. -/
theorem clientTable_of_recorded (hl : Listed tail s nodes) (h : Recorded s) :
    ClientTable tail s nodes := by
  have hinUse : ∀ k, InUse k (s.record k) → .closed k ∉ s.history := by
    rintro k ⟨n, hn⟩ hmem
    rw [← mem_record (s := s) (k := k) rfl, hn] at hmem
    exact absurd (List.eq_of_mem_replicate hmem) (by simp)
  have hfinished : ∀ k, Finished k (s.record k) → .closed k ∈ s.history := by
    rintro k ⟨n, hn⟩
    rw [← mem_record (s := s) (k := k) rfl]
    rcases hn with hn | hn <;> rw [hn] <;> simp
  -- a connection is that of a client, or it is gone, or it has not been accepted yet
  have hcases : ∀ k, (∃ a c, s.clients.data a = some c ∧ c.conn = k) ∨
      (k < s.accepted ∧ Finished k (s.record k)) ∨ (s.accepted ≤ k ∧ s.record k = []) := by
    intro k
    by_cases hlive : ∃ a c, s.clients.data a = some c ∧ c.conn = k
    · exact .inl hlive
    · push Not at hlive
      rcases Nat.lt_or_ge k s.accepted with hk | hk
      · exact .inr (.inl ⟨hk, h.finished k hk hlive⟩)
      · exact .inr (.inr ⟨hk, h.new k hk⟩)
  -- the clients are the connections that were accepted and not closed
  have hlive : ∀ k, (∃ a c, s.clients.data a = some c ∧ c.conn = k) ↔
      k < s.accepted ∧ .closed k ∉ s.history := by
    intro k
    constructor
    · rintro ⟨a, c, hc, rfl⟩
      exact ⟨hl.conn_lt a c hc, hinUse _ (h.inUse a c hc)⟩
    · rintro ⟨hk, hopen⟩
      rcases hcases k with hclient | ⟨-, hdone⟩ | ⟨hnew, -⟩
      · exact hclient
      · exact absurd (hfinished k hdone) hopen
      · exact absurd hk (Nat.not_lt.mpr hnew)
  refine ⟨hl.linked, hl.nodup, hl.mem_iff, fun a ha => ?_, fun k => ?_,
    fun a b c d => hl.conn_inj, fun fd k => ⟨hl.owner fd k, ?_⟩, fun k => ?_, fun k hk => ⟨?_, ?_⟩,
    fun k hk => ?_, fun k hk => ?_⟩
  · exact remove_of_linked hl.linked hl.nodup ha
  · rw [← hlive]
    constructor
    · rintro ⟨a, -, c, hc, hck⟩
      exact ⟨a, c, hc, hck⟩
    · rintro ⟨a, c, hc, hck⟩
      exact ⟨a, (hl.mem_iff a).mpr ⟨c, hc⟩, c, hc, hck⟩
  · rintro ⟨a, c, hc, rfl, rfl⟩
    exact hl.table a c hc
  · rw [← hlive]
    constructor
    · exact hl.present k
    · rintro ⟨a, c, hc, rfl⟩
      exact (hl.socket a c hc).1
  · by_contra hhere
    exact ((hlive k).mp (hl.present k (by simpa using hhere))).2 hk
  · intro fd hfd
    obtain ⟨a, c, hc, hck, -⟩ := hl.owner fd k hfd
    exact ((hlive k).mp ⟨a, c, hc, hck⟩).2 hk
  · rcases hcases k with ⟨a, c, hc, rfl⟩ | ⟨-, hdone⟩ | ⟨-, hnil⟩
    · exact h.inUse a c hc
    · exact absurd (hfinished k hdone) hk
    · exact ⟨0, hnil⟩
  · rcases hcases k with ⟨a, c, hc, rfl⟩ | ⟨-, hdone⟩ | ⟨-, hnil⟩
    · exact absurd hk (hinUse _ (h.inUse a c hc))
    · exact hdone
    · rw [← mem_record (s := s) (k := k) rfl, hnil] at hk
      exact absurd hk (by simp)

/-- The copies a label says are kept. -/
def Label.kept : Label → List ℕ
  | .io _ _ kept => kept
  | _ => []

/-- Without a label that keeps copies no other process has one. -/
theorem unshared_of_kept (helse : ∀ k, (s.sockets k).elsewhere = false) (hkept : l.kept = []) :
    Unshared sc s l := by
  cases l with
  | io r env kept =>
    intro c _ _
    refine .inl ⟨helse c.conn, ?_⟩
    obtain rfl : kept = [] := hkept
    exact List.not_mem_nil
  | wait | waitFails | accept | acceptFails | release => exact trivial

theorem elsewhere_of_move (hm : Move sc s l s') (helse : ∀ k, (s.sockets k).elsewhere = false)
    (hkept : l.kept = []) : ∀ k, (s'.sockets k).elsewhere = false := by
  cases hm with
  | accepts fd a added rest hbatch hfd ha hcell =>
    intro k
    by_cases hk : k = s.accepted
    · simp [State.enroll, hk]
    · simp [State.enroll, Function.update_of_ne hk, helse k]
  | tears p c rest r env kept _ hbatch hc hadm hkeep hcorrupt htorn =>
    intro k
    by_contra hcopy
    rcases htorn.elsewhere k (by simpa using hcopy) with hold | hmem
    · exact absurd ((helse k).symm.trans hold) (by simp)
    · obtain rfl : kept = [] := hkept
      exact absurd hmem List.not_mem_nil
  | releases k hcopy => exact absurd ((helse k).symm.trans hcopy) (by simp)
  | waits | waitFails | acceptFails | dangles | overflows | keeps => exact helse

/-- What holds in every state as long as no other process keeps copies. -/
structure Intact (tail : ℕ) (s : State) : Prop where
  status : s.status ≠ .dangling
  tracked : Tracked tail s
  elsewhere : ∀ k, (s.sockets k).elsewhere = false
  recorded : s.status = .running → Recorded s

theorem Intact.initial (sockfd epollfd : ℕ) (base : List ℕ) (vars : Vars) :
    Intact tail (State.initial tail sockfd epollfd base vars) where
  status := by simp [State.initial]
  tracked := tracked_initial sockfd epollfd base vars
  elsewhere _ := rfl
  recorded _ := .initial sockfd epollfd base vars

theorem Intact.of_step (h : Intact tail s) (hkept : l.kept = []) (hs : step sc s l = some s') :
    Intact tail s' := by
  have hrunning := status_of_step hs
  obtain ⟨nodes, hl⟩ := h.tracked.2 hrunning
  have hm := move_of_step hl hs
  exact ⟨h.tracked.1.not_dangling hm hrunning,
    tracked_of_step h.tracked (unshared_of_kept h.elsewhere hkept) hs,
    elsewhere_of_move hm h.elsewhere hkept, (h.recorded hrunning).of_move hl hm⟩

/-- **In every run in which no other process keeps a copy of a socket**, no event is for a
client that has been freed, and as long as the loop goes on the clients are in the table. -/
theorem clientTable_of_run (active sockfd epollfd : ℕ) (base : List ℕ) (vars : Vars)
    (hkept : ∀ l ∈ ls, Label.kept l = [])
    (h : run (step sc) (State.initial active sockfd epollfd base vars) ls = some t) :
    t.status ≠ .dangling ∧ t.Fresh ∧ t.batch.Nodup ∧
      (t.status = .running → ∃ nodes, ClientTable active t nodes) := by
  have hintact : Intact active t := run_invariant_along
    (fun _ _ _ hi hl hs => hi.of_step hl hs) (.initial sockfd epollfd base vars)
    (.of_forall hkept) h
  refine ⟨hintact.status, hintact.tracked.1.fresh, hintact.tracked.1.nodup, fun hrunning => ?_⟩
  obtain ⟨nodes, hl⟩ := hintact.tracked.2 hrunning
  exact ⟨nodes, clientTable_of_recorded hl (hintact.recorded hrunning)⟩

/-- Two clients in one batch, the first of which leaves.  The variable `active_clients` held
the address that the second one is given. -/
def leavesInBatch : List Label :=
  [.wait [none], .accept 7 100 true, .wait [none], .accept 8 200 true, .wait [some 0, some 1],
    .io .closed plainEnv []]

theorem leavesInBatch_clientTable :
    ∃ t, run (step sampleConf) (State.initial 200 5 6 [0, 1, 2, 3, 4] ⟨0, 0, 0, 0, .incomplete⟩)
        leavesInBatch = some t ∧ t.batch = [.client 200] ∧ ∃ nodes, ClientTable 200 t nodes := by
  have hrun : (run (step sampleConf)
      (State.initial 200 5 6 [0, 1, 2, 3, 4] ⟨0, 0, 0, 0, .incomplete⟩) leavesInBatch).map
        (fun t => (t.batch, t.status)) = some ([.client 200], .running) := by
    decide +kernel
  obtain ⟨t, ht, heq⟩ := Option.map_eq_some_iff.mp hrun
  obtain ⟨hbatch, hstatus⟩ := Prod.mk.inj heq
  obtain ⟨-, -, -, htable⟩ := clientTable_of_run 200 5 6 [0, 1, 2, 3, 4] ⟨0, 0, 0, 0, .incomplete⟩
    (by simp [leavesInBatch, Label.kept]) ht
  exact ⟨t, ht, hbatch, htable hstatus⟩

end Loop
end Epoll
end BareHttp
