import BareHttp.Http.Delivery
import BareHttp.Pool.Descriptors

/-!
# Descriptors and their owners

A worker should use the descriptor it popped only for the connection it was handed,
and no connection should be closed twice.  Both can fail, in two ways.  A `send` that
reports `EPIPE` makes `tcp_send` close the descriptor, and the worker goes on to send
an error page on that number and to close it; and the scan at shutdown closes the
descriptors of workers that will close them too.  In between the number may have been
given out again, so that what is hit is another client.

In a run without these two steps both properties hold in every state
(`owned_of_clean`).  The invariant says where each connection is: with `main`, in the
queue, or with one worker.
-/

namespace BareHttp
namespace Pool

open Transition

variable {n : ℕ}

/-- Every call on a client's descriptor found the connection the caller was handed, and
no connection was closed twice. -/
structure Owned (s : State n) : Prop where
  handed : ∀ a ∈ s.accesses, ∀ k, a.serving = some k → a.slot = .opened (.connection k)
  closed_once : ∀ k, s.closes k ≤ 1

/-- The `send` of the worker has reported `EPIPE`. -/
def WorkerPc.reportsEpipe : WorkerPc → Bool
  | .acting _ _ (.epipe :: _) => true
  | _ => false

/-- The scan at shutdown has read an active descriptor. -/
def State.findsActive (s : State n) : Bool :=
  match s.main, s.monitor.phase .main with
  | .scanning _, .ready (some fd) => fd ≠ 0
  | _, _ => false

/-- The steps that leave descriptors with their owners. -/
def Clean (s : State n) : Label n → Prop
  | .worker i => (s.worker i).reportsEpipe = false
  | .main => s.findsActive = false
  | _ => True

instance (s : State n) (l : Label n) : Decidable (Clean s l) :=
  match l with
  | .worker i => inferInstanceAs (Decidable ((s.worker i).reportsEpipe = false))
  | .main => inferInstanceAs (Decidable (s.findsActive = false))
  | .monitor _ | .accept _ | .acceptFails | .recv _ | .received _ _ => .isTrue trivial

/-- The function of the queue `main` is in. -/
def MainPc.call : MainPc n → Option QueueCall
  | .pushing _ fd => some (.push fd)
  | .stopping => some .shutdown
  | .scanning i => some (.getActiveFd i)
  | _ => none

/-- The function of the queue a worker is in. -/
def WorkerPc.call (i : ℕ) : WorkerPc → Option QueueCall
  | .popping => some .pop
  | .registering _ fd => some (.addActiveFd fd i)
  | .unregistering _ _ _ => some (.delActiveFd i)
  | _ => none

theorem MainPc.eq_pushing_of_call {pc : MainPc n} {fd : ℕ} (h : pc.call = some (.push fd)) :
    ∃ k, pc = .pushing k fd := by
  cases pc with
  | pushing k fd' => exact ⟨k, by simpa [MainPc.call] using h⟩
  | looping | accepting | stopping | scanning | shuttingDown | closing | joining
  | closingListener | done => exact absurd h (by simp [MainPc.call])

theorem MainPc.call_ne_pop (pc : MainPc n) : pc.call ≠ some .pop := by
  cases pc <;> simp [MainPc.call]

theorem WorkerPc.call_ne_push (i fd : ℕ) (pc : WorkerPc) : pc.call i ≠ some (.push fd) := by
  cases pc <;> simp [WorkerPc.call]

/-- What a clean run keeps. -/
structure Inv (queueMax sockfd : ℕ) (place : ℕ → Place n) (s : State n) : Prop where
  monitor : Monitor.Ok queueMax s.monitor
  mainCall : ∀ c, (s.monitor.phase .main).call = some c → s.main.call = some c
  workerCall : ∀ i c, (s.monitor.phase (.worker i)).call = some c → (s.worker i).call i = some c
  queue : QueueOk s.table place s.monitor.queue.contents s.queued
  main : MainOk s.table place (s.monitor.phase .main).call s.main
  workers : ∀ i, WorkerOk s.table place i (s.monitor.phase (.worker i)).result (s.worker i)
  table : TableOk s.table s.accepted s.accesses
  handed : ∀ a ∈ s.accesses, ∀ k, a.serving = some k → a.slot = .opened (.connection k)
  listener : s.main ≠ .done → s.table sockfd = .opened .listener
  ahead : ∀ k, s.accepted ≤ k → place k = .thread .main

/-- One more call, on the connection its caller was handed. -/
theorem handed_append {accesses : List (Access n)} {a : Access n}
    (h : ∀ a ∈ accesses, ∀ k, a.serving = some k → a.slot = .opened (.connection k))
    (ha : ∀ k, a.serving = some k → a.slot = .opened (.connection k)) :
    ∀ b ∈ accesses ++ [a], ∀ k, b.serving = some k → b.slot = .opened (.connection k) := by
  intro b hb
  rcases List.mem_append.mp hb with hb | hb
  · exact h b hb
  · rw [List.mem_singleton.mp hb]
    exact ha

namespace Inv

variable {queueMax sockfd : ℕ} {place : ℕ → Place n} {s : State n}

theorem owned (h : Inv queueMax sockfd place s) : Owned s := ⟨h.handed, h.table.closes_le⟩

/-- **A step of a worker**, with what it does to the table, to the record of calls and to
its own phase. -/
theorem stepOfWorker (h : Inv queueMax sockfd place s) {i : Fin n} {pc : WorkerPc}
    {m : Monitor.State (Thread n)} {table' : ℕ → Slot} {accesses' : List (Access n)}
    {memory' : Fin n → Worker.State} (hm : Monitor.Ok queueMax m)
    (hqueue : m.queue = s.monitor.queue)
    (hphase : ∀ u, u ≠ .worker i → (s.monitor.phase u).Alike (m.phase u))
    (hcall : ∀ c, (m.phase (.worker i)).call = some c → pc.call i = some c)
    (hkeeps : ∀ p, p ≠ .thread (.worker i) → Keeps p s.table table' place place)
    (hok : WorkerOk table' place i (m.phase (.worker i)).result pc)
    (htable : TableOk table' s.accepted accesses')
    (hhanded : ∀ a ∈ accesses', ∀ k, a.serving = some k → a.slot = .opened (.connection k))
    (hlistener : s.table sockfd = .opened .listener → table' sockfd = .opened .listener) :
    Inv queueMax sockfd place
      { s with
        monitor := m
        table := table'
        accesses := accesses'
        worker := Function.update s.worker i pc
        memory := memory' } := by
  have hmain := hphase .main (by simp)
  refine ⟨hm, fun c hc => h.mainCall c (hmain.1 ▸ hc), fun j c hc => ?_, ?_, ?_, fun j => ?_,
    htable, hhanded, fun hd => hlistener (h.listener hd), h.ahead⟩
  · show (Function.update s.worker i pc j).call j = some c
    by_cases hj : j = i
    · subst hj
      rw [Function.update_self]
      exact hcall c hc
    · have hother := hphase (.worker j) (by simpa using hj)
      rw [Function.update_of_ne hj]
      exact h.workerCall j c (hother.1 ▸ hc)
  · rw [hqueue]
    exact h.queue.keeps (hkeeps _ (by simp))
  · rw [hmain.1]
    exact h.main.keeps (hkeeps _ (by simp))
  · show WorkerOk table' place j (m.phase (.worker j)).result (Function.update s.worker i pc j)
    by_cases hj : j = i
    · subst hj
      rw [Function.update_self]
      exact hok
    · have hother := hphase (.worker j) (by simpa using hj)
      rw [hother.2, Function.update_of_ne hj]
      exact (h.workers j).keeps (hkeeps _ (by simpa using hj))

/-- **A step of `main`**, likewise. -/
theorem stepOfMain (h : Inv queueMax sockfd place s) {pc : MainPc n}
    {m : Monitor.State (Thread n)} {table' : ℕ → Slot} {accesses' : List (Access n)} {accepted' : ℕ}
    (hm : Monitor.Ok queueMax m) (hqueue : m.queue = s.monitor.queue)
    (hphase : ∀ u, u ≠ .main → (s.monitor.phase u).Alike (m.phase u))
    (hcall : ∀ c, (m.phase .main).call = some c → pc.call = some c)
    (hkeeps : ∀ p, p ≠ .thread .main → Keeps p s.table table' place place)
    (hok : MainOk table' place (m.phase .main).call pc)
    (htable : TableOk table' accepted' accesses')
    (hhanded : ∀ a ∈ accesses', ∀ k, a.serving = some k → a.slot = .opened (.connection k))
    (hlistener : pc ≠ .done → table' sockfd = .opened .listener)
    (haccepted : s.accepted ≤ accepted') :
    Inv queueMax sockfd place
      { s with
        monitor := m
        table := table'
        accesses := accesses'
        accepted := accepted'
        main := pc } := by
  refine ⟨hm, hcall, fun j c hc => ?_, ?_, hok, fun j => ?_, htable, hhanded, hlistener,
    fun k hk => h.ahead k (Nat.le_trans haccepted hk)⟩
  · exact h.workerCall j c ((hphase (.worker j) (by simp)).1 ▸ hc)
  · rw [hqueue]
    exact h.queue.keeps (hkeeps _ (by simp))
  · rw [(hphase (.worker j) (by simp)).2]
    exact (h.workers j).keeps (hkeeps _ (by simp))

/-- A worker outside the queue goes on. -/
theorem goto (h : Inv queueMax sockfd place s) {i : Fin n} {pc : WorkerPc}
    (hcall : (s.monitor.phase (.worker i)).call = none)
    (hok : WorkerOk s.table place i (s.monitor.phase (.worker i)).result pc) :
    Inv queueMax sockfd place (s.goto i pc) :=
  h.stepOfWorker h.monitor rfl (fun _ _ => .refl _) (fun c hc => by simp [hcall] at hc)
    (fun p _ => .refl p _ _) hok h.table h.handed id

/-- `main`, outside the queue, goes on. -/
theorem mainGoto (h : Inv queueMax sockfd place s) {pc : MainPc n}
    (hcall : (s.monitor.phase .main).call = none) (hok : MainOk s.table place none pc)
    (hdone : s.main ≠ .done) : Inv queueMax sockfd place { s with main := pc } :=
  h.stepOfMain h.monitor rfl (fun _ _ => .refl _) (fun c hc => by simp [hcall] at hc)
    (fun p _ => .refl p _ _) (by rwa [hcall]) h.table h.handed (fun _ => h.listener hdone)
    (Nat.le_refl _)

/-- A worker whose program point is not a function of the queue is outside. -/
theorem worker_outside (h : Inv queueMax sockfd place s) {i : Fin n}
    (hpc : (s.worker i).call i = none) : (s.monitor.phase (.worker i)).call = none := by
  cases hc : (s.monitor.phase (.worker i)).call with
  | none => rfl
  | some c => exact absurd (h.workerCall i c hc) (by simp [hpc])

theorem main_outside (h : Inv queueMax sockfd place s) (hpc : s.main.call = none) :
    (s.monitor.phase .main).call = none := by
  cases hc : (s.monitor.phase .main).call with
  | none => rfl
  | some c => exact absurd (h.mainCall c hc) (by simp [hpc])

end Inv

/-- What calling a function of the queue does. -/
theorem call_eq_some {s s' : State n} {t : Thread n} {c : QueueCall}
    (h : s.call t c = some s') :
    ∃ m, Monitor.step s.monitor (.call t c) = some m ∧ s' = { s with monitor := m } ∧
      m.queue = s.monitor.queue ∧ m.phase t = .locking c ∧
      ∀ u, u ≠ t → (s.monitor.phase u).Alike (m.phase u) := by
  obtain ⟨m, hm, rfl⟩ := Option.map_eq_some_iff.mp h
  refine ⟨m, hm, rfl, ?_⟩
  rcases Monitor.step_cases hm with ⟨t', c', r, hl, -, rfl⟩ | ⟨t', c', hl, -⟩ |
    ⟨t', c', on, hl, -⟩ | ⟨t', c', woken, q, r, wakes, hl, -⟩ | ⟨t', c', on, hl, -⟩ | ⟨hl, -⟩
  · obtain ⟨rfl, rfl⟩ := Monitor.Label.call.inj hl
    refine ⟨rfl, Function.update_self _ _ _, fun u hu => ?_⟩
    show (s.monitor.phase u).Alike (Function.update s.monitor.phase t _ u)
    rw [Function.update_of_ne hu]
    exact .refl _
  all_goals exact absurd hl (by simp)

namespace Inv

variable {queueMax sockfd : ℕ} {place : ℕ → Place n} {s s' : State n}

/-- A worker calls a function of the queue. -/
theorem gotoCall (h : Inv queueMax sockfd place s) {i : Fin n} {pc : WorkerPc} {c : QueueCall}
    (hs : (s.goto i pc).call (.worker i) c = some s') (hpc : pc.call i = some c)
    (hok : WorkerOk s.table place i none pc) : Inv queueMax sockfd place s' := by
  obtain ⟨m, hm, rfl, hqueue, hlock, hphase⟩ := call_eq_some hs
  refine h.stepOfWorker (Monitor.step_ok h.monitor hm) hqueue hphase ?_ (fun p _ => .refl p _ _) ?_
    h.table h.handed id
  · intro d hd
    rw [hlock] at hd
    rw [hpc]
    exact hd
  · rw [hlock]
    exact hok

/-- `main` calls a function of the queue. -/
theorem mainGotoCall (h : Inv queueMax sockfd place s) {pc : MainPc n} {c : QueueCall}
    (hs : State.call { s with main := pc } .main c = some s') (hpc : pc.call = some c)
    (hok : MainOk s.table place (some c) pc) (hdone : s.main ≠ .done) :
    Inv queueMax sockfd place s' := by
  obtain ⟨m, hm, rfl, hqueue, hlock, hphase⟩ := call_eq_some hs
  refine h.stepOfMain (Monitor.step_ok h.monitor hm) hqueue hphase ?_ (fun p _ => .refl p _ _) ?_
    h.table h.handed (fun _ => h.listener hdone) (Nat.le_refl _)
  · intro d hd
    rw [hlock] at hd
    rw [hpc]
    exact hd
  · rw [hlock]
    exact hok

/-- A call on the descriptor a worker holds. -/
theorem access (h : Inv queueMax sockfd place s) {i : Fin n} {k fd : ℕ} {pc : WorkerPc}
    {kind : Kind} (hkind : kind ≠ .close) (hcall : (s.monitor.phase (.worker i)).call = none)
    (hholds : Holds s.table place (.thread (.worker i)) k fd)
    (hok : WorkerOk s.table place i (s.monitor.phase (.worker i)).result pc) :
    Inv queueMax sockfd place ((s.access (.worker i) (some k) kind fd).goto i pc) := by
  refine h.stepOfWorker h.monitor rfl (fun _ _ => .refl _) ?_ (fun p _ => .refl p _ _) hok ?_ ?_ id
  · intro c hc
    exact absurd (hcall.symm.trans hc) (by simp)
  · exact h.table.access fun k' => by simp [Access.closesConnection, hkind]
  · refine handed_append h.handed fun k' hk' => ?_
    obtain rfl : k = k' := Option.some.inj hk'
    exact hholds.2

/-- A worker opens a file under a number that is not open. -/
theorem openFile (h : Inv queueMax sockfd place s) {i : Fin n} {k fd f : ℕ} {cs : List SysCall}
    (hcall : (s.monitor.phase (.worker i)).call = none) (hopen : (s.table f).isOpen = false)
    (hruns : Runs s.table place i k fd (.openFile f :: cs)) :
    Inv queueMax sockfd place ((s.opens f (.file i)).goto i (.acting k fd cs)) := by
  obtain ⟨isOpen, own, hsound, hholds, hnodup, hown⟩ := hruns
  have hne : ∀ {g o}, s.table g = .opened o → g ≠ f := ne_of_isOpen_eq_false hopen
  have hkeeps : ∀ p, Keeps p s.table (Function.update s.table f (.opened (.file i))) place place :=
    fun p => .update _ fun o ho => absurd rfl (hne ho)
  refine h.stepOfWorker h.monitor rfl (fun _ _ => .refl _) ?_ (fun p _ => hkeeps p) ?_
    (h.table.opens _ (by simp)) h.handed ?_
  · intro c hc
    exact absurd (hcall.symm.trans hc) (by simp)
  · refine ⟨isOpen, f ::ₘ own, hsound, fun ho => (hholds ho).keeps (hkeeps _), ?_, ?_⟩
    · rw [Multiset.nodup_cons]
      exact ⟨fun hf => hne (hown f hf) rfl, hnodup⟩
    · intro g hg
      rcases Multiset.mem_cons.mp hg with rfl | hg
      · exact Function.update_self _ _ _
      · exact (Function.update_of_ne (hne (hown g hg)) _ _).trans (hown g hg)
  · intro hl
    exact (Function.update_of_ne (hne hl) _ _).trans hl

/-- A worker closes a descriptor that belongs to no other place. -/
theorem closeOwn (h : Inv queueMax sockfd place s) {i : Fin n} {fd : ℕ} {o : Object}
    {serving : Option ℕ} {pc : WorkerPc}
    (hcall : (s.monitor.phase (.worker i)).call = none) (ho : s.table fd = .opened o)
    (hmine : ∀ p, Belongs place p o → p = .thread (.worker i)) (hlistener : o ≠ .listener)
    (hserving : ∀ k, serving = some k → o = .connection k)
    (hok : WorkerOk (Function.update s.table fd (s.table fd).close) place i
      (s.monitor.phase (.worker i)).result pc) :
    Inv queueMax sockfd place ((s.close (.worker i) serving fd).goto i pc) := by
  refine h.stepOfWorker h.monitor rfl (fun _ _ => .refl _) ?_ ?_ hok (h.table.close ho _ _) ?_ ?_
  · intro c hc
    exact absurd (hcall.symm.trans hc) (by simp)
  · intro p hp
    refine .update _ fun o' ho' hb => hp (hmine p ?_)
    rwa [← Slot.opened.inj (ho'.symm.trans ho)]
  · refine handed_append h.handed fun k hk => ?_
    rw [← hserving k hk]
    exact ho
  · intro hl
    exact (Function.update_of_ne (ne_of_opened ho hl hlistener.symm) _ _).trans hl

/-- A worker closes one of its files. -/
theorem closeFile (h : Inv queueMax sockfd place s) {i : Fin n} {k fd f : ℕ} {cs : List SysCall}
    (hcall : (s.monitor.phase (.worker i)).call = none)
    (hruns : Runs s.table place i k fd (.closeFile f :: cs)) :
    Inv queueMax sockfd place ((s.close (.worker i) none f).goto i (.acting k fd cs)) := by
  obtain ⟨isOpen, own, ⟨hf, hsound⟩, hholds, hnodup, hown⟩ := hruns
  have hfile : s.table f = .opened (.file i) := hown f hf
  refine h.closeOwn hcall hfile ?_ (by simp) (by simp) ?_
  · rintro p ⟨j, hj, rfl⟩
    rw [Fin.ext hj]
  · refine ⟨isOpen, own.erase f, hsound, fun ho => ⟨(hholds ho).1, ?_⟩, hnodup.erase f, ?_⟩
    · have hne : fd ≠ f := ne_of_opened hfile (hholds ho).2 (by simp)
      exact (Function.update_of_ne hne _ _).trans (hholds ho).2
    · intro g hg
      obtain ⟨hgf, hgown⟩ := hnodup.mem_erase_iff.mp hg
      exact (Function.update_of_ne hgf _ _).trans (hown g hgown)

/-- A worker closes the connection it holds. -/
theorem closeConnection (h : Inv queueMax sockfd place s) {i : Fin n} {k fd : ℕ} {cs : List SysCall}
    (hcall : (s.monitor.phase (.worker i)).call = none)
    (hruns : Runs s.table place i k fd (.close :: cs)) :
    Inv queueMax sockfd place ((s.close (.worker i) (some k) fd).goto i (.acting k fd cs)) := by
  obtain ⟨isOpen, own, ⟨ho, hsound⟩, hholds, hnodup, hown⟩ := hruns
  obtain ⟨hplace, hconn⟩ := hholds ho
  refine h.closeOwn hcall hconn ?_ (by simp) ?_ ?_
  · intro p hp
    exact hp.symm.trans hplace
  · intro k' hk'
    rw [Option.some.inj hk']
  · refine ⟨false, own, hsound, fun hf => absurd hf (by simp), hnodup, fun f hf => ?_⟩
    have hne : f ≠ fd := ne_of_opened hconn (hown f hf) (by simp)
    exact (Function.update_of_ne hne _ _).trans (hown f hf)

/-- **A worker performs a call of its program.** -/
theorem perform (h : Inv queueMax sockfd place s) {i : Fin n} {k fd : ℕ} {c : SysCall}
    {cs : List SysCall} (hcall : (s.monitor.phase (.worker i)).call = none) (hepipe : c ≠ .epipe)
    (hruns : Runs s.table place i k fd (c :: cs)) (hs : s.perform i k fd cs c = some s') :
    Inv queueMax sockfd place s' := by
  cases c with
  | openFile f =>
    simp only [State.perform] at hs
    split at hs
    · exact absurd hs (by simp)
    · next hopen =>
      rw [← Option.some.inj hs]
      exact h.openFile hcall (by simpa using hopen) hruns
  | closeFile f =>
    rw [← Option.some.inj hs]
    exact h.closeFile hcall hruns
  | close =>
    rw [← Option.some.inj hs]
    exact h.closeConnection hcall hruns
  | epipe => exact absurd rfl hepipe
  | unregister => exact h.gotoCall hs rfl hruns
  | send | sendfile | shutdown =>
    obtain ⟨isOpen, own, ⟨ho, hsound⟩, hholds, hrest⟩ := hruns
    rw [← Option.some.inj hs]
    exact h.access (by simp) hcall (hholds ho) ⟨isOpen, own, hsound, hholds, hrest⟩

/-- **A step of a worker keeps the invariant**, if its `send` did not report `EPIPE`. -/
theorem stepWorker (h : Inv queueMax sockfd place s) {i : Fin n}
    (hclean : (s.worker i).reportsEpipe = false)
    (hs : s.stepWorker i = some s') :
    Inv queueMax sockfd place s' := by
  have hok := h.workers i
  unfold State.stepWorker at hs
  split at hs
  · next hpc =>
    have hout := h.worker_outside (i := i) (by rw [hpc]; rfl)
    split at hs
    · rw [← Option.some.inj hs]
      exact h.goto hout trivial
    · exact h.gotoCall hs rfl trivial
  · next hpc hphase =>
    split at hs
    · rw [← Option.some.inj hs]
      exact h.goto (by rw [hphase]; rfl) trivial
    · exact absurd hs (by simp)
  · next k fd hpc hphase =>
    rw [hpc, hphase] at hok
    obtain ⟨fd', hfd, hholds⟩ := hok
    obtain rfl : fd = fd' := Option.some.inj hfd
    split at hs
    · rw [← Option.some.inj hs]
      exact h.goto (by rw [hphase]; rfl) trivial
    · exact h.gotoCall hs rfl hholds
  · next k fd r hpc hphase =>
    rw [hpc] at hok
    rw [← Option.some.inj hs]
    exact h.goto (by rw [hphase]; rfl) hok
  · next k fd c cs hpc =>
    rw [hpc] at hok
    refine h.perform (h.worker_outside (by rw [hpc]; rfl)) ?_ hok hs
    rintro rfl
    exact absurd hclean (by simp [hpc, WorkerPc.reportsEpipe])
  · next k fd hpc =>
    rw [← Option.some.inj hs]
    exact h.goto (h.worker_outside (by rw [hpc]; rfl)) trivial
  · next k fd cs r hpc hphase =>
    rw [hpc] at hok
    rw [← Option.some.inj hs]
    exact h.goto (by rw [hphase]; rfl) hok
  · exact absurd hs (by simp)

/-- The head of the loop over the workers. -/
theorem scan (h : Inv queueMax sockfd place s) {i : ℕ}
    (hcall : (s.monitor.phase .main).call = none) (hdone : s.main ≠ .done)
    (hs : s.scan i = some s') : Inv queueMax sockfd place s' := by
  unfold State.scan at hs
  split at hs
  · exact h.mainGotoCall hs rfl trivial hdone
  · rw [← Option.some.inj hs]
    exact h.mainGoto hcall trivial hdone

/-- `main` closes the listening socket. -/
theorem closeListener (h : Inv queueMax sockfd place s)
    (hcall : (s.monitor.phase .main).call = none) (hdone : s.main ≠ .done) :
    Inv queueMax sockfd place
      { (s.access .main none .shutdown sockfd).close .main none sockfd with main := .done } := by
  have hl := h.listener hdone
  have htable : TableOk s.table s.accepted (s.access .main none .shutdown sockfd).accesses :=
    h.table.access fun k => by simp [Access.closesConnection]
  refine h.stepOfMain h.monitor rfl (fun _ _ => .refl _) ?_ ?_ trivial
    (htable.close hl _ _) ?_ (fun hd => absurd rfl hd) (Nat.le_refl _)
  · intro c hc
    exact absurd (hcall.symm.trans hc) (by simp)
  · intro p _
    refine .update _ fun o ho hb => ?_
    obtain rfl : o = .listener := Slot.opened.inj (ho.symm.trans hl)
    exact hb
  · exact handed_append (handed_append h.handed (by simp)) (by simp)

/-- **A step of `main` keeps the invariant**, if it finds no active descriptor. -/
theorem stepMain (h : Inv queueMax sockfd place s)
    (hclean : s.findsActive = false) (hs : s.stepMain sockfd = some s') :
    Inv queueMax sockfd place s' := by
  have hok := h.main
  unfold State.stepMain at hs
  split at hs
  · next hpc =>
    split at hs
    · exact h.mainGotoCall hs rfl trivial (by simp [hpc])
    · rw [← Option.some.inj hs]
      exact h.mainGoto (h.main_outside (by rw [hpc]; rfl)) trivial (by simp [hpc])
  · next hpc hphase =>
    rw [← Option.some.inj hs]
    exact h.mainGoto (by rw [hphase]; rfl) trivial (by simp [hpc])
  · next hpc hphase => exact h.scan (by rw [hphase]; rfl) (by simp [hpc]) hs
  · next i fd hpc hphase =>
    have hzero : fd = 0 := by simpa [State.findsActive, hpc, hphase] using hclean
    rw [if_pos hzero] at hs
    rw [← Option.some.inj hs]
    exact h.mainGoto (by rw [hphase]; rfl) trivial (by simp [hpc])
  · next hpc => exact absurd hok (by simp [hpc, MainOk])
  · next hpc => exact absurd hok (by simp [hpc, MainOk])
  · next hpc =>
    split at hs
    · exact h.scan (h.main_outside (by rw [hpc]; rfl)) (by simp [hpc]) hs
    · exact absurd hs (by simp)
  · next hpc =>
    rw [← Option.some.inj hs]
    exact h.closeListener (h.main_outside (by rw [hpc]; rfl)) (by simp [hpc])
  · exact absurd hs (by simp)

/-- `accept` returns a number that is not open. -/
theorem accept (h : Inv queueMax sockfd place s) {fd : ℕ} (hmain : s.main = .accepting)
    (hopen : (s.table fd).isOpen = false)
    (hs : State.call { s.opens fd (.connection s.accepted) with
      accepted := s.accepted + 1
      main := .pushing s.accepted fd } .main (.push fd) = some s') :
    Inv queueMax sockfd place s' := by
  obtain ⟨m, hm, rfl, hqueue, hlock, hphase⟩ := call_eq_some hs
  have hne : ∀ {g o}, s.table g = .opened o → g ≠ fd := ne_of_isOpen_eq_false hopen
  refine h.stepOfMain (Monitor.step_ok h.monitor hm) hqueue hphase ?_ ?_ ?_ (h.table.accept fd)
    h.handed ?_ (Nat.le_succ _)
  · intro c hc
    rw [hlock] at hc
    exact hc
  · exact fun p _ => .update _ fun o ho => absurd rfl (hne ho)
  · exact fun _ => ⟨h.ahead _ (Nat.le_refl _), Function.update_self _ _ _⟩
  · intro _
    have hl := h.listener (by simp [hmain])
    exact (Function.update_of_ne (hne hl) _ _).trans hl

end Inv

/-- A worker that is in a call does not depend on the value of the last one. -/
theorem WorkerOk.of_call {table : ℕ → Slot} {place : ℕ → Place n} {i : Fin n} {r r' : Option ℕ}
    {pc : WorkerPc} {c : QueueCall} (h : WorkerOk table place i r pc) (hpc : pc.call i = some c) :
    WorkerOk table place i r' pc := by
  cases pc with
  | popped k => exact absurd hpc (by simp [WorkerPc.call])
  | registering k fd => exact h
  | reading k fd => exact h
  | acting k fd cs => exact h
  | unregistering k fd cs => exact h
  | top | popping | exited => exact trivial

/-- When its call returns, `main` has nothing left to hold. -/
theorem MainOk.returned {table : ℕ → Slot} {place : ℕ → Place n} {call : Option QueueCall}
    {pc : MainPc n} (h : MainOk table place call pc) : MainOk table place none pc := by
  cases pc with
  | pushing k fd => exact fun hc => absurd rfl hc
  | shuttingDown i fd => exact h
  | closing i fd => exact h
  | looping | accepting | stopping | scanning | joining | closingListener | done => exact trivial

/-- A critical section that leaves the size of the ring moves no connection. -/
theorem transfer_of_size_eq {s : State n} {l : Monitor.Label (Thread n)}
    {m : Monitor.State (Thread n)} (h : m.queue.size = s.monitor.queue.size) :
    s.transfer l m = { s with monitor := m } := by
  unfold State.transfer
  split
  · rw [if_neg (by omega)]
  · rw [if_neg (by omega)]
  · rfl

/-- A push that stored its descriptor moves the connection of `main`. -/
theorem transfer_of_size_lt {s : State n} {woken : Finset (Thread n)}
    {m : Monitor.State (Thread n)} {k fd : ℕ} (hpc : s.main = .pushing k fd)
    (h : s.monitor.queue.size < m.queue.size) :
    s.transfer (.critical .main woken) m =
      { s with monitor := m, queued := s.queued ++ [k] } := by
  cases s
  cases hpc
  exact if_pos h

/-- A pop that took a descriptor moves the first connection of the queue. -/
theorem transfer_of_lt_size {s : State n} {i : Fin n} {woken : Finset (Thread n)}
    {m : Monitor.State (Thread n)} {k : ℕ} {ks : List ℕ} (hqueued : s.queued = k :: ks)
    (h : m.queue.size < s.monitor.queue.size) :
    s.transfer (.critical (.worker i) woken) m =
      { s.goto i (.popped k) with monitor := m, queued := ks } := by
  cases s
  cases hqueued
  exact if_pos h

namespace Inv

variable {queueMax sockfd : ℕ} {place : ℕ → Place n} {s s' : State n}
  {m : Monitor.State (Thread n)}

/-- A monitor step that moves no connection: every thread goes on in its call or
returns from it. -/
theorem noTransfer (h : Inv queueMax sockfd place s) (hm : Monitor.Ok queueMax m)
    (hqueue : m.queue.contents = s.monitor.queue.contents)
    (hphase : ∀ u, (s.monitor.phase u).Alike (m.phase u) ∨
      ((m.phase u).call = none ∧ ∃ c, (s.monitor.phase u).call = some c)) :
    Inv queueMax sockfd place { s with monitor := m } := by
  refine ⟨hm, fun c hc => ?_, fun i c hc => ?_, ?_, ?_, fun i => ?_, h.table, h.handed, h.listener,
    h.ahead⟩
  · rcases hphase .main with halike | ⟨hnone, -⟩
    · exact h.mainCall c (halike.1 ▸ hc)
    · exact absurd (hnone.symm.trans hc) (by simp)
  · rcases hphase (.worker i) with halike | ⟨hnone, -⟩
    · exact h.workerCall i c (halike.1 ▸ hc)
    · exact absurd (hnone.symm.trans hc) (by simp)
  · rw [hqueue]
    exact h.queue
  · rcases hphase .main with halike | ⟨hnone, -⟩
    · rw [halike.1]
      exact h.main
    · rw [hnone]
      exact h.main.returned
  · rcases hphase (.worker i) with halike | ⟨-, c, hc⟩
    · rw [halike.2]
      exact h.workers i
    · exact (h.workers i).of_call (h.workerCall i c hc)

/-- `queue_push` stores the descriptor `main` holds. -/
theorem stored (h : Inv queueMax sockfd place s) (hm : Monitor.Ok queueMax m) {k fd : ℕ}
    (hpc : s.main = .pushing k fd) (hcall : (s.monitor.phase .main).call = some (.push fd))
    (hqueue : m.queue.contents = s.monitor.queue.contents ++ [fd])
    (hready : (m.phase .main).call = none)
    (hphase : ∀ u, u ≠ .main → (s.monitor.phase u).Alike (m.phase u)) :
    Inv queueMax sockfd (Function.update place k .queue)
      { s with monitor := m, queued := s.queued ++ [k] } := by
  have hholds : Holds s.table place (.thread .main) k fd := by
    have hmain := h.main
    rw [hpc, hcall] at hmain
    exact hmain (by simp)
  have hnew : k ∉ s.queued := by
    intro hk
    exact absurd ((h.queue.queued k hk).symm.trans hholds.1) (by simp)
  have hkeeps : ∀ p, p ≠ .thread .main →
      Keeps p s.table s.table place (Function.update place k .queue) :=
    fun p hp => .move _ (by rw [hholds.1]; exact hp.symm)
  refine ⟨hm, fun c hc => absurd (hready.symm.trans hc) (by simp), fun i c hc =>
    h.workerCall i c ((hphase (.worker i) (by simp)).1 ▸ hc), ?_, ?_, fun i => ?_, h.table,
    h.handed, h.listener, fun k' hk' => ?_⟩
  · refine ⟨?_, ?_, fun k' hk' => ?_⟩
    · rw [hqueue, List.map_append, List.map_append, h.queue.slots, List.map_singleton, hholds.2]
      rfl
    · exact h.queue.nodup.append (List.nodup_singleton k) (by simpa using hnew)
    · rcases List.mem_append.mp hk' with hk' | hk'
      · exact (hkeeps .queue (by simp)).stays k' (h.queue.queued k' hk')
      · rw [List.mem_singleton.mp hk', Function.update_self]
  · rw [hready]
    show MainOk s.table _ none s.main
    rw [hpc]
    exact fun hc => absurd rfl hc
  · rw [(hphase (.worker i) (by simp)).2]
    exact (h.workers i).keeps (hkeeps _ (by simp))
  · have hlt : k < s.accepted := h.table.fresh fd k (by rw [hholds.2]; rfl)
    have hne : k' ≠ k := (Nat.lt_of_lt_of_le hlt hk').ne'
    rw [Function.update_of_ne hne]
    exact h.ahead k' hk'

/-- `queue_pop` takes the first descriptor of the ring. -/
theorem taken (h : Inv queueMax sockfd place s) (hm : Monitor.Ok queueMax m) {i : Fin n} {fd : ℕ}
    (hqueue : s.monitor.queue.contents = fd :: m.queue.contents)
    (hready : m.phase (.worker i) = .ready (some fd))
    (hphase : ∀ u, u ≠ .worker i → (s.monitor.phase u).Alike (m.phase u)) :
    ∃ k ks, s.queued = k :: ks ∧
      Inv queueMax sockfd (Function.update place k (.thread (.worker i)))
        { s.goto i (.popped k) with monitor := m, queued := ks } := by
  have hslots := h.queue.slots
  rw [hqueue] at hslots
  cases hq : s.queued with
  | nil => exact absurd hslots (by simp [hq])
  | cons k ks =>
    refine ⟨k, ks, rfl, ?_⟩
    rw [hq, List.map_cons, List.map_cons, List.cons.injEq] at hslots
    have hplace : place k = .queue := h.queue.queued k (by rw [hq]; exact List.mem_cons_self)
    have hnodup := h.queue.nodup
    rw [hq, List.nodup_cons] at hnodup
    have hkeeps : ∀ p, p ≠ .queue →
        Keeps p s.table s.table place (Function.update place k (.thread (.worker i))) :=
      fun p hp => .move _ (by rw [hplace]; exact hp.symm)
    have hmain := hphase .main (by simp)
    refine ⟨hm, fun c hc => h.mainCall c (hmain.1 ▸ hc), fun j c hc => ?_, ?_, ?_, fun j => ?_,
      h.table, h.handed, h.listener, fun k' hk' => ?_⟩
    · show (Function.update s.worker i (.popped k) j).call j = some c
      by_cases hj : j = i
      · subst hj
        exact absurd hc (by simp [hready, Monitor.Phase.call])
      · have hother := hphase (.worker j) (by simpa using hj)
        rw [Function.update_of_ne hj]
        exact h.workerCall j c (hother.1 ▸ hc)
    · refine ⟨hslots.2, hnodup.2, fun k' hk' => ?_⟩
      have hne : k' ≠ k := by
        rintro rfl
        exact hnodup.1 hk'
      rw [Function.update_of_ne hne]
      exact h.queue.queued k' (by rw [hq]; exact List.mem_cons_of_mem _ hk')
    · rw [hmain.1]
      exact h.main.keeps (hkeeps _ (by simp))
    · show WorkerOk s.table (Function.update place k (.thread (.worker i))) j
        (m.phase (.worker j)).result (Function.update s.worker i (.popped k) j)
      by_cases hj : j = i
      · subst hj
        rw [Function.update_self, hready]
        exact ⟨fd, rfl, Function.update_self _ _ _, hslots.1⟩
      · have hother := hphase (.worker j) (by simpa using hj)
        rw [hother.2, Function.update_of_ne hj]
        exact (h.workers j).keeps (hkeeps _ (by simp))
    · have hlt : k < s.accepted := h.table.fresh fd k (by rw [hslots.1]; rfl)
      have hne : k' ≠ k := (Nat.lt_of_lt_of_le hlt hk').ne'
      rw [Function.update_of_ne hne]
      exact h.ahead k' hk'

/-- **A monitor step keeps the invariant**, with the connections where they are then. -/
theorem monitorStep (h : Inv queueMax sockfd place s) {l : Monitor.Label (Thread n)}
    (hl : ∀ t c, l ≠ .call t c) (hs : Monitor.step s.monitor l = some m) :
    ∃ place', Inv queueMax sockfd place' (s.transfer l m) := by
  have hm := Monitor.step_ok h.monitor hs
  rcases Monitor.step_effect hs hl with
    ⟨hq, halike⟩ | ⟨t, c, woken, r, wakes, rfl, hin, hdone, hready, hother⟩
  · rw [transfer_of_size_eq (by rw [hq])]
    exact ⟨place, h.noTransfer hm (by rw [hq]) fun u => .inl (halike u)⟩
  have hcall : (s.monitor.phase t).call = some c := by rw [hin]; rfl
  have hreturned : (m.phase t).call = none := by rw [hready]; rfl
  have hstay : m.queue.size = s.monitor.queue.size →
      m.queue.contents = s.monitor.queue.contents →
      ∃ place', Inv queueMax sockfd place' (s.transfer (.critical t woken) m) := by
    intro hsize hcontents
    rw [transfer_of_size_eq hsize]
    refine ⟨place, h.noTransfer hm hcontents fun u => ?_⟩
    by_cases hut : u = t
    · subst hut
      exact .inr ⟨hreturned, c, hcall⟩
    · exact .inl (hother u hut)
  -- only a push by `main` and a pop by a worker can move a connection
  cases c with
  | push fd =>
    rcases queuePush_done hdone with ⟨-, hq, -⟩ | ⟨-, hroom, hq, -⟩
    · exact hstay (by rw [hq]) (by rw [hq])
    · cases t with
      | worker i => exact absurd (h.workerCall i _ hcall) (WorkerPc.call_ne_push _ _ _)
      | main =>
        obtain ⟨k, hpc⟩ := MainPc.eq_pushing_of_call (h.mainCall _ hcall)
        have hlt : s.monitor.queue.size < m.queue.size := by
          rw [hq]
          exact Int.lt_succ _
        refine ⟨Function.update place k .queue, ?_⟩
        rw [transfer_of_size_lt hpc hlt]
        refine h.stored hm hpc hcall ?_ hreturned hother
        rw [hq]
        exact h.monitor.queue.contents_store hroom fd
  | pop =>
    rcases queuePop_done hdone with ⟨-, hq, -⟩ | ⟨-, hsome, hq, rfl, -⟩
    · exact hstay (by rw [hq]) (by rw [hq])
    · cases t with
      | main => exact absurd (h.mainCall _ hcall) (MainPc.call_ne_pop _)
      | worker i =>
        have hlt : m.queue.size < s.monitor.queue.size := by
          rw [hq]
          exact Int.sub_lt_self _ (by decide)
        have hcontents := h.monitor.queue.contents_eq_cons hsome
        rw [← hq] at hcontents
        obtain ⟨k, ks, hqueued, hinv⟩ := h.taken hm hcontents hready hother
        rw [transfer_of_lt_size hqueued hlt]
        exact ⟨_, hinv⟩
  | addActiveFd fd id | delActiveFd id =>
    obtain ⟨hq, -, -⟩ := Outcome.done.inj hdone
    exact hstay (by rw [← hq]) (by rw [← hq]; rfl)
  | getActiveFd id | shutdown =>
    obtain ⟨hq, -, -⟩ := Outcome.done.inj hdone
    exact hstay (by rw [← hq]) (by rw [← hq])

/-- **A clean step keeps the invariant.** -/
theorem cleanStep {sc : ServerConf} (h : Inv queueMax sockfd place s) {l : Label n}
    (hclean : Clean s l) (hs : step sc sockfd s l = some s') :
    ∃ place', Inv queueMax sockfd place' s' := by
  cases l with
  | monitor l =>
    cases l with
    | call t c => exact absurd hs (by simp [step])
    | lock t | critical t woken | spurious t | sigint =>
      simp only [step] at hs
      obtain ⟨m, hm, rfl⟩ := Option.map_eq_some_iff.mp hs
      exact h.monitorStep (by simp) hm
  | accept fd =>
    simp only [step] at hs
    split at hs
    · next hacc => exact ⟨place, h.accept hacc.1 hacc.2 hs⟩
    · exact absurd hs (by simp)
  | acceptFails =>
    simp only [step] at hs
    split at hs
    · next hacc => exact ⟨place, h.mainGotoCall hs rfl trivial (by simp [hacc])⟩
    · exact absurd hs (by simp)
  | main => exact ⟨place, h.stepMain hclean hs⟩
  | worker i => exact ⟨place, h.stepWorker hclean hs⟩
  | recv i =>
    simp only [step] at hs
    split at hs
    · next k fd hpc =>
      have hok := h.workers i
      rw [hpc] at hok
      rw [← Option.some.inj hs]
      exact ⟨place, h.access (by simp) (h.worker_outside (by rw [hpc]; rfl)) hok hok⟩
    · exact absurd hs (by simp)
  | received i c =>
    simp only [step] at hs
    split at hs
    · next k fd hpc =>
      split at hs
      · exact absurd hs (by simp)
      · have hok := h.workers i
        rw [hpc] at hok
        have hout := h.worker_outside (i := i) (by rw [hpc]; rfl)
        rw [← Option.some.inj hs]
        refine ⟨place, h.stepOfWorker h.monitor rfl (fun _ _ => .refl _) ?_ (fun p _ => .refl p _ _)
          ?_ h.table h.handed id⟩
        · intro c hc
          exact absurd (hout.symm.trans hc) (by simp)
        · exact ⟨true, 0, program_sound sc _ c, fun _ => hok, Multiset.nodup_zero, by simp⟩
    · exact absurd hs (by simp)

end Inv

/-- The first state is in order. -/
theorem inv_initial (queueMax sockfd : ℕ) (base : List ℕ) (requests : Fin n → HttpRequest) :
    Inv queueMax sockfd (fun _ => .thread .main)
      (State.initial queueMax sockfd base requests) := by
  have hconn : ∀ fd k, ((State.initial queueMax sockfd base requests).table fd).object ≠
      some (.connection k) := by
    intro fd k
    simp only [State.initial]
    split_ifs <;> simp [Slot.object]
  refine ⟨Monitor.ok_initial queueMax, fun c hc => absurd hc (by simp [State.initial,
    Monitor.State.initial, Monitor.Phase.call]), fun i c hc => absurd hc (by simp [State.initial,
    Monitor.State.initial, Monitor.Phase.call]), ⟨rfl, List.nodup_nil, by simp [State.initial]⟩,
    trivial, fun i => trivial, ⟨fun fd k hk => absurd hk (hconn fd k), fun fd fd' k hk => ?_,
      fun k => Nat.zero_le _, fun fd k hk => rfl, fun k _ => rfl⟩, by simp [State.initial], ?_,
    fun _ _ => rfl⟩
  · exact absurd (congrArg Slot.object hk) (hconn fd k)
  · intro _
    simp [State.initial]

/-- **Descriptors stay with their owners.**  In a run of `main` and any number of workers
in which no `send` reports `EPIPE` and the scan at shutdown finds no active
descriptor, every call a worker makes on its client's descriptor acts on the connection
it popped, and no connection is closed twice, in every state. -/
theorem owned_of_clean (sc : ServerConf) (queueMax sockfd : ℕ) (base : List ℕ)
    (requests : Fin n → HttpRequest) {ls : List (Label n)}
    (hclean : Along (step sc sockfd) Clean (State.initial queueMax sockfd base requests) ls) :
    Throughout (step sc sockfd) Owned (State.initial queueMax sockfd base requests) ls := by
  intro ms ns t hsplit hrun
  subst hsplit
  have hstep : ∀ (s : State n) l s', (∃ place, Inv queueMax sockfd place s) → Clean s l →
      step sc sockfd s l = some s' → ∃ place, Inv queueMax sockfd place s' := by
    rintro s l s' ⟨place, hs⟩ hl hls
    exact hs.cleanStep hl hls
  obtain ⟨place, h⟩ := run_invariant_along hstep
    ⟨_, inv_initial queueMax sockfd base requests⟩ hclean.of_append hrun
  exact h.owned

/-- A server with one worker, a queue of one place, and the numbers up to 4 in use. -/
def oneWorker : State 1 := State.initial 1 4 [0, 1, 2, 3] fun _ => .zeroed

/-- The worker sleeps at the empty queue; a client arrives under the number 5 and is
handed to it. -/
def clientHanded : List (Label 1) :=
  [.worker 0, .monitor (.lock (.worker 0)), .monitor (.critical (.worker 0) ∅),
    .main, .accept 5, .monitor (.lock .main), .monitor (.critical .main {.worker 0}), .main,
    .monitor (.lock (.worker 0)), .monitor (.critical (.worker 0) ∅),
    .worker 0, .monitor (.lock (.worker 0)), .monitor (.critical (.worker 0) ∅), .worker 0,
    .recv 0]

/-- The client asks for the options, gets them, and is closed. -/
def clientServed : List (Label 1) :=
  clientHanded ++ [.received 0 Worker.optionsConnection, .worker 0, .worker 0,
    .monitor (.lock (.worker 0)), .monitor (.critical (.worker 0) ∅), .worker 0,
    .worker 0, .worker 0, .worker 0]

theorem clientServed_owned :
    ∃ s, run (step sampleConf 4) oneWorker clientServed = some s ∧ s.closes 0 = 1 ∧
      s.accesses.length = 4 ∧ Owned s := by
  have hclean : Along (step sampleConf 4) Clean oneWorker clientServed := by decide +kernel
  have hrun : (run (step sampleConf 4) oneWorker clientServed).map
      (fun s => (s.closes 0, s.accesses.length)) = some (1, 4) := by decide +kernel
  obtain ⟨s, hs, hcount⟩ := Option.map_eq_some_iff.mp hrun
  obtain ⟨hcloses, hlength⟩ := Prod.mk.inj hcount
  exact ⟨s, hs, hcloses, hlength,
    owned_of_clean sampleConf 1 4 [0, 1, 2, 3] _ hclean _ [] s (List.append_nil _).symm hs⟩

/-- The same client, gone before the answer: the first `send` reports `EPIPE`. -/
def resetConnection : Worker.Connection :=
  { Worker.optionsConnection with
    env := { Worker.optionsConnection.env with
      send := fun k => if k = 0 then .fail .epipe else .all } }

/-- `tcp_send` closes the descriptor, the next client is accepted under its number, and
the worker sends the second client the error page meant for the first. -/
def numberReused : List (Label 1) :=
  clientHanded ++ [.received 0 resetConnection, .worker 0, .worker 0, .worker 0,
    .main, .accept 5, .worker 0, .worker 0, .worker 0, .worker 0]

theorem numberReused_not_owned :
    ∃ s, run (step sampleConf 4) oneWorker numberReused = some s ∧ ¬ Owned s ∧
      s.accesses.getLast? = some ⟨.worker 0, some 0, .close, .opened (.connection 1)⟩ := by
  have hrun : (run (step sampleConf 4) oneWorker numberReused).map
      (fun s => s.accesses.getLast?) =
      some (some ⟨.worker 0, some 0, .close, .opened (.connection 1)⟩) := by decide +kernel
  obtain ⟨s, hs, hlast⟩ := Option.map_eq_some_iff.mp hrun
  refine ⟨s, hs, fun h => ?_, hlast⟩
  exact absurd (h.handed _ (List.mem_of_getLast? hlast) 0 rfl) (by decide)

end Pool
end BareHttp
