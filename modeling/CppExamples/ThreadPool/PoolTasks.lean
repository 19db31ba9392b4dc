import CppExamples.ThreadPool.ThreadPool

/-! # No task is lost, no wake-up is missed

What a step can do is said once, as a `Change`; every invariant goes through its
cases.  The tasks that were accepted are in the queue, in the hands of the workers or
finished, each in one of these places.  A worker that waits is owed a notification
as soon as there is something for it to do.
-/
namespace CppExamples.ThreadPool
open Holders
variable {κ : Type*} {threads : ℕ}

namespace Pool

/-- The tasks in the hands of the workers. -/
def running (s : Pool threads κ) : Multiset κ := held (Worker.task ∘ s.workers)

theorem mem_running {s : Pool threads κ} {c : κ} :
    c ∈ s.running ↔ ∃ worker, s.workers worker = .running c := by
  rw [running, mem_held]
  apply exists_congr
  intro worker
  cases h : s.workers worker <;> simp [Worker.task, h]

theorem held_workers {workers : Fin threads → Worker κ} {worker : Fin threads} {next : Worker κ}
    (h : (workers worker).task = next.task) :
    held (Worker.task ∘ Function.update workers worker next) = held (Worker.task ∘ workers) := by
  rw [Function.comp_update]
  exact held_keep h

variable [DecidableEq κ]

inductive Change (s : Pool threads κ) : Pool threads κ → Prop where
  | refuse (call : κ) (hcall : s.enqueues call = .called) (hstop : s.stop = true) :
    Change s { s with enqueues := Function.update s.enqueues call .threw }
  | accept (call : κ) (hcall : s.enqueues call = .called) (hstop : s.stop = false) :
    Change s { s with
      tasks := s.tasks ++ [call]
      accepted := s.accepted ++ [call]
      enqueues := Function.update s.enqueues call .mustNotify }
  | notifyNobody (call : κ) (hcall : s.enqueues call = .mustNotify)
    (hnobody : ∀ worker, s.workers worker ≠ .waiting) :
    Change s { s with enqueues := Function.update s.enqueues call .returned }
  | notifyOne (call : κ) (worker : Fin threads) (hcall : s.enqueues call = .mustNotify)
    (hwaits : s.workers worker = .waiting) :
    Change s { s with
      enqueues := Function.update s.enqueues call .returned
      workers := Function.update s.workers worker .ready }
  | wait (worker : Fin threads) (hready : s.workers worker = .ready) (hstop : s.stop = false)
    (htasks : s.tasks = []) :
    Change s { s with workers := Function.update s.workers worker .waiting }
  | leave (worker : Fin threads) (hready : s.workers worker = .ready) (hstop : s.stop = true)
    (htasks : s.tasks = []) :
    Change s { s with workers := Function.update s.workers worker .returned }
  | take (worker : Fin threads) (task : κ) (rest : List κ) (hready : s.workers worker = .ready)
    (htasks : s.tasks = task :: rest) :
    Change s { s with
      tasks := rest
      taken := s.taken ++ [task]
      workers := Function.update s.workers worker (.running task) }
  | wakeSpuriously (worker : Fin threads) (hwaits : s.workers worker = .waiting) :
    Change s { s with workers := Function.update s.workers worker .ready }
  | endTask (worker : Fin threads) (task : κ) (hruns : s.workers worker = .running task) :
    Change s { s with
      finished := s.finished ++ [task]
      workers := Function.update s.workers worker .ready }
  | stop (hbefore : s.destructor = .before) :
    Change s { s with stop := true, destructor := .mustNotify }
  | notifyAll (hmust : s.destructor = .mustNotify) :
    Change s { s with
      workers := fun worker => (s.workers worker).notified
      destructor := .joining 0 }
  | join (joined : ℕ) (hlt : joined < threads) (hjoining : s.destructor = .joining joined)
    (hreturned : s.workers ⟨joined, hlt⟩ = .returned) :
    Change s { s with destructor := .joining (joined + 1) }

theorem change_workerSection (s : Pool threads κ) (worker : Fin threads)
    (hready : s.workers worker = .ready) :
    ∃ t, s.workerSection worker = some t ∧ s.Change t := by
  cases htasks : s.tasks with
  | nil =>
    cases hstop : s.stop with
    | false => exact ⟨_,by simp [workerSection, htasks, hstop],.wait worker hready hstop htasks⟩
    | true => exact ⟨_,by simp [workerSection, htasks, hstop],.leave worker hready hstop htasks⟩
  | cons task rest =>
    exact ⟨_,by simp [workerSection, htasks],.take worker task rest hready htasks⟩

theorem change_of_step {s t : Pool threads κ} {a : Act threads κ} (h : s.step a = some t) :
    s.Change t := by
  cases a with
  | enqueue call =>
    obtain ⟨hcall,he⟩ := Option.ite_none_right_eq_some.mp h
    obtain rfl := Option.some.inj he
    unfold enqueueSection
    split
    next hstop => exact .refuse call hcall hstop
    next hstop => exact .accept call hcall (by simpa using hstop)
  | notifyOne call woken =>
    obtain ⟨hcall,he⟩ := Option.ite_none_right_eq_some.mp h
    cases woken with
    | none =>
      obtain ⟨hnobody,he⟩ := Option.ite_none_left_eq_some.mp he
      obtain rfl := Option.some.inj he
      exact .notifyNobody call hcall (not_exists.mp hnobody)
    | some worker =>
      obtain ⟨hwaits,he⟩ := Option.ite_none_right_eq_some.mp he
      obtain rfl := Option.some.inj he
      exact .notifyOne call worker hcall hwaits
  | locked worker =>
    obtain ⟨hready,he⟩ := Option.ite_none_right_eq_some.mp h
    obtain ⟨u,hu,hchange⟩ := change_workerSection s worker hready
    obtain rfl := Option.some.inj (hu.symm.trans he)
    exact hchange
  | wakeSpuriously worker =>
    obtain ⟨hwaits,he⟩ := Option.ite_none_right_eq_some.mp h
    obtain rfl := Option.some.inj he
    exact .wakeSpuriously worker hwaits
  | endTask worker =>
    cases hruns : s.workers worker with
    | running task =>
      simp only [step, hruns, Option.some.injEq] at h
      subst h
      exact .endTask worker task hruns
    | ready | waiting | returned => simp [step, hruns] at h
  | stop =>
    obtain ⟨hbefore,he⟩ := Option.ite_none_right_eq_some.mp h
    obtain rfl := Option.some.inj he
    exact .stop hbefore
  | notifyAll =>
    obtain ⟨hmust,he⟩ := Option.ite_none_right_eq_some.mp h
    obtain rfl := Option.some.inj he
    exact .notifyAll hmust
  | join =>
    cases hjoining : s.destructor with
    | before | mustNotify => simp [step, hjoining] at h
    | joining joined =>
      simp only [step, hjoining, Option.dite_none_right_eq_some, Option.ite_none_right_eq_some,
        Option.some.injEq] at h
      obtain ⟨hlt,hreturned,rfl⟩ := h
      exact .join joined hlt hjoining hreturned

/-- The queue holds what was accepted and not taken, in order; what was taken is in
the hands of the workers or finished; each call is accepted once at most. -/
structure Conserved (s : Pool threads κ) : Prop where
  order : s.accepted = s.taken ++ s.tasks
  places : (s.taken : Multiset κ) = s.running + s.finished
  nodup : s.accepted.Nodup
  mem_accepted : ∀ c, c ∈ s.accepted ↔ s.enqueues c = .mustNotify ∨ s.enqueues c = .returned

omit [DecidableEq κ] in
theorem Conserved.initial : (initial : Pool threads κ).Conserved where
  order := rfl
  places := by
    have hnone : (Pool.initial : Pool threads κ).running = 0 := held_eq_zero fun _ => rfl
    rw [hnone]
    rfl
  nodup := List.nodup_nil
  mem_accepted c := by simp [Pool.initial]

theorem Conserved.moves {s : Pool threads κ} (h : s.Conserved) {call : κ} {next : Enqueue}
    (hcall : s.enqueues call = .called ∧ next = .threw ∨
      s.enqueues call = .mustNotify ∧ next = .returned) (c : κ) :
    c ∈ s.accepted ↔ Function.update s.enqueues call next c = .mustNotify ∨
      Function.update s.enqueues call next c = .returned := by
  rw [h.mem_accepted]
  by_cases hc : c = call
  · subst hc
    rcases hcall with ⟨hcall,rfl⟩ | ⟨hcall,rfl⟩ <;> simp [hcall]
  · rw [Function.update_of_ne hc]

omit [DecidableEq κ] in
theorem Conserved.keeps {s : Pool threads κ} (h : s.Conserved) {worker : Fin threads}
    {next : Worker κ} (hsame : (s.workers worker).task = next.task) :
    (s.taken : Multiset κ) =
      held (Worker.task ∘ Function.update s.workers worker next) + s.finished := by
  rw [held_workers hsame]
  exact h.places

theorem Conserved.change {s t : Pool threads κ} (h : s.Conserved) (hc : s.Change t) :
    t.Conserved := by
  cases hc with
  | refuse call hcall => exact ⟨h.order,h.places,h.nodup,h.moves (.inl ⟨hcall,rfl⟩)⟩
  | accept call hcall =>
    have hnew : call ∉ s.accepted := by
      rw [h.mem_accepted, hcall]
      simp
    refine ⟨?_,h.places,?_,?_⟩
    · simp only [h.order, List.append_assoc]
    · exact List.nodup_append.mpr ⟨h.nodup,List.nodup_singleton call,by grind⟩
    · intro c
      rw [List.mem_append, List.mem_singleton, h.mem_accepted]
      by_cases he : c = call
      · simp [he]
      · simp [he]
  | notifyNobody call hcall => exact ⟨h.order,h.places,h.nodup,h.moves (.inr ⟨hcall,rfl⟩)⟩
  | notifyOne call worker hcall hwaits =>
    exact ⟨h.order,h.keeps (by rw [hwaits]; rfl),h.nodup,h.moves (.inr ⟨hcall,rfl⟩)⟩
  | wait worker hready =>
    exact ⟨h.order,h.keeps (by rw [hready]; rfl),h.nodup,h.mem_accepted⟩
  | leave worker hready =>
    exact ⟨h.order,h.keeps (by rw [hready]; rfl),h.nodup,h.mem_accepted⟩
  | take worker task rest hready htasks =>
    have hmore : held (Worker.task ∘ Function.update s.workers worker (.running task)) =
        s.running + {task} := by
      rw [Function.comp_update]
      exact held_take task (by simp [hready, Worker.task])
    refine ⟨?_,?_,h.nodup,h.mem_accepted⟩
    · rw [h.order, htasks, List.append_assoc, List.singleton_append]
    · rw [running, hmore, ← Multiset.coe_add, h.places, Multiset.coe_singleton]
      ac_rfl
  | wakeSpuriously worker hwaits =>
    exact ⟨h.order,h.keeps (by rw [hwaits]; rfl),h.nodup,h.mem_accepted⟩
  | endTask worker task hruns =>
    have hless : held (Worker.task ∘ Function.update s.workers worker .ready) + {task} =
        s.running := by
      rw [Function.comp_update]
      exact held_give (by simp [hruns, Worker.task])
    refine ⟨h.order,?_,h.nodup,h.mem_accepted⟩
    rw [running, h.places, ← hless, ← Multiset.coe_add, Multiset.coe_singleton]
    ac_rfl
  | stop => exact ⟨h.order,h.places,h.nodup,h.mem_accepted⟩
  | notifyAll =>
    have hsame : (Worker.task ∘ fun worker => (s.workers worker).notified) =
        Worker.task ∘ s.workers := by
      funext worker
      cases hw : s.workers worker <;> simp [Worker.notified, Worker.task, hw]
    refine ⟨h.order,?_,h.nodup,h.mem_accepted⟩
    rw [running, hsame]
    exact h.places
  | join => exact ⟨h.order,h.places,h.nodup,h.mem_accepted⟩

/-- After the destructor's section nothing is added, nobody waits longer than to the
notification, and who has returned has left an empty queue. -/
structure Shutdown (s : Pool threads κ) : Prop where
  stop_iff : s.stop = true ↔ s.destructor ≠ .before
  returned : ∀ worker, s.workers worker = .returned → s.stop = true ∧ s.tasks = []
  waiting : s.stop = true → ∀ worker, s.workers worker = .waiting → s.destructor = .mustNotify
  joined : ∀ joined, s.destructor = .joining joined → ∀ worker : Fin threads,
    worker.val < joined → s.workers worker = .returned

omit [DecidableEq κ] in
theorem Shutdown.initial : (initial : Pool threads κ).Shutdown :=
  ⟨by simp [Pool.initial],by simp [Pool.initial],by simp [Pool.initial],by simp [Pool.initial]⟩

omit [DecidableEq κ] in
theorem Shutdown.moves {s : Pool threads κ} (h : s.Shutdown) {worker : Fin threads}
    (next : Worker κ) (hworker : s.workers worker ≠ .returned) (hnext : next ≠ .returned)
    (hwaits : next ≠ .waiting) :
    (∀ w, Function.update s.workers worker next w = .returned → s.workers w = .returned) ∧
    (∀ w, Function.update s.workers worker next w = .waiting → s.workers w = .waiting) ∧
    (∀ joined, s.destructor = .joining joined → ∀ w : Fin threads, w.val < joined →
      Function.update s.workers worker next w = .returned) := by
  refine ⟨?_,?_,?_⟩
  · intro w hw
    by_cases he : w = worker
    · subst he
      exact absurd (by simpa using hw) hnext
    · rwa [Function.update_of_ne he] at hw
  · intro w hw
    by_cases he : w = worker
    · subst he
      exact absurd (by simpa using hw) hwaits
    · rwa [Function.update_of_ne he] at hw
  · intro joined hjoining w hlt
    have hreturned := h.joined joined hjoining w hlt
    rwa [Function.update_of_ne]
    rintro rfl
    exact hworker hreturned

omit [DecidableEq κ] in
theorem Shutdown.ready {s : Pool threads κ} (h : s.Shutdown) {worker : Fin threads}
    (hworker : s.workers worker ≠ .returned) :
    { s with workers := Function.update s.workers worker .ready }.Shutdown := by
  obtain ⟨hreturned,hwaiting,hjoined⟩ := h.moves .ready hworker (by simp) (by simp)
  exact ⟨h.stop_iff,fun w hw => h.returned w (hreturned w hw),
    fun hstop w hw => h.waiting hstop w (hwaiting w hw),hjoined⟩

theorem Shutdown.change {s t : Pool threads κ} (h : s.Shutdown) (hc : s.Change t) :
    t.Shutdown := by
  cases hc with
  | refuse call => exact ⟨h.stop_iff,h.returned,h.waiting,h.joined⟩
  | accept call hcall hstop =>
    refine ⟨h.stop_iff,?_,h.waiting,h.joined⟩
    intro worker hreturned
    cases hstop.symm.trans (h.returned worker hreturned).1
  | notifyNobody call => exact ⟨h.stop_iff,h.returned,h.waiting,h.joined⟩
  | notifyOne call worker hcall hwaits =>
    obtain ⟨hiff,hreturned,hwaiting,hjoined⟩ := @Shutdown.ready _ _ _ h worker (by simp [hwaits])
    exact ⟨hiff,hreturned,hwaiting,hjoined⟩
  | wait worker hready hstop =>
    have hdestructor : s.destructor = .before := by
      by_contra hno
      cases hstop.symm.trans (h.stop_iff.mpr hno)
    refine ⟨h.stop_iff,?_,?_,?_⟩
    · intro w hw
      by_cases he : w = worker
      · subst he
        simp at hw
      · exact h.returned w (by simpa [Function.update_of_ne he] using hw)
    · intro hyes
      cases hstop.symm.trans hyes
    · intro joined hjoining
      cases hdestructor.symm.trans hjoining
  | leave worker hready hstop htasks =>
    refine ⟨h.stop_iff,fun _ _ => ⟨hstop,htasks⟩,?_,?_⟩
    · intro _ w hw
      by_cases he : w = worker
      · subst he
        simp at hw
      · exact h.waiting hstop w (by simpa [Function.update_of_ne he] using hw)
    · intro joined hjoining w hlt
      by_cases he : w = worker
      · subst he
        exact Function.update_self ..
      · exact (Function.update_of_ne he ..).trans (h.joined joined hjoining w hlt)
  | take worker task rest hready htasks =>
    obtain ⟨hreturned,hwaiting,hjoined⟩ := 
      @Shutdown.moves _ _ _ h worker (.running task) (by simp [hready]) (by simp) (by simp)
    refine ⟨h.stop_iff,?_,fun hstop w hw => h.waiting hstop w (hwaiting w hw),hjoined⟩
    intro w hw
    have hnone := (h.returned w (hreturned w hw)).2
    rw [htasks] at hnone
    cases hnone
  | wakeSpuriously worker hwaits =>
    obtain ⟨hiff,hreturned,hwaiting,hjoined⟩ := @Shutdown.ready _ _ _ h worker (by simp [hwaits])
    exact ⟨hiff,hreturned,hwaiting,hjoined⟩
  | endTask worker task hruns =>
    obtain ⟨hiff,hreturned,hwaiting,hjoined⟩ := @Shutdown.ready _ _ _ h worker (by simp [hruns])
    exact ⟨hiff,hreturned,hwaiting,hjoined⟩
  | stop hbefore =>
    refine ⟨by simp,fun w hw => ⟨rfl,(h.returned w hw).2⟩,fun _ _ _ => rfl,?_⟩
    intro joined hjoining
    cases hjoining
  | notifyAll hmust =>
    have hstop : s.stop = true := h.stop_iff.mpr (by simp [hmust])
    refine ⟨by simp [hstop],?_,?_,?_⟩
    · intro w hw
      cases hworker : s.workers w <;> simp [hworker, Worker.notified] at hw
      exact h.returned w hworker
    · intro _ w hw
      cases hworker : s.workers w <;> simp [hworker, Worker.notified] at hw
    · intro joined hjoining w hlt
      obtain rfl : 0 = joined := by simpa using hjoining
      exact absurd hlt (Nat.not_lt_zero _)
  | join joined hlt hjoining hreturned =>
    have hstop : s.stop = true := h.stop_iff.mpr (by simp [hjoining])
    refine ⟨by simp [hstop],h.returned,?_,?_⟩
    · intro _ w hw
      cases hjoining.symm.trans (h.waiting hstop w hw)
    · intro k hk w hw
      obtain rfl : joined + 1 = k := by simpa using hk
      rcases Nat.lt_succ_iff_lt_or_eq.mp hw with hbefore | rfl
      · exact h.joined joined hjoining w hbefore
      · exact hreturned

/-- While there are tasks, somebody is awake or about to notify. -/
def Awake (s : Pool threads κ) : Prop :=
  s.tasks ≠ [] → (∃ worker, s.workers worker ≠ .waiting) ∨
    (∃ call, s.enqueues call = .mustNotify) ∨ s.destructor = .mustNotify

theorem Awake.change {s t : Pool threads κ} (hthreads : 1 ≤ threads) (h : s.Awake)
    (hc : s.Change t) : t.Awake := by
  have hexists : Nonempty (Fin threads) := ⟨⟨0,hthreads⟩⟩
  obtain ⟨someone⟩ := hexists
  cases hc with
  | refuse call hcall =>
    intro htasks
    rcases h htasks with hworker | ⟨other,hother⟩ | hdestructor
    · exact .inl hworker
    · have hne : other ≠ call := by
        rintro rfl
        cases hcall.symm.trans hother
      exact .inr (.inl ⟨other,(Function.update_of_ne hne ..).trans hother⟩)
    · exact .inr (.inr hdestructor)
  | accept call => exact fun _ => .inr (.inl ⟨call,Function.update_self ..⟩)
  | notifyNobody call hcall hnobody => exact fun _ => .inl ⟨someone,hnobody someone⟩
  | notifyOne call worker => exact fun _ => .inl ⟨worker,by simp⟩
  | wait worker hready hstop htasks => exact fun hne => absurd htasks hne
  | leave worker hready hstop htasks => exact fun hne => absurd htasks hne
  | take worker task rest => exact fun _ => .inl ⟨worker,by simp⟩
  | wakeSpuriously worker => exact fun _ => .inl ⟨worker,by simp⟩
  | endTask worker => exact fun _ => .inl ⟨worker,by simp⟩
  | stop => exact fun _ => .inr (.inr rfl)
  | notifyAll =>
    refine fun _ => .inl ⟨someone,?_⟩
    cases hworker : s.workers someone <;> simp [hworker, Worker.notified]
  | join joined hlt hjoining hreturned => exact fun _ => .inl ⟨⟨joined,hlt⟩,by simp [hreturned]⟩

structure Invariant (s : Pool threads κ) : Prop where
  conserved : s.Conserved
  shutdown : s.Shutdown
  awake : s.Awake

theorem Reachable.conserved {s : Pool threads κ} (h : s.Reachable) : s.Conserved := by
  induction h with
  | refl => exact Conserved.initial
  | tail _ hs ih =>
    obtain ⟨a,ha⟩ := hs
    exact ih.change (change_of_step ha)

theorem Reachable.shutdown {s : Pool threads κ} (h : s.Reachable) : s.Shutdown := by
  induction h with
  | refl => exact Shutdown.initial
  | tail _ hs ih =>
    obtain ⟨a,ha⟩ := hs
    exact ih.change (change_of_step ha)

theorem Reachable.invariant (hthreads : 1 ≤ threads) {s : Pool threads κ} (h : s.Reachable) :
    s.Invariant := by
  refine ⟨h.conserved,h.shutdown,?_⟩
  induction h with
  | refl => exact fun hne => absurd rfl hne
  | tail _ hs ih =>
    obtain ⟨a,ha⟩ := hs
    exact ih.change hthreads (change_of_step ha)

omit [DecidableEq κ] in
/-- A task is in one place, whichever calls and workers have run. -/
theorem Conserved.nodup_places {s : Pool threads κ} (h : s.Conserved) :
    (s.tasks + s.running + s.finished : Multiset κ).Nodup := by
  have hall : (s.accepted : Multiset κ) = s.tasks + s.running + s.finished := by
    rw [h.order, ← Multiset.coe_add, h.places]
    ac_rfl
  rw [← hall]
  exact Multiset.coe_nodup.mpr h.nodup

omit [DecidableEq κ] in
theorem Conserved.mem_places {s : Pool threads κ} (h : s.Conserved) {c : κ} (hc : c ∈ s.accepted) :
    c ∈ s.tasks ∨ (∃ worker, s.workers worker = .running c) ∨ c ∈ s.finished := by
  rw [h.order, List.mem_append, ← Multiset.mem_coe, h.places, Multiset.mem_add, mem_running,
    Multiset.mem_coe] at hc
  tauto

/-- A worker returns in a step only out of its section, with the flag set and the
queue empty. -/
theorem Change.returned {s t : Pool threads κ} (h : s.Change t) {worker : Fin threads}
    (hbefore : s.workers worker ≠ .returned) (hafter : t.workers worker = .returned) :
    s.stop = true ∧ s.tasks = [] := by
  cases h with
  | leave _ _ hstop htasks => exact ⟨hstop,htasks⟩
  | refuse | accept | notifyNobody | stop | join => exact absurd hafter hbefore
  | notifyOne _ other | wait other | take other | wakeSpuriously other | endTask other =>
    by_cases he : worker = other
    · subst he
      simp at hafter
    · exact absurd (by simpa [Function.update_of_ne he] using hafter) hbefore
  | notifyAll => cases hw : s.workers worker <;> simp_all [Worker.notified]

/-- The guarantee of the pool, for any number of workers and any set of calls, in every
reachable state.  A call that has returned has its task in the queue, in the hands of a
worker or finished, no task is in two of these places or twice in one, and none is
taken twice; tasks are taken in the order in which they were accepted; a call that finds the flag
set throws and adds nothing; a worker returns only with the flag set and the queue
empty, so when all are joined all accepted tasks are finished; and a worker that waits
has somebody to wake it. -/
theorem pool_losesNothing (hthreads : 1 ≤ threads) {s : Pool threads κ} (h : s.Reachable) :
    (∀ c, s.enqueues c = .returned →
      c ∈ s.tasks ∨ (∃ worker, s.workers worker = .running c) ∨ c ∈ s.finished) ∧
    (s.tasks + s.running + s.finished : Multiset κ).Nodup ∧ s.taken.Nodup ∧
    s.accepted = s.taken ++ s.tasks ∧
    (∀ c t, s.step (.enqueue c) = some t → s.stop = true →
      t.enqueues c = .threw ∧ t.tasks = s.tasks ∧ t.accepted = s.accepted) ∧
    (∀ a t worker, s.step a = some t → s.workers worker ≠ .returned →
      t.workers worker = .returned → s.stop = true ∧ s.tasks = []) ∧
    (s.destructor = .joining threads → ∀ c ∈ s.accepted, c ∈ s.finished) ∧
    (s.tasks ≠ [] →
      (∃ worker, s.workers worker = .ready ∨ ∃ c, s.workers worker = .running c) ∨
      (∃ c, s.enqueues c = .mustNotify) ∨ s.destructor = .mustNotify) ∧
    (s.stop = true → ∀ worker, s.workers worker = .waiting → s.destructor = .mustNotify) := by
  obtain ⟨hconserved,hshutdown,hawake⟩ := h.invariant hthreads
  refine ⟨?_,hconserved.nodup_places,?_,hconserved.order,?_,?_,?_,?_,hshutdown.waiting⟩
  · intro c hc
    exact hconserved.mem_places ((hconserved.mem_accepted c).mpr (.inr hc))
  · have hnodup := hconserved.nodup
    rw [hconserved.order] at hnodup
    exact (List.nodup_append.mp hnodup).1
  · intro c t hstep hstop
    obtain ⟨-,he⟩ := Option.ite_none_right_eq_some.mp hstep
    obtain rfl := Option.some.inj he
    simp [enqueueSection, hstop]
  · intro a t worker hstep hbefore hafter
    exact (change_of_step hstep).returned hbefore hafter
  · intro hall c hc
    have hreturned := hshutdown.joined threads hall
    have hempty := (hshutdown.returned _ (hreturned ⟨0,hthreads⟩ hthreads)).2
    rcases hconserved.mem_places hc with hin | ⟨worker,hruns⟩ | hdone
    · rw [hempty] at hin
      cases hin
    · cases hruns.symm.trans (hreturned worker worker.isLt)
    · exact hdone
  · intro hne
    rcases hawake hne with ⟨worker,hworker⟩ | hcalls
    · refine .inl ⟨worker,?_⟩
      cases hw : s.workers worker with
      | ready => exact .inl rfl
      | running c => exact .inr ⟨c,rfl⟩
      | waiting => exact absurd hw hworker
      | returned => exact absurd (hshutdown.returned worker hw).2 hne
    · exact .inr hcalls

/-- One worker takes the first of two tasks; the call of the second is about to
notify. -/
theorem pool_losesNothing_sample :
    ∃ s : Pool 1 ℕ, (s.taken = [7] ∧ s.tasks = [8]) ∧
    (∀ c, s.enqueues c = .returned →
      c ∈ s.tasks ∨ (∃ worker, s.workers worker = .running c) ∨ c ∈ s.finished) ∧
    (s.tasks + s.running + s.finished : Multiset ℕ).Nodup ∧ s.taken.Nodup ∧
    s.accepted = s.taken ++ s.tasks ∧
    (∀ c t, s.step (.enqueue c) = some t → s.stop = true →
      t.enqueues c = .threw ∧ t.tasks = s.tasks ∧ t.accepted = s.accepted) ∧
    (∀ a t worker, s.step a = some t → s.workers worker ≠ .returned →
      t.workers worker = .returned → s.stop = true ∧ s.tasks = []) ∧
    (s.destructor = .joining 1 → ∀ c ∈ s.accepted, c ∈ s.finished) ∧
    (s.tasks ≠ [] →
      (∃ worker, s.workers worker = .ready ∨ ∃ c, s.workers worker = .running c) ∨
      (∃ c, s.enqueues c = .mustNotify) ∨ s.destructor = .mustNotify) ∧
    (s.stop = true → ∀ worker, s.workers worker = .waiting → s.destructor = .mustNotify) :=
  ⟨_,⟨rfl,rfl⟩,pool_losesNothing (by decide)
    (((Relation.ReflTransGen.refl.tail ⟨.enqueue 7,rfl⟩).tail ⟨.locked 0,rfl⟩).tail
      ⟨.enqueue 8,rfl⟩)⟩

end Pool
end CppExamples.ThreadPool
