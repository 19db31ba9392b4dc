import CppExamples.Library.Progress
import CppExamples.ThreadPool.PoolTasks

/-! # The pool comes to rest

A task costs the notification behind it, its taking and its end.  What the workers, the
notifications and the destructor have still to do is bounded by the tasks they have been
given, and when none of them can go on there is nothing left to do.
-/
namespace CppExamples.ThreadPool
open Progress
variable {κ : Type*} {threads : ℕ}

/-- The steps that the pool does not take of itself: a client calls `enqueue` or destroys
the pool, or a worker is woken without a notification. -/
def Act.isOwn : Act threads κ → Bool
  | .enqueue _ | .wakeSpuriously _ | .stop => false
  | _ => true

/-- An accepted call brings its task and its notification; a spurious wake-up brings one
look at the queue. -/
def Act.gain : Act threads κ → ℕ
  | .enqueue _ => 4
  | .wakeSpuriously _ => 1
  | _ => 0

def Worker.weight : Worker κ → ℕ
  | .running _ => 2
  | .ready => 1
  | .waiting | .returned => 0

def Enqueue.weight : Enqueue → ℕ
  | .mustNotify => 2
  | _ => 0

def Destructor.weight (threads : ℕ) : Destructor → ℕ
  | .before => 2 * threads + 1
  | .mustNotify => 2 * threads + 1
  | .joining joined => threads - joined

@[simp] theorem weight_running (task : κ) : (Worker.running task).weight = 2 := rfl
@[simp] theorem weight_ready : (Worker.ready : Worker κ).weight = 1 := rfl
@[simp] theorem weight_waiting : (Worker.waiting : Worker κ).weight = 0 := rfl
@[simp] theorem weight_returned : (Worker.returned : Worker κ).weight = 0 := rfl

namespace Pool

/-- What the pool has still to do. -/
def work (s : Pool threads κ) : ℕ :=
  2 * s.tasks.length + ∑ worker, (s.workers worker).weight +
    (s.accepted.map fun call => (s.enqueues call).weight).sum + s.destructor.weight threads

variable [DecidableEq κ] {s t : Pool threads κ}

omit [DecidableEq κ] in
theorem weight_workers (s : Pool threads κ) (worker : Fin threads) (next : Worker κ) :
    ∑ w, (Function.update s.workers worker next w).weight + (s.workers worker).weight =
      ∑ w, (s.workers w).weight + next.weight :=
  sum_update Worker.weight s.workers worker next

theorem Conserved.weight_enqueues {s : Pool threads κ} (h : s.Conserved) {call : κ}
    (hcall : s.enqueues call = .mustNotify) (next : Enqueue) :
    (s.accepted.map fun c => (Function.update s.enqueues call next c).weight).sum + 2 =
      (s.accepted.map fun c => (s.enqueues c).weight).sum + next.weight := by
  have hmem : call ∈ s.accepted := (h.mem_accepted call).mpr (.inl hcall)
  have hsum := map_sum_update Enqueue.weight s.enqueues next h.nodup hmem
  rwa [hcall] at hsum

theorem Conserved.weight_called {s : Pool threads κ} (h : s.Conserved) {call : κ}
    (hcall : s.enqueues call = .called) (next : Enqueue) :
    (s.accepted.map fun c => (Function.update s.enqueues call next c).weight) =
      s.accepted.map fun c => (s.enqueues c).weight := by
  refine List.map_congr_left fun c hc => ?_
  rw [Function.update_of_ne]
  rintro rfl
  rcases (h.mem_accepted c).mp hc with hno | hno <;> cases hcall.symm.trans hno

theorem work_enqueue (h : s.Conserved) {call : κ} (hcall : s.enqueues call = .called) :
    (s.enqueueSection call).work ≤ s.work + 4 := by
  unfold enqueueSection
  split
  next hstop =>
    simp only [work, h.weight_called hcall]
    omega
  next hstop =>
    simp only [work, List.length_append, List.length_singleton, List.map_append, List.sum_append,
      List.map_singleton, List.sum_singleton, Function.update_self, h.weight_called hcall]
    simp only [Enqueue.weight]
    omega

omit [DecidableEq κ] in
/-- The section of a worker ends its look at the queue: it waits, leaves or takes a task. -/
theorem work_workerSection {worker : Fin threads} (hready : s.workers worker = .ready)
    (hs : s.workerSection worker = some t) : t.work + 1 ≤ s.work := by
  have hmoves := weight_workers s worker
  simp only [hready, weight_ready] at hmoves
  unfold workerSection at hs
  split at hs
  next =>
    obtain rfl := Option.some.inj hs
    have hmove := hmoves .waiting
    simp only [work, weight_waiting] at hmove ⊢
    omega
  next =>
    split at hs
    next =>
      obtain rfl := Option.some.inj hs
      have hmove := hmoves .returned
      simp only [work, weight_returned] at hmove ⊢
      omega
    next =>
      cases htasks : s.tasks with
      | nil =>
        rw [htasks] at hs
        cases hs
      | cons task rest =>
        rw [htasks] at hs
        obtain rfl := Option.some.inj hs
        have hmove := hmoves (.running task)
        simp only [work, htasks, List.length_cons, weight_running] at hmove ⊢
        omega

theorem work_notifyOne (h : s.Conserved) {call : κ} {woken : Option (Fin threads)}
    (hs : s.step (.notifyOne call woken) = some t) : t.work + 1 ≤ s.work := by
  obtain ⟨hcall,he⟩ := Option.ite_none_right_eq_some.mp hs
  have hcalls := h.weight_enqueues hcall .returned
  rw [show Enqueue.returned.weight = 0 from rfl] at hcalls
  cases woken with
  | none =>
    obtain ⟨-,he⟩ := Option.ite_none_left_eq_some.mp he
    obtain rfl := Option.some.inj he
    simp only [work]
    omega
  | some worker =>
    obtain ⟨hwaits,he⟩ := Option.ite_none_right_eq_some.mp he
    obtain rfl := Option.some.inj he
    have hmove := weight_workers s worker .ready
    simp only [hwaits, weight_waiting, weight_ready] at hmove
    simp only [work]
    omega

omit [DecidableEq κ] in
theorem work_notifyAll (hmust : s.destructor = .mustNotify) :
    ({ s with
        workers := fun worker => (s.workers worker).notified
        destructor := .joining 0 } : Pool threads κ).work + 1 ≤ s.work := by
  have hwoken : ∑ worker, (s.workers worker).notified.weight ≤
      ∑ worker, ((s.workers worker).weight + 1) := by
    apply Finset.sum_le_sum
    intro worker _
    cases s.workers worker <;> simp [Worker.notified, Worker.weight]
  rw [Finset.sum_add_distrib, Finset.sum_const, Finset.card_univ, Fintype.card_fin,
    smul_eq_mul, mul_one] at hwoken
  simp only [work, hmust, Destructor.weight]
  omega

theorem work_step (h : s.Conserved) {a : Act threads κ} (hs : s.step a = some t) :
    t.work + a.isOwn.toNat ≤ s.work + a.gain := by
  cases a with
  | enqueue call =>
    obtain ⟨hcall,he⟩ := Option.ite_none_right_eq_some.mp hs
    obtain rfl := Option.some.inj he
    exact work_enqueue h hcall
  | notifyOne call woken => exact work_notifyOne h hs
  | locked worker =>
    obtain ⟨hready,he⟩ := Option.ite_none_right_eq_some.mp hs
    exact work_workerSection hready he
  | wakeSpuriously worker =>
    obtain ⟨hwaits,he⟩ := Option.ite_none_right_eq_some.mp hs
    obtain rfl := Option.some.inj he
    have hmove := weight_workers s worker .ready
    simp only [hwaits, weight_waiting, weight_ready] at hmove
    simp only [work, Act.isOwn, Act.gain, Bool.toNat_false]
    omega
  | endTask worker =>
    cases hruns : s.workers worker with
    | running task =>
      simp only [step, hruns, Option.some.injEq] at hs
      subst hs
      have hmove := weight_workers s worker .ready
      simp only [hruns, weight_running, weight_ready] at hmove
      simp only [work, Act.isOwn, Act.gain, Bool.toNat_true]
      omega
    | ready | waiting | returned => simp [step, hruns] at hs
  | stop =>
    obtain ⟨hbefore,he⟩ := Option.ite_none_right_eq_some.mp hs
    obtain rfl := Option.some.inj he
    simp [work, Act.isOwn, Act.gain, hbefore, Destructor.weight]
  | notifyAll =>
    obtain ⟨hmust,he⟩ := Option.ite_none_right_eq_some.mp hs
    obtain rfl := Option.some.inj he
    exact work_notifyAll hmust
  | join =>
    cases hjoining : s.destructor with
    | before | mustNotify => simp [step, hjoining] at hs
    | joining joined =>
      simp only [step, hjoining, Option.dite_none_right_eq_some, Option.ite_none_right_eq_some,
        Option.some.injEq] at hs
      obtain ⟨hlt,-,rfl⟩ := hs
      simp only [work, hjoining, Destructor.weight, Act.isOwn, Act.gain, Bool.toNat_true]
      omega

theorem Conserved.step (h : s.Conserved) {a : Act threads κ} (hs : s.step a = some t) :
    t.Conserved :=
  h.change (change_of_step hs)

/-- In every run of a new pool its own steps are at most three for every worker, one for
the destructor, four for every call of `enqueue` and one for every spurious wake-up. -/
theorem ownSteps_le {acts : List (Act threads κ)} (hrun : acts.foldlM step initial = some t) :
    acts.countP Act.isOwn + t.work ≤ 3 * threads + 1 + (acts.map Act.gain).sum := by
  have hstart : (initial : Pool threads κ).work = 3 * threads + 1 := by
    simp only [work, initial, List.length_nil, weight_ready, Finset.sum_const, Finset.card_univ,
      Fintype.card_fin, smul_eq_mul, List.map_nil, List.sum_nil, Destructor.weight]
    omega
  have hpaid := countP_le (fun _ _ _ h hs => h.step hs) (fun _ _ _ h hs => work_step h hs)
    Conserved.initial hrun
  rwa [hstart] at hpaid

/-- One worker, one task: it is accepted, taken and ended, and the call finds nobody to
notify. -/
theorem ownSteps_le_sample :
    ∃ t : Pool 1 ℕ, [Act.enqueue 7,.locked 0,.notifyOne 7 none,.endTask 0].foldlM step initial = some t ∧
      [Act.enqueue 7,.locked 0,.notifyOne 7 none,.endTask (0 : Fin 1)].countP Act.isOwn + t.work ≤
        3 * 1 + 1 + ([Act.enqueue 7,.locked 0,.notifyOne 7 none,.endTask (0 : Fin 1)].map Act.gain).sum :=
  ⟨_,rfl,ownSteps_le rfl⟩

theorem Reachable.step (h : s.Reachable) {a : Act threads κ} (hs : s.step a = some t) :
    t.Reachable :=
  h.tail ⟨a,hs⟩

theorem Reachable.joining_le (h : s.Reachable) {joined : ℕ} (hjoining : s.destructor = .joining joined) :
    joined ≤ threads := by
  induction h generalizing joined with
  | refl => cases hjoining
  | tail _ hs ih =>
    obtain ⟨a,ha⟩ := hs
    cases change_of_step ha with
    | stop => cases hjoining
    | notifyAll =>
      obtain rfl : 0 = joined := by simpa using hjoining
      exact Nat.zero_le _
    | join k hlt =>
      obtain rfl : k + 1 = joined := by simpa using hjoining
      exact hlt
    | refuse | accept | notifyNobody | notifyOne | wait | leave | take | wakeSpuriously | endTask =>
      exact ih hjoining

theorem atRest_worker (hrest : AtRest step Act.isOwn s) (worker : Fin threads) :
    s.workers worker = .waiting ∨ s.workers worker = .returned := by
  cases hw : s.workers worker with
  | waiting => exact .inl rfl
  | returned => exact .inr rfl
  | ready =>
    obtain ⟨u,hu,-⟩ := change_workerSection s worker hw
    have hnone : s.step (.locked worker) = none := hrest _ rfl
    rw [step, if_pos hw, hu] at hnone
    cases hnone
  | running task =>
    have hnone : s.step (.endTask worker) = none := hrest _ rfl
    simp [step, hw] at hnone

theorem atRest_enqueues (hrest : AtRest step Act.isOwn s) (call : κ) :
    s.enqueues call ≠ .mustNotify := by
  intro hcall
  by_cases hwaits : ∃ worker, s.workers worker = .waiting
  · obtain ⟨worker,hworker⟩ := hwaits
    have hnone : s.step (.notifyOne call (some worker)) = none := hrest _ rfl
    simp [step, hcall, hworker] at hnone
  · have hnone : s.step (.notifyOne call none) = none := hrest _ rfl
    simp only [step, if_pos hcall, if_neg hwaits] at hnone
    cases hnone

/-- Nothing is left to do: the workers wait for tasks, or they have returned and the
destructor has joined them all. -/
structure Drained (s : Pool threads κ) : Prop where
  tasks : s.tasks = []
  finished : s.finished.Perm s.accepted
  enqueues : ∀ c, s.enqueues c ≠ .mustNotify
  destructor : (s.destructor = .before ∧ ∀ worker, s.workers worker = .waiting) ∨
    s.destructor = .joining threads ∧ ∀ worker, s.workers worker = .returned

/-- A pool of which no thread can go on has finished every task that it accepted once, and its
destructor, once it has been called, has returned. -/
theorem atRest_drained (hthreads : 1 ≤ threads) (h : s.Reachable)
    (hrest : AtRest step Act.isOwn s) : s.Drained := by
  obtain ⟨hconserved,hshutdown,hawake⟩ := h.invariant hthreads
  have hworkers := atRest_worker hrest
  have hnotify : s.destructor ≠ .mustNotify := by
    intro hmust
    have hnone : s.step .notifyAll = none := hrest _ rfl
    simp [step, hmust] at hnone
  have htasks : s.tasks = [] := by
    by_contra hne
    rcases hawake hne with ⟨worker,hworker⟩ | ⟨call,hcall⟩ | hmust
    · exact hne (hshutdown.returned worker ((hworkers worker).resolve_left hworker)).2
    · exact atRest_enqueues hrest call hcall
    · exact hnotify hmust
  have hfinished : s.finished.Perm s.accepted := by
    have hrunning : s.running = 0 := by
      apply Holders.held_eq_zero
      intro worker
      rcases hworkers worker with hw | hw <;> simp [hw, Worker.task]
    have horder := hconserved.order
    have hplaces := hconserved.places
    rw [htasks, List.append_nil] at horder
    rw [hrunning, zero_add, ← horder] at hplaces
    exact (Multiset.coe_eq_coe.mp hplaces).symm
  refine ⟨htasks,hfinished,atRest_enqueues hrest,?_⟩
  cases hd : s.destructor with
  | mustNotify => exact absurd hd hnotify
  | before =>
    refine .inl ⟨rfl,fun worker => (hworkers worker).resolve_right fun hreturned => ?_⟩
    exact hshutdown.stop_iff.mp (hshutdown.returned worker hreturned).1 hd
  | joining joined =>
    have hstop : s.stop = true := hshutdown.stop_iff.mpr (by simp [hd])
    have hreturned : ∀ worker, s.workers worker = .returned := fun worker =>
      (hworkers worker).resolve_left fun hwaits => hnotify (hshutdown.waiting hstop worker hwaits)
    have hall : joined = threads := by
      by_contra hne
      have hlt : joined < threads := lt_of_le_of_ne (h.joining_le hd) hne
      have hnone : s.step .join = none := hrest _ rfl
      simp [step, hd, hlt, hreturned] at hnone
    exact .inr ⟨by rw [hall],hreturned⟩

theorem Reachable.run (h : s.Reachable) {acts : List (Act threads κ)}
    (hrun : acts.foldlM Pool.step s = some t) : t.Reachable :=
  foldlM_invariant (fun _ _ _ h hs => h.step hs) h hrun

/-- From every reachable state the pool's own steps lead to one in which none of its
threads can go on, and wherever a run gets to such a state every accepted task has been
finished once and a destructor that has been called has joined all workers. -/
theorem drains (hthreads : 1 ≤ threads) (h : s.Reachable) :
    (∃ (acts : List (Act threads κ)) (t : Pool threads κ), (∀ a ∈ acts, a.isOwn = true) ∧
      acts.foldlM step s = some t ∧ AtRest step Act.isOwn t) ∧
    ∀ (acts : List (Act threads κ)) (t : Pool threads κ), acts.foldlM step s = some t →
      AtRest step Act.isOwn t → t.Drained := by
  have hlower : ∀ (u : Pool threads κ) (a : Act threads κ) (v : Pool threads κ), u.Reachable →
      a.isOwn = true → u.step a = some v → v.work < u.work := by
    intro u a v hu hown hs
    have hpaid := work_step (hu.invariant hthreads).conserved hs
    have hgain : a.gain = 0 := by cases a <;> first | rfl | cases hown
    rw [hown, Bool.toNat_true, hgain] at hpaid
    omega
  obtain ⟨acts,t,hown,hrun,-,hrest⟩ := leads_to_rest (fun _ _ _ h hs => h.step hs) hlower s h
  exact ⟨⟨acts,t,hown,hrun,hrest⟩,fun acts t hrun => atRest_drained hthreads (Reachable.run h hrun)⟩

/-- A destroyed pool whose two workers still have three tasks to take. -/
theorem drains_sample :
    ∃ s : Pool 2 ℕ, (s.stop = true ∧ s.tasks = [7, 8, 9]) ∧
    (∃ (acts : List (Act 2 ℕ)) (t : Pool 2 ℕ), (∀ a ∈ acts, a.isOwn = true) ∧
      acts.foldlM step s = some t ∧ AtRest step Act.isOwn t) ∧
    ∀ (acts : List (Act 2 ℕ)) (t : Pool 2 ℕ), acts.foldlM step s = some t →
      AtRest step Act.isOwn t → t.Drained := by
  have hreached : ∃ s : Pool 2 ℕ, s.Reachable ∧ s.stop = true ∧ s.tasks = [7, 8, 9] := by
    refine ⟨_,(((Relation.ReflTransGen.refl.tail ⟨.enqueue 7,rfl⟩).tail ⟨.enqueue 8,rfl⟩).tail
      ⟨.enqueue 9,rfl⟩).tail ⟨.stop,rfl⟩,rfl,rfl⟩
  obtain ⟨s,hs,hstop,htasks⟩ := hreached
  exact ⟨s,⟨hstop,htasks⟩,drains (by decide) hs⟩

end Pool
end CppExamples.ThreadPool
