import CppExamples.Library.Progress
import CppExamples.HttpTest.Confinement

/-! # Starting the threads of the pool

The main thread creates one thread after the other and waits each time until the new one
has made its event loop.  The two share the mutex and the condition variable of the
`event_loop_thread`; a wait may also end without a signal.  Once all threads have been
started, the main thread hands out their loops.
-/
namespace CppExamples.HttpTest
open Progress Machine
variable {n : ℕ}

/-- An event loop with the number in its name, `Thread-1` and so on, and the thread that
made it. -/
structure NamedLoop (n : ℕ) where
  threadName : ℕ
  ownerThread : Fin n
deriving DecidableEq

inductive Party where
  | main
  | child
deriving DecidableEq

/-- `struct event_loop_thread`. -/
structure EventLoopThread (n : ℕ) where
  eventLoop : Option (NamedLoop n)
  mutex : Option Party
  threadName : ℕ

def eventLoopThreadInit (i : Fin n) : EventLoopThread n := ⟨none,none,i.val + 1⟩

/-- Where the main thread is in a turn of the loop of `thread_pool_start`: before
`event_loop_thread_init`, before `pthread_create`, before the lock, with the lock at the
test, in `pthread_cond_wait`, on its way out of it, before the release of the lock. -/
inductive Stage where
  | init
  | create
  | lock
  | test
  | waiting
  | woken
  | unlock
deriving DecidableEq

inductive Main where
  | starting (i : ℕ) (stage : Stage)
  | started
deriving DecidableEq

/-- Where a thread is in `event_loop_thread_run`: before the lock, with the lock before the
loop is made, before the signal and before the release, before and in `event_loop_run`;
`exited` when a check in there ends the program. -/
inductive Child where
  | notCreated
  | created
  | locked
  | initialised
  | signalled
  | unlocked
  | looping
  | exited
deriving DecidableEq

structure PoolStart (n : ℕ) where
  main : Main
  position : ℕ
  threads : Fin n → EventLoopThread n
  children : Fin n → Child

/-- What `thread_pool_get_loop` returns. -/
inductive Selected (n : ℕ) where
  | mainLoop
  | subLoop (eventLoop : Option (NamedLoop n))
deriving DecidableEq

inductive StartAct (n : ℕ) where
  | main
  | wakeSpuriously
  | child (i : Fin n)
  | getLoop
deriving DecidableEq

namespace PoolStart

/-- The array of the threads holds what `malloc` left there. -/
def initial (garbage : Fin n → EventLoopThread n) : PoolStart n :=
  ⟨.starting 0 .init,0,garbage,fun _ => .notCreated⟩

def setThread (s : PoolStart n) (i : Fin n) (t : EventLoopThread n) (main : Main) : PoolStart n :=
  { s with threads := Function.update s.threads i t, main := main }

def setChild (s : PoolStart n) (i : Fin n) (c : Child) : PoolStart n :=
  { s with children := Function.update s.children i c }

/-- The next step of the main thread in turn `i`; none while the mutex is taken, and in
the wait. -/
def mainStep (s : PoolStart n) (i : Fin n) : Stage → Option (PoolStart n)
  | .init => some (s.setThread i (eventLoopThreadInit i) (.starting i .create))
  | .create => some { s.setChild i .created with main := .starting i .lock }
  | .lock | .woken =>
    if (s.threads i).mutex = none then
      some (s.setThread i { s.threads i with mutex := some .main } (.starting i .test))
    else none
  | .test =>
    if (s.threads i).eventLoop = none then
      -- `pthread_cond_wait` gives the mutex back
      some (s.setThread i { s.threads i with mutex := none } (.starting i .waiting))
    else some { s with main := .starting i .unlock }
  | .waiting => none
  | .unlock => some (s.setThread i { s.threads i with mutex := none } (.starting (i + 1) .init))

def childStep (s : PoolStart n) (i : Fin n) : Child → Option (PoolStart n)
  | .notCreated => none
  | .created =>
    if (s.threads i).mutex = none then
      some ((s.setThread i { s.threads i with mutex := some .child } s.main).setChild i .locked)
    else none
  | .locked =>
    let eventLoop : NamedLoop n := ⟨(s.threads i).threadName,i⟩
    some ((s.setThread i { s.threads i with eventLoop := some eventLoop } s.main).setChild i
      .initialised)
  | .initialised =>
    let main := if s.main = .starting i .waiting then .starting i .woken else s.main
    some ({ s with main := main }.setChild i .signalled)
  | .signalled =>
    some ((s.setThread i { s.threads i with mutex := none } s.main).setChild i .unlocked)
  | .unlocked =>
    match (s.threads i).eventLoop with
    | some eventLoop => some (s.setChild i (if eventLoop.ownerThread = i then .looping else .exited))
    | none => some (s.setChild i .exited)
  | .looping | .exited => none

/-- The loop that `thread_pool_get_loop` selects; no result is a read behind the array. -/
def selected (s : PoolStart n) : ℕ → Option (Selected n)
  | 0 => some .mainLoop
  | j + 1 => if h : j < n then some (.subLoop (s.threads ⟨j,h⟩).eventLoop) else none

/-- One step; the output is what a call of `thread_pool_get_loop` returns. -/
def step (s : PoolStart n) : StartAct n → Option (PoolStart n × Option (Selected n))
  | .main =>
    match s.main with
    | .started => none
    | .starting i stage =>
      if h : i < n then (s.mainStep ⟨i,h⟩ stage).map fun s => (s,none)
      else if stage = .init then some ({ s with main := .started },none)
      else none
  | .wakeSpuriously =>
    match s.main with
    | .starting i .waiting => some ({ s with main := .starting i .woken },none)
    | _ => none
  | .child i => (s.childStep i (s.children i)).map fun s => (s,none)
  | .getLoop =>
    if s.main = .started then
      let r := threadPoolGetLoop n s.position
      (s.selected r.1).map fun loop => ({ s with position := r.2 },some loop)
    else none

end PoolStart

/-- How far the main thread has come with a thread. -/
inductive View where
  | ahead
  | here (stage : Stage)
  | passed
deriving DecidableEq

def Stage.view : Stage → View
  | .init => .ahead
  | stage => .here stage

def Main.view : Main → ℕ → View
  | .started, _ => .passed
  | .starting k stage, i => if i < k then .passed else if i = k then stage.view else .ahead

/-- The places at which the child can be while the main thread is at one of its own. -/
def Stage.children : Stage → List Child
  | .init | .create => [.notCreated]
  | .lock | .woken => [.created,.locked,.initialised,.signalled,.unlocked,.looping]
  | .test => [.created,.unlocked,.looping]
  | .waiting => [.created,.locked,.initialised]
  | .unlock => [.unlocked,.looping]

def View.compatible : View → Child → Bool
  | .ahead, c => c ∈ [Child.notCreated]
  | .here stage, c => c ∈ stage.children
  | .passed, c => c ∈ [Child.unlocked,Child.looping]

/-- The mutex and the loop as the places of the two say. -/
def View.memory (i : Fin n) (v : View) (c : Child) : EventLoopThread n where
  eventLoop := if c ∈ [.notCreated,.created,.locked] then none else some ⟨i + 1,i⟩
  mutex :=
    if v = .here .test ∨ v = .here .unlock then some .main
    else if c ∈ [.locked,.initialised,.signalled] then some .child
    else none
  threadName := i + 1

structure Agrees (i : Fin n) (v : View) (c : Child) (t : EventLoopThread n) : Prop where
  compatible : v.compatible c = true
  memory : v ≠ .ahead → t = v.memory i c

theorem compatible_exited (v : View) : v.compatible .exited = false := by
  rcases v with _ | stage | _
  · rfl
  · cases stage <;> rfl
  · rfl

/-! What a step of one of the two does to what they agree on. -/

namespace Agrees
variable {i : Fin n} {v : View} {stage : Stage} {c : Child} {thread : EventLoopThread n}

theorem init (h : Agrees i .ahead c thread) : Agrees i (.here .create) c (eventLoopThreadInit i) := by
  obtain ⟨hcompatible,-⟩ := h
  cases c <;> cases hcompatible
  exact ⟨rfl,fun _ => rfl⟩

theorem create (h : Agrees i (.here .create) c thread) : Agrees i (.here .lock) .created thread := by
  obtain ⟨hcompatible,hmemory⟩ := h
  obtain rfl := hmemory (by simp)
  cases c <;> cases hcompatible
  exact ⟨rfl,fun _ => rfl⟩

theorem lock (h : Agrees i (.here stage) c thread) (hstage : stage = .lock ∨ stage = .woken)
    (hfree : thread.mutex = none) : Agrees i (.here .test) c { thread with mutex := some .main } := by
  obtain ⟨hcompatible,hmemory⟩ := h
  obtain rfl := hmemory (by simp)
  rcases hstage with rfl | rfl <;> cases c <;>
    first
    | exact ⟨rfl,fun _ => rfl⟩
    | simp [View.compatible, Stage.children, View.memory] at hcompatible hfree

theorem wait (h : Agrees i (.here .test) c thread) (hnone : thread.eventLoop = none) :
    Agrees i (.here .waiting) c { thread with mutex := none } := by
  obtain ⟨hcompatible,hmemory⟩ := h
  obtain rfl := hmemory (by simp)
  cases c <;>
    first
    | exact ⟨rfl,fun _ => rfl⟩
    | simp [View.compatible, Stage.children, View.memory] at hcompatible hnone

theorem leave (h : Agrees i (.here .test) c thread) (hsome : thread.eventLoop ≠ none) :
    Agrees i (.here .unlock) c thread := by
  obtain ⟨hcompatible,hmemory⟩ := h
  obtain rfl := hmemory (by simp)
  cases c <;>
    first
    | exact ⟨rfl,fun _ => rfl⟩
    | simp [View.compatible, Stage.children, View.memory] at hcompatible hsome

theorem unlock (h : Agrees i (.here .unlock) c thread) :
    Agrees i .passed c { thread with mutex := none } := by
  obtain ⟨hcompatible,hmemory⟩ := h
  obtain rfl := hmemory (by simp)
  cases c <;> first | exact ⟨rfl,fun _ => rfl⟩ | simp [View.compatible, Stage.children] at hcompatible

theorem wake (h : Agrees i (.here .waiting) c thread) : Agrees i (.here .woken) c thread := by
  obtain ⟨hcompatible,hmemory⟩ := h
  obtain rfl := hmemory (by simp)
  cases c <;> first | exact ⟨rfl,fun _ => rfl⟩ | simp [View.compatible, Stage.children] at hcompatible

theorem childLock (h : Agrees i v .created thread) (hfree : thread.mutex = none) :
    Agrees i v .locked { thread with mutex := some .child } := by
  obtain ⟨hcompatible,hmemory⟩ := h
  rcases v with _ | stage | _
  · cases hcompatible
  · obtain rfl := hmemory (by simp)
    cases stage <;> first
      | exact ⟨rfl,fun _ => rfl⟩
      | simp [View.compatible, Stage.children, View.memory] at hcompatible hfree
  · cases hcompatible

theorem makeLoop (h : Agrees i v .locked thread) :
    Agrees i v .initialised { thread with eventLoop := some ⟨thread.threadName,i⟩ } := by
  obtain ⟨hcompatible,hmemory⟩ := h
  rcases v with _ | stage | _
  · cases hcompatible
  · obtain rfl := hmemory (by simp)
    cases stage <;> first
      | exact ⟨rfl,fun _ => rfl⟩
      | simp [View.compatible, Stage.children] at hcompatible
  · cases hcompatible

theorem signal (h : Agrees i v .initialised thread) :
    Agrees i (if v = .here .waiting then .here .woken else v) .signalled thread := by
  obtain ⟨hcompatible,hmemory⟩ := h
  rcases v with _ | stage | _
  · cases hcompatible
  · obtain rfl := hmemory (by simp)
    cases stage <;> first
      | exact ⟨rfl,fun _ => rfl⟩
      | simp [View.compatible, Stage.children] at hcompatible
  · cases hcompatible

theorem childUnlock (h : Agrees i v .signalled thread) :
    Agrees i v .unlocked { thread with mutex := none } := by
  obtain ⟨hcompatible,hmemory⟩ := h
  rcases v with _ | stage | _
  · cases hcompatible
  · obtain rfl := hmemory (by simp)
    cases stage <;> first
      | exact ⟨rfl,fun _ => rfl⟩
      | simp [View.compatible, Stage.children] at hcompatible
  · cases hcompatible

theorem runLoop (h : Agrees i v .unlocked thread) :
    thread.eventLoop = some ⟨i + 1,i⟩ ∧ Agrees i v .looping thread := by
  obtain ⟨hcompatible,hmemory⟩ := h
  rcases v with _ | stage | _
  · cases hcompatible
  · obtain rfl := hmemory (by simp)
    cases stage <;> first
      | exact ⟨rfl,rfl,fun _ => rfl⟩
      | simp [View.compatible, Stage.children] at hcompatible
  · obtain rfl := hmemory (by simp)
    exact ⟨rfl,rfl,fun _ => rfl⟩

end Agrees

@[simp] theorem view_self (i : ℕ) (stage : Stage) : (Main.starting i stage).view i = stage.view := by
  simp [Main.view]

theorem view_of_ne {i j : ℕ} (h : j ≠ i) (stage stage' : Stage) :
    (Main.starting i stage).view j = (Main.starting i stage').view j := by
  simp [Main.view, h]

@[simp] theorem view_passed (i : ℕ) : (Main.starting (i + 1) .init).view i = .passed := by
  simp [Main.view]

theorem view_next {i j : ℕ} (h : j ≠ i) (stage : Stage) :
    (Main.starting (i + 1) .init).view j = (Main.starting i stage).view j := by
  simp only [Main.view, Stage.view, h, if_false, ite_self]
  split
  next hlt => rw [if_pos (by omega)]
  next hle => rw [if_neg (by omega)]

theorem view_eq_waiting {main : Main} {i : ℕ} :
    main.view i = .here .waiting ↔ main = .starting i .waiting := by
  cases main with
  | started => simp [Main.view]
  | starting k stage =>
    rcases lt_trichotomy i k with hlt | rfl | hlt
    · simp [Main.view, hlt, hlt.ne']
    · cases stage <;> simp [Stage.view]
    · simp [Main.view, hlt.not_gt, hlt.ne, hlt.ne']

namespace PoolStart
variable {s t : PoolStart n}

def Consistent (s : PoolStart n) : Prop :=
  ∀ i : Fin n, Agrees i (s.main.view i) (s.children i) (s.threads i)

theorem consistent_initial (garbage : Fin n → EventLoopThread n) : (initial garbage).Consistent := by
  intro i
  have hview : (initial garbage).main.view i = .ahead := by
    simp [initial, Main.view, Stage.view]
  rw [hview]
  exact ⟨rfl,fun hno => absurd rfl hno⟩

theorem Consistent.update (h : s.Consistent) (i : Fin n) {main : Main} {c : Child}
    {thread : EventLoopThread n} (hviews : ∀ j : Fin n, j ≠ i → main.view j = s.main.view j)
    (hi : Agrees i (main.view i) c thread) :
    (⟨main,s.position,Function.update s.threads i thread,Function.update s.children i c⟩ :
      PoolStart n).Consistent := by
  intro j
  by_cases hj : j = i
  · subst hj
    simpa using hi
  · simpa [hviews j hj, Function.update_of_ne hj] using h j

theorem Consistent.setThread (h : s.Consistent) (i : Fin n) {thread : EventLoopThread n} {main : Main}
    (hviews : ∀ j : Fin n, j ≠ i → main.view j = s.main.view j)
    (hi : Agrees i (main.view i) (s.children i) thread) : (s.setThread i thread main).Consistent := by
  have h' := h.update i hviews hi
  rwa [Function.update_eq_self] at h'

theorem Consistent.setChild (h : s.Consistent) (i : Fin n) {c : Child} {main : Main}
    (hviews : ∀ j : Fin n, j ≠ i → main.view j = s.main.view j)
    (hi : Agrees i (main.view i) c (s.threads i)) :
    ({ s.setChild i c with main := main } : PoolStart n).Consistent := by
  have h' := h.update i hviews hi
  rwa [Function.update_eq_self] at h'

theorem view_turn {i j : Fin n} (hj : j ≠ i) {stage : Stage} (hmain : s.main = .starting i stage)
    (stage' : Stage) : (Main.starting i stage').view j = s.main.view j := by
  rw [hmain]
  exact view_of_ne (Fin.val_ne_of_ne hj) _ _

theorem Consistent.mainStep (h : s.Consistent) {i : Fin n} {stage : Stage}
    (hmain : s.main = .starting i stage) (hs : s.mainStep i stage = some t) : t.Consistent := by
  have hviews := fun (j : Fin n) (hj : j ≠ i) => view_turn hj hmain
  have hi := h i
  rw [hmain, view_self] at hi
  cases stage with
  | init =>
    obtain rfl := Option.some.inj hs
    refine h.setThread i (fun j hj => hviews j hj _) ?_
    rw [view_self]
    exact hi.init
  | create =>
    obtain rfl := Option.some.inj hs
    refine h.setChild i (fun j hj => hviews j hj _) ?_
    rw [view_self]
    exact hi.create
  | lock | woken =>
    obtain ⟨hfree,he⟩ := Option.ite_none_right_eq_some.mp hs
    obtain rfl := Option.some.inj he
    refine h.setThread i (fun j hj => hviews j hj _) ?_
    rw [view_self]
    exact hi.lock (by simp) hfree
  | test =>
    simp only [PoolStart.mainStep] at hs
    split at hs
    next hnone =>
      obtain rfl := Option.some.inj hs
      refine h.setThread i (fun j hj => hviews j hj _) ?_
      rw [view_self]
      exact hi.wait hnone
    next hsome =>
      obtain rfl := Option.some.inj hs
      have hleft : Agrees i ((Main.starting i .unlock).view i) (s.children i) (s.threads i) := by
        rw [view_self]
        exact hi.leave hsome
      have h' := h.setThread i (fun j hj => hviews j hj .unlock) hleft
      rwa [PoolStart.setThread, Function.update_eq_self] at h'
  | waiting => cases hs
  | unlock =>
    obtain rfl := Option.some.inj hs
    have hlater : ∀ j : Fin n, j ≠ i → (Main.starting (i + 1) .init).view j = s.main.view j := by
      intro j hj
      rw [hmain]
      exact view_next (Fin.val_ne_of_ne hj) _
    refine h.setThread i hlater ?_
    rw [view_passed]
    exact hi.unlock

theorem Consistent.spurious (h : s.Consistent) {i : ℕ} (hmain : s.main = .starting i .waiting) :
    ({ s with main := .starting i .woken } : PoolStart n).Consistent := by
  intro j
  by_cases hj : (j : ℕ) = i
  · subst hj
    have hi := h j
    rw [hmain, view_self] at hi
    rw [view_self]
    exact hi.wake
  · have hj' := h j
    rw [hmain, view_of_ne hj _ .woken] at hj'
    exact hj'

theorem Consistent.childStep (h : s.Consistent) {i : Fin n}
    (hs : s.childStep i (s.children i) = some t) : t.Consistent := by
  have hi := h i
  cases hc : s.children i with
  | notCreated | looping | exited =>
    rw [hc] at hs
    cases hs
  | created =>
    rw [hc] at hs hi
    obtain ⟨hfree,he⟩ := Option.ite_none_right_eq_some.mp hs
    obtain rfl := Option.some.inj he
    exact h.update i (fun _ _ => rfl) (hi.childLock hfree)
  | locked =>
    rw [hc] at hs hi
    obtain rfl := Option.some.inj hs
    exact h.update i (fun _ _ => rfl) hi.makeLoop
  | initialised =>
    rw [hc] at hs hi
    obtain rfl := Option.some.inj hs
    have hsignal := hi.signal
    refine h.setChild i (fun j hj => ?_) ?_
    · split
      next hwaiting =>
        rw [hwaiting]
        exact view_of_ne (Fin.val_ne_of_ne hj) _ _
      next => rfl
    · dsimp only
      by_cases hwaiting : s.main = .starting i .waiting
      · rw [if_pos hwaiting, view_self]
        rwa [if_pos (view_eq_waiting.mpr hwaiting)] at hsignal
      · rw [if_neg hwaiting]
        rwa [if_neg (mt view_eq_waiting.mp hwaiting)] at hsignal
  | signalled =>
    rw [hc] at hs hi
    obtain rfl := Option.some.inj hs
    exact h.update i (fun _ _ => rfl) hi.childUnlock
  | unlocked =>
    rw [hc] at hs hi
    obtain ⟨hloop,hrun⟩ := hi.runLoop
    simp only [PoolStart.childStep, hloop, if_true, Option.some.injEq] at hs
    subst hs
    exact h.setChild i (fun _ _ => rfl) hrun

/-- The main thread is in a turn of the loop or behind it, and `position` counts the calls
of `thread_pool_get_loop`. -/
structure Invariant (s : PoolStart n) (calls : ℕ) : Prop where
  consistent : s.Consistent
  turn : ∀ i stage, s.main = .starting i stage → i < n ∨ i = n ∧ stage = .init
  position : s.position = positionAfter n calls

theorem invariant_initial (garbage : Fin n → EventLoopThread n) : (initial garbage).Invariant 0 where
  consistent := consistent_initial garbage
  turn i stage hmain := by
    obtain ⟨rfl,rfl⟩ := Main.starting.inj hmain
    exact (Nat.eq_zero_or_pos n).elim (fun hn => .inr ⟨hn.symm,rfl⟩) .inl
  position := by simp [initial, positionAfter]

def loopInTurn (n call : ℕ) : Selected n :=
  if h : 0 < n then .subLoop (some ⟨call % n + 1,⟨call % n,Nat.mod_lt call h⟩⟩) else .mainLoop

theorem mainStep_keeps {i : Fin n} {stage : Stage} (hs : s.mainStep i stage = some t) :
    t.position = s.position ∧ ∃ k stage', t.main = .starting k stage' ∧
      (k = i.val ∨ k = i.val + 1 ∧ stage' = .init) := by
  cases stage with
  | init | create =>
    obtain rfl := Option.some.inj hs
    exact ⟨rfl,_,_,rfl,.inl rfl⟩
  | lock | woken =>
    obtain ⟨-,he⟩ := Option.ite_none_right_eq_some.mp hs
    obtain rfl := Option.some.inj he
    exact ⟨rfl,_,_,rfl,.inl rfl⟩
  | test =>
    simp only [PoolStart.mainStep] at hs
    split at hs <;> obtain rfl := Option.some.inj hs <;> exact ⟨rfl,_,_,rfl,.inl rfl⟩
  | waiting => cases hs
  | unlock =>
    obtain rfl := Option.some.inj hs
    exact ⟨rfl,_,_,rfl,.inr ⟨rfl,rfl⟩⟩

theorem childStep_keeps {i : Fin n} {c : Child} (hs : s.childStep i c = some t) :
    t.position = s.position ∧
      (t.main = s.main ∨ s.main = .starting i .waiting ∧ t.main = .starting i .woken) := by
  cases c with
  | notCreated | looping | exited => cases hs
  | created =>
    obtain ⟨-,he⟩ := Option.ite_none_right_eq_some.mp hs
    obtain rfl := Option.some.inj he
    exact ⟨rfl,.inl rfl⟩
  | locked | signalled =>
    obtain rfl := Option.some.inj hs
    exact ⟨rfl,.inl rfl⟩
  | initialised =>
    obtain rfl := Option.some.inj hs
    refine ⟨rfl,?_⟩
    by_cases hwaiting : s.main = .starting i .waiting
    · exact .inr ⟨hwaiting,if_pos hwaiting⟩
    · exact .inl (if_neg hwaiting)
  | unlocked =>
    simp only [PoolStart.childStep] at hs
    split at hs <;> obtain rfl := Option.some.inj hs <;> exact ⟨rfl,.inl rfl⟩

/-- Once all threads have been started, their loops are there. -/
theorem Consistent.selected (h : s.Consistent) (hmain : s.main = .started) (calls : ℕ) :
    s.selected (loopOf n calls) = some (loopInTurn n calls) := by
  by_cases hn : 0 < n
  · obtain ⟨hcompatible,hmemory⟩ := h ⟨calls % n,Nat.mod_lt calls hn⟩
    rw [hmain, show Main.started.view _ = View.passed from rfl] at hcompatible hmemory
    have hloop := hmemory (by simp)
    simp only [loopOf, if_pos hn, PoolStart.selected, dif_pos (Nat.mod_lt calls hn), loopInTurn,
      dif_pos hn, hloop]
    cases hc : s.children ⟨calls % n,Nat.mod_lt calls hn⟩ <;> rw [hc] at hcompatible <;>
      first | rfl | cases hcompatible
  · simp [loopOf, PoolStart.selected, loopInTurn, hn]

theorem Invariant.step {calls : ℕ} (h : s.Invariant calls) {a : StartAct n} {o : Option (Selected n)}
    (hs : s.step a = some (t, o)) :
    t.Invariant (calls + if a = .getLoop then 1 else 0) ∧
      o = if a = .getLoop then some (loopInTurn n calls) else none := by
  cases a with
  | main =>
    cases hmain : s.main with
    | started => simp [PoolStart.step, hmain] at hs
    | starting i stage =>
      simp only [PoolStart.step, hmain] at hs
      split at hs
      next hlt =>
        obtain ⟨u,hu,he⟩ := Option.map_eq_some_iff.mp hs
        obtain ⟨rfl,rfl⟩ := Prod.mk.inj he
        obtain ⟨hposition,k,stage',hto,hk⟩ := mainStep_keeps hu
        refine ⟨⟨h.consistent.mainStep hmain hu,?_,hposition.trans h.position⟩,rfl⟩
        intro k' stage'' hmain'
        obtain ⟨rfl,rfl⟩ := Main.starting.inj (hto.symm.trans hmain')
        rcases hk with rfl | ⟨rfl,rfl⟩
        · exact .inl hlt
        · exact (Nat.lt_or_eq_of_le hlt).imp_right fun hend => ⟨hend,rfl⟩
      next hle =>
        obtain ⟨-,he⟩ := Option.ite_none_right_eq_some.mp hs
        obtain ⟨rfl,rfl⟩ := Prod.mk.inj (Option.some.inj he)
        refine ⟨⟨?_,by simp,h.position⟩,rfl⟩
        intro j
        have hj := h.consistent j
        have hview : s.main.view j = .passed := by
          rw [hmain, Main.view, if_pos (lt_of_lt_of_le j.isLt (not_lt.mp hle))]
        rwa [hview] at hj
  | wakeSpuriously =>
    rcases hmain : s.main with ⟨i,(_ | _ | _ | _ | _ | _ | _)⟩ | _
    case starting.waiting =>
      simp only [PoolStart.step, hmain, Option.some.injEq, Prod.mk.injEq] at hs
      obtain ⟨rfl,rfl⟩ := hs
      refine ⟨⟨h.consistent.spurious hmain,?_,h.position⟩,rfl⟩
      intro k stage hto
      obtain ⟨rfl,rfl⟩ := Main.starting.inj hto
      exact .inl ((h.turn _ .waiting hmain).resolve_right (by simp))
    all_goals simp [PoolStart.step, hmain] at hs
  | child i =>
    obtain ⟨u,hu,he⟩ := Option.map_eq_some_iff.mp hs
    obtain ⟨rfl,rfl⟩ := Prod.mk.inj he
    obtain ⟨hposition,hmain⟩ := childStep_keeps hu
    refine ⟨⟨h.consistent.childStep hu,?_,hposition.trans h.position⟩,rfl⟩
    intro k stage hto
    rcases hmain with hsame | ⟨-,hwoken⟩
    · exact h.turn k stage (hsame.symm.trans hto)
    · obtain ⟨rfl,rfl⟩ := Main.starting.inj (hwoken.symm.trans hto)
      exact .inl i.isLt
  | getLoop =>
    obtain ⟨hmain,he⟩ := Option.ite_none_right_eq_some.mp hs
    rw [h.position, threadPoolGetLoop_eq, h.consistent.selected hmain] at he
    obtain ⟨rfl,rfl⟩ := Prod.mk.inj (Option.some.inj he)
    exact ⟨⟨h.consistent,h.turn,rfl⟩,rfl⟩

theorem Invariant.run {calls : ℕ} (h : s.Invariant calls) {acts : List (StartAct n)}
    {os : List (Option (Selected n))} (hrun : Machine.run PoolStart.step s acts = some (t, os)) :
    t.Invariant (calls + acts.count .getLoop) ∧
      os.reduceOption = (List.range' calls (acts.count .getLoop)).map (loopInTurn n) := by
  induction acts generalizing s calls os with
  | nil =>
    obtain ⟨rfl,rfl⟩ := Prod.mk.inj (Option.some.inj hrun)
    exact ⟨h,rfl⟩
  | cons a acts ih =>
    obtain ⟨u,o,os',hs,hrest,rfl⟩ := run_cons_eq_some hrun
    obtain ⟨hu,rfl⟩ := h.step hs
    obtain ⟨ht,hos⟩ := ih hu hrest
    by_cases ha : a = .getLoop
    · subst ha
      rw [if_pos rfl] at ht hos
      rw [List.count_cons_self, if_pos rfl, List.reduceOption_cons_of_some, List.range'_succ,
        List.map_cons, hos, ← Nat.add_assoc, Nat.add_right_comm]
      exact ⟨ht,rfl⟩
    · rw [if_neg ha] at ht hos
      rw [List.count_cons_of_ne ha, if_neg ha, List.reduceOption_cons_of_none]
      exact ⟨ht,hos⟩

/-- In every interleaving the calls of `thread_pool_get_loop` return the loops of the threads
in turn, each made by its thread and named after it, or the main loop when there are no
threads.  None of them returns `NULL`, and no thread finds another's loop and ends the
program. -/
theorem loops_inTurn {garbage : Fin n → EventLoopThread n} {acts : List (StartAct n)}
    {os : List (Option (Selected n))}
    (hrun : Machine.run step (initial garbage) acts = some (s, os)) :
    os.reduceOption = (List.range (acts.count .getLoop)).map (loopInTurn n) ∧
      ∀ i, s.children i ≠ .exited := by
  obtain ⟨hinv,hos⟩ := (invariant_initial garbage).run hrun
  refine ⟨by rw [hos, List.range_eq_range'],fun i hexited => ?_⟩
  have hcompatible := (hinv.consistent i).compatible
  rw [hexited, compatible_exited] at hcompatible
  cases hcompatible

/-- The main thread waits for the first thread, and finds the loop of the second made. -/
def startTwo : List (StartAct 2) :=
  [.main,.main,.main,.main,.wakeSpuriously,.main,.main,.child 0,.child 0,.child 0,.child 0,.main,.main,
    .main,.main,.main,.child 1,.child 1,.child 1,.child 1,.child 0,.main,.main,.main,.child 1,.main,
    .getLoop,.getLoop,.getLoop]

theorem loops_inTurn_two :
    ∃ s os, Machine.run step (initial fun _ => ⟨none,none,0⟩) startTwo = some (s, os) ∧
      os.reduceOption = (List.range (startTwo.count .getLoop)).map (loopInTurn 2) ∧
      (∀ i, s.children i ≠ .exited) ∧
      os.reduceOption = [.subLoop (some ⟨1,0⟩),.subLoop (some ⟨2,1⟩),.subLoop (some ⟨1,0⟩)] := by
  have hresult : (Machine.run step (initial fun _ => ⟨none,none,0⟩) startTwo).map
      (fun r => r.2.reduceOption) =
        some [.subLoop (some ⟨1,0⟩),.subLoop (some ⟨2,1⟩),.subLoop (some ⟨1,0⟩)] := by decide +kernel
  obtain ⟨⟨s,os⟩,hrun,hloops⟩ := Option.map_eq_some_iff.mp hresult
  obtain ⟨hturn,hrunning⟩ := loops_inTurn hrun
  exact ⟨s,os,hrun,hturn,hrunning,hloops⟩

end PoolStart

/-- What lies behind the main thread of the twelve steps of a turn, the child's included. -/
def Stage.passed : Stage → ℕ
  | .init => 0
  | .create => 1
  | .lock | .woken => 9
  | .test => 10
  | .waiting | .unlock => 11

def Main.weight (n : ℕ) : Main → ℕ
  | .starting i stage => 12 * (n - i) + 1 - stage.passed
  | .started => 0

/-- A child that is about to signal pays for the return of the main thread to its test. -/
def Child.weight : Child → ℕ
  | .created => 7
  | .locked => 6
  | .initialised => 5
  | .signalled => 2
  | .unlocked => 1
  | .notCreated | .looping | .exited => 0

def StartAct.own : StartAct n → Bool
  | .main | .child _ => true
  | .wakeSpuriously | .getLoop => false

def StartAct.gain : StartAct n → ℕ
  | .wakeSpuriously => 2
  | _ => 0

namespace PoolStart
variable {s t : PoolStart n}

variable {stage : Stage}

def work (s : PoolStart n) : ℕ := s.main.weight n + ∑ i, (s.children i).weight

theorem work_update {i : Fin n} {c : Child} (h : t.children = Function.update s.children i c) :
    t.work + s.main.weight n + (s.children i).weight = s.work + t.main.weight n + c.weight := by
  have hmove := sum_update Child.weight s.children i c
  simp only [work, h]
  omega

theorem work_mainStep {i : Fin n} {stage : Stage} (h : s.Consistent)
    (hmain : s.main = .starting i stage) (hs : s.mainStep i stage = some t) : t.work < s.work := by
  have hlt := i.isLt
  cases stage with
  | create =>
    have ht := Option.some.inj hs
    have hmove : t.work + s.main.weight n + (s.children i).weight =
        s.work + t.main.weight n + Child.created.weight := work_update (ht ▸ rfl)
    have hto : t.main = .starting i .lock := ht ▸ rfl
    have hnew : s.children i = .notCreated := by
      have hcompatible := (h i).compatible
      rw [hmain, view_self] at hcompatible
      cases hc : s.children i <;> rw [hc] at hcompatible <;> first | rfl | cases hcompatible
    rw [hmain, hto, hnew] at hmove
    simp only [Main.weight, Stage.passed, Child.weight] at hmove
    omega
  | waiting => cases hs
  | init =>
    obtain rfl := Option.some.inj hs
    simp only [work, setThread, hmain, Main.weight, Stage.passed]
    omega
  | lock | woken =>
    obtain ⟨-,he⟩ := Option.ite_none_right_eq_some.mp hs
    obtain rfl := Option.some.inj he
    simp only [work, setThread, hmain, Main.weight, Stage.passed]
    omega
  | test =>
    simp only [PoolStart.mainStep] at hs
    split at hs <;> obtain rfl := Option.some.inj hs <;>
      simp only [work, setThread, hmain, Main.weight, Stage.passed] <;> omega
  | unlock =>
    obtain rfl := Option.some.inj hs
    simp only [work, setThread, hmain, Main.weight, Stage.passed]
    omega

theorem childStep_pays {i : Fin n} {c : Child} (hs : s.childStep i c = some t) :
    ∃ c', t.children = Function.update s.children i c' ∧ c'.weight < c.weight ∧
      (t.main = s.main ∨ s.main = .starting i .waiting ∧ t.main = .starting i .woken ∧
        c'.weight + 2 < c.weight) := by
  cases c with
  | notCreated | looping | exited => cases hs
  | created =>
    obtain ⟨-,he⟩ := Option.ite_none_right_eq_some.mp hs
    obtain rfl := Option.some.inj he
    exact ⟨.locked,rfl,by decide,.inl rfl⟩
  | locked =>
    obtain rfl := Option.some.inj hs
    exact ⟨.initialised,rfl,by decide,.inl rfl⟩
  | signalled =>
    obtain rfl := Option.some.inj hs
    exact ⟨.unlocked,rfl,by decide,.inl rfl⟩
  | initialised =>
    obtain rfl := Option.some.inj hs
    refine ⟨.signalled,rfl,by decide,?_⟩
    by_cases hwaiting : s.main = .starting i .waiting
    · exact .inr ⟨hwaiting,if_pos hwaiting,by decide⟩
    · exact .inl (if_neg hwaiting)
  | unlocked =>
    simp only [PoolStart.childStep] at hs
    split at hs
    next eventLoop hloop =>
      obtain rfl := Option.some.inj hs
      refine ⟨_,rfl,?_,.inl rfl⟩
      split <;> decide
    next =>
      obtain rfl := Option.some.inj hs
      exact ⟨.exited,rfl,by decide,.inl rfl⟩

theorem work_childStep {i : Fin n} (hs : s.childStep i (s.children i) = some t) : t.work < s.work := by
  obtain ⟨c,hchildren,hlt,hmain⟩ := childStep_pays hs
  have hmove := work_update hchildren
  rcases hmain with hsame | ⟨hwaiting,hwoken,hpays⟩
  · rw [hsame] at hmove
    omega
  · have hi := i.isLt
    rw [hwaiting, hwoken] at hmove
    simp only [Main.weight, Stage.passed] at hmove
    omega

def next (s : PoolStart n) (a : StartAct n) : Option (PoolStart n) := (s.step a).map Prod.fst

theorem next_eq_some {a : StartAct n} : s.next a = some t ↔ ∃ o, s.step a = some (t, o) := by
  simp [next]

theorem work_next (h : s.Consistent) {a : StartAct n} (hs : s.next a = some t) :
    t.work + a.own.toNat ≤ s.work + a.gain := by
  obtain ⟨o,hs⟩ := next_eq_some.mp hs
  cases a with
  | main =>
    cases hmain : s.main with
    | started => simp [PoolStart.step, hmain] at hs
    | starting i stage =>
      simp only [PoolStart.step, hmain] at hs
      split at hs
      next hlt =>
        obtain ⟨u,hu,he⟩ := Option.map_eq_some_iff.mp hs
        obtain ⟨rfl,-⟩ := Prod.mk.inj he
        exact work_mainStep h hmain hu
      next hle =>
        obtain ⟨rfl,he⟩ := Option.ite_none_right_eq_some.mp hs
        obtain ⟨rfl,-⟩ := Prod.mk.inj (Option.some.inj he)
        simp only [work, hmain, Main.weight, Stage.passed, StartAct.own, StartAct.gain, Bool.toNat_true]
        omega
  | child i =>
    obtain ⟨u,hu,he⟩ := Option.map_eq_some_iff.mp hs
    obtain ⟨rfl,-⟩ := Prod.mk.inj he
    exact work_childStep hu
  | wakeSpuriously =>
    rcases hmain : s.main with ⟨i,(_ | _ | _ | _ | _ | _ | _)⟩ | _
    case starting.waiting =>
      simp only [PoolStart.step, hmain, Option.some.injEq, Prod.mk.injEq] at hs
      obtain ⟨rfl,-⟩ := hs
      simp only [work, hmain, Main.weight, Stage.passed, StartAct.own, StartAct.gain, Bool.toNat_false]
      omega
    all_goals simp [PoolStart.step, hmain] at hs
  | getLoop =>
    obtain ⟨-,he⟩ := Option.ite_none_right_eq_some.mp hs
    obtain ⟨loop,-,he⟩ := Option.map_eq_some_iff.mp he
    obtain ⟨rfl,-⟩ := Prod.mk.inj he
    exact le_rfl

/-- All loops are there and run. -/
structure Running (s : PoolStart n) : Prop where
  main : s.main = .started
  children : ∀ i, s.children i = .looping
  threads : ∀ i : Fin n, s.threads i = ⟨some ⟨i + 1,i⟩,none,i + 1⟩

/-- A child that the main thread waits for can go on. -/
theorem busy_child {i : Fin n} (hi : Agrees i (.here stage) (s.children i) (s.threads i))
    (hblocked : stage = .waiting ∨ (stage = .lock ∨ stage = .woken) ∧ (s.threads i).mutex ≠ none) :
    s.childStep i (s.children i) ≠ none := by
  obtain ⟨hcompatible,hmemory⟩ := hi
  have hthread := hmemory (by simp)
  rcases hblocked with rfl | ⟨rfl | rfl,htaken⟩
  · cases hc : s.children i <;> rw [hc] at hcompatible hthread <;> first
      | simp [PoolStart.childStep, hthread, View.memory]; done
      | simp [View.compatible, Stage.children] at hcompatible
  all_goals
    rw [hthread] at htaken
    cases hc : s.children i <;> rw [hc] at hcompatible htaken <;> first
      | simp [PoolStart.childStep]; done
      | simp [View.compatible, Stage.children, View.memory] at hcompatible htaken

theorem atRest_main {calls : ℕ} (h : s.Invariant calls) (hrest : AtRest next StartAct.own s) :
    s.main = .started := by
  have hmainRest : s.next .main = none := hrest _ rfl
  cases hmain : s.main with
  | started => rfl
  | starting i stage =>
    exfalso
    rcases h.turn i stage hmain with hlt | ⟨rfl,rfl⟩
    · have hchildRest : s.next (.child ⟨i,hlt⟩) = none := hrest _ rfl
      have hi := h.consistent ⟨i,hlt⟩
      rw [hmain, view_self] at hi
      have hidle : s.childStep ⟨i,hlt⟩ (s.children ⟨i,hlt⟩) = none := by
        simpa [next, PoolStart.step] using hchildRest
      have hmainIdle : s.mainStep ⟨i,hlt⟩ stage = none := by
        simpa [next, PoolStart.step, hmain, hlt] using hmainRest
      cases stage with
      | init | create | unlock => cases hmainIdle
      | waiting => exact busy_child hi (.inl rfl) hidle
      | lock =>
        refine busy_child hi (.inr ⟨.inl rfl,fun hfree => ?_⟩) hidle
        simp [PoolStart.mainStep, hfree] at hmainIdle
      | woken =>
        refine busy_child hi (.inr ⟨.inr rfl,fun hfree => ?_⟩) hidle
        simp [PoolStart.mainStep, hfree] at hmainIdle
      | test =>
        simp only [PoolStart.mainStep] at hmainIdle
        split at hmainIdle <;> cases hmainIdle
    · simp [next, PoolStart.step, hmain] at hmainRest

theorem atRest_running {calls : ℕ} (h : s.Invariant calls) (hrest : AtRest next StartAct.own s) :
    s.Running := by
  have hmain := atRest_main h hrest
  have hagrees : ∀ i : Fin n, Agrees i .passed (s.children i) (s.threads i) := by
    intro i
    have hi := h.consistent i
    rwa [hmain] at hi
  have hchildren : ∀ i, s.children i = .looping := by
    intro i
    have hchildRest : s.next (.child i) = none := hrest _ rfl
    have hcompatible := (hagrees i).compatible
    cases hc : s.children i with
    | looping => rfl
    | unlocked => 
      have hi := hagrees i
      rw [hc] at hi
      simp [next, PoolStart.step, hc, PoolStart.childStep, hi.runLoop.1] at hchildRest
    | notCreated | created | locked | initialised | signalled | exited =>
      rw [hc] at hcompatible
      cases hcompatible
  refine ⟨hmain,hchildren,fun i => ?_⟩
  have hmemory := (hagrees i).memory (by simp)
  rw [hchildren i] at hmemory
  exact hmemory

theorem Invariant.next {calls : ℕ} (h : s.Invariant calls) {a : StartAct n} (hs : s.next a = some t) :
    ∃ calls', t.Invariant calls' := by
  obtain ⟨o,hs⟩ := next_eq_some.mp hs
  exact ⟨_,(h.step hs).1⟩

/-- The start takes at most twelve steps a thread and one more, and two for every wait that
ends without a signal.  From every state that a run can be in, steps of the main thread and
the children lead to rest; where they are at rest, the main thread is through, every child
is in its loop and every mutex is free. -/
theorem comesUp {garbage : Fin n → EventLoopThread n} {acts : List (StartAct n)}
    (hrun : acts.foldlM next (initial garbage) = some s) :
    acts.countP StartAct.own ≤ 12 * n + 1 + (acts.map StartAct.gain).sum ∧
    (∃ (acts' : List (StartAct n)) (t : PoolStart n), (∀ a ∈ acts', a.own = true) ∧
      acts'.foldlM next s = some t ∧ AtRest next StartAct.own t) ∧
    ∀ (acts' : List (StartAct n)) (t : PoolStart n), acts'.foldlM next s = some t →
      AtRest next StartAct.own t → t.Running := by
  have hinv : ∀ (u : PoolStart n) (a : StartAct n) (v : PoolStart n),
      (∃ calls, u.Invariant calls) → u.next a = some v → ∃ calls, v.Invariant calls := by
    rintro u a v ⟨calls,hu⟩ hs
    exact hu.next hs
  have hpays : ∀ (u : PoolStart n) (a : StartAct n) (v : PoolStart n),
      (∃ calls, u.Invariant calls) → u.next a = some v →
        v.work + a.own.toNat ≤ u.work + a.gain := by
    rintro u a v ⟨calls,hu⟩ hs
    exact work_next hu.consistent hs
  have hlower : ∀ (u : PoolStart n) (a : StartAct n) (v : PoolStart n),
      (∃ calls, u.Invariant calls) → a.own = true → u.next a = some v → v.work < u.work := by
    intro u a v hu hown hs
    have hpaid := hpays u a v hu hs
    have hgain : a.gain = 0 := by cases a <;> first | rfl | cases hown
    rw [hown, Bool.toNat_true, hgain] at hpaid
    omega
  have hstart : (initial garbage).work = 12 * n + 1 := by
    simp [work, initial, Main.weight, Stage.passed, Child.weight]
  have hfirst : ∃ calls, (initial garbage).Invariant calls := ⟨0,invariant_initial garbage⟩
  have hs := foldlM_invariant hinv hfirst hrun
  refine ⟨?_,?_,?_⟩
  · have hpaid := countP_le hinv hpays hfirst hrun
    omega
  · obtain ⟨acts',t,hown,hrun',-,hrest⟩ := leads_to_rest hinv hlower s hs
    exact ⟨acts',t,hown,hrun',hrest⟩
  · intro acts' t hrun' hrest
    obtain ⟨calls,ht⟩ := foldlM_invariant hinv hs hrun'
    exact atRest_running ht hrest

/-- The wait of the main thread ends before the only thread has run at all. -/
theorem comesUp_early :
    ∃ s, s.main = .starting 0 .woken ∧
    [StartAct.main,.main,.main,.main,.wakeSpuriously].countP (StartAct.own (n := 1)) ≤
      12 * 1 + 1 + ([StartAct.main,.main,.main,.main,.wakeSpuriously].map (StartAct.gain (n := 1))).sum ∧
    (∃ (acts' : List (StartAct 1)) (t : PoolStart 1), (∀ a ∈ acts', a.own = true) ∧
      acts'.foldlM next s = some t ∧ AtRest next StartAct.own t) ∧
    ∀ (acts' : List (StartAct 1)) (t : PoolStart 1), acts'.foldlM next s = some t →
      AtRest next StartAct.own t → t.Running :=
  ⟨_,rfl,@comesUp 1 _ (fun _ => ⟨none,none,0⟩) _ rfl⟩

end PoolStart
end CppExamples.HttpTest
