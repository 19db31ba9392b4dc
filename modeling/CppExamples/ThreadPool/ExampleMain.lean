import CppExamples.ThreadPool.PoolWork

/-! # `main` of `example.cpp`

The main thread puts its tasks into the pool one after the other and keeps their futures
in `results`, prints what the futures hold in this order and destroys the pool.  Its steps
interleave with those of the workers; a future is ready when the task behind it has ended.
The number of workers, the number of tasks and what a task returns are arbitrary (4, 8 and
`i*i` in the source).  What the tasks print themselves and how long they sleep is left out.
-/
namespace CppExamples.ThreadPool
open Progress
variable {threads : ℕ} {β : Type*}

/-- Where the main thread is: before the section of the call for task `i`; before the
notification that follows; in the loop over the futures, with those that are left; in the
destructor, after its section; at its end; out of `main` through an exception. -/
inductive MainAt where
  | enqueueing (i : ℕ)
  | notifying (i : ℕ)
  | getting (left : List ℕ)
  | destroying
  | returned
  | terminated
deriving DecidableEq

structure Main (threads : ℕ) (β : Type*) where
  pool : Pool threads ℕ
  main : MainAt
  futures : ℕ → Option β
  results : List ℕ
  printed : List β

inductive MainAct (threads : ℕ) where
  | main (woken : Option (Fin threads))
  | locked (worker : Fin threads)
  | endTask (worker : Fin threads)
  | wakeSpuriously (worker : Fin threads)

namespace Main

def initial : Main threads β :=
  ⟨.initial,.enqueueing 0,fun _ => none,[],[]⟩

/-- A step of the pool, after which the main thread is at another place. -/
def goOn (s : Main threads β) (a : Act threads ℕ) (next : MainAt) : Option (Main threads β) :=
  (s.pool.step a).map fun pool => { s with pool, main := next }

variable (count : ℕ) (body : ℕ → β)

/-- The next step of the main thread; none while it is blocked. -/
def mainStep (s : Main threads β) (woken : Option (Fin threads)) : Option (Main threads β) :=
  match s.main with
  | .enqueueing i =>
    if i < count then
      (s.pool.step (.enqueue i)).map fun pool => { s with
        pool
        main := if pool.enqueues i = .threw then .terminated else .notifying i }
    else some { s with main := .getting s.results }
  | .notifying i =>
    (s.pool.step (.notifyOne i woken)).map fun pool => { s with
      pool
      results := s.results ++ [i]
      main := .enqueueing (i + 1) }
  | .getting (result :: left) =>
    (s.futures result).map fun value => { s with
      printed := s.printed ++ [value]
      main := .getting left }
  | .getting [] => s.goOn .stop .destroying
  | .destroying =>
    match s.pool.destructor with
    | .joining joined =>
      if joined < threads then s.goOn .join .destroying else some { s with main := .returned }
    | _ => s.goOn .notifyAll .destroying
  | .returned | .terminated => none

def step (s : Main threads β) : MainAct threads → Option (Main threads β)
  | .main woken => s.mainStep count woken
  | .locked worker => s.goOn (.locked worker) s.main
  | .endTask worker =>
    match s.pool.workers worker with
    | .running task => (s.pool.step (.endTask worker)).map fun pool => { s with
        pool
        futures := Function.update s.futures task (some (body task)) }
    | _ => none
  | .wakeSpuriously worker => s.goOn (.wakeSpuriously worker) s.main

end Main

/-- All steps but the wake-ups without a notification. -/
def MainAct.isOwn : MainAct threads → Bool
  | .wakeSpuriously _ => false
  | _ => true

namespace MainAt
variable (count : ℕ)

/-- The calls whose section has run. -/
def accepted : MainAt → ℕ
  | .enqueueing i => i
  | .notifying i => i + 1
  | _ => count

/-- The calls that have returned. -/
def stored : MainAt → ℕ
  | .enqueueing i | .notifying i => i
  | _ => count

/-- The futures whose value has not been printed. -/
def unprinted : MainAt → List ℕ
  | .enqueueing _ | .notifying _ => List.range count
  | .getting left => left
  | _ => []

/-- The section of the destructor has not run. -/
def before : MainAt → Bool
  | .enqueueing _ | .notifying _ | .getting _ => true
  | _ => false

/-- What the main thread pays for its own steps and for those of the tasks it has still to
hand over. -/
def weight : MainAt → ℕ
  | .enqueueing i => 5 * (count - i) + count + 3
  | .notifying i => 5 * (count - (i + 1)) + count + 3
  | .getting left => left.length + 2
  | .destroying => 1
  | .returned | .terminated => 0

end MainAt

namespace Main
variable {count : ℕ} {body : ℕ → β} {s t : Main threads β}

/-- What a step of the main thread leaves of the pool and where it gets to. -/
inductive Change (count : ℕ) (body : ℕ → β) (s : Main threads β) : MainAct threads → Main threads β → Prop where
  | enqueue (woken : Option (Fin threads)) (i : ℕ) (pool : Pool threads ℕ)
    (hmain : s.main = .enqueueing i) (hi : i < count) (hpool : s.pool.step (.enqueue i) = some pool) :
    Change count body s (.main woken) { s with
      pool
      main := if pool.enqueues i = .threw then .terminated else .notifying i }
  | endCalls (woken : Option (Fin threads)) (i : ℕ) (hmain : s.main = .enqueueing i)
    (hi : ¬ i < count) : Change count body s (.main woken) { s with main := .getting s.results }
  | notify (woken : Option (Fin threads)) (i : ℕ) (pool : Pool threads ℕ)
    (hmain : s.main = .notifying i) (hpool : s.pool.step (.notifyOne i woken) = some pool) :
    Change count body s (.main woken) { s with
      pool
      results := s.results ++ [i]
      main := .enqueueing (i + 1) }
  | print (woken : Option (Fin threads)) (result : ℕ) (left : List ℕ) (value : β)
    (hmain : s.main = .getting (result :: left)) (hvalue : s.futures result = some value) :
    Change count body s (.main woken) { s with
      printed := s.printed ++ [value]
      main := .getting left }
  | stop (woken : Option (Fin threads)) (pool : Pool threads ℕ) (hmain : s.main = .getting [])
    (hpool : s.pool.step .stop = some pool) :
    Change count body s (.main woken) { s with pool, main := .destroying }
  | notifyAll (woken : Option (Fin threads)) (pool : Pool threads ℕ) (hmain : s.main = .destroying)
    (hpool : s.pool.step .notifyAll = some pool) :
    Change count body s (.main woken) { s with pool, main := .destroying }
  | join (woken : Option (Fin threads)) (pool : Pool threads ℕ) (hmain : s.main = .destroying)
    (hpool : s.pool.step .join = some pool) :
    Change count body s (.main woken) { s with pool, main := .destroying }
  | returns (woken : Option (Fin threads)) (joined : ℕ) (hmain : s.main = .destroying)
    (hjoining : s.pool.destructor = .joining joined) (hall : ¬ joined < threads) :
    Change count body s (.main woken) { s with main := .returned }
  | locked (worker : Fin threads) (pool : Pool threads ℕ)
    (hpool : s.pool.step (.locked worker) = some pool) :
    Change count body s (.locked worker) { s with pool }
  | endTask (worker : Fin threads) (task : ℕ) (pool : Pool threads ℕ)
    (hruns : s.pool.workers worker = .running task)
    (hpool : s.pool.step (.endTask worker) = some pool) :
    Change count body s (.endTask worker) { s with
      pool
      futures := Function.update s.futures task (some (body task)) }
  | wakeSpuriously (worker : Fin threads) (pool : Pool threads ℕ)
    (hpool : s.pool.step (.wakeSpuriously worker) = some pool) :
    Change count body s (.wakeSpuriously worker) { s with pool }

theorem goOn_eq_some {a : Act threads ℕ} {next : MainAt} (h : s.goOn a next = some t) :
    ∃ pool, s.pool.step a = some pool ∧ { s with pool, main := next } = t :=
  Option.map_eq_some_iff.mp h

theorem change_of_mainStep {woken : Option (Fin threads)} (h : s.mainStep count woken = some t) :
    Change count body s (.main woken) t := by
  unfold mainStep at h
  split at h
  next i hmain =>
    split at h
    next hi =>
      obtain ⟨pool,hpool,rfl⟩ := Option.map_eq_some_iff.mp h
      exact .enqueue woken i pool hmain hi hpool
    next hi =>
      obtain rfl := Option.some.inj h
      exact .endCalls woken i hmain hi
  next i hmain =>
    obtain ⟨pool,hpool,rfl⟩ := Option.map_eq_some_iff.mp h
    exact .notify woken i pool hmain hpool
  next result left hmain =>
    obtain ⟨value,hvalue,rfl⟩ := Option.map_eq_some_iff.mp h
    exact .print woken result left value hmain hvalue
  next hmain =>
    obtain ⟨pool,hpool,rfl⟩ := goOn_eq_some h
    exact .stop woken pool hmain hpool
  next hmain =>
    split at h
    next joined hjoining =>
      split at h
      next hlt =>
        obtain ⟨pool,hpool,rfl⟩ := goOn_eq_some h
        exact .join woken pool hmain hpool
      next hall =>
        obtain rfl := Option.some.inj h
        exact .returns woken joined hmain hjoining hall
    next =>
      obtain ⟨pool,hpool,rfl⟩ := goOn_eq_some h
      exact .notifyAll woken pool hmain hpool
  all_goals cases h

theorem change_of_step {a : MainAct threads} (h : s.step count body a = some t) :
    Change count body s a t := by
  cases a with
  | main woken => exact change_of_mainStep h
  | locked worker =>
    obtain ⟨pool,hpool,rfl⟩ := goOn_eq_some h
    exact .locked worker pool hpool
  | endTask worker =>
    cases hruns : s.pool.workers worker with
    | running task =>
      simp only [step, hruns] at h
      obtain ⟨pool,hpool,rfl⟩ := Option.map_eq_some_iff.mp h
      exact .endTask worker task pool hruns hpool
    | ready | waiting | returned => simp [step, hruns] at h
  | wakeSpuriously worker =>
    obtain ⟨pool,hpool,rfl⟩ := goOn_eq_some h
    exact .wakeSpuriously worker pool hpool

end Main

namespace Pool
variable {κ : Type*} [DecidableEq κ] {s t : Pool threads κ}

/-- No call of `enqueue` goes on and no task ends. -/
structure SameCalls (s t : Pool threads κ) : Prop where
  enqueues : t.enqueues = s.enqueues
  accepted : t.accepted = s.accepted
  finished : t.finished = s.finished

omit [DecidableEq κ] in
theorem sameCalls_workerSection {worker : Fin threads} (hs : s.workerSection worker = some t) :
    s.SameCalls t ∧ t.destructor = s.destructor := by
  unfold workerSection at hs
  split_ifs at hs with hwait hleave
  · obtain rfl := Option.some.inj hs
    exact ⟨⟨rfl,rfl,rfl⟩,rfl⟩
  · obtain rfl := Option.some.inj hs
    exact ⟨⟨rfl,rfl,rfl⟩,rfl⟩
  · split at hs
    next => cases hs
    next =>
      obtain rfl := Option.some.inj hs
      exact ⟨⟨rfl,rfl,rfl⟩,rfl⟩

theorem sameCalls_locked {worker : Fin threads} (hs : s.step (.locked worker) = some t) :
    s.SameCalls t ∧ t.destructor = s.destructor := by
  obtain ⟨-,hs⟩ := Option.ite_none_right_eq_some.mp hs
  exact sameCalls_workerSection hs

theorem sameCalls_wakeSpuriously {worker : Fin threads}
    (hs : s.step (.wakeSpuriously worker) = some t) :
    s.SameCalls t ∧ t.destructor = s.destructor := by
  obtain ⟨-,hs⟩ := Option.ite_none_right_eq_some.mp hs
  obtain rfl := Option.some.inj hs
  exact ⟨⟨rfl,rfl,rfl⟩,rfl⟩

theorem sameCalls_stop (hs : s.step .stop = some t) :
    s.SameCalls t ∧ t.destructor = .mustNotify := by
  obtain ⟨-,hs⟩ := Option.ite_none_right_eq_some.mp hs
  obtain rfl := Option.some.inj hs
  exact ⟨⟨rfl,rfl,rfl⟩,rfl⟩

theorem sameCalls_notifyAll (hs : s.step .notifyAll = some t) :
    s.SameCalls t ∧ t.destructor ≠ .before := by
  obtain ⟨-,hs⟩ := Option.ite_none_right_eq_some.mp hs
  obtain rfl := Option.some.inj hs
  exact ⟨⟨rfl,rfl,rfl⟩,by simp⟩

theorem sameCalls_join (hs : s.step .join = some t) :
    s.SameCalls t ∧ t.destructor ≠ .before := by
  cases hjoining : s.destructor with
  | before | mustNotify => simp [step, hjoining] at hs
  | joining joined =>
    simp only [step, hjoining, Option.dite_none_right_eq_some, Option.ite_none_right_eq_some,
      Option.some.injEq] at hs
    obtain ⟨-,-,rfl⟩ := hs
    exact ⟨⟨rfl,rfl,rfl⟩,by simp⟩

theorem enqueue_accepts {call : κ} (hstop : s.stop = false) (hs : s.step (.enqueue call) = some t) :
    t.enqueues = Function.update s.enqueues call .mustNotify ∧ t.accepted = s.accepted ++ [call] ∧
      t.finished = s.finished ∧ t.destructor = s.destructor := by
  obtain ⟨-,hs⟩ := Option.ite_none_right_eq_some.mp hs
  obtain rfl := Option.some.inj hs
  simp only [enqueueSection, hstop, Bool.false_eq_true, if_false, and_self]

theorem notifyOne_returns {call : κ} {woken : Option (Fin threads)}
    (hs : s.step (.notifyOne call woken) = some t) :
    t.enqueues = Function.update s.enqueues call .returned ∧ t.accepted = s.accepted ∧
      t.finished = s.finished ∧ t.destructor = s.destructor := by
  obtain ⟨-,hs⟩ := Option.ite_none_right_eq_some.mp hs
  cases woken with
  | none =>
    obtain ⟨-,hs⟩ := Option.ite_none_left_eq_some.mp hs
    obtain rfl := Option.some.inj hs
    exact ⟨rfl,rfl,rfl,rfl⟩
  | some worker =>
    obtain ⟨-,hs⟩ := Option.ite_none_right_eq_some.mp hs
    obtain rfl := Option.some.inj hs
    exact ⟨rfl,rfl,rfl,rfl⟩

end Pool

namespace Main
variable {count : ℕ} {body : ℕ → β} {place : MainAt} {s t : Main threads β}

/-- At its place the main thread has made the first calls and printed the first values. -/
structure Sound (count : ℕ) (body : ℕ → β) (place : MainAt) (s : Main threads β) : Prop where
  main : s.main = place
  reachable : s.pool.Reachable
  enqueues : ∀ c, s.pool.enqueues c = if c < place.stored count then .returned
    else if c < place.accepted count then .mustNotify else .called
  accepted : s.pool.accepted = List.range (place.accepted count)
  results : s.results = List.range (place.stored count)
  printed : ∃ gone, List.range count = gone ++ place.unprinted count ∧ s.printed = gone.map body ∧
    ∀ c ∈ gone, c ∈ s.pool.finished
  futures : ∀ c, s.futures c = if c ∈ s.pool.finished then some (body c) else none
  before : s.pool.destructor = .before ↔ place.before = true
  bound : place.accepted count ≤ count
  returned : place = .returned → s.pool.destructor = .joining threads
  running : place ≠ .terminated

theorem Sound.initial : (initial : Main threads β).Sound count body (.enqueueing 0) where
  main := rfl
  reachable := Relation.ReflTransGen.refl
  enqueues _ := rfl
  accepted := rfl
  results := rfl
  printed := ⟨[],rfl,rfl,List.forall_mem_nil _⟩
  futures _ := rfl
  before := by simp [Main.initial, Pool.initial, MainAt.before]
  bound := Nat.zero_le _
  returned h := by cases h
  running h := by cases h

theorem Sound.moves (h : s.Sound count body place) {a : Act threads ℕ} {pool : Pool threads ℕ}
    (hpool : s.pool.step a = some pool) (hsame : s.pool.SameCalls pool) {next : MainAt}
    (hstored : next.stored count = place.stored count)
    (haccepted : next.accepted count = place.accepted count)
    (hunprinted : next.unprinted count = place.unprinted count)
    (hbefore : pool.destructor = .before ↔ next.before = true)
    (hreturned : next = .returned → pool.destructor = .joining threads)
    (hrunning : next ≠ .terminated) :
    { s with pool, main := next }.Sound count body next where
  main := rfl
  reachable := h.reachable.step hpool
  enqueues c := by simpa only [hsame.enqueues, hstored, haccepted] using h.enqueues c
  accepted := by simpa only [hsame.accepted, haccepted] using h.accepted
  results := by simpa only [hstored] using h.results
  printed := by simpa only [hunprinted, hsame.finished] using h.printed
  futures c := by simpa only [hsame.finished] using h.futures c
  before := hbefore
  bound := by simpa only [haccepted] using h.bound
  returned := hreturned
  running := hrunning

theorem Sound.stays (h : s.Sound count body place) {a : Act threads ℕ} {pool : Pool threads ℕ}
    (hpool : s.pool.step a = some pool)
    (hsame : s.pool.SameCalls pool ∧ pool.destructor = s.pool.destructor) :
    { s with pool }.Sound count body place := by
  obtain ⟨hcalls,hdestructor⟩ := hsame
  have hbefore : pool.destructor = .before ↔ place.before = true := by
    rw [hdestructor]
    exact h.before
  have hreturned : place = .returned → pool.destructor = .joining threads := by
    rw [hdestructor]
    exact h.returned
  obtain rfl := h.main
  exact h.moves hpool hcalls rfl rfl rfl hbefore hreturned h.running

theorem Sound.enqueue {i : ℕ} (h : s.Sound count body (.enqueueing i)) {pool : Pool threads ℕ} (hi : i < count) (hpool : s.pool.step (.enqueue i) = some pool) :
    pool.enqueues i ≠ .threw ∧ { s with pool, main := .notifying i }.Sound count body (.notifying i) := by
  have hreachable := h.reachable.step hpool
  have hbefore : s.pool.destructor = .before := h.before.mpr rfl
  have hstop : s.pool.stop = false := by
    rw [Bool.eq_false_iff]
    intro hstop
    exact h.reachable.shutdown.stop_iff.mp hstop hbefore
  obtain ⟨hcalls,haccepted,hfinished,hdestructor⟩ := Pool.enqueue_accepts hstop hpool
  refine ⟨by simp [hcalls],rfl,hreachable,?_,?_,h.results,?_,?_,?_,hi,by simp,by simp⟩
  · intro c
    simp only [hcalls, MainAt.stored, MainAt.accepted]
    rcases lt_trichotomy c i with hlt | rfl | hgt
    · rw [Function.update_of_ne hlt.ne, h.enqueues]
      simp [MainAt.stored, hlt]
    · simp
    · have hnot : ¬ c < i := by omega
      have hnext : ¬ c < i + 1 := by omega
      rw [Function.update_of_ne hgt.ne', h.enqueues]
      simp [MainAt.stored, MainAt.accepted, hnot, hnext]
  · simp only [haccepted, h.accepted, MainAt.accepted, List.range_succ]
  · rw [hfinished]
    exact h.printed
  · simpa only [hfinished] using h.futures
  · simp [hdestructor, hbefore, MainAt.before]

theorem Sound.notify {i : ℕ} (h : s.Sound count body (.notifying i)) {woken : Option (Fin threads)}
    {pool : Pool threads ℕ} (hpool : s.pool.step (.notifyOne i woken) = some pool) :
    { s with pool, results := s.results ++ [i], main := .enqueueing (i + 1) }.Sound count body
      (.enqueueing (i + 1)) := by
  have hreachable := h.reachable.step hpool
  have hbefore : s.pool.destructor = .before ↔ (MainAt.enqueueing (i + 1)).before = true := h.before
  obtain ⟨hcalls,haccepted,hfinished,hdestructor⟩ := Pool.notifyOne_returns hpool
  refine ⟨rfl,hreachable,?_,?_,?_,?_,?_,?_,h.bound,by simp,by simp⟩
  · intro c
    simp only [hcalls, MainAt.stored, MainAt.accepted]
    rcases lt_trichotomy c i with hlt | rfl | hgt
    · rw [Function.update_of_ne hlt.ne, h.enqueues]
      simp [MainAt.stored, hlt, Nat.lt_succ_of_lt hlt]
    · simp
    · have hnot : ¬ c < i := by omega
      have hnext : ¬ c < i + 1 := by omega
      rw [Function.update_of_ne hgt.ne', h.enqueues]
      simp [MainAt.stored, MainAt.accepted, hnot, hnext]
  · simp only [haccepted, h.accepted, MainAt.accepted]
  · simp only [h.results, MainAt.stored, List.range_succ]
  · rw [hfinished]
    exact h.printed
  · simpa only [hfinished] using h.futures
  · rw [← hdestructor] at hbefore
    exact hbefore

theorem Sound.endCalls {i : ℕ} (h : s.Sound count body (.enqueueing i)) (hi : ¬ i < count) :
    { s with main := .getting s.results }.Sound count body (.getting s.results) := by
  obtain rfl : i = count := le_antisymm h.bound (not_lt.mp hi)
  obtain ⟨gone,hrange,hprinted⟩ := h.printed
  refine ⟨rfl,h.reachable,h.enqueues,h.accepted,h.results,⟨gone,?_,hprinted⟩,h.futures,h.before,le_rfl,by simp,by simp⟩
  rw [hrange, h.results]
  rfl

theorem Sound.print {result : ℕ} {left : List ℕ} (h : s.Sound count body (.getting (result :: left)))
    {value : β} (hvalue : s.futures result = some value) :
    { s with printed := s.printed ++ [value], main := .getting left }.Sound count body
      (.getting left) := by
  have hended : result ∈ s.pool.finished ∧ body result = value := by
    rw [h.futures] at hvalue
    split_ifs at hvalue with hin
    exact ⟨hin,Option.some.inj hvalue⟩
  obtain ⟨gone,hrange,hprinted,hgone⟩ := h.printed
  refine ⟨rfl,h.reachable,h.enqueues,h.accepted,h.results,⟨gone ++ [result],?_,?_,?_⟩,h.futures,h.before,
    le_rfl,by simp,by simp⟩
  · rw [hrange, List.append_assoc]
    rfl
  · simp [hprinted, hended.2]
  · intro c hc
    rcases List.mem_append.mp hc with hc | hc
    · exact hgone c hc
    · rw [List.mem_singleton.mp hc]
      exact hended.1

theorem Sound.returns {joined : ℕ} (h : s.Sound count body .destroying)
    (hjoining : s.pool.destructor = .joining joined) (hall : ¬ joined < threads) :
    { s with main := .returned }.Sound count body .returned := by
  obtain rfl : joined = threads := le_antisymm (h.reachable.joining_le hjoining) (not_lt.mp hall)
  exact ⟨rfl,h.reachable,h.enqueues,h.accepted,h.results,h.printed,h.futures,h.before,le_rfl,
    fun _ => hjoining,by simp⟩

theorem Sound.endTask (h : s.Sound count body place) {worker : Fin threads} {task : ℕ}
    {pool : Pool threads ℕ} (hruns : s.pool.workers worker = .running task)
    (hpool : s.pool.step (.endTask worker) = some pool) :
    { s with pool, futures := Function.update s.futures task (some (body task)) }.Sound count body
      place := by
  have hreachable := h.reachable.step hpool
  simp only [Pool.step, hruns, Option.some.injEq] at hpool
  subst hpool
  obtain ⟨gone,hrange,hprinted,hgone⟩ := h.printed
  have hended : ∀ c ∈ gone, c ∈ s.pool.finished ++ [task] := fun c hc =>
    List.mem_append_left _ (hgone c hc)
  refine ⟨h.main,hreachable,h.enqueues,h.accepted,h.results,⟨gone,hrange,hprinted,hended⟩,?_,h.before,
    h.bound,h.returned,h.running⟩
  intro c
  by_cases hc : c = task
  · subst hc
    simp
  · simp [hc, h.futures]

theorem Sound.step (h : s.Sound count body s.main) {a : MainAct threads}
    (hs : s.step count body a = some t) : t.Sound count body t.main := by
  cases change_of_step hs with
  | enqueue woken i pool hmain hi hpool =>
    rw [hmain] at h
    obtain ⟨hthrew,hnext⟩ := h.enqueue hi hpool
    simpa only [if_neg hthrew] using hnext
  | endCalls woken i hmain hi =>
    rw [hmain] at h
    exact h.endCalls hi
  | notify woken i pool hmain hpool =>
    rw [hmain] at h
    exact h.notify hpool
  | print woken result left value hmain hvalue =>
    rw [hmain] at h
    exact h.print hvalue
  | stop woken pool hmain hpool =>
    rw [hmain] at h
    obtain ⟨hsame,hmust⟩ := Pool.sameCalls_stop hpool
    exact h.moves hpool hsame rfl rfl rfl (by simp [hmust, MainAt.before]) (by simp) (by simp)
  | notifyAll woken pool hmain hpool =>
    rw [hmain] at h
    obtain ⟨hsame,hbefore⟩ := Pool.sameCalls_notifyAll hpool
    exact h.moves hpool hsame rfl rfl rfl (by simp [hbefore, MainAt.before]) (by simp) (by simp)
  | join woken pool hmain hpool =>
    rw [hmain] at h
    obtain ⟨hsame,hbefore⟩ := Pool.sameCalls_join hpool
    exact h.moves hpool hsame rfl rfl rfl (by simp [hbefore, MainAt.before]) (by simp) (by simp)
  | returns woken joined hmain hjoining hall =>
    rw [hmain] at h
    exact h.returns hjoining hall
  | locked worker pool hpool => exact h.stays hpool (Pool.sameCalls_locked hpool)
  | endTask worker task pool hruns hpool => exact h.endTask hruns hpool
  | wakeSpuriously worker pool hpool => exact h.stays hpool (Pool.sameCalls_wakeSpuriously hpool)

theorem Sound.run {acts : List (MainAct threads)}
    (hrun : acts.foldlM (Main.step count body) Main.initial = some t) : t.Sound count body t.main := by
  have hstep : ∀ (s : Main threads β) a t, s.Sound count body s.main →
      Main.step count body s a = some t → t.Sound count body t.main :=
    fun _ _ _ h hs => Sound.step h hs
  have hend := foldlM_invariant hstep Sound.initial hrun
  exact hend

theorem Sound.prefix_printed (h : s.Sound count body place) :
    s.printed <+: (List.range count).map body := by
  obtain ⟨gone,hrange,hprinted,-⟩ := h.printed
  rw [hrange, hprinted, List.map_append]
  exact List.prefix_append _ _

/-- In every run of `main`, however its steps and those of the workers interleave, no call
throws, and what has been printed are the values of the first tasks in the order of the calls.
Once `main` has returned these are all, the tasks were taken in this order, each has ended
once, and every worker has returned. -/
theorem prints_inOrder {acts : List (MainAct threads)}
    (hrun : acts.foldlM (Main.step count body) Main.initial = some t) :
    t.printed <+: (List.range count).map body ∧ t.main ≠ .terminated ∧
    (t.main = .returned → t.printed = (List.range count).map body ∧
      t.pool.taken = List.range count ∧ t.pool.finished.Perm (List.range count) ∧
      ∀ worker, t.pool.workers worker = .returned) := by
  have hsound := Sound.run hrun
  refine ⟨hsound.prefix_printed,hsound.running,fun hmain => ?_⟩
  have hdestructor := hsound.returned hmain
  obtain ⟨gone,hrange,hprinted,hgone⟩ := hsound.printed
  have haccepted := hsound.accepted
  rw [hmain] at hrange haccepted
  have hconserved := hsound.reachable.conserved
  have hreturned : ∀ worker, t.pool.workers worker = .returned := fun worker =>
    hsound.reachable.shutdown.joined threads hdestructor worker worker.isLt
  have htasks : t.pool.tasks = [] := by
    -- a task that is left would be one whose value has been printed
    refine List.eq_nil_iff_forall_not_mem.mpr fun c hc => ?_
    have hall : c ∈ gone := by
      rw [← List.append_nil gone, show ([] : List ℕ) = MainAt.returned.unprinted count from rfl,
        ← hrange, ← show t.pool.accepted = List.range count from haccepted, hconserved.order]
      exact List.mem_append_right _ hc
    have hnodup := hconserved.nodup_places
    rw [add_assoc] at hnodup
    exact Multiset.disjoint_left.mp (Multiset.nodup_add.mp hnodup).2.2 hc
      (Multiset.mem_add.mpr (.inr (hgone c hall)))
  have htaken : t.pool.taken = List.range count := by
    have horder := hconserved.order
    rw [htasks, List.append_nil, haccepted] at horder
    exact horder.symm
  have hrunning : t.pool.running = 0 := by
    apply Holders.held_eq_zero
    intro worker
    simp [hreturned, Worker.task]
  have hfinished : t.pool.finished.Perm (List.range count) := by
    have hplaces := hconserved.places
    rw [hrunning, zero_add, htaken] at hplaces
    exact (Multiset.coe_eq_coe.mp hplaces).symm
  refine ⟨?_,htaken,hfinished,hreturned⟩
  rw [hprinted, hrange]
  simp [MainAt.unprinted]

/-- One worker and two tasks, of which the first has ended and been printed. -/
theorem prints_inOrder_sample :
    ∃ t : Main 1 ℕ,
      [MainAct.main none,.main none,.locked 0,.main none,.main none,.main none,.endTask 0,.main none].foldlM
        (Main.step 2 fun i => i * i + 5) Main.initial = some t ∧ t.printed = [5] ∧
      t.printed <+: (List.range 2).map (fun i => i * i + 5) ∧ t.main ≠ .terminated ∧
      (t.main = .returned → t.printed = (List.range 2).map (fun i => i * i + 5) ∧
        t.pool.taken = List.range 2 ∧ t.pool.finished.Perm (List.range 2) ∧
        ∀ worker, t.pool.workers worker = .returned) := by
  have hrun : ∃ t : Main 1 ℕ,
      [MainAct.main none,.main none,.locked 0,.main none,.main none,.main none,.endTask 0,.main none].foldlM
        (Main.step 2 fun i => i * i + 5) Main.initial = some t ∧ t.printed = [5] := ⟨_,rfl,rfl⟩
  obtain ⟨t,hrun,hprinted⟩ := hrun
  exact ⟨t,hrun,hprinted,prints_inOrder hrun⟩

/-- What is left to do. -/
def work (count : ℕ) (s : Main threads β) : ℕ :=
  s.pool.work + s.main.weight count

theorem work_step (hthreads : 1 ≤ threads) (h : s.Sound count body s.main) {a : MainAct threads}
    (hs : s.step count body a = some t) : t.work count + 1 ≤ s.work count + 2 * (!a.isOwn).toNat := by
  have hpaid : ∀ {b : Act threads ℕ} {pool : Pool threads ℕ}, s.pool.step b = some pool →
      pool.work + b.isOwn.toNat ≤ s.pool.work + b.gain := fun hpool =>
    Pool.work_step (h.reachable.invariant hthreads).conserved hpool
  cases change_of_step hs with
  | enqueue woken i pool hmain hi hpool =>
    rw [hmain] at h
    obtain ⟨hthrew,-⟩ := h.enqueue hi hpool
    have hsection := hpaid hpool
    simp only [Act.isOwn, Act.gain, Bool.toNat_false] at hsection
    simp only [work, hmain, if_neg hthrew, MainAt.weight]
    omega
  | endCalls woken i hmain hi =>
    rw [hmain] at h
    obtain rfl : i = count := le_antisymm h.bound (not_lt.mp hi)
    have hlength : s.results.length = i := by simp [h.results, MainAt.stored]
    simp only [work, hmain, MainAt.weight]
    omega
  | notify woken i pool hmain hpool =>
    have hnotified := hpaid hpool
    simp only [Act.isOwn, Act.gain, Bool.toNat_true] at hnotified
    simp only [work, hmain, MainAt.weight]
    omega
  | print woken result left value hmain hvalue =>
    simp only [work, hmain, MainAt.weight, List.length_cons]
    omega
  | stop woken pool hmain hpool =>
    have hsection := hpaid hpool
    simp only [Act.isOwn, Act.gain, Bool.toNat_false] at hsection
    simp only [work, hmain, MainAt.weight, List.length_nil]
    omega
  | notifyAll woken pool hmain hpool | join woken pool hmain hpool =>
    have hown := hpaid hpool
    simp only [Act.isOwn, Act.gain, Bool.toNat_true] at hown
    simp only [work, hmain, MainAt.weight]
    omega
  | returns woken joined hmain hjoining hall =>
    simp only [work, hmain, MainAt.weight]
    omega
  | locked worker pool hpool | endTask worker task pool hruns hpool =>
    have hown := hpaid hpool
    simp only [Act.isOwn, Act.gain, Bool.toNat_true] at hown
    simp only [work]
    omega
  | wakeSpuriously worker pool hpool =>
    have hwoken := hpaid hpool
    simp only [Act.isOwn, Act.gain, Bool.toNat_false] at hwoken
    simp only [work, MainAct.isOwn, Bool.not_false, Bool.toNat_true]
    omega

theorem atRest_pool (h : s.Sound count body s.main) (hrest : AtRest (Main.step count body) MainAct.isOwn s) :
    AtRest Pool.step Act.isOwn s.pool := by
  have hmain : ∀ woken, s.mainStep count woken = none := fun woken => hrest (.main woken) rfl
  intro a hown
  cases a with
  | enqueue | wakeSpuriously | stop => cases hown
  | locked worker => exact Option.map_eq_none_iff.mp (hrest (.locked worker) rfl)
  | endTask worker =>
    have hnone : s.step count body (.endTask worker) = none := hrest (.endTask worker) rfl
    cases hw : s.pool.workers worker with
    | running task =>
      simp only [step, hw] at hnone
      exact Option.map_eq_none_iff.mp hnone
    | ready | waiting | returned => simp [Pool.step, hw]
  | notifyOne call woken =>
    by_contra hsome
    have hcall : s.pool.enqueues call = .mustNotify := by
      by_contra hno
      exact hsome (by simp [Pool.step, hno])
    have hplace : s.main = .notifying call := by
      rw [h.enqueues] at hcall
      cases hm : s.main with
      | notifying i =>
        simp only [hm, MainAt.stored, MainAt.accepted] at hcall
        have hi : call = i := by grind
        rw [hi]
      | enqueueing | getting | destroying | returned | terminated =>
        simp only [hm, MainAt.stored, MainAt.accepted] at hcall
        grind
    have hnone := hmain woken
    simp only [mainStep, hplace] at hnone
    exact hsome (Option.map_eq_none_iff.mp hnone)
  | notifyAll =>
    by_contra hsome
    have hmust : s.pool.destructor = .mustNotify := by
      by_contra hno
      exact hsome (by simp [Pool.step, hno])
    have hbefore := h.before
    cases hm : s.main with
    | destroying =>
      have hnone := hmain none
      simp only [mainStep, hm, hmust] at hnone
      exact hsome (Option.map_eq_none_iff.mp hnone)
    | returned => cases hmust.symm.trans (h.returned hm)
    | terminated => exact h.running hm
    | enqueueing | notifying | getting => simp [hm, hmust, MainAt.before] at hbefore
  | join =>
    by_contra hsome
    obtain ⟨pool,hpool⟩ := Option.ne_none_iff_exists'.mp hsome
    have hbefore := h.before
    cases hd : s.pool.destructor with
    | before | mustNotify => simp [Pool.step, hd] at hpool
    | joining joined =>
      have hlt : joined < threads := by
        by_contra hno
        simp [Pool.step, hd, hno] at hpool
      cases hm : s.main with
      | destroying =>
        have hnone := hmain none
        simp only [mainStep, hm, hd, if_pos hlt] at hnone
        exact hsome (Option.map_eq_none_iff.mp hnone)
      | returned =>
        obtain rfl : joined = threads := by simpa [hd] using h.returned hm
        exact absurd hlt (lt_irrefl _)
      | terminated => exact h.running hm
      | enqueueing | notifying | getting => simp [hm, hd, MainAt.before] at hbefore

/-- Where nothing can go on, `main` has returned. -/
theorem atRest_returned (hthreads : 1 ≤ threads) (h : s.Sound count body s.main)
    (hrest : AtRest (Main.step count body) MainAct.isOwn s) : s.main = .returned := by
  have hdrained := Pool.atRest_drained hthreads h.reachable (atRest_pool h hrest)
  have hmain : s.mainStep count none = none := hrest (.main none) rfl
  cases hm : s.main with
  | returned => rfl
  | terminated => exact absurd hm h.running
  | enqueueing i =>
    by_cases hi : i < count
    · have hcalled := h.enqueues i
      simp only [hm, MainAt.stored, MainAt.accepted, lt_irrefl, if_false] at hcalled
      simp [mainStep, hm, hi, Pool.step, hcalled] at hmain
    · simp [mainStep, hm, hi] at hmain
  | notifying i =>
    have hcall := h.enqueues i
    simp only [hm, MainAt.stored, MainAt.accepted, lt_irrefl, if_false, Nat.lt_succ_self, if_true] at hcall
    exact absurd hcall (hdrained.enqueues i)
  | getting left =>
    cases left with
    | nil =>
      have hbefore : s.pool.destructor = .before := h.before.mpr (by rw [hm]; rfl)
      simp [mainStep, hm, goOn, Pool.step, hbefore] at hmain
    | cons result left =>
      obtain ⟨gone,hrange,-⟩ := h.printed
      have haccepted := h.accepted
      simp only [hm, MainAt.unprinted, MainAt.accepted] at hrange haccepted
      have hfinished : result ∈ s.pool.finished := by
        rw [hdrained.finished.mem_iff, haccepted, hrange]
        simp
      simp [mainStep, hm, h.futures, hfinished] at hmain
  | destroying =>
    have hbefore := h.before
    rcases hdrained.destructor with ⟨hd,-⟩ | ⟨hd,-⟩
    · simp [hm, hd, MainAt.before] at hbefore
    · simp [mainStep, hm, hd] at hmain

theorem returned_atRest (h : s.Sound count body s.main) (hmain : s.main = .returned) :
    AtRest (Main.step count body) MainAct.isOwn s := by
  have hreturned : ∀ worker, s.pool.workers worker = .returned := fun worker =>
    h.reachable.shutdown.joined threads (h.returned hmain) worker worker.isLt
  intro a hown
  cases a with
  | main woken => simp [step, mainStep, hmain]
  | locked worker => simp [step, goOn, Pool.step, hreturned]
  | endTask worker => simp [step, hreturned]
  | wakeSpuriously => cases hown

theorem sum_spurious (acts : List (MainAct threads)) :
    (acts.map fun a => 2 * (!a.isOwn).toNat).sum = 2 * acts.countP fun a => !a.isOwn := by
  induction acts with
  | nil => simp
  | cons a acts ih =>
    rw [List.map_cons, List.sum_cons, ih, List.countP_cons]
    cases a.isOwn with
    | true => simp
    | false =>
      simp only [Bool.not_false, Bool.toNat_true, if_true]
      omega

theorem work_initial : (initial : Main threads β).work count = 3 * threads + 6 * count + 4 := by
  simp only [work, initial, Pool.work, Pool.initial, List.length_nil, weight_ready, Finset.sum_const,
    Finset.card_univ, Fintype.card_fin, smul_eq_mul, List.map_nil, List.sum_nil, Destructor.weight,
    MainAt.weight]
  omega

/-- `main` returns.  The steps of a run are at most three for every worker, six for every
task, four, and two for every spurious wake-up; nothing can go on exactly when `main` has
returned; and from every state of a run the steps of the threads lead to its return. -/
theorem main_returns (hthreads : 1 ≤ threads) {acts : List (MainAct threads)}
    (hrun : acts.foldlM (Main.step count body) Main.initial = some s) :
    acts.length ≤ 3 * threads + 6 * count + 4 + 2 * acts.countP (fun a => !a.isOwn) ∧
    (AtRest (Main.step count body) MainAct.isOwn s ↔ s.main = .returned) ∧
    ∃ (more : List (MainAct threads)) (t : Main threads β), (∀ a ∈ more, a.isOwn = true) ∧
      more.foldlM (Main.step count body) s = some t ∧ t.main = .returned := by
  have hsound := Sound.run hrun
  have hkeeps : ∀ (s : Main threads β) a t, s.Sound count body s.main → Main.step count body s a = some t →
      t.Sound count body t.main := fun _ _ _ h hs => Sound.step h hs
  refine ⟨?_,⟨atRest_returned hthreads hsound,returned_atRest hsound⟩,?_⟩
  · have hpays : ∀ (s : Main threads β) a t, s.Sound count body s.main → Main.step count body s a = some t →
        t.work count + true.toNat ≤ s.work count + 2 * (!a.isOwn).toNat :=
      fun _ _ _ h hs => work_step hthreads h hs
    have hpaid := countP_le hkeeps hpays Sound.initial hrun
    rw [sum_spurious, work_initial, List.countP_true] at hpaid
    omega
  · have hlower : ∀ (s : Main threads β) a t, s.Sound count body s.main → a.isOwn = true →
        Main.step count body s a = some t → t.work count < s.work count := by
      intro s a t h hown hs
      have hpaid := work_step hthreads h hs
      simp only [hown, Bool.not_true, Bool.toNat_false] at hpaid
      omega
    obtain ⟨more,t,hown,hmore,ht,hrest⟩ := leads_to_rest hkeeps hlower s hsound
    exact ⟨more,t,hown,hmore,atRest_returned hthreads ht hrest⟩

/-- One worker waits for the first of two tasks. -/
theorem main_returns_sample :
    ∃ s : Main 1 ℕ,
      [MainAct.locked 0].foldlM (Main.step 2 fun i => i * i) Main.initial = some s ∧
      s.pool.workers 0 = .waiting ∧
      [MainAct.locked (0 : Fin 1)].length ≤
        3 * 1 + 6 * 2 + 4 + 2 * [MainAct.locked (0 : Fin 1)].countP (fun a => !a.isOwn) ∧
      (AtRest (Main.step 2 fun i => i * i) MainAct.isOwn s ↔ s.main = .returned) ∧
      ∃ (more : List (MainAct 1)) (t : Main 1 ℕ), (∀ a ∈ more, a.isOwn = true) ∧
        more.foldlM (Main.step 2 fun i => i * i) s = some t ∧ t.main = .returned := by
  have hrun : ∃ s : Main 1 ℕ,
      [MainAct.locked 0].foldlM (Main.step 2 fun i => i * i) Main.initial = some s ∧
      s.pool.workers 0 = .waiting := ⟨_,rfl,rfl⟩
  obtain ⟨s,hrun,hwaits⟩ := hrun
  exact ⟨s,hrun,hwaits,main_returns le_rfl hrun⟩

end Main
end CppExamples.ThreadPool
