import CppExamples.Library.Holders

/-! # `ThreadPool`

Any number of workers, any set of `enqueue` calls and one destructor share the queue
and the flag `stop`.  The atomic steps are the sections under `queue_mutex`, the
notifications that follow them outside of it, the wake-ups without a notification, the
ends of tasks and the joins.  A task is named by the call that enqueues it.  Three logs
record the tasks in the order in which they were put into the queue, were taken from
it and ended.
-/
namespace CppExamples.ThreadPool
variable {κ : Type*} {threads : ℕ}

/-- A worker is about to take the lock, at the top of its loop or on its way out of
`wait`; it waits; it runs a task; it has returned. -/
inductive Worker (κ : Type*) where
  | ready
  | waiting
  | running (task : κ)
  | returned
deriving DecidableEq

/-- A call of `enqueue` has not had the lock yet; has given it back and is about to
notify; has returned; has thrown. -/
inductive Enqueue where
  | called
  | mustNotify
  | returned
  | threw
deriving DecidableEq

/-- The destructor has not had the lock yet; has given it back and is about to notify
all; has joined the first workers. -/
inductive Destructor where
  | before
  | mustNotify
  | joining (joined : ℕ)
deriving DecidableEq

structure Pool (threads : ℕ) (κ : Type*) where
  tasks : List κ
  stop : Bool
  workers : Fin threads → Worker κ
  enqueues : κ → Enqueue
  destructor : Destructor
  accepted : List κ
  taken : List κ
  finished : List κ

inductive Act (threads : ℕ) (κ : Type*) where
  | enqueue (call : κ)
  | notifyOne (call : κ) (woken : Option (Fin threads))
  | locked (worker : Fin threads)
  | wakeSpuriously (worker : Fin threads)
  | endTask (worker : Fin threads)
  | stop
  | notifyAll
  | join

def Worker.task : Worker κ → Option κ
  | .running task => some task
  | _ => none

def Worker.notified : Worker κ → Worker κ
  | .waiting => .ready
  | worker => worker

namespace Pool

def initial : Pool threads κ :=
  ⟨[],false,fun _ => .ready,fun _ => .called,.before,[],[],[]⟩

/-- The section of a worker: the test of `wait`, the test for the end and the pop; no
result if there were no front to pop. -/
def workerSection (s : Pool threads κ) (worker : Fin threads) : Option (Pool threads κ) :=
  if !(s.stop || !s.tasks.isEmpty) then
    some { s with workers := Function.update s.workers worker .waiting }
  else if s.stop && s.tasks.isEmpty then
    some { s with workers := Function.update s.workers worker .returned }
  else
    match s.tasks with
    | [] => none
    | task :: rest => some { s with
        tasks := rest
        taken := s.taken ++ [task]
        workers := Function.update s.workers worker (.running task) }

variable [DecidableEq κ]

/-- The section of `enqueue`. -/
def enqueueSection (s : Pool threads κ) (call : κ) : Pool threads κ :=
  if s.stop then { s with enqueues := Function.update s.enqueues call .threw }
  else { s with
    tasks := s.tasks ++ [call]
    accepted := s.accepted ++ [call]
    enqueues := Function.update s.enqueues call .mustNotify }

/-- One atomic step; none when the thread it belongs to is not at that point. -/
def step (s : Pool threads κ) : Act threads κ → Option (Pool threads κ)
  | .enqueue call => if s.enqueues call = .called then some (s.enqueueSection call) else none
  | .notifyOne call woken =>
    if s.enqueues call = .mustNotify then
      let s' := { s with enqueues := Function.update s.enqueues call .returned }
      match woken with
      | none => if ∃ worker, s.workers worker = .waiting then none else some s'
      | some worker =>
        if s.workers worker = .waiting then
          some { s' with workers := Function.update s.workers worker .ready }
        else none
    else none
  | .locked worker => if s.workers worker = .ready then s.workerSection worker else none
  | .wakeSpuriously worker =>
    if s.workers worker = .waiting then
      some { s with workers := Function.update s.workers worker .ready }
    else none
  | .endTask worker =>
    match s.workers worker with
    | .running task => some { s with
        finished := s.finished ++ [task]
        workers := Function.update s.workers worker .ready }
    | _ => none
  | .stop =>
    if s.destructor = .before then some { s with stop := true, destructor := .mustNotify } else none
  | .notifyAll =>
    if s.destructor = .mustNotify then
      some { s with
        workers := fun worker => (s.workers worker).notified
        destructor := .joining 0 }
    else none
  | .join =>
    match s.destructor with
    | .joining joined =>
      if h : joined < threads then
        if s.workers ⟨joined, h⟩ = .returned then
          some { s with destructor := .joining (joined + 1) }
        else none
      else none
    | _ => none

def Reachable (s : Pool threads κ) : Prop :=
  Relation.ReflTransGen (fun s t => ∃ a, step s a = some t) initial s

end Pool
end CppExamples.ThreadPool
