import CppExamples.Library.SafeSequence

/-! # The banker's algorithm

`System` holds the globals of the program: the tables, the request being tried
and the work of the last safety check.  Quantities are of any ordered additive
group, so that the results hold both of unbounded integers and of a machine type
whose arithmetic wraps.  Arrays are read and written at their first `progressNum`
and `resourceNum` indices; a row index beyond the declared `M` rows has no result.
-/
namespace CppExamples.Banker
variable {α : Type*} [AddCommGroup α] [LinearOrder α]

/-- The declared numbers of rows and columns of the tables. -/
abbrev M : ℕ := 10
abbrev N : ℕ := 10

structure System (α : Type*) where
  progressNum : ℕ
  resourceNum : ℕ
  progress_le : progressNum ≤ M
  resource_le : resourceNum ≤ N
  id : ℤ
  available : ℕ → α
  max : ℕ → ℕ → α
  need : ℕ → ℕ → α
  allocate : ℕ → ℕ → α
  request : ℕ → α
  work : ℕ → α
  finish : ℕ → Bool
  workAllocation : ℕ → ℕ → α
  flag : Bool
  safe : ℕ → ℕ

namespace System

/-- What keeps the request from being granted at one resource. -/
inductive Complaint where
  | exceedsNeed (resource : ℕ)
  | exceedsAvailable (resource : ℕ)
deriving DecidableEq

/-- The prompt for a process number, repeated until one is not refused; the check
lets the number `progressNum` itself pass. -/
def readId (progressNum : ℕ) (typed : List ℤ) : Option ℤ :=
  typed.find? fun id => !(decide (id < 0) || decide ((progressNum : ℤ) < id))

/-- The body of the allocation loop.  A refused resource is taken all the same and
handed back by `returnBack`. -/
def allocateAt (id : ℕ) (r : System α × List Complaint) (i : ℕ) : System α × List Complaint :=
  let s := r.1
  let said :=
    if s.request i > s.need id i then r.2 ++ [.exceedsNeed i]
    else if s.request i > s.available i then r.2 ++ [.exceedsAvailable i]
    else r.2
  ({ s with
      available := Function.update s.available i (s.available i - s.request i)
      allocate := Function.update s.allocate id
        (Function.update (s.allocate id) i (s.allocate id i + s.request i))
      need := Function.update s.need id
        (Function.update (s.need id) i (s.need id i - s.request i)) }, said)

/-- The state in which the prompts of `tryAllocate` have been answered. -/
def promptRequest (s : System α) (id : ℤ) (request : ℕ → α) : System α :=
  { s with
    id := id
    request := fun j => if j < s.resourceNum then request j else s.request j
    workAllocation := fun i j =>
      if i < s.progressNum ∧ j < s.resourceNum then s.allocate i j + s.work j
      else s.workAllocation i j }

/-- No result when every typed number is refused (the prompt is still waiting) or
when the row index is beyond the tables. -/
def tryAllocate (s : System α) (typed : List ℤ) (request : ℕ → α) :
    Option (System α × List Complaint) :=
  (readId s.progressNum typed).bind fun id =>
    if id.toNat < M then
      some ((List.range s.resourceNum).foldl (allocateAt id.toNat) (s.promptRequest id request, []))
    else none

def returnAt (id : ℕ) (s : System α) (i : ℕ) : System α :=
  { s with
    available := Function.update s.available i (s.available i + s.request i)
    allocate := Function.update s.allocate id
      (Function.update (s.allocate id) i (s.allocate id i - s.request i))
    need := Function.update s.need id
      (Function.update (s.need id) i (s.need id i + s.request i)) }

def returnBack (s : System α) : System α :=
  let s' := (List.range s.resourceNum).foldl (returnAt s.id.toNat)
    { s with finish := fun _ => false }
  { s' with
    workAllocation := fun i j =>
      if i < s'.progressNum ∧ j < s'.resourceNum then s'.allocate i j else 0 }

/-- Process `i` can run to its end with the work at hand. -/
def Fits (s : System α) (i : ℕ) : Prop := ∀ j < s.resourceNum, ¬ s.need i j > s.work j

instance (s : System α) (i : ℕ) : Decidable (s.Fits i) :=
  inferInstanceAs (Decidable (∀ j < s.resourceNum, ¬ s.need i j > s.work j))

/-- The assignments made when process `i` is found to finish as number `count`. -/
def finishProcess (s : System α) (count i : ℕ) : System α :=
  let work := fun j => if j < s.resourceNum then s.work j + s.allocate i j else s.work j
  { s with
    safe := Function.update s.safe count i
    work := work
    workAllocation := Function.update s.workAllocation i
      (fun j => if j < s.resourceNum then work j else s.workAllocation i j)
    finish := Function.update s.finish i true }

def unfinished (s : System α) : ℕ := ((List.range s.progressNum).filter fun p => !s.finish p).length

omit [LinearOrder α] in
theorem unfinished_finishProcess {s : System α} {i : ℕ} (count : ℕ) (hi : i < s.progressNum)
    (hf : s.finish i = false) : (s.finishProcess count i).unfinished < s.unfinished := by
  have hsub : ∀ p, (!(s.finishProcess count i).finish p) = true → (!s.finish p) = true := by
    intro p hp
    by_cases hpi : p = i
    · subst hpi
      simp [finishProcess] at hp
    · simpa [finishProcess, hpi] using hp
  have hmem : i ∈ (List.range s.progressNum).filter fun p => !s.finish p := by
    simp [hi, hf]
  have hnot : i ∉ (List.range s.progressNum).filter fun p => !(s.finishProcess count i).finish p := by
    simp [finishProcess]
  refine lt_of_le_of_ne (List.monotone_filter_right _ hsub).length_le ?_
  intro he
  exact hnot ((List.monotone_filter_right _ hsub).eq_of_length he ▸ hmem)

/-- The scan of the safety check from process `i` on.  It starts over only when
the process that has just been found to finish is the last one. -/
def scan (s : System α) (count i : ℕ) : System α :=
  if hi : i < s.progressNum then
    if hf : s.finish i = false ∧ s.Fits i then
      (s.finishProcess count i).scan (count + 1) (if i = s.progressNum - 1 then 0 else i + 1)
    else s.scan count (i + 1)
  else s
termination_by (s.unfinished, s.progressNum - i)
decreasing_by
  · exact Prod.Lex.left _ _ (unfinished_finishProcess count hi hf.1)
  · exact Prod.Lex.right _ (by omega)

def startCheck (s : System α) : System α :=
  let work := fun j => if j < s.resourceNum then s.available j else s.work j
  { s with
    work := work
    workAllocation := fun i j => if i = 0 ∧ j < s.resourceNum then work j else 0
    finish := fun p => if p < s.progressNum then false else s.finish p }

def isSafe (s : System α) : System α × Bool :=
  let s' := s.startCheck.scan 0 0
  (s', decide (∀ p < s'.progressNum, s'.finish p = true))

/-- The safety check as the menu calls it, its verdict kept in `flag`. -/
def checked (s : System α) : System α := { s.isSafe.1 with flag := s.isSafe.2 }

/-- One line of the table that `printInfo` shows. -/
structure InfoRow (α : Type*) where
  process : ℕ
  work : List α
  max : List α
  need : List α
  allocate : List α
  workAllocation : List α
  finish : Bool

def printInfo (s : System α) : List (InfoRow α) :=
  (List.range s.progressNum).map fun k =>
    let i := if s.flag then s.safe k else k
    let row (v : ℕ → α) := (List.range s.resourceNum).map v
    { process := i
      work := row fun j => s.workAllocation i j - s.allocate i j
      max := row (s.max i)
      need := row (s.need i)
      allocate := row (s.allocate i)
      workAllocation := row (s.workAllocation i)
      finish := s.finish i }

theorem one_le_N : 1 ≤ N := by decide

def oneResource (processes : ℕ) (available : α) (max need allocate : ℕ → α) : System α where
  progressNum := min processes M
  resourceNum := 1
  progress_le := Nat.min_le_right ..
  resource_le := one_le_N
  id := 0
  available := fun _ => available
  max := fun p _ => max p
  need := fun p _ => need p
  allocate := fun p _ => allocate p
  request := fun _ => 0
  work := fun _ => 0
  finish := fun _ => false
  workAllocation := fun _ _ => 0
  flag := false
  safe := fun _ => 0

/-- A command of the menu, with what is typed at its prompts. -/
inductive Command (α : Type*) where
  | request (typed : List ℤ) (request : ℕ → α)
  | print
  | check

inductive Output (α : Type*) where
  | granted (info : List (InfoRow α))
  | unsafeState
  | failed (complaints : List Complaint)
  | info (rows : List (InfoRow α))
  | verdict (isSafe : Bool)

def bankerStep (s : System α) : Command α → Option (System α × Output α)
  | .request typed request =>
    (s.tryAllocate typed request).map fun r =>
      if r.2 = [] then
        let s' := r.1.checked
        if s'.flag then (s', .granted s'.printInfo) else (s'.returnBack, .unsafeState)
      else (r.1.returnBack, .failed r.2)
  | .print => some (s, .info s.printInfo)
  | .check => some (s.checked, .verdict s.checked.flag)

end System
end CppExamples.Banker
