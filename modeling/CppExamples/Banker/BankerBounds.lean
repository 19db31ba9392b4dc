import CppExamples.Banker.BankerAccesses

/-! # The bounds of the banker's arrays

The counts of processes and resources are typed and never compared with the bounds of
the arrays, and the prompt for a process number lets the number of processes pass.  A
command with an access out of bounds has no result.
-/
namespace CppExamples.Banker
open Machine
variable {α : Type*} [AddCommGroup α] [LinearOrder α]

/-- The globals, with both counts as they were typed. -/
structure Globals (α : Type*) where
  progressNum : ℤ
  resourceNum : ℤ
  resource_le : resourceNum ≤ N
  id : ℤ
  available : ℕ → α
  max : ℕ → ℕ → α
  need : ℕ → ℕ → α
  allocate : ℕ → ℕ → α
  request : ℕ → α
  work : ℕ → α
  finish : ℕ → Bool
  workAllocation : ℕ → ℕ → α
  flag : Bool
  safe : ℕ → ℕ

/-- What is typed at the prompts of `initSystem`; an allocation matrix only after a `y`. -/
structure Typed (α : Type*) where
  progressNum : ℤ
  resourceNum : ℤ
  available : ℕ → α
  max : ℕ → ℕ → α
  allocate : Option (ℕ → ℕ → α)

inductive MenuCommand (α : Type*) where
  | initSystem (typed : Typed α)
  | command (c : System.Command α)

/-- The loops of `initSystem`: the resources, the maxima, the allocation matrix and the needs. -/
def Typed.log (t : Typed α) : List Access :=
  let table := tableLog t.progressNum.toNat t.resourceNum.toNat
  resourceLog t.resourceNum.toNat ++ table ++ (if t.allocate.isSome then table else []) ++ table

omit [AddCommGroup α] [LinearOrder α] in
theorem Typed.inBounds_log {progressNum : ℤ} (t : Typed α) : InBounds progressNum t.log ↔
    t.resourceNum ≤ N ∧ (t.resourceNum ≤ 0 ∨ t.progressNum ≤ M) := by
  rw [Typed.log, inBounds_append, inBounds_append, inBounds_append, inBounds_resourceLog, Int.toNat_le]
  constructor
  · rintro ⟨⟨⟨hr,htable⟩,-⟩,-⟩
    have := (inBounds_tableLog (Int.toNat_le.mpr hr)).mp htable
    exact ⟨hr,by omega⟩
  · rintro ⟨hr,h⟩
    have htable : InBounds progressNum (tableLog t.progressNum.toNat t.resourceNum.toNat) :=
      (inBounds_tableLog (Int.toNat_le.mpr hr)).mpr (by omega)
    refine ⟨⟨⟨hr,htable⟩,?_⟩,htable⟩
    split
    · exact htable
    · exact inBounds_nil

namespace Globals

def system (g : Globals α) (hp : g.progressNum ≤ M) : System α where
  progressNum := g.progressNum.toNat
  resourceNum := g.resourceNum.toNat
  progress_le := Int.toNat_le.mpr hp
  resource_le := Int.toNat_le.mpr g.resource_le
  id := g.id
  available := g.available
  max := g.max
  need := g.need
  allocate := g.allocate
  request := g.request
  work := g.work
  finish := g.finish
  workAllocation := g.workAllocation
  flag := g.flag
  safe := g.safe

def update (g : Globals α) (s : System α) : Globals α :=
  { g with
    id := s.id
    available := s.available
    max := s.max
    need := s.need
    allocate := s.allocate
    request := s.request
    work := s.work
    finish := s.finish
    workAllocation := s.workAllocation
    flag := s.flag
    safe := s.safe }

/-- `Work` is cleared before the needs are computed, so that `workAllocation` becomes the
allocation; `flag` and `safe` are kept. -/
def initSystem (g : Globals α) (t : Typed α) (hr : t.resourceNum ≤ N) : Globals α :=
  let processes := t.progressNum.toNat
  let resources := t.resourceNum.toNat
  let max := fun i j => if i < processes ∧ j < resources then t.max i j else g.max i j
  let allocate := t.allocate.elim (fun _ _ => 0) fun a i j =>
    if i < processes ∧ j < resources then a i j else g.allocate i j
  let workAllocation := t.allocate.elim (fun _ _ => 0) fun _ => g.workAllocation
  { g with
    progressNum := t.progressNum
    resourceNum := t.resourceNum
    resource_le := hr
    available := fun j =>
      if j < resources then t.available j - ((List.range processes).map fun i => allocate i j).sum
      else g.available j
    max := max
    need := fun i j => if i < processes ∧ j < resources then max i j - allocate i j else g.need i j
    allocate := allocate
    request := fun _ => 0
    work := fun _ => 0
    finish := fun _ => false
    workAllocation := fun i j =>
      if i < processes ∧ j < resources then allocate i j + 0 else workAllocation i j }

def readId (progressNum : ℤ) (typed : List ℤ) : Option ℤ :=
  typed.find? fun id => !(decide (id < 0) || decide (progressNum < id))

/-- With more processes than rows the first loop leaves the arrays, or, when there is no
resource, the first loop of the safety check does. -/
def requestLog (g : Globals α) (typed : List ℤ) (request : ℕ → α) : List Access :=
  let resources := g.resourceNum.toNat
  tableLog g.progressNum.toNat resources ++ (readId g.progressNum typed).elim [] fun id =>
    resourceLog resources ++ requestedLog id.toNat resources ++
      if hp : g.progressNum ≤ M then (g.system hp).triedLog g.resourceNum id request
      else startLog g.progressNum.toNat resources

def log (g : Globals α) : MenuCommand α → List Access
  | .initSystem typed => typed.log
  | .command (.request typed request) => g.requestLog typed request
  | .command .print => printLog g.progressNum.toNat g.resourceNum.toNat g.flag g.safe
  | .command .check =>
    if hp : g.progressNum ≤ M then (g.system hp).checkLog g.resourceNum
    else startLog g.progressNum.toNat g.resourceNum.toNat

def next (g : Globals α) : (c : MenuCommand α) → InBounds g.progressNum (g.log c) → Option (Globals α)
  | .initSystem typed, h => some (g.initSystem typed (typed.inBounds_log.mp h).1)
  | .command (.request typed request), _ =>
    if hp : g.progressNum ≤ M then
      (readId g.progressNum typed).map fun id => g.update ((g.system hp).requested g.resourceNum id request)
    else none
  | .command .print, _ => some g
  | .command .check, _ =>
    if hp : g.progressNum ≤ M then some (g.update ((g.system hp).checkedFor g.resourceNum)) else none

def menuStep (g : Globals α) (c : MenuCommand α) : Option (Globals α × List Access) :=
  if h : InBounds g.progressNum (g.log c) then (g.next c h).map fun g' => (g', g.log c) else none

def start : Globals α where
  progressNum := 0
  resourceNum := 0
  resource_le := Int.natCast_nonneg N
  id := 0
  available := fun _ => 0
  max := fun _ _ => 0
  need := fun _ _ => 0
  allocate := fun _ _ => 0
  request := fun _ => 0
  work := fun _ => 0
  finish := fun _ => false
  workAllocation := fun _ _ => 0
  flag := false
  safe := fun _ => 0

/-- The counts are within the arrays, where a loop depends on them, and a process number
that is let through is that of a process. -/
def SizesFit (g : Globals α) : MenuCommand α → Prop
  | .initSystem typed =>
    typed.resourceNum ≤ N ∧ (typed.resourceNum ≤ 0 ∨ typed.progressNum ≤ M)
  | .command (.request typed _) =>
    match readId g.progressNum typed with
    | some id => g.progressNum ≤ M ∧ (g.resourceNum ≤ 0 ∨ id < g.progressNum)
    | none => g.resourceNum ≤ 0 ∨ g.progressNum ≤ M
  | .command .print => g.progressNum ≤ M
  | .command .check => g.progressNum ≤ M

/-- What is in `safe` are numbers of rows, also after the counts have changed. -/
def SafeRows (g : Globals α) : Prop := ∀ k, g.safe k < M

theorem readId_bounds {progressNum : ℤ} {typed : List ℤ} {id : ℤ}
    (h : readId progressNum typed = some id) : 0 ≤ id ∧ id ≤ progressNum := by
  have := List.find?_some h
  simp only [Bool.not_or, Bool.and_eq_true, Bool.not_eq_true', decide_eq_false_iff_not] at this
  omega

theorem inBounds_requestLog {g : Globals α} (hsafe : g.SafeRows) (typed : List ℤ) (request : ℕ → α) :
    InBounds g.progressNum (g.requestLog typed request) ↔
      g.SizesFit (.command (.request typed request)) := by
  have hr : g.resourceNum.toNat ≤ N := Int.toNat_le.mpr g.resource_le
  simp only [requestLog, SizesFit, inBounds_append, inBounds_tableLog hr]
  cases hid : readId g.progressNum typed with
  | none =>
    simp only [Option.elim_none, inBounds_nil, and_true]
    omega
  | some id =>
    obtain ⟨hnonneg,hle⟩ := readId_bounds hid
    simp only [Option.elim_some, inBounds_append, inBounds_resourceLog, inBounds_requestedLog hr]
    constructor
    · rintro ⟨-,⟨-,hrow⟩,hrest⟩
      split at hrest
      next hp => exact ⟨hp,by omega⟩
      next hp =>
        have := (inBounds_startLog hr).mp hrest
        omega
    · rintro ⟨hp,hrow⟩
      have hrow' : g.resourceNum.toNat = 0 ∨ id.toNat < M ∧ (id.toNat : ℤ) < g.progressNum := by omega
      refine ⟨by omega,⟨hr,hrow'⟩,?_⟩
      rw [dif_pos hp]
      exact System.inBounds_triedLog (s := g.system hp) hsafe g.resourceNum request hrow'

theorem inBounds_log {g : Globals α} (hsafe : g.SafeRows) (c : MenuCommand α) :
    InBounds g.progressNum (g.log c) ↔ g.SizesFit c := by
  have hr : g.resourceNum.toNat ≤ N := Int.toNat_le.mpr g.resource_le
  match c with
  | .initSystem typed => exact typed.inBounds_log
  | .command (.request typed request) => exact inBounds_requestLog hsafe typed request
  | .command .print => exact (inBounds_printLog hsafe hr).trans Int.toNat_le
  | .command .check =>
    simp only [log, SizesFit]
    split
    next hp => exact iff_of_true (System.inBounds_checkLog _ _) hp
    next hp => exact (inBounds_startLog hr).trans Int.toNat_le

theorem menuStep_safeRows {g g' : Globals α} {c : MenuCommand α} {o : List Access}
    (hsafe : g.SafeRows) (h : g.menuStep c = some (g', o)) : g'.SafeRows := by
  simp only [menuStep] at h
  split at h
  next hin =>
    obtain ⟨u,hu,he⟩ := Option.map_eq_some_iff.mp h
    obtain ⟨rfl,-⟩ := Prod.mk.inj he
    match c with
    | .initSystem typed =>
      obtain rfl := Option.some.inj hu
      exact hsafe
    | .command (.request typed request) =>
      simp only [next] at hu
      split at hu
      next hp =>
        obtain ⟨id,-,rfl⟩ := Option.map_eq_some_iff.mp hu
        exact System.requested_safe_lt (s := g.system hp) hsafe g.resourceNum id request
      next => cases hu
    | .command .print =>
      obtain rfl := Option.some.inj hu
      exact hsafe
    | .command .check =>
      simp only [next] at hu
      split at hu
      next hp =>
        obtain rfl := Option.some.inj hu
        exact System.checkedFor_safe_lt (s := g.system hp) hsafe g.resourceNum
      next => cases hu
  next => cases h

/-- With counts of a system and at least one resource, the commands are those of the system
as long as they stay within the arrays. -/
theorem menuStep_command {g : Globals α} (hsafe : g.SafeRows) (h0 : 0 ≤ g.progressNum)
    (hp : g.progressNum ≤ M) (hr : 0 < g.resourceNum) {c : System.Command α}
    (h : InBounds g.progressNum (g.log (.command c))) :
    (g.menuStep (.command c)).map Prod.fst = ((g.system hp).bankerStep c).map fun r => g.update r.1 := by
  have hstep : (g.menuStep (.command c)).map Prod.fst = g.next (.command c) h := by
    rw [menuStep, dif_pos h]
    cases g.next (.command c) h <;> rfl
  rw [hstep]
  match c with
  | .print => rfl
  | .check =>
    rw [next, dif_pos hp, System.checkedFor, if_neg hr.not_gt]
    rfl
  | .request typed request =>
    have hsame : System.readId (g.system hp).progressNum typed = readId g.progressNum typed := by
      have hnum : ((g.system hp).progressNum : ℤ) = g.progressNum := Int.toNat_of_nonneg h0
      rw [System.readId, readId, hnum]
    rw [next, dif_pos hp]
    cases hid : readId g.progressNum typed with
    | none => simp [System.bankerStep, System.tryAllocate, hsame, hid]
    | some id =>
      have hfit := (inBounds_log hsafe _).mp h
      simp only [SizesFit, hid] at hfit
      have hM : 0 < M := Nat.succ_pos _
      have hrow : id.toNat < M := by omega
      have hgrant := System.bankerStep_request request hr.le (hsame.trans hid) hrow
      exact (congrArg (Option.map g.update) hgrant).symm.trans (Option.map_map ..)

omit [LinearOrder α] in
theorem start_safeRows : (start : Globals α).SafeRows := by
  intro k
  exact Nat.succ_pos _

/-- Over whole runs of the menu from the start of the program: every access of every
command is in bounds, and requests touch the rows of processes only, just when the sizes
fit at each command. -/
theorem menuRun_inBounds_iff (commands : List (MenuCommand α)) :
    Admits menuStep SizesFit start commands ↔
      ∀ before c after g logs, commands = before ++ c :: after →
        run menuStep start before = some (g, logs) → InBounds g.progressNum (g.log c) := by
  have hkeep : ∀ (g : Globals α) c g' o, g.SafeRows → True → g.menuStep c = some (g', o) →
      g'.SafeRows := fun g c g' o hsafe _ hstep => menuStep_safeRows hsafe hstep
  have hiff : ∀ (g : Globals α) c, g.SafeRows → True →
      (g.SizesFit c ↔ InBounds g.progressNum (g.log c)) :=
    fun g c hsafe _ => (inBounds_log hsafe c).symm
  have hlegal : Admits menuStep (fun _ _ => True) (start : Globals α) commands :=
    admits_of_forall (fun _ _ => trivial) start commands
  rw [admits_congr hkeep hiff start_safeRows hlegal, admits_iff_forall]

def sized (progressNum resourceNum : ℤ) : Typed ℤ := ⟨progressNum,resourceNum,fun _ => 5,fun _ _ => 2,none⟩

/-- Eleven processes leave the rows and eleven resources the columns, and with ten processes
the prompt lets the number 10 pass, which is no process and no row. -/
theorem menu_outOfBounds :
    ¬ InBounds 0 ((start : Globals ℤ).log (.initSystem (sized 11 1))) ∧
    ¬ InBounds 0 ((start : Globals ℤ).log (.initSystem (sized 1 11))) ∧
    ∃ g logs, run menuStep (start : Globals ℤ) [.initSystem (sized 10 1)] = some (g, logs) ∧
      ¬ InBounds g.progressNum (g.log (.command (.request [10] fun _ => 1))) := by
  refine ⟨by decide,by decide,?_⟩
  have hin : InBounds 0 ((start : Globals ℤ).log (.initSystem (sized 10 1))) := by decide
  have hstep : (start : Globals ℤ).menuStep (.initSystem (sized 10 1)) =
      some (start.initSystem (sized 10 1) (by decide),(sized 10 1).log) := dif_pos hin
  refine ⟨_,_,run_cons [] hstep,?_⟩
  rw [inBounds_log (menuStep_safeRows start_safeRows hstep)]
  rintro ⟨-,hrow : (1 : ℤ) ≤ 0 ∨ (10 : ℤ) < 10⟩
  omega

end Globals
end CppExamples.Banker
