import CppExamples.Banker.BankerScan

/-! # The accesses of the banker's loops

Each function is described by the indices with which it accesses the arrays, in their
order.  In a system within the declared bounds all of them are in bounds but those of a
request, which depend on the number that was typed.
-/
namespace CppExamples.Banker
variable {α : Type*} [AddCommGroup α] [LinearOrder α]

/-- An index into an array: of a process, of a resource, or of the process that a request
names. -/
inductive Access where
  | process (i : ℕ)
  | resource (j : ℕ)
  | requested (id : ℕ)

namespace Access

/-- The index is within the declared bounds, and a request is that of a process. -/
def InBounds (progressNum : ℤ) : Access → Prop
  | process i => i < M
  | resource j => j < N
  | requested id => id < M ∧ (id : ℤ) < progressNum

instance (progressNum : ℤ) : DecidablePred (InBounds progressNum)
  | process i => inferInstanceAs (Decidable (i < M))
  | resource j => inferInstanceAs (Decidable (j < N))
  | requested id => inferInstanceAs (Decidable (id < M ∧ (id : ℤ) < progressNum))

end Access

def InBounds (progressNum : ℤ) (log : List Access) : Prop := ∀ a ∈ log, a.InBounds progressNum

instance (progressNum : ℤ) (log : List Access) : Decidable (InBounds progressNum log) :=
  inferInstanceAs (Decidable (∀ a ∈ log, a.InBounds progressNum))

def processLog (processes : ℕ) : List Access := (List.range processes).map .process

def resourceLog (resources : ℕ) : List Access := (List.range resources).map .resource

def rowLog (i resources : ℕ) : List Access :=
  (List.range resources).flatMap fun j => [.process i, .resource j]

def tableLog (processes resources : ℕ) : List Access :=
  (List.range processes).flatMap fun i => rowLog i resources

/-- A loop over `Request` and the row of the request. -/
def requestedLog (id resources : ℕ) : List Access :=
  (List.range resources).flatMap fun j => [.resource j, .requested id]

/-- The indices at which a loop looks that leaves at the first one with `stop`. -/
def lookUntil (stop : ℕ → Bool) : List ℕ → List ℕ
  | [] => []
  | i :: is => i :: if stop i then [] else lookUntil stop is

/-- The loops of `isSafe` before the scan; the work is also written to row 0. -/
def startLog (processes resources : ℕ) : List Access :=
  rowLog 0 resources ++ processLog processes

/-- `printInfo` looks up each process in `safe` when there is a safe sequence, and prints
five figures of each resource. -/
def printLog (processes resources : ℕ) (flag : Bool) (safe : ℕ → ℕ) : List Access :=
  (List.range processes).flatMap fun k =>
    let i := if flag then safe k else k
    (if flag then [.process k] else []) ++ (List.replicate 5 (rowLog i resources)).flatten ++
      [.process i]

namespace System

/-- The look at process `i`, whose needs are compared up to the first that is too large. -/
def testLog (s : System α) (i : ℕ) : List Access :=
  .process i :: if s.finish i then [] else
    (lookUntil (fun j => decide (s.need i j > s.work j)) (List.range s.resourceNum)).flatMap
      fun j => [.process i, .resource j]

/-- The accesses of `finishProcess`: to `safe` at `count`, to the row and to `finish`. -/
def foundLog (s : System α) (count i : ℕ) : List Access :=
  .process count :: rowLog i s.resourceNum ++ [.process i]

def scanLog (s : System α) (count i : ℕ) : List Access :=
  if i < s.progressNum then
    if s.finish i = false ∧ s.Fits i then
      s.testLog i ++ s.foundLog count i ++
        (s.finishProcess count i).scanLog (count + 1) (if i = s.progressNum - 1 then 0 else i + 1)
    else s.testLog i ++ s.scanLog count (i + 1)
  else []
termination_by (s.unfinished, s.progressNum - i)
decreasing_by
  · rename_i hi hf
    exact Prod.Lex.left _ _ (unfinished_finishProcess count hi hf.1)
  · exact Prod.Lex.right _ (by omega)

/-- The verdict is negative at the first process left over; otherwise `safe` is printed. -/
def verdictLog (s : System α) : List Access :=
  (lookUntil (fun p => !s.finish p) (List.range s.progressNum)).map .process ++
    if ∀ p < s.progressNum, s.finish p = true then processLog s.progressNum else []

/-- The safety check for the number of resources that was typed.  Behind the loop over the
resources its index is compared with that number, and never equal to a negative one. -/
def checkedFor (s : System α) (resourceNum : ℤ) : System α :=
  if resourceNum < 0 then { s.startCheck with flag := decide (s.progressNum = 0) } else s.checked

def checkLog (s : System α) (resourceNum : ℤ) : List Access :=
  startLog s.progressNum s.resourceNum ++
    if resourceNum < 0 then processLog s.progressNum ++ s.startCheck.verdictLog
    else s.startCheck.scanLog 0 0 ++ s.isSafe.1.verdictLog

def returnLog (s : System α) : List Access :=
  requestedLog s.id.toNat s.resourceNum ++ tableLog s.progressNum s.resourceNum

/-- The tables with the request booked, and what was said of it. -/
def tried (s : System α) (id : ℤ) (request : ℕ → α) : System α × List Complaint :=
  (List.range s.resourceNum).foldl (allocateAt id.toNat) (s.promptRequest id request, [])

def triedLog (s : System α) (resourceNum id : ℤ) (request : ℕ → α) : List Access :=
  let r := s.tried id request
  if r.2 = [] then
    let s' := r.1.checkedFor resourceNum
    r.1.checkLog resourceNum ++
      if s'.flag then printLog s'.progressNum s'.resourceNum s'.flag s'.safe else s'.returnLog
  else r.1.returnLog

def requested (s : System α) (resourceNum id : ℤ) (request : ℕ → α) : System α :=
  let r := s.tried id request
  if r.2 = [] then
    let s' := r.1.checkedFor resourceNum
    if s'.flag then s' else s'.returnBack
  else r.1.returnBack

/-- In the tables, a request is that of the menu. -/
theorem bankerStep_request {s : System α} {typed : List ℤ} {resourceNum id : ℤ} (request : ℕ → α)
    (hr : 0 ≤ resourceNum) (hid : readId s.progressNum typed = some id) (hM : id.toNat < M) :
    (s.bankerStep (.request typed request)).map Prod.fst =
      some (s.requested resourceNum id request) := by
  have htry : s.tryAllocate typed request = some (s.tried id request) := by
    simp only [tryAllocate, hid, Option.bind_some, if_pos hM]
    rfl
  simp only [bankerStep, htry, Option.map_some, requested, checkedFor, if_neg hr.not_gt]
  split_ifs <;> rfl

end System

section Logs
variable {progressNum : ℤ} {processes resources : ℕ}

theorem inBounds_nil : InBounds progressNum [] := List.forall_mem_nil _

theorem inBounds_append {l l' : List Access} :
    InBounds progressNum (l ++ l') ↔ InBounds progressNum l ∧ InBounds progressNum l' :=
  List.forall_mem_append

theorem inBounds_processLog : InBounds progressNum (processLog processes) ↔ processes ≤ M := by
  simp only [InBounds, processLog, List.forall_mem_map, List.mem_range, Access.InBounds]
  exact forall_lt_iff_le

theorem inBounds_resourceLog : InBounds progressNum (resourceLog resources) ↔ resources ≤ N := by
  simp only [InBounds, resourceLog, List.forall_mem_map, List.mem_range, Access.InBounds]
  exact forall_lt_iff_le

theorem inBounds_loop {n : ℕ} {body : ℕ → List Access} :
    InBounds progressNum ((List.range n).flatMap body) ↔ ∀ j < n, InBounds progressNum (body j) := by
  simp only [InBounds, List.mem_flatMap, List.mem_range]
  grind

theorem inBounds_pair {a b : Access} :
    InBounds progressNum [a, b] ↔ a.InBounds progressNum ∧ b.InBounds progressNum := by
  simp [InBounds]

theorem inBounds_rowLog {i : ℕ} :
    InBounds progressNum (rowLog i resources) ↔ ∀ j < resources, i < M ∧ j < N := by
  rw [rowLog, inBounds_loop]
  exact forall₂_congr fun j _ => inBounds_pair

theorem inBounds_row {i : ℕ} (hi : i < M) (hr : resources ≤ N) :
    InBounds progressNum (rowLog i resources) :=
  inBounds_rowLog.mpr fun _ hj => ⟨hi,hj.trans_le hr⟩

theorem inBounds_requestedLog {id : ℕ} (hr : resources ≤ N) :
    InBounds progressNum (requestedLog id resources) ↔
      resources = 0 ∨ id < M ∧ (id : ℤ) < progressNum := by
  have hall : InBounds progressNum (requestedLog id resources) ↔
      ∀ j < resources, j < N ∧ id < M ∧ (id : ℤ) < progressNum := by
    rw [requestedLog, inBounds_loop]
    exact forall₂_congr fun j _ => inBounds_pair
  rw [hall]
  constructor
  · intro h
    rcases Nat.eq_zero_or_pos resources with h0 | h0
    · exact .inl h0
    · exact .inr (h 0 h0).2
  · intro h j hj
    exact ⟨hj.trans_le hr,h.resolve_left (by omega)⟩

theorem inBounds_tableLog (hr : resources ≤ N) :
    InBounds progressNum (tableLog processes resources) ↔ resources = 0 ∨ processes ≤ M := by
  rw [tableLog, inBounds_loop]
  constructor
  · intro h
    rcases Nat.eq_zero_or_pos resources with h0 | h0
    · exact .inl h0
    · exact .inr (forall_lt_iff_le.mp fun i hi => (inBounds_rowLog.mp (h i hi) 0 h0).1)
  · rintro (rfl | h) i hi
    · exact inBounds_nil
    · exact inBounds_row (hi.trans_le h) hr

theorem inBounds_startLog (hr : resources ≤ N) :
    InBounds progressNum (startLog processes resources) ↔ processes ≤ M := by
  rw [startLog, inBounds_append, inBounds_processLog]
  exact and_iff_right (inBounds_row (by decide) hr)

theorem lookUntil_subset (stop : ℕ → Bool) (l : List ℕ) : lookUntil stop l ⊆ l := by
  induction l with
  | nil => exact List.Subset.refl []
  | cons i is ih =>
    rw [lookUntil]
    split
    · exact List.cons_subset_cons i (List.nil_subset is)
    · exact List.cons_subset_cons i ih

theorem inBounds_printLog {flag : Bool} {safe : ℕ → ℕ} (hsafe : ∀ k, safe k < M) (hr : resources ≤ N) :
    InBounds progressNum (printLog processes resources flag safe) ↔ processes ≤ M := by
  constructor
  · intro h
    refine forall_lt_iff_le.mp fun k hk => ?_
    have hmem : Access.process k ∈ printLog processes resources flag safe := by
      refine List.mem_flatMap.mpr ⟨k,List.mem_range.mpr hk,?_⟩
      cases flag <;> simp
    exact h _ hmem
  · intro hp
    rw [printLog, inBounds_loop]
    intro k hk
    have hkM : k < M := hk.trans_le hp
    have hi : (if flag then safe k else k) < M := by
      split
      · exact hsafe k
      · exact hkM
    refine inBounds_append.mpr ⟨inBounds_append.mpr ⟨?_,?_⟩,List.forall_mem_singleton.mpr hi⟩
    · split
      · exact List.forall_mem_singleton.mpr hkM
      · exact inBounds_nil
    · intro a ha
      obtain ⟨row,hrow,ha⟩ := List.mem_flatten.mp ha
      rw [List.eq_of_mem_replicate hrow] at ha
      exact inBounds_row hi hr a ha

end Logs

namespace System
variable {progressNum : ℤ}

omit [AddCommGroup α] in
theorem inBounds_testLog {s : System α} {i : ℕ} (hi : i < s.progressNum) :
    InBounds progressNum (s.testLog i) := by
  have hM : i < M := hi.trans_le s.progress_le
  refine List.forall_mem_cons.mpr ⟨hM,?_⟩
  split
  · exact inBounds_nil
  · intro a ha
    obtain ⟨j,hj,ha⟩ := List.mem_flatMap.mp ha
    have hjN : j < N := (List.mem_range.mp (lookUntil_subset _ _ hj)).trans_le s.resource_le
    have hpair : InBounds progressNum [.process i, .resource j] := inBounds_pair.mpr ⟨hM,hjN⟩
    exact hpair a ha

omit [AddCommGroup α] [LinearOrder α] in
theorem inBounds_foundLog {s : System α} {count i : ℕ} (hcount : count < M)
    (hi : i < s.progressNum) : InBounds progressNum (s.foundLog count i) := by
  have hM : i < M := hi.trans_le s.progress_le
  refine inBounds_append.mpr ⟨List.forall_mem_cons.mpr ⟨hcount,?_⟩,List.forall_mem_singleton.mpr hM⟩
  exact inBounds_row hM s.resource_le

theorem Recorded.inBounds_scanLog {before : ℕ → ℕ} (s : System α) (count i : ℕ) {done : List ℕ}
    (h : Recorded before s count done) : InBounds progressNum (s.scanLog count i) := by
  induction s, count, i using System.scan.induct generalizing done with
  | case1 s count i hi hf ih =>
    have hnext := h.finishProcess hi hf.1 hf.2
    have hcount : count < M := hnext.count_le.trans s.progress_le
    rw [dite_eq_ite] at ih
    rw [scanLog, if_pos hi, if_pos hf]
    refine inBounds_append.mpr ⟨inBounds_append.mpr ⟨?_,?_⟩,ih hnext⟩
    · exact inBounds_testLog hi
    · exact inBounds_foundLog hcount hi
  | case2 s count i hi hf ih =>
    rw [scanLog, if_pos hi, if_neg hf]
    exact inBounds_append.mpr ⟨inBounds_testLog hi,ih h⟩
  | case3 s count i hi =>
    rw [scanLog, if_neg hi]
    exact inBounds_nil

omit [AddCommGroup α] [LinearOrder α] in
theorem inBounds_verdictLog (s : System α) : InBounds progressNum s.verdictLog := by
  refine inBounds_append.mpr ⟨?_,?_⟩
  · refine List.forall_mem_map.mpr fun p hp => ?_
    exact (List.mem_range.mp (lookUntil_subset _ _ hp)).trans_le s.progress_le
  · split
    · exact inBounds_processLog.mpr s.progress_le
    · exact inBounds_nil

theorem inBounds_checkLog (s : System α) (resourceNum : ℤ) :
    InBounds progressNum (s.checkLog resourceNum) := by
  refine inBounds_append.mpr ⟨(inBounds_startLog s.resource_le).mpr s.progress_le,?_⟩
  split
  · exact inBounds_append.mpr ⟨inBounds_processLog.mpr s.progress_le,inBounds_verdictLog _⟩
  · exact inBounds_append.mpr ⟨(Recorded.startCheck s).inBounds_scanLog _ 0 0,inBounds_verdictLog _⟩

theorem checkedFor_safe_lt {s : System α} (hsafe : ∀ k, s.safe k < M) (resourceNum : ℤ) (k : ℕ) :
    (s.checkedFor resourceNum).safe k < M := by
  rw [checkedFor]
  split
  · exact hsafe k
  obtain ⟨-,-,count,done,-,hdone⟩ := isSafe_recorded s
  have hk : s.checked.safe k = done.getD k (s.safe k) := hdone.safe_eq k
  rw [hk]
  by_cases hlen : k < done.length
  · rw [List.getD_eq_getElem _ _ hlen]
    exact (hdone.scanned.lt _ (List.getElem_mem hlen)).trans_le s.isSafe.1.progress_le
  · rw [List.getD_eq_default _ _ (by omega)]
    exact hsafe k

theorem checkedFor_kept (s : System α) (resourceNum : ℤ) :
    (s.checkedFor resourceNum).resourceNum = s.resourceNum ∧ (s.checkedFor resourceNum).id = s.id := by
  rw [checkedFor]
  split
  · exact ⟨rfl,rfl⟩
  · exact ⟨s.checked_sameTables.resourceNum,(s.startCheck.scan_request 0 0).2⟩

theorem tried_counts (s : System α) (id : ℤ) (request : ℕ → α) :
    (s.tried id request).1.progressNum = s.progressNum ∧
      (s.tried id request).1.resourceNum = s.resourceNum ∧ (s.tried id request).1.id = id := by
  have h := moved_allocateAt (s.promptRequest id request) id.toNat s.resourceNum []
  exact ⟨h.progressNum,h.resourceNum,h.id⟩

theorem tried_safe (s : System α) (id : ℤ) (request : ℕ → α) :
    (s.tried id request).1.safe = s.safe :=
  allocate_keeps (f := System.safe) (fun _ _ _ _ => rfl) id.toNat s.resourceNum
    (s.promptRequest id request, [])

omit [LinearOrder α] in
theorem returnBack_safe (s : System α) : s.returnBack.safe = s.safe :=
  return_keeps (f := System.safe) (fun _ _ _ _ => rfl) s.id.toNat s.resourceNum
    { s with finish := fun _ => false }

theorem requested_safe_lt {s : System α} (hsafe : ∀ k, s.safe k < M) (resourceNum id : ℤ)
    (request : ℕ → α) (k : ℕ) : (s.requested resourceNum id request).safe k < M := by
  have htried : ∀ k, (s.tried id request).1.safe k < M := by
    intro k
    rw [tried_safe]
    exact hsafe k
  simp only [requested]
  split_ifs
  · exact checkedFor_safe_lt htried resourceNum k
  · rw [returnBack_safe]
    exact checkedFor_safe_lt htried resourceNum k
  · rw [returnBack_safe]
    exact htried k

omit [AddCommGroup α] [LinearOrder α] in
theorem inBounds_returnLog {s : System α} {id : ℕ} (hid : s.id.toNat = id)
    (h : s.resourceNum = 0 ∨ id < M ∧ (id : ℤ) < progressNum) : InBounds progressNum s.returnLog := by
  refine inBounds_append.mpr ⟨?_,(inBounds_tableLog s.resource_le).mpr (.inr s.progress_le)⟩
  rw [hid]
  exact (inBounds_requestedLog s.resource_le).mpr h

theorem inBounds_triedLog {s : System α} (hsafe : ∀ k, s.safe k < M) (resourceNum : ℤ) {id : ℤ}
    (request : ℕ → α) (h : s.resourceNum = 0 ∨ id.toNat < M ∧ (id.toNat : ℤ) < progressNum) :
    InBounds progressNum (s.triedLog resourceNum id request) := by
  obtain ⟨-,hr,hid⟩ := s.tried_counts id request
  obtain ⟨hr',hid'⟩ := (s.tried id request).1.checkedFor_kept resourceNum
  have htried : ∀ k, (s.tried id request).1.safe k < M := by
    intro k
    rw [tried_safe]
    exact hsafe k
  simp only [triedLog]
  split_ifs with hsaid hflag
  · refine inBounds_append.mpr ⟨inBounds_checkLog _ _,?_⟩
    exact (inBounds_printLog (checkedFor_safe_lt htried resourceNum) (System.resource_le _)).mpr
      (System.progress_le _)
  · refine inBounds_append.mpr ⟨inBounds_checkLog _ _,?_⟩
    refine inBounds_returnLog (congrArg Int.toNat (hid'.trans hid)) ?_
    rwa [hr', hr]
  · refine inBounds_returnLog (congrArg Int.toNat hid) ?_
    rwa [hr]

end System

end CppExamples.Banker
