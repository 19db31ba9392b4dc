import CppExamples.Banker.Banker
import CppExamples.Library.Machine

/-! # The banker never leaves the safe states

The scan is sound: what it has found to finish, in the order it found it, is a
covered order, and its work vector is what is free plus what that order holds.
Handing back undoes the loop of `tryAllocate` exactly.  Every command therefore
ends in a safe state or in the tables it started from.
-/
namespace CppExamples.Banker.System
open Machine SafeSequence
variable {α : Type*} [AddCommGroup α] [LinearOrder α]

/-- The safe states of the system, of its first `progressNum` processes over its
first `resourceNum` resources. -/
def Safe (s : System α) : Prop :=
  SafeSequence.Safe (fun p (r : Fin s.resourceNum) => s.need p r)
    (fun p r => s.allocate p r) (fun r => s.available r) (List.range s.progressNum)

/-- Two states agree in everything that safety depends on. -/
structure SameTables (s t : System α) : Prop where
  progressNum : t.progressNum = s.progressNum
  resourceNum : t.resourceNum = s.resourceNum
  available : t.available = s.available
  need : t.need = s.need
  allocate : t.allocate = s.allocate

omit [AddCommGroup α] [LinearOrder α] in
theorem SameTables.refl (s : System α) : SameTables s s := ⟨rfl,rfl,rfl,rfl,rfl⟩

omit [AddCommGroup α] [LinearOrder α] in
theorem SameTables.symm {s t : System α} (h : SameTables s t) : SameTables t s :=
  ⟨h.1.symm,h.2.symm,h.3.symm,h.4.symm,h.5.symm⟩

omit [AddCommGroup α] [LinearOrder α] in
theorem SameTables.trans {s t u : System α} (h : SameTables s t) (h' : SameTables t u) :
    SameTables s u :=
  ⟨h'.1.trans h.1,h'.2.trans h.2,h'.3.trans h.3,h'.4.trans h.4,h'.5.trans h.5⟩

theorem SameTables.safe {s t : System α} (h : SameTables s t) (hs : s.Safe) : t.Safe := by
  obtain ⟨hp,hr,ha,hn,hal⟩ := h
  cases s
  cases t
  simp only at hp hr ha hn hal
  subst hp hr ha hn hal
  exact hs

/-- The scan has found `done` to finish, in this order, and holds what they free. -/
structure Scanned (s : System α) (done : List ℕ) : Prop where
  nodup : done.Nodup
  mem_iff : ∀ p < s.progressNum, p ∈ done ↔ s.finish p = true
  lt : ∀ p ∈ done, p < s.progressNum
  work : (fun r : Fin s.resourceNum => s.work r) =
    (fun r : Fin s.resourceNum => s.available r) +
      (done.map fun p (r : Fin s.resourceNum) => s.allocate p r).sum
  covered : Covered (fun p (r : Fin s.resourceNum) => s.need p r)
    (fun p r => s.allocate p r) (fun r => s.available r) done

theorem Scanned.startCheck (s : System α) : Scanned s.startCheck [] := by
  refine ⟨List.nodup_nil,?_,by simp,?_,Covered.nil⟩
  · intro p hp
    have hp' : p < s.progressNum := hp
    simp [System.startCheck, hp']
  · have hw : (fun r : Fin s.resourceNum => s.startCheck.work r) =
        fun r : Fin s.resourceNum => s.available r := by
      funext r
      have hr : (r : ℕ) < s.resourceNum := r.2
      simp only [System.startCheck, if_pos hr]
    exact hw.trans (add_zero _).symm

theorem Scanned.finishProcess {s : System α} {done : List ℕ} {i : ℕ} (h : Scanned s done)
    (count : ℕ) (hi : i < s.progressNum) (hf : s.finish i = false) (hfit : s.Fits i) :
    Scanned (s.finishProcess count i) (done ++ [i]) := by
  have hnew : i ∉ done := by
    intro hmem
    rw [(h.mem_iff i hi).mp hmem] at hf
    cases hf
  refine ⟨?_,?_,?_,?_,?_⟩
  · exact List.nodup_append.mpr ⟨h.nodup,List.nodup_singleton i,by grind⟩
  · intro p hp
    by_cases hpi : p = i
    · simp [System.finishProcess, hpi]
    · simpa [System.finishProcess, hpi] using h.mem_iff p hp
  · intro p hp
    rcases List.mem_append.mp hp with hp | hp
    · exact h.lt p hp
    · obtain rfl := List.mem_singleton.mp hp
      exact hi
  · have hw : (fun r : Fin s.resourceNum => (s.finishProcess count i).work r) =
        (fun r : Fin s.resourceNum => s.work r) + fun r : Fin s.resourceNum => s.allocate i r := by
      funext r
      have hr : (r : ℕ) < s.resourceNum := r.2
      simp only [System.finishProcess, if_pos hr, Pi.add_apply]
    rw [List.map_append, List.sum_append, List.map_singleton, List.sum_singleton, ← add_assoc]
    exact hw.trans (congrArg (· + fun r : Fin s.resourceNum => s.allocate i r) h.work)
  · refine Covered.snoc h.covered ?_
    intro r
    have hn : s.need i r ≤ s.work r := not_lt.mp (hfit r r.2)
    exact hn.trans_eq (congrFun h.work r)

theorem scan_found {s : System α} {i : ℕ} (count : ℕ) (hi : i < s.progressNum)
    (hf : s.finish i = false ∧ s.Fits i) : s.scan count i =
      (s.finishProcess count i).scan (count + 1) (if i = s.progressNum - 1 then 0 else i + 1) := by
  rw [System.scan, dif_pos hi, dif_pos hf]

theorem scan_passed {s : System α} {i : ℕ} (count : ℕ) (hi : i < s.progressNum)
    (hf : ¬ (s.finish i = false ∧ s.Fits i)) : s.scan count i = s.scan count (i + 1) := by
  rw [System.scan, dif_pos hi, dif_neg hf]

theorem scan_end {s : System α} {i : ℕ} (count : ℕ) (hi : ¬ i < s.progressNum) :
    s.scan count i = s := by
  rw [System.scan, dif_neg hi]

/-- The scan keeps what it has found true and leaves the tables alone. -/
theorem Scanned.scan (s : System α) (count i : ℕ) {done : List ℕ} (h : Scanned s done) :
    ∃ done', Scanned (s.scan count i) done' ∧ SameTables s (s.scan count i) := by
  induction s, count, i using System.scan.induct generalizing done with
  | case1 s count i hi hf ih =>
    obtain ⟨done',hd,ht⟩ := ih (h.finishProcess count hi hf.1 hf.2)
    rw [dite_eq_ite] at hd ht
    have h0 : SameTables s (s.finishProcess count i) := ⟨rfl,rfl,rfl,rfl,rfl⟩
    rw [scan_found count hi hf]
    exact ⟨done',hd,h0.trans ht⟩
  | case2 s count i hi hf ih =>
    obtain ⟨done',hd,ht⟩ := ih h
    rw [scan_passed count hi hf]
    exact ⟨done',hd,ht⟩
  | case3 s count i hi =>
    rw [scan_end count hi]
    exact ⟨done,h,SameTables.refl s⟩

theorem Scanned.mem_done_iff {s : System α} {done : List ℕ} (h : Scanned s done)
    (hall : ∀ p < s.progressNum, s.finish p = true) (p : ℕ) :
    p ∈ done ↔ p ∈ List.range s.progressNum := by
  rw [List.mem_range]
  constructor
  · exact h.lt p
  · intro hp
    exact (h.mem_iff p hp).mpr (hall p hp)

theorem Scanned.safe {s : System α} {done : List ℕ} (h : Scanned s done)
    (hall : ∀ p < s.progressNum, s.finish p = true) : s.Safe :=
  h.covered.safe List.nodup_range h.nodup (h.mem_done_iff hall)

theorem checked_sameTables (s : System α) : SameTables s s.checked := by
  obtain ⟨_,_,ht⟩ := Scanned.scan s.startCheck 0 0 (Scanned.startCheck s)
  exact ⟨ht.progressNum,ht.resourceNum,ht.available,ht.need,ht.allocate⟩

theorem scan_keeps {β : Type*} {f : System α → β}
    (hf : ∀ (s : System α) (count i : ℕ), f (s.finishProcess count i) = f s) (s : System α)
    (count i : ℕ) : f (s.scan count i) = f s := by
  induction s, count, i using System.scan.induct with
  | case1 s count i hi hfits ih =>
    rw [dite_eq_ite] at ih
    rw [scan_found count hi hfits]
    exact ih.trans (hf s count i)
  | case2 s count i hi hfits ih =>
    rw [scan_passed count hi hfits]
    exact ih
  | case3 s count i hi => rw [scan_end count hi]

theorem allocate_keeps {β : Type*} {f : System α → β}
    (hf : ∀ (s : System α) available allocate need,
      f { s with available := available, allocate := allocate, need := need } = f s)
    (row n : ℕ) (r : System α × List Complaint) :
    f ((List.range n).foldl (allocateAt row) r).1 = f r.1 := by
  induction n with
  | zero => rfl
  | succ n ih =>
    rw [List.range_succ, List.foldl_append]
    exact (hf _ _ _ _).trans ih

omit [LinearOrder α] in
theorem return_keeps {β : Type*} {f : System α → β}
    (hf : ∀ (s : System α) available allocate need,
      f { s with available := available, allocate := allocate, need := need } = f s)
    (row n : ℕ) (s : System α) : f ((List.range n).foldl (returnAt row) s) = f s := by
  induction n with
  | zero => rfl
  | succ n ih =>
    rw [List.range_succ, List.foldl_append]
    exact (hf _ _ _ _).trans ih

theorem scan_request (s : System α) (count i : ℕ) :
    (s.scan count i).request = s.request ∧ (s.scan count i).id = s.id :=
  ⟨scan_keeps (fun _ _ _ => rfl) s count i,scan_keeps (fun _ _ _ => rfl) s count i⟩

/-- A positive verdict is right: the state checked is safe. -/
theorem checked_sound {s : System α} (h : s.checked.flag = true) : s.Safe := by
  obtain ⟨done,hd,ht⟩ := Scanned.scan s.startCheck 0 0 (Scanned.startCheck s)
  have hall : ∀ p < s.isSafe.1.progressNum, s.isSafe.1.finish p = true := of_decide_eq_true h
  have h0 : SameTables s s.startCheck := ⟨rfl,rfl,rfl,rfl,rfl⟩
  exact (h0.trans ht).symm.safe (hd.safe hall)

/-- The tables after the first `n` turns of an allocation loop that adds `d` to a
row and takes it from what is available and needed. -/
structure Moved (s t : System α) (row n : ℕ) (d : ℕ → α) : Prop where
  progressNum : t.progressNum = s.progressNum
  resourceNum : t.resourceNum = s.resourceNum
  request : t.request = s.request
  id : t.id = s.id
  available : ∀ j, t.available j = if j < n then s.available j - d j else s.available j
  allocate : ∀ p j, t.allocate p j =
    if p = row ∧ j < n then s.allocate p j + d j else s.allocate p j
  need : ∀ p j, t.need p j = if p = row ∧ j < n then s.need p j - d j else s.need p j

omit [LinearOrder α] in
theorem Moved.zero (s : System α) (row : ℕ) (d : ℕ → α) : Moved s s row 0 d :=
  ⟨rfl,rfl,rfl,rfl,by simp,by simp,by simp⟩

theorem moved_allocateAt (s : System α) (row n : ℕ) (said : List Complaint) :
    Moved s ((List.range n).foldl (allocateAt row) (s, said)).1 row n s.request := by
  induction n with
  | zero => exact Moved.zero s row s.request
  | succ n ih =>
    rw [List.range_succ, List.foldl_append, List.foldl_cons, List.foldl_nil]
    set r := (List.range n).foldl (allocateAt row) (s, said)
    obtain ⟨hp,hr,hq,hid,ha,hal,hn⟩ := ih
    refine ⟨hp,hr,hq,hid,?_,?_,?_⟩
    · intro j
      simp only [allocateAt, Function.update_apply]
      grind
    · intro p j
      simp only [allocateAt, Function.update_apply]
      grind
    · intro p j
      simp only [allocateAt, Function.update_apply]
      grind

theorem Moved.checked {s t : System α} {row n : ℕ} {d : ℕ → α} (h : Moved s t row n d) :
    Moved s t.checked row n d := by
  obtain ⟨hp,hr,ha,hn,hal⟩ := t.checked_sameTables
  obtain ⟨hq,hid⟩ := t.startCheck.scan_request 0 0
  refine ⟨hp.trans h.progressNum,hr.trans h.resourceNum,hq.trans h.request,hid.trans h.id,?_,?_,?_⟩
  · intro j
    exact (congrFun ha j).trans (h.available j)
  · intro p j
    exact (congrFun (congrFun hal p) j).trans (h.allocate p j)
  · intro p j
    exact (congrFun (congrFun hn p) j).trans (h.need p j)

omit [LinearOrder α] in
theorem moved_returnAt (s : System α) (row n : ℕ) :
    Moved s ((List.range n).foldl (returnAt row) s) row n (fun j => -s.request j) := by
  induction n with
  | zero => exact Moved.zero s row _
  | succ n ih =>
    rw [List.range_succ, List.foldl_append, List.foldl_cons, List.foldl_nil]
    set r := (List.range n).foldl (returnAt row) s
    obtain ⟨hp,hr,hq,hid,ha,hal,hn⟩ := ih
    refine ⟨hp,hr,hq,hid,?_,?_,?_⟩
    · intro j
      simp only [returnAt, Function.update_apply]
      grind
    · intro p j
      simp only [returnAt, Function.update_apply]
      grind
    · intro p j
      simp only [returnAt, Function.update_apply]
      grind

omit [LinearOrder α] in
theorem returnBack_sameTables {s t : System α}
    (ht : Moved s t s.id.toNat s.resourceNum s.request) : SameTables s t.returnBack := by
  rw [← ht.id] at ht
  have hb := moved_returnAt { t with finish := fun _ => false } t.id.toNat t.resourceNum
  have ha : ∀ j, t.returnBack.available j =
      if j < t.resourceNum then t.available j - -t.request j else t.available j := hb.available
  have hal : ∀ p j, t.returnBack.allocate p j =
      if p = t.id.toNat ∧ j < t.resourceNum then t.allocate p j + -t.request j
      else t.allocate p j := hb.allocate
  have hn : ∀ p j, t.returnBack.need p j =
      if p = t.id.toNat ∧ j < t.resourceNum then t.need p j - -t.request j
      else t.need p j := hb.need
  refine ⟨hb.progressNum.trans ht.progressNum,hb.resourceNum.trans ht.resourceNum,?_,?_,?_⟩
  · funext j
    rw [ha, ht.available, ht.resourceNum, ht.request]
    by_cases h : j < s.resourceNum <;> simp [h]
  · funext p j
    rw [hn, ht.need, ht.resourceNum, ht.request]
    by_cases h : p = t.id.toNat ∧ j < s.resourceNum <;> simp [h]
  · funext p j
    rw [hal, ht.allocate, ht.resourceNum, ht.request]
    by_cases h : p = t.id.toNat ∧ j < s.resourceNum <;> simp [h]

/-- The number that passes the prompt of a request is that of a process. -/
def CommandAllowed (s : System α) : Command α → Prop
  | .request typed _ => ∃ id, readId s.progressNum typed = some id ∧ id < s.progressNum
  | .print => True
  | .check => True

def Output.isGranted : Output α → Bool
  | .granted _ => true
  | _ => false

omit [LinearOrder α] [AddCommGroup α] in
theorem readId_nonneg {n : ℕ} {typed : List ℤ} {id : ℤ} (h : readId n typed = some id) :
    0 ≤ id ∧ id ≤ n := by
  have := List.find?_some h
  simp only [Bool.not_or, Bool.and_eq_true, Bool.not_eq_true', decide_eq_false_iff_not] at this
  omega

theorem tryAllocate_spec {s : System α} {typed : List ℤ} {request : ℕ → α}
    (h : s.CommandAllowed (.request typed request)) :
    ∃ s₁ t said, s.tryAllocate typed request = some (t, said) ∧ SameTables s s₁ ∧
      Moved s₁ t s₁.id.toNat s₁.resourceNum s₁.request := by
  obtain ⟨id,hid,hlt⟩ := h
  have hbound := readId_nonneg hid
  have hM : id.toNat < M := by
    have := s.progress_le
    omega
  let r := (List.range s.resourceNum).foldl (allocateAt id.toNat) (s.promptRequest id request, [])
  have htry : s.tryAllocate typed request = some (r.1, r.2) := by
    simp only [tryAllocate, hid, Option.bind_some, if_pos hM]
    rfl
  exact ⟨s.promptRequest id request,r.1,r.2,htry,⟨rfl,rfl,rfl,rfl,rfl⟩,
    moved_allocateAt (s.promptRequest id request) id.toNat s.resourceNum []⟩

/-- One command: a grant is into a safe state, and everything else, a refusal for
any reason included, leaves the tables as they were. -/
theorem bankerStep_spec {s : System α} {c : Command α} (h : s.CommandAllowed c) :
    ∃ s' o, s.bankerStep c = some (s', o) ∧
      ((o.isGranted = true ∧ s'.Safe) ∨ (o.isGranted = false ∧ SameTables s s')) := by
  cases c with
  | print => exact ⟨s,_,rfl,.inr ⟨rfl,SameTables.refl s⟩⟩
  | check => exact ⟨s.checked,_,rfl,.inr ⟨rfl,s.checked_sameTables⟩⟩
  | request typed request =>
    obtain ⟨s₁,t,said,htry,hprompt,hmoved⟩ := tryAllocate_spec h
    by_cases hsaid : said = []
    · cases hflag : t.checked.flag with
      | true =>
        have hsafe := t.checked_sameTables.safe (checked_sound hflag)
        refine ⟨t.checked,.granted t.checked.printInfo,?_,.inl ⟨rfl,hsafe⟩⟩
        simp [bankerStep, htry, hsaid, hflag]
      | false =>
        have hback := returnBack_sameTables hmoved.checked
        refine ⟨t.checked.returnBack,.unsafeState,?_,.inr ⟨rfl,hprompt.trans hback⟩⟩
        simp [bankerStep, htry, hsaid, hflag]
    · have hback := returnBack_sameTables hmoved
      refine ⟨t.returnBack,.failed said,?_,.inr ⟨rfl,hprompt.trans hback⟩⟩
      simp [bankerStep, htry, hsaid]

/-- From a safe state every run of allowed commands is carried out and ends in a
safe state, and so does each of its commands: a grant is made only into a safe
state, anything else keeps the tables. -/
theorem bankerRun_safe {s : System α} {commands : List (Command α)} (hs : s.Safe)
    (hok : Admits bankerStep CommandAllowed s commands) :
    ∃ t os, run bankerStep s commands = some (t, os) ∧ t.Safe ∧
      ∀ before c after, commands = before ++ c :: after →
        ∃ u os' v o, run bankerStep s before = some (u, os') ∧ u.bankerStep c = some (v, o) ∧
          v.Safe ∧ (o.isGranted = true ∨ SameTables u v) := by
  refine run_total (fun s c hs hc => ?_) hs hok
  obtain ⟨s',o,hstep,⟨hgrant,hsafe⟩ | ⟨_,htables⟩⟩ := bankerStep_spec hc
  · exact ⟨s',o,hstep,hsafe,.inl hgrant⟩
  · exact ⟨s',o,hstep,htables.safe hs,.inr htables⟩

/-- Two processes and one resource: `P0` needs the free unit, `P1` what `P0` holds
besides it. -/
def sampleSystem : System ℤ where
  progressNum := 2
  resourceNum := 1
  progress_le := by decide
  resource_le := by decide
  id := 0
  available := fun _ => 1
  max := fun _ _ => 2
  need := fun p _ => if p = 0 then 1 else 2
  allocate := fun p _ => if p = 0 then 1 else 0
  request := fun _ => 0
  work := fun _ => 0
  finish := fun _ => false
  workAllocation := fun _ _ => 0
  flag := false
  safe := fun _ => 0

theorem sampleSystem_safe : sampleSystem.Safe := by
  refine ⟨[0, 1],List.Perm.refl _,?_⟩
  have hfirst : Covered (fun p (r : Fin sampleSystem.resourceNum) => sampleSystem.need p r)
      (fun p r => sampleSystem.allocate p r) (fun r => sampleSystem.available r) ([] ++ [0]) :=
    Covered.nil.snoc fun _ => le_refl (1 : ℤ)
  exact hfirst.snoc fun _ => le_refl (2 : ℤ)

theorem bankerRun_safe_sample :
    ∃ t os, run bankerStep sampleSystem [.request [7, 1] fun _ => 1, .check, .print] = some (t, os) ∧
      t.Safe ∧ ∀ before c after,
        [.request [7, 1] fun _ => 1, .check, .print] = before ++ c :: after →
        ∃ u os' v o, run bankerStep sampleSystem before = some (u, os') ∧
          u.bankerStep c = some (v, o) ∧ v.Safe ∧ (o.isGranted = true ∨ SameTables u v) :=
  bankerRun_safe sampleSystem_safe
    ⟨⟨1,by decide,by decide⟩,fun _ _ => ⟨trivial,fun _ _ => ⟨trivial,fun _ _ => trivial⟩⟩⟩

end CppExamples.Banker.System
