import CppExamples.Banker.BankerScan

/-! # What a request moves

A request is all or nothing: it moves its amounts from what is available to one row of
the tables, or it leaves all tables alone.  Which of the two happens is read off the
tables before it.  The accounts stay in order as long as a request that is granted
names a process and takes back no more than that process holds, which neither the
check of the number nor the two comparisons see to.
-/
namespace CppExamples.Banker.System
open Machine
variable {α : Type*} [AddCommGroup α] [LinearOrder α]

/-- Two states between which a scan cannot tell. -/
structure SameScan (s t : System α) : Prop extends SameTables s t where
  work : ∀ j < s.resourceNum, t.work j = s.work j
  finish : ∀ p < s.progressNum, t.finish p = s.finish p

omit [AddCommGroup α] in
theorem SameScan.fits_iff {s t : System α} (h : SameScan s t) (i : ℕ) : t.Fits i ↔ s.Fits i := by
  simp only [Fits, h.resourceNum, h.need]
  apply forall_congr'
  intro j
  apply imp_congr_right
  intro hj
  rw [h.work j hj]

omit [LinearOrder α] in
theorem SameScan.finishProcess {s t : System α} (h : SameScan s t) (count i : ℕ) :
    SameScan (s.finishProcess count i) (t.finishProcess count i) := by
  refine ⟨⟨h.progressNum,h.resourceNum,h.available,h.need,h.allocate⟩,?_,?_⟩
  · intro j hj
    have hj' : j < s.resourceNum := hj
    simp [System.finishProcess, h.resourceNum, hj', h.work j hj', h.allocate]
  · intro p hp
    by_cases hpi : p = i
    · simp [System.finishProcess, hpi]
    · simpa [System.finishProcess, hpi] using h.finish p hp

theorem SameScan.scan {s t : System α} (count i : ℕ) (h : SameScan s t) :
    SameScan (s.scan count i) (t.scan count i) := by
  induction s, count, i using System.scan.induct generalizing t with
  | case1 s count i hi hf ih =>
    rw [dite_eq_ite] at ih
    have hi' : i < t.progressNum := h.progressNum ▸ hi
    have hf' : t.finish i = false ∧ t.Fits i :=
      ⟨(h.finish i hi).trans hf.1,(h.fits_iff i).mpr hf.2⟩
    rw [scan_found count hi hf, scan_found count hi' hf', h.progressNum]
    exact ih (h.finishProcess count i)
  | case2 s count i hi hf ih =>
    have hi' : i < t.progressNum := h.progressNum ▸ hi
    have hf' : ¬ (t.finish i = false ∧ t.Fits i) := by
      rintro ⟨hopen,hfit⟩
      exact hf ⟨(h.finish i hi).symm.trans hopen,(h.fits_iff i).mp hfit⟩
    rw [scan_passed count hi hf, scan_passed count hi' hf']
    exact ih h
  | case3 s count i hi =>
    have hi' : ¬ i < t.progressNum := h.progressNum ▸ hi
    rw [scan_end count hi, scan_end count hi']
    exact h

theorem SameTables.isSafe {s t : System α} (h : SameTables s t) : t.isSafe.2 = s.isSafe.2 := by
  have hstart : SameScan s.startCheck t.startCheck := by
    refine ⟨⟨h.progressNum,h.resourceNum,h.available,h.need,h.allocate⟩,?_,?_⟩
    · intro j hj
      have hj' : j < s.resourceNum := hj
      simp [startCheck, h.resourceNum, hj', h.available]
    · intro p hp
      have hp' : p < s.progressNum := hp
      simp [startCheck, h.progressNum, hp']
  have hend := hstart.scan 0 0
  have hnum : (s.startCheck.scan 0 0).progressNum = s.progressNum := s.checked_sameTables.progressNum
  simp only [System.isSafe, decide_eq_decide, hend.progressNum, hnum]
  apply forall_congr'
  intro p
  apply imp_congr_right
  intro hp
  rw [hend.finish p (hnum ▸ hp)]

/-- The tables with the amounts moved to row `row`. -/
def afterGrant (s : System α) (row : ℕ) (request : ℕ → α) : System α :=
  { s with
    available := fun j => if j < s.resourceNum then s.available j - request j else s.available j
    allocate := fun p j =>
      if p = row ∧ j < s.resourceNum then s.allocate p j + request j else s.allocate p j
    need := fun p j =>
      if p = row ∧ j < s.resourceNum then s.need p j - request j else s.need p j }

/-- An amount exceeds the need or what is available, or the tables with the amounts
moved do not pass the safety check. -/
def Refused (s : System α) (row : ℕ) (request : ℕ → α) : Prop :=
  (∃ j < s.resourceNum, request j > s.need row j ∨ request j > s.available j) ∨
    (s.afterGrant row request).isSafe.2 = false

theorem complaints_eq_nil_iff (s : System α) (row n : ℕ) :
    ((List.range n).foldl (allocateAt row) (s, [])).2 = [] ↔
      ∀ j < n, ¬ (s.request j > s.need row j ∨ s.request j > s.available j) := by
  induction n with
  | zero => simp
  | succ n ih =>
    obtain ⟨-,-,hq,-,ha,-,hn⟩ := moved_allocateAt s row n []
    have hneed := hn row n
    have havailable := ha n
    simp only [lt_irrefl, and_false, if_false] at hneed havailable
    rw [List.range_succ, List.foldl_append, List.foldl_cons, List.foldl_nil, Nat.forall_lt_succ_right,
      ← ih]
    simp only [allocateAt, hq, hneed, havailable]
    split_ifs <;> simp_all

omit [LinearOrder α] in
theorem afterGrant_sameTables (s : System α) (id : ℤ) (request : ℕ → α) {t : System α}
    (h : Moved (s.promptRequest id request) t id.toNat s.resourceNum
      (s.promptRequest id request).request) : SameTables (s.afterGrant id.toNat request) t := by
  refine ⟨h.progressNum,h.resourceNum,?_,?_,?_⟩
  · funext j
    rw [h.available]
    by_cases hj : j < s.resourceNum <;> simp [afterGrant, hj, promptRequest]
  · funext p j
    rw [h.need]
    by_cases hj : j < s.resourceNum <;> simp [afterGrant, hj, promptRequest]
  · funext p j
    rw [h.allocate]
    by_cases hj : j < s.resourceNum <;> simp [afterGrant, hj, promptRequest]

theorem scan_max (s : System α) (count i : ℕ) : (s.scan count i).max = s.max :=
  scan_keeps (fun _ _ _ => rfl) s count i

omit [LinearOrder α] in
theorem returnBack_max (s : System α) : s.returnBack.max = s.max :=
  return_keeps (f := System.max) (fun _ _ _ _ => rfl) s.id.toNat s.resourceNum { s with finish := fun _ => false }

theorem allocate_max (row n : ℕ) (r : System α × List Complaint) :
    ((List.range n).foldl (allocateAt row) r).1.max = r.1.max :=
  allocate_keeps (f := System.max) (fun _ _ _ _ => rfl) row n r

/-- A request for a row of the tables is carried out: as a whole when it is not
refused, else not at all. -/
theorem request_spec {s : System α} {typed : List ℤ} {id : ℤ} (request : ℕ → α)
    (hid : readId s.progressNum typed = some id) (hrow : id.toNat < M) :
    ∃ s' o, s.bankerStep (.request typed request) = some (s', o) ∧ s'.max = s.max ∧
      (o.isGranted = false ↔ s.Refused id.toNat request) ∧
      (o.isGranted = false → SameTables s s') ∧
      (o.isGranted = true → SameTables (s.afterGrant id.toNat request) s') := by
  set s₁ := s.promptRequest id request with hs₁
  set r := (List.range s.resourceNum).foldl (allocateAt id.toNat) (s₁, []) with hr
  have htry : s.tryAllocate typed request = some r := by
    simp only [tryAllocate, hid, Option.bind_some, if_pos hrow, hr, hs₁]
  have hprompt : SameTables s s₁ := ⟨rfl,rfl,rfl,rfl,rfl⟩
  have hmoved : Moved s₁ r.1 id.toNat s.resourceNum s₁.request :=
    moved_allocateAt s₁ id.toNat s.resourceNum []
  have hmax : r.1.max = s.max := allocate_max id.toNat s.resourceNum (s₁, [])
  have hmaxChecked : r.1.checked.max = s.max := (scan_max r.1.startCheck 0 0).trans hmax
  have hverdict : r.1.checked.flag = (s.afterGrant id.toNat request).isSafe.2 :=
    (afterGrant_sameTables s id request hmoved).isSafe
  have hsaid : r.2 = [] ↔ ∀ j < s.resourceNum,
      ¬ (request j > s.need id.toNat j ∨ request j > s.available j) := by
    rw [hr, complaints_eq_nil_iff]
    apply forall_congr'
    intro j
    apply imp_congr_right
    intro hj
    have hamount : s₁.request j = request j := if_pos hj
    rw [hamount]
    rfl
  by_cases hnone : r.2 = []
  · have hno := hsaid.mp hnone
    cases hflag : r.1.checked.flag with
    | true =>
      refine ⟨r.1.checked,.granted r.1.checked.printInfo,?_,hmaxChecked,?_,by simp [Output.isGranted],?_⟩
      · simp [bankerStep, htry, hnone, hflag]
      · constructor
        · intro hno
          cases hno
        · rintro (⟨j,hj,hover⟩ | hbad)
          · exact absurd hover (hno j hj)
          · cases hflag.symm.trans (hverdict.trans hbad)
      · exact fun _ => afterGrant_sameTables s id request hmoved.checked
    | false =>
      refine ⟨r.1.checked.returnBack,.unsafeState,?_,?_,?_,?_,fun hno => by cases hno⟩
      · simp [bankerStep, htry, hnone, hflag]
      · exact (returnBack_max _).trans hmaxChecked
      · exact iff_of_true rfl (.inr (hverdict.symm.trans hflag))
      · exact fun _ => hprompt.trans (returnBack_sameTables hmoved.checked)
  · refine ⟨r.1.returnBack,.failed r.2,?_,?_,?_,?_,fun hno => by cases hno⟩
    · simp [bankerStep, htry, hnone]
    · exact (returnBack_max _).trans hmax
    · have hover : ∃ j < s.resourceNum, request j > s.need id.toNat j ∨ request j > s.available j := by
        by_contra hno
        push Not at hno
        exact hnone (hsaid.mpr fun j hj => by simpa using hno j hj)
      exact iff_of_true rfl (.inl hover)
    · exact fun _ => hprompt.trans (returnBack_sameTables hmoved)

/-- A request of a process is all or nothing.  It is turned down when an amount
exceeds the need or what is available or when it would lead to a state that does not
pass the check, and then all tables are as before; else the amounts move from what is
available to the row of the process. -/
theorem request_allOrNothing {s : System α} {typed : List ℤ} {id : ℤ} (request : ℕ → α)
    (hid : readId s.progressNum typed = some id) (hlt : id < s.progressNum) :
    ∃ s' o, s.bankerStep (.request typed request) = some (s', o) ∧
      (o.isGranted = false ↔ s.Refused id.toNat request) ∧
      (o.isGranted = false → SameTables s s') ∧
      (o.isGranted = true → SameTables (s.afterGrant id.toNat request) s') := by
  have hrow : id.toNat < M := by
    have := s.progress_le
    have := readId_nonneg hid
    omega
  obtain ⟨s',o,hstep,-,hrefused,hsame,hgrant⟩ := request_spec request hid hrow
  exact ⟨s',o,hstep,hrefused,hsame,hgrant⟩

/-- The machine integers of the program, whose sums wrap. -/
instance : AddCommGroup Int32 where
  add_assoc := Int32.add_assoc
  zero_add := Int32.zero_add
  add_zero := Int32.add_zero
  add_comm := Int32.add_comm
  neg_add_cancel := Int32.add_left_neg
  sub_eq_add_neg := Int32.sub_eq_add_neg
  nsmul := nsmulRec
  zsmul := zsmulRec

instance : LinearOrder Int32 where
  le_refl := Int32.le_refl
  le_trans _ _ _ := Int32.le_trans
  le_antisymm _ _ := Int32.le_antisymm
  le_total := Int32.le_total
  lt_iff_le_not_ge a b := by
    rw [Int32.lt_iff_toInt_lt, Int32.le_iff_toInt_le, Int32.le_iff_toInt_le]
    exact lt_iff_le_not_ge
  toDecidableLE := inferInstance

def exhausted : System Int32 :=
  oneResource 2 0 (fun _ => 2147483647) (fun p => if p = 0 then 2147483646 else 0)
    fun p => if p = 0 then 1 else 2147483647

/-- The amount that is refused makes the entry of its row wrap, and wrap back. -/
theorem request_allOrNothing_exhausted :
    ∃ s' o, exhausted.bankerStep (.request [-1, 0] fun _ => 2147483647) = some (s', o) ∧
      (o.isGranted = false ↔ exhausted.Refused (0 : ℤ).toNat fun _ => 2147483647) ∧
      (o.isGranted = false → SameTables exhausted s') ∧
      (o.isGranted = true →
        SameTables (exhausted.afterGrant (0 : ℤ).toNat fun _ => 2147483647) s') :=
  request_allOrNothing (fun _ => 2147483647) (by decide) (by decide)

/-- The accounts of `s` are in order and those of `initial`. -/
structure Accounted (initial s : System ℤ) : Prop where
  progressNum : s.progressNum = initial.progressNum
  resourceNum : s.resourceNum = initial.resourceNum
  max : s.max = initial.max
  available_nonneg : ∀ j < s.resourceNum, 0 ≤ s.available j
  allocate_nonneg : ∀ i < s.progressNum, ∀ j < s.resourceNum, 0 ≤ s.allocate i j
  allocate_le : ∀ i < s.progressNum, ∀ j < s.resourceNum, s.allocate i j ≤ s.max i j
  need_eq : ∀ i < s.progressNum, ∀ j < s.resourceNum, s.need i j = s.max i j - s.allocate i j
  total : ∀ j < s.resourceNum,
    s.available j + ∑ i ∈ Finset.range s.progressNum, s.allocate i j =
      initial.available j + ∑ i ∈ Finset.range initial.progressNum, initial.allocate i j

theorem Accounted.of_sameTables {initial s t : System ℤ} (h : Accounted initial s)
    (ht : SameTables s t) (hmax : t.max = s.max) : Accounted initial t := by
  obtain ⟨hp,hr,ha,hn,hal⟩ := ht
  refine ⟨hp.trans h.progressNum,hr.trans h.resourceNum,hmax.trans h.max,?_,?_,?_,?_,?_⟩
  · rw [hr, ha]
    exact h.available_nonneg
  · rw [hp, hr, hal]
    exact h.allocate_nonneg
  · rw [hp, hr, hal, hmax]
    exact h.allocate_le
  · rw [hp, hr, hn, hal, hmax]
    exact h.need_eq
  · rw [hp, hr, ha, hal]
    exact h.total

section AfterGrant
variable {s : System ℤ} {row j : ℕ} {request : ℕ → ℤ}

theorem afterGrant_available (hj : j < s.resourceNum) :
    (s.afterGrant row request).available j = s.available j - request j := if_pos hj

theorem afterGrant_row (hj : j < s.resourceNum) :
    (s.afterGrant row request).allocate row j = s.allocate row j + request j ∧
      (s.afterGrant row request).need row j = s.need row j - request j :=
  ⟨if_pos ⟨rfl,hj⟩,if_pos ⟨rfl,hj⟩⟩

theorem afterGrant_other {i : ℕ} (hi : i ≠ row) :
    (s.afterGrant row request).allocate i j = s.allocate i j ∧
      (s.afterGrant row request).need i j = s.need i j :=
  ⟨if_neg fun h => hi h.1,if_neg fun h => hi h.1⟩

theorem afterGrant_total (hj : j < s.resourceNum) :
    (s.afterGrant row request).available j +
        ∑ i ∈ Finset.range s.progressNum, (s.afterGrant row request).allocate i j =
      s.available j + ∑ i ∈ Finset.range s.progressNum, s.allocate i j -
        if row < s.progressNum then 0 else request j := by
  have hentry : ∀ i, (s.afterGrant row request).allocate i j =
      s.allocate i j + if i = row then request j else 0 := by
    intro i
    by_cases hi : i = row <;> simp [afterGrant, hj, hi]
  simp only [afterGrant_available hj, hentry, Finset.sum_add_distrib, Finset.sum_ite_eq',
    Finset.mem_range]
  split <;> ring

end AfterGrant

/-- Amounts that the comparisons let pass keep the accounts in order just when each is
zero, or goes to a process that holds at least what is taken back. -/
theorem accounted_afterGrant {initial s : System ℤ} (h : Accounted initial s) {row : ℕ}
    {request : ℕ → ℤ} (hle : row ≤ s.progressNum)
    (hpass : ∀ j < s.resourceNum, request j ≤ s.need row j ∧ request j ≤ s.available j) :
    Accounted initial (s.afterGrant row request) ↔
      ∀ j < s.resourceNum, request j = 0 ∨ (row < s.progressNum ∧ 0 ≤ s.allocate row j + request j) := by
  constructor
  · intro hafter j hj
    rcases hle.lt_or_eq with hlt | heq
    · have hnonneg := hafter.allocate_nonneg row hlt j hj
      rw [(afterGrant_row hj).1] at hnonneg
      exact .inr ⟨hlt,hnonneg⟩
    · have htotal := (afterGrant_total hj).symm.trans (hafter.total j hj)
      have hbefore := h.total j hj
      rw [if_neg (by omega)] at htotal
      exact .inl (by linarith)
  · intro hkeep
    refine ⟨h.progressNum,h.resourceNum,h.max,?_,?_,?_,?_,?_⟩
    · intro j (hj : j < s.resourceNum)
      have := (hpass j hj).2
      rw [afterGrant_available hj]
      omega
    · intro i hi j (hj : j < s.resourceNum)
      have hold := h.allocate_nonneg i hi j hj
      by_cases hrow : i = row
      · subst hrow
        rw [(afterGrant_row hj).1]
        rcases hkeep j hj with hzero | ⟨-,hheld⟩
        · omega
        · exact hheld
      · rwa [(afterGrant_other hrow).1]
    · intro i hi j (hj : j < s.resourceNum)
      have hold := h.allocate_le i hi j hj
      by_cases hrow : i = row
      · subst hrow
        have hneed := h.need_eq i hi j hj
        have := (hpass j hj).1
        rw [(afterGrant_row hj).1]
        change s.allocate i j + request j ≤ s.max i j
        omega
      · rwa [(afterGrant_other hrow).1]
    · intro i hi j (hj : j < s.resourceNum)
      have hold := h.need_eq i hi j hj
      by_cases hrow : i = row
      · subst hrow
        rw [(afterGrant_row hj).1, (afterGrant_row hj).2, hold]
        exact sub_sub ..
      · rwa [(afterGrant_other hrow).1, (afterGrant_other hrow).2]
    · intro j (hj : j < s.resourceNum)
      have hlost : (if row < s.progressNum then 0 else request j) = 0 := by
        rcases hkeep j hj with hzero | ⟨hlt,-⟩
        · simp [hzero]
        · exact if_pos hlt
      refine (afterGrant_total hj).trans ?_
      rw [hlost, sub_zero]
      exact h.total j hj

/-- The number that passes the prompt is that of a row of the tables. -/
def InTables (s : System ℤ) : Command ℤ → Prop
  | .request typed _ => ∀ id, readId s.progressNum typed = some id → id.toNat < M
  | .print => True
  | .check => True

/-- A request is refused, or each of its amounts is zero or goes to a process that
holds at least what is taken back. -/
def KeepsAccounts (s : System ℤ) : Command ℤ → Prop
  | .request typed request => ∀ id, readId s.progressNum typed = some id → id.toNat < M ∧
      (s.Refused id.toNat request ∨ ∀ j < s.resourceNum, request j = 0 ∨
        (id < s.progressNum ∧ 0 ≤ s.allocate id.toNat j + request j))
  | .print => True
  | .check => True

theorem keepsAccounts_iff {initial s : System ℤ} (h : Accounted initial s) (c : Command ℤ) :
    s.KeepsAccounts c ↔
      s.InTables c ∧ ∀ s' o, s.bankerStep c = some (s', o) → Accounted initial s' := by
  cases c with
  | print =>
    refine iff_of_true trivial ⟨trivial,?_⟩
    intro s' o hstep
    obtain ⟨rfl,-⟩ := Prod.mk.inj (Option.some.inj hstep)
    exact h
  | check =>
    refine iff_of_true trivial ⟨trivial,?_⟩
    intro s' o hstep
    obtain ⟨rfl,-⟩ := Prod.mk.inj (Option.some.inj hstep)
    exact h.of_sameTables s.checked_sameTables (scan_max s.startCheck 0 0)
  | request typed request =>
    cases hid : readId s.progressNum typed with
    | none => simp [KeepsAccounts, InTables, bankerStep, tryAllocate, hid]
    | some id =>
      simp only [KeepsAccounts, InTables, hid, Option.some.injEq, forall_eq']
      apply and_congr_right
      intro hrow
      obtain ⟨s',o,hstep,hmax,hrefused,hsame,hgrant⟩ := request_spec request hid hrow
      obtain ⟨hnonneg,hbound⟩ := readId_nonneg hid
      have honly : (∀ t u, s.bankerStep (.request typed request) = some (t, u) →
          Accounted initial t) ↔ Accounted initial s' := by
        rw [hstep]
        simp
      rw [honly]
      cases ho : o.isGranted with
      | false =>
        exact iff_of_true (.inl (hrefused.mp ho)) (h.of_sameTables (hsame ho) hmax)
      | true =>
        have hnot : ¬ s.Refused id.toNat request := by
          intro hno
          cases ho.symm.trans (hrefused.mpr hno)
        have hpass : ∀ j < s.resourceNum,
            request j ≤ s.need id.toNat j ∧ request j ≤ s.available j := by
          intro j hj
          by_contra hover
          exact hnot (.inl ⟨j,hj,by omega⟩)
        have htables := hgrant ho
        have hmoved : Accounted initial s' ↔ Accounted initial (s.afterGrant id.toNat request) :=
          ⟨fun hs => hs.of_sameTables htables.symm hmax.symm,
            fun hs => hs.of_sameTables htables hmax⟩
        rw [hmoved, accounted_afterGrant h (by omega) hpass, or_iff_right hnot]
        have hnum : id.toNat < s.progressNum ↔ id < s.progressNum := by omega
        rw [hnum]

/-- From accounts in order, all that a run of the menu reaches has its accounts in
order, and no request goes beyond the tables, just when each request of the run is
refused or gives nothing to a number that is no process and takes back from a process
no more than it holds. -/
theorem bankerRun_accounted {s : System ℤ} (hs : Accounted s s) (commands : List (Command ℤ)) :
    (∀ before after t os, commands = before ++ after → run bankerStep s before = some (t, os) →
      Accounted s t ∧ ∀ c rest, after = c :: rest → t.InTables c) ↔
      Admits bankerStep KeepsAccounts s commands :=
  (admits_iff (fun _ c h => keepsAccounts_iff h c) hs commands).symm

theorem Accounted.keeps_of_nonneg {initial s : System ℤ} (h : Accounted initial s) {typed : List ℤ}
    {request : ℕ → ℤ} {i : ℕ} (hid : readId s.progressNum typed = some (i : ℤ)) (hi : i < s.progressNum)
    (hnonneg : ∀ j, 0 ≤ request j) : s.KeepsAccounts (.request typed request) := by
  intro id hread
  obtain rfl : (i : ℤ) = id := Option.some.inj (hid.symm.trans hread)
  refine ⟨hi.trans_le s.progress_le,.inr fun j hj => .inr ⟨by exact_mod_cast hi,?_⟩⟩
  exact add_nonneg (h.allocate_nonneg i hi j hj) (hnonneg j)

def row (entries : List (List ℤ)) (p j : ℕ) : ℤ := (entries.getD p []).getD j 0

def three : System ℤ where
  progressNum := 3
  resourceNum := 2
  progress_le := by decide
  resource_le := by decide
  id := 0
  available := row [[2, 1]] 0
  max := row [[3, 2], [2, 2], [4, 3]]
  need := row [[2, 2], [1, 1], [2, 2]]
  allocate := row [[1, 0], [1, 1], [2, 1]]
  request := fun _ => 0
  work := fun _ => 0
  finish := fun _ => false
  workAllocation := fun _ _ => 0
  flag := false
  safe := fun _ => 0

theorem three_accounted : Accounted three three :=
  ⟨rfl,rfl,rfl,by decide,by decide,by decide,by decide,fun _ _ => rfl⟩

/-- The second process asks for a unit, and the first for more than is available. -/
def threeCommands : List (Command ℤ) := [.request [1] (row [[1, 0]] 0), .check, .request [7, 0] (row [[2, 2]] 0)]

theorem bankerRun_accounted_three :
    Admits bankerStep KeepsAccounts three threeCommands ∧
      ∀ before after t os, threeCommands = before ++ after → run bankerStep three before = some (t, os) →
        Accounted three t ∧ ∀ c rest, after = c :: rest → t.InTables c := by
  have hnonneg : ∀ entries : List ℤ, (∀ x ∈ entries, 0 ≤ x) → ∀ j, 0 ≤ row [entries] 0 j := by
    intro entries hall j
    rw [row, List.getD_cons_zero, List.getD_eq_getElem?_getD]
    cases hj : entries[j]? with
    | none => exact le_rfl
    | some x => exact hall x (List.mem_of_getElem? hj)
  have hfirst : three.KeepsAccounts (.request [1] (row [[1, 0]] 0)) :=
    three_accounted.keeps_of_nonneg (i := 1) (by decide) (by decide) (hnonneg _ (by decide))
  have hkeeps : Admits bankerStep KeepsAccounts three threeCommands := by
    refine ⟨hfirst,fun r hr => ⟨trivial,fun r' hr' => ?_⟩⟩
    have hgranted := ((keepsAccounts_iff three_accounted _).mp hfirst).2 r.1 r.2 hr
    have hchecked := ((keepsAccounts_iff hgranted .check).mp trivial).2 r'.1 r'.2 hr'
    have hnum : r'.1.progressNum = 3 := hchecked.progressNum
    refine ⟨hchecked.keeps_of_nonneg (i := 0) ?_ ?_ (hnonneg _ (by decide)),fun _ _ => trivial⟩
    · rw [hnum]
      decide
    · rw [hnum]
      decide
  exact ⟨hkeeps,(bankerRun_accounted three_accounted threeCommands).mpr hkeeps⟩

/-- One process that holds one unit of the two it may hold; the row behind it is left
from a larger table. -/
def single : System ℤ := oneResource 1 4 (fun _ => 2) (fun _ => 1) fun _ => 1

theorem single_accounted : Accounted single single :=
  ⟨rfl,rfl,rfl,by decide,by decide,by decide,by decide,fun _ _ => rfl⟩

theorem single_granted {typed : List ℤ} {id : ℤ} {amount : ℤ}
    (hid : readId 1 typed = some id) (hrow : id.toNat < M) (hpass : amount ≤ 1)
    (hverdict : (single.afterGrant id.toNat fun _ => amount).isSafe.2 = true) :
    ∃ t o, single.bankerStep (.request typed fun _ => amount) = some (t, o) ∧
      SameTables (single.afterGrant id.toNat fun _ => amount) t := by
  obtain ⟨t,o,hstep,-,hrefused,-,hgrant⟩ :=
    @request_spec ℤ _ _ single typed id (fun _ => amount) hid hrow
  refine ⟨t,o,hstep,hgrant ?_⟩
  by_contra hno
  rcases hrefused.mp (by simpa using hno) with ⟨j,-,hover⟩ | hbad
  · simp only [single, oneResource] at hover
    omega
  · cases hverdict.symm.trans hbad

/-- Taking back more than is held is granted and leaves a negative entry; so is a unit
for the number behind the last process, and it is lost. -/
theorem bankerRun_unaccounted :
    Accounted single single ∧
    (∃ t o, single.bankerStep (.request [0] fun _ => -2) = some (t, o) ∧ t.allocate 0 0 = -1 ∧
      ¬ Accounted single t) ∧
    (∃ t o, single.bankerStep (.request [1] fun _ => 1) = some (t, o) ∧ t.available 0 = 3 ∧
      t.allocate 0 0 = 1 ∧ ¬ Accounted single t) := by
  refine ⟨single_accounted,?_,?_⟩
  · obtain ⟨t,o,hstep,htables⟩ := @single_granted [0] 0 (-2) (by decide) (by decide) (by decide)
      (@isSafe_of_scanLoop ℤ _ _ 3 _ _ (by decide))
    have hentry : t.allocate 0 0 = -1 := by
      rw [htables.allocate]
      decide
    refine ⟨t,o,hstep,hentry,?_⟩
    intro h
    have hnonneg := h.allocate_nonneg 0 (h.progressNum ▸ Nat.one_pos) 0 (h.resourceNum ▸ Nat.one_pos)
    omega
  · obtain ⟨t,o,hstep,htables⟩ := @single_granted [1] 1 1 (by decide) (by decide) (by decide)
      (@isSafe_of_scanLoop ℤ _ _ 3 _ _ (by decide))
    have havailable : t.available 0 = 3 := by
      rw [htables.available]
      decide
    have hentry : t.allocate 0 0 = 1 := by
      rw [htables.allocate]
      decide
    refine ⟨t,o,hstep,havailable,hentry,?_⟩
    intro h
    have htotal := h.total 0 (h.resourceNum ▸ Nat.one_pos)
    rw [h.progressNum] at htotal
    simp [single, oneResource, havailable, hentry] at htotal

end CppExamples.Banker.System
