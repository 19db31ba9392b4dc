import CppExamples.Banker.BankerScan

/-! # What the safety check finds

The scan goes up through the processes, and up a second time only when the last one
has been found to finish.  While nobody holds a negative amount it loses nothing on
its way: it finds every safe order that goes up in two runs, the first of which ends
with the last process, and it finds no other.
-/
namespace CppExamples.Banker.System
open SafeSequence
variable {α : Type*} [AddCommGroup α] [LinearOrder α]

/-- There is a safe order that goes up twice, the first time up to the last process. -/
def TwoRuns (s : System α) : Prop :=
  ∃ first second : List ℕ, first.Pairwise (· < ·) ∧ second.Pairwise (· < ·) ∧
    (first ++ second).Perm (List.range s.progressNum) ∧
    (s.progressNum ≠ 0 → s.progressNum - 1 ∈ first) ∧
    Covered (fun p (r : Fin s.resourceNum) => s.need p r) (fun p r => s.allocate p r)
      (fun r => s.available r) (first ++ second)

theorem TwoRuns.safe {s : System α} (h : s.TwoRuns) : s.Safe := by
  obtain ⟨first,second,-,-,hperm,-,hcov⟩ := h
  exact ⟨first ++ second,hperm,hcov⟩

/-- The shape of the record when the scan comes to process `i`. -/
structure Rising (n i : ℕ) (first second : List ℕ) : Prop where
  first_up : first.Pairwise (· < ·)
  second_up : second.Pairwise (· < ·)
  once : n - 1 ∉ first → second = [] ∧ ∀ p ∈ first, p < i
  twice : n - 1 ∈ first → ∀ p ∈ second, p < i

theorem Rising.succ {n i : ℕ} {first second : List ℕ} (h : Rising n i first second) :
    Rising n (i + 1) first second := by
  refine ⟨h.first_up,h.second_up,?_,?_⟩
  · intro hlast
    obtain ⟨hnil,hlt⟩ := h.once hlast
    exact ⟨hnil,fun p hp => (hlt p hp).trans (Nat.lt_succ_self i)⟩
  · intro hlast p hp
    exact (h.twice hlast p hp).trans (Nat.lt_succ_self i)

theorem pairwise_snoc {l : List ℕ} {i : ℕ} (h : l.Pairwise (· < ·)) (hi : ∀ p ∈ l, p < i) :
    (l ++ [i]).Pairwise (· < ·) := by
  refine List.pairwise_append.mpr ⟨h,List.pairwise_singleton _ i,?_⟩
  intro p hp q hq
  obtain rfl := List.mem_singleton.mp hq
  exact hi p hp

theorem Rising.finish {n i : ℕ} {first second : List ℕ} (h : Rising n i first second)
    (hnew : i ∉ first ++ second) :
    ∃ first' second', first ++ second ++ [i] = first' ++ second' ∧
      Rising n (if i = n - 1 then 0 else i + 1) first' second' := by
  by_cases hlast : n - 1 ∈ first
  · have hne : i ≠ n - 1 := by
      rintro rfl
      exact hnew (List.mem_append_left _ hlast)
    refine ⟨first,second ++ [i],List.append_assoc _ _ _,?_⟩
    rw [if_neg hne]
    refine ⟨h.first_up,pairwise_snoc h.second_up (h.twice hlast),absurd hlast,?_⟩
    intro _ p hp
    rcases List.mem_append.mp hp with hp | hp
    · exact (h.twice hlast p hp).trans (Nat.lt_succ_self i)
    · obtain rfl := List.mem_singleton.mp hp
      exact Nat.lt_succ_self p
  · obtain ⟨rfl,hlt⟩ := h.once hlast
    have hup := pairwise_snoc h.first_up hlt
    refine ⟨first ++ [i],[],by simp,?_⟩
    split
    next he => exact ⟨hup,List.Pairwise.nil,fun hno => absurd (by simp [he]) hno,by simp⟩
    next hne =>
      refine ⟨hup,List.Pairwise.nil,fun _ => ⟨rfl,?_⟩,by simp⟩
      intro p hp
      rcases List.mem_append.mp hp with hp | hp
      · exact (hlt p hp).trans (Nat.lt_succ_self i)
      · obtain rfl := List.mem_singleton.mp hp
        exact Nat.lt_succ_self p

/-- The order found by a scan goes up at most twice. -/
theorem Rising.scan (s : System α) (count i : ℕ) {first second : List ℕ}
    (hd : Scanned s (first ++ second)) (h : Rising s.progressNum i first second) :
    ∃ first' second' i', Scanned (s.scan count i) (first' ++ second') ∧
      Rising s.progressNum i' first' second' ∧ SameTables s (s.scan count i) := by
  induction s, count, i using System.scan.induct generalizing first second with
  | case1 s count i hi hf ih =>
    rw [dite_eq_ite] at ih
    have hnew : i ∉ first ++ second := by
      intro hmem
      rw [(hd.mem_iff i hi).mp hmem] at hf
      cases hf.1
    obtain ⟨first',second',he,hrising⟩ := h.finish hnew
    have hd' := hd.finishProcess count hi hf.1 hf.2
    rw [he] at hd'
    obtain ⟨f,g,i',hscanned,hend,htables⟩ := ih hd' hrising
    have hfinish : SameTables s (s.finishProcess count i) := ⟨rfl,rfl,rfl,rfl,rfl⟩
    rw [scan_found count hi hf]
    exact ⟨f,g,i',hscanned,hend,hfinish.trans htables⟩
  | case2 s count i hi hf ih =>
    obtain ⟨f,g,i',hscanned,hend,htables⟩ := ih hd h.succ
    rw [scan_passed count hi hf]
    exact ⟨f,g,i',hscanned,hend,htables⟩
  | case3 s count i hi =>
    rw [scan_end count hi]
    exact ⟨first,second,i,hd,h,SameTables.refl s⟩

theorem twoRuns_of_isSafe {s : System α} (h : s.isSafe.2 = true) : s.TwoRuns := by
  have hstart : Rising s.startCheck.progressNum 0 [] [] :=
    ⟨List.Pairwise.nil,List.Pairwise.nil,fun _ => ⟨rfl,by simp⟩,by simp⟩
  obtain ⟨first,second,i,hd,hrising,htables⟩ :=
    hstart.scan s.startCheck 0 0 (Scanned.startCheck s)
  have hcheck : SameTables s s.startCheck := ⟨rfl,rfl,rfl,rfl,rfl⟩
  have htables : SameTables s s.isSafe.1 := hcheck.trans htables
  have hall : ∀ p < s.isSafe.1.progressNum, s.isSafe.1.finish p = true := of_decide_eq_true h
  have hmem : ∀ p < s.progressNum, p ∈ first ++ second := by
    intro p hp
    rw [← htables.progressNum] at hp
    exact (hd.mem_iff p hp).mpr (hall p hp)
  have hperm : (first ++ second).Perm (List.range s.isSafe.1.progressNum) := hd.perm hall
  refine ⟨first,second,hrising.first_up,hrising.second_up,htables.progressNum ▸ hperm,?_,
    htables.covered hd.covered⟩
  intro hne
  by_contra hlast
  obtain ⟨rfl,-⟩ := hrising.once hlast
  exact hlast (by simpa using hmem (s.progressNum - 1) (by omega))

section Complete
variable [IsOrderedAddMonoid α]

def HoldsNonneg (s : System α) : Prop :=
  ∀ p < s.progressNum, ∀ j < s.resourceNum, 0 ≤ s.allocate p j

theorem Scanned.fits {s : System α} {done order before after : List ℕ} {i : ℕ}
    (h : Scanned s done) (hnonneg : s.HoldsNonneg)
    (hcov : Covered (fun p (r : Fin s.resourceNum) => s.need p r) (fun p r => s.allocate p r)
      (fun r => s.available r) order)
    (horder : order.Nodup) (he : order = before ++ i :: after)
    (hbefore : ∀ p ∈ before, p < s.progressNum ∧ s.finish p = true) : s.Fits i := by
  have hnodup : before.Nodup := (List.nodup_append.mp (he ▸ horder)).1
  have hsub : before ⊆ done := fun p hp => (h.mem_iff p (hbefore p hp).1).mpr (hbefore p hp).2
  have hneed := hcov.need_le he hnodup hsub fun p hp r => hnonneg p (h.lt p hp) r r.2
  intro j hj
  exact not_lt.mpr ((hneed ⟨j,hj⟩).trans_eq (congrFun h.work ⟨j,hj⟩).symm)

/-- The scan at process `i` has found what the two runs hold up to there. -/
structure Ahead (s : System α) (first second : List ℕ) (i : ℕ) : Prop where
  passed : ∀ p ∈ first, p < i → s.finish p = true
  again : s.finish (s.progressNum - 1) = true →
    (∀ p ∈ first, s.finish p = true) ∧ ∀ p ∈ second, p < i → s.finish p = true

omit [LinearOrder α] [IsOrderedAddMonoid α] in
theorem Ahead.finishProcess {s : System α} {first second : List ℕ} {i : ℕ}
    (h : Ahead s first second i) (count : ℕ) (hi : i < s.progressNum)
    (hlt : ∀ p ∈ first, p < s.progressNum) :
    Ahead (s.finishProcess count i) first second (if i = s.progressNum - 1 then 0 else i + 1) := by
  have hmono : ∀ p, s.finish p = true → (s.finishProcess count i).finish p = true := by
    intro p hp
    by_cases hpi : p = i
    · simp [System.finishProcess, hpi]
    · simpa [System.finishProcess, hpi] using hp
  have hself : (s.finishProcess count i).finish i = true := by simp [System.finishProcess]
  have hupto : ∀ p ∈ first, p < i + 1 → (s.finishProcess count i).finish p = true := by
    intro p hp hle
    rcases Nat.lt_succ_iff_lt_or_eq.mp hle with hlt' | rfl
    · exact hmono p (h.passed p hp hlt')
    · exact hself
  split
  next he =>
    refine ⟨by simp,fun _ => ⟨?_,by simp⟩⟩
    intro p hp
    have := hlt p hp
    exact hupto p hp (by omega)
  next hne =>
    refine ⟨hupto,?_⟩
    intro hlast
    have hlast' : s.finish (s.progressNum - 1) = true := by
      simpa [System.finishProcess, Ne.symm hne] using hlast
    obtain ⟨hfirst,hsecond⟩ := h.again hlast'
    refine ⟨fun p hp => hmono p (hfirst p hp),?_⟩
    intro p hp hle
    rcases Nat.lt_succ_iff_lt_or_eq.mp hle with hlt' | rfl
    · exact hmono p (hsecond p hp hlt')
    · exact hself

theorem Ahead.pass {s : System α} {done first second : List ℕ} {i : ℕ}
    (h : Ahead s first second i) (hd : Scanned s done) (hnonneg : s.HoldsNonneg)
    (hcov : Covered (fun p (r : Fin s.resourceNum) => s.need p r) (fun p r => s.allocate p r)
      (fun r => s.available r) (first ++ second))
    (hperm : (first ++ second).Perm (List.range s.progressNum))
    (hfirst : first.Pairwise (· < ·)) (hsecond : second.Pairwise (· < ·))
    (hf : ¬ (s.finish i = false ∧ s.Fits i)) : Ahead s first second (i + 1) := by
  have horder : (first ++ second).Nodup := hperm.nodup_iff.mpr List.nodup_range
  have hlt : ∀ p ∈ first ++ second, p < s.progressNum :=
    fun p hp => List.mem_range.mp (hperm.mem_iff.mp hp)
  have hfits : s.Fits i → s.finish i = true := by
    intro hfit
    by_contra hno
    exact hf ⟨by simpa using hno,hfit⟩
  constructor
  · intro p hp hle
    rcases Nat.lt_succ_iff_lt_or_eq.mp hle with hlt' | rfl
    · exact h.passed p hp hlt'
    · obtain ⟨before,after,rfl⟩ := List.append_of_mem hp
      have hbefore := (List.pairwise_append.mp hfirst).2.2
      refine hfits (hd.fits hnonneg hcov horder (List.append_assoc before (p :: after) second) ?_)
      intro q hq
      have hmem : q ∈ before ++ p :: after := List.mem_append_left _ hq
      exact ⟨hlt q (List.mem_append_left _ hmem),
        h.passed q hmem (hbefore q hq p List.mem_cons_self)⟩
  · intro hlast
    obtain ⟨hall,hupto⟩ := h.again hlast
    refine ⟨hall,?_⟩
    intro p hp hle
    rcases Nat.lt_succ_iff_lt_or_eq.mp hle with hlt' | rfl
    · exact hupto p hp hlt'
    · obtain ⟨before,after,rfl⟩ := List.append_of_mem hp
      have hbefore := (List.pairwise_append.mp hsecond).2.2
      refine hfits (hd.fits hnonneg hcov horder (List.append_assoc _ _ _).symm ?_)
      intro q hq
      rcases List.mem_append.mp hq with hq | hq
      · exact ⟨hlt q (List.mem_append_left _ hq),hall q hq⟩
      · have hmem : q ∈ before ++ p :: after := List.mem_append_left _ hq
        exact ⟨hlt q (List.mem_append_right _ hmem),
          hupto q hmem (hbefore q hq p List.mem_cons_self)⟩

/-- When the scan ends, both runs have been found. -/
theorem Ahead.scan (s : System α) (count i : ℕ) {done first second : List ℕ}
    (hd : Scanned s done) (hnonneg : s.HoldsNonneg)
    (hcov : Covered (fun p (r : Fin s.resourceNum) => s.need p r) (fun p r => s.allocate p r)
      (fun r => s.available r) (first ++ second))
    (hperm : (first ++ second).Perm (List.range s.progressNum))
    (hfirst : first.Pairwise (· < ·)) (hsecond : second.Pairwise (· < ·))
    (hlast : s.progressNum ≠ 0 → s.progressNum - 1 ∈ first) (h : Ahead s first second i) :
    ∀ p < s.progressNum, (s.scan count i).finish p = true := by
  have hlt : ∀ p ∈ first ++ second, p < s.progressNum :=
    fun p hp => List.mem_range.mp (hperm.mem_iff.mp hp)
  induction s, count, i using System.scan.induct generalizing done with
  | case1 s count i hi hf ih =>
    rw [dite_eq_ite] at ih
    have hnext := h.finishProcess count hi fun p hp => hlt p (List.mem_append_left _ hp)
    rw [scan_found count hi hf]
    exact ih (hd.finishProcess count hi hf.1 hf.2) hnonneg hcov hperm hlast hnext hlt
  | case2 s count i hi hf ih =>
    rw [scan_passed count hi hf]
    exact ih hd hnonneg hcov hperm hlast (h.pass hd hnonneg hcov hperm hfirst hsecond hf) hlt
  | case3 s count i hi =>
    rw [scan_end count hi]
    intro p hp
    have hmem := hlast (by omega)
    have hend := h.passed _ hmem (by omega)
    obtain ⟨hall,hupto⟩ := h.again hend
    rcases List.mem_append.mp (hperm.mem_iff.mpr (List.mem_range.mpr hp)) with hin | hin
    · exact hall p hin
    · exact hupto p hin (by omega)

theorem isSafe_of_twoRuns {s : System α} (hnonneg : s.HoldsNonneg) (h : s.TwoRuns) :
    s.isSafe.2 = true := by
  obtain ⟨first,second,hfirst,hsecond,hperm,hlast,hcov⟩ := h
  have hcheck : SameTables s s.startCheck := ⟨rfl,rfl,rfl,rfl,rfl⟩
  have hstart : Ahead s.startCheck first second 0 := by
    refine ⟨by simp,?_⟩
    intro hend
    have hnone : s.progressNum = 0 := by
      by_contra hne
      have hlt : s.progressNum - 1 < s.progressNum := by omega
      simp [System.startCheck, hlt] at hend
    rw [hnone] at hperm
    obtain ⟨rfl,rfl⟩ := List.append_eq_nil_iff.mp (List.perm_nil.mp hperm)
    simp
  have hall := hstart.scan s.startCheck 0 0 (Scanned.startCheck s) hnonneg hcov hperm hfirst
    hsecond hlast
  apply decide_eq_true
  intro p hp
  exact hall p (s.checked_sameTables.progressNum ▸ hp)

/-- While nobody holds a negative amount, the check grants every state that has a
safe order just where such a state has one in two runs. -/
theorem isSafe_complete_iff {s : System α} (hnonneg : s.HoldsNonneg) :
    (s.Safe → s.isSafe.2 = true) ↔ (¬ s.Safe ∨ s.TwoRuns) := by
  constructor
  · intro h
    by_cases hsafe : s.Safe
    · exact .inr (twoRuns_of_isSafe (h hsafe))
    · exact .inl hsafe
  · rintro (hbad | hruns) hsafe
    · exact absurd hsafe hbad
    · exact isSafe_of_twoRuns hnonneg hruns

end Complete

/-- Three processes and one resource.  The process of rank `k` holds one unit and can
finish when those of lower ranks have. -/
def ranked (rank : ℕ → ℕ) : System ℤ :=
  oneResource 3 1 (fun p => rank p + 2) (fun p => rank p + 1) fun _ => 1

def exchanged (p : ℕ) : ℕ := if p = 0 then 1 else if p = 1 then 0 else p

theorem ranked_holdsNonneg (rank : ℕ → ℕ) : (ranked rank).HoldsNonneg :=
  fun _ _ _ _ => zero_le_one' ℤ

theorem ranked_held (rank : ℕ → ℕ) (order : List ℕ) (r : Fin (ranked rank).resourceNum) :
    (order.map fun p (r : Fin (ranked rank).resourceNum) => (ranked rank).allocate p r).sum r =
      order.length := by
  induction order with
  | nil => rfl
  | cons p order ih =>
    rw [List.map_cons, List.sum_cons, Pi.add_apply, ih, List.length_cons, Nat.cast_succ]
    exact add_comm _ _

theorem ranked_covered {rank : ℕ → ℕ} {order : List ℕ} {p : ℕ}
    (h : Covered (fun p (r : Fin (ranked rank).resourceNum) => (ranked rank).need p r)
      (fun p r => (ranked rank).allocate p r) (fun r => (ranked rank).available r) order)
    (hp : rank p ≤ order.length) :
    Covered (fun p (r : Fin (ranked rank).resourceNum) => (ranked rank).need p r)
      (fun p r => (ranked rank).allocate p r) (fun r => (ranked rank).available r)
      (order ++ [p]) := by
  apply h.snoc
  intro r
  change (rank p : ℤ) + 1 ≤
    1 + (order.map fun p (r : Fin (ranked rank).resourceNum) => (ranked rank).allocate p r).sum r
  rw [ranked_held]
  omega

theorem ranked_safe_exchanged : (ranked exchanged).Safe := by
  have hone := @ranked_covered exchanged [] 1 Covered.nil (by decide)
  have htwo := ranked_covered (p := 0) hone (by decide)
  exact ⟨[1, 0, 2],by decide,ranked_covered (p := 2) htwo (by decide)⟩

theorem isSafe_complete_ranked :
    ((ranked exchanged).Safe → (ranked exchanged).isSafe.2 = true) ↔
      (¬ (ranked exchanged).Safe ∨ (ranked exchanged).TwoRuns) :=
  isSafe_complete_iff (ranked_holdsNonneg exchanged)

/-- The verdict on a state with a safe order is negative, and positive when two of
its processes exchange their numbers. -/
theorem isSafe_numbering :
    (∀ p < 3, ∀ j < 1, 0 ≤ (ranked exchanged).available j ∧ 0 ≤ (ranked exchanged).need p j ∧
      0 ≤ (ranked exchanged).allocate p j) ∧
    (ranked exchanged).Safe ∧ (ranked exchanged).isSafe.2 = false ∧
    (ranked fun p => p).isSafe.2 = true := by
  refine ⟨by decide,ranked_safe_exchanged,?_,?_⟩
  · apply @isSafe_of_scanLoop ℤ _ _ 4
    decide
  · apply isSafe_of_twoRuns (ranked_holdsNonneg fun p => p)
    have hone := @ranked_covered (fun p => p) [] 0 Covered.nil (by decide)
    have htwo := ranked_covered (p := 1) hone (by decide)
    exact ⟨[0, 1, 2],[],by decide,List.Pairwise.nil,by decide,by decide,
      ranked_covered (p := 2) htwo (by decide)⟩

end CppExamples.Banker.System
