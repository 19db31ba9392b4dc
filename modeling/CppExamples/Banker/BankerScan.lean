import CppExamples.Banker.BankerSafety

/-! # The safety check turn by turn

The scan rewinds its index from inside the loop.  It ends all the same: a rewind
costs an unfinished process, and between two of them there are no more turns than
processes.  What it writes into `safe` is the order in which it finds the processes
to finish.
-/
namespace CppExamples.Banker.System
open SafeSequence
variable {α : Type*} [AddCommGroup α] [LinearOrder α]

/-- The loop of the scan with a bound on its turns; its result comes with `count`. -/
def scanLoop : ℕ → System α → ℕ → ℕ → Option (System α × ℕ)
  | 0, _, _, _ => none
  | turns + 1, s, count, i =>
    if i < s.progressNum then
      if s.finish i = false ∧ s.Fits i then
        scanLoop turns (s.finishProcess count i) (count + 1)
          (if i = s.progressNum - 1 then 0 else i + 1)
      else scanLoop turns s count (i + 1)
    else some (s, count)

def safeSequence (s : System α) : List ℕ := (List.range s.progressNum).map s.safe

theorem scanLoop_ends (s : System α) (count i : ℕ) :
    ∃ turns ≤ s.unfinished * s.progressNum + (s.progressNum - i) + 1, ∃ final,
      scanLoop turns s count i = some (s.scan count i, final) := by
  induction s, count, i using System.scan.induct with
  | case1 s count i hi hf ih =>
    obtain ⟨turns,hle,final,hend⟩ := ih
    rw [dite_eq_ite] at hle hend
    have hless := unfinished_finishProcess count hi hf.1
    have hfewer : ((s.finishProcess count i).unfinished + 1) * s.progressNum ≤
        s.unfinished * s.progressNum := Nat.mul_le_mul_right _ hless
    have hnum : (s.finishProcess count i).progressNum = s.progressNum := rfl
    refine ⟨turns + 1,?_,final,?_⟩
    · rw [hnum] at hle
      rw [Nat.add_mul, Nat.one_mul] at hfewer
      omega
    · rw [scan_found count hi hf, scanLoop, if_pos hi, if_pos hf]
      exact hend
  | case2 s count i hi hf ih =>
    obtain ⟨turns,hle,final,hend⟩ := ih
    refine ⟨turns + 1,by omega,final,?_⟩
    rw [scan_passed count hi hf, scanLoop, if_pos hi, if_neg hf]
    exact hend
  | case3 s count i hi =>
    refine ⟨1,by omega,count,?_⟩
    rw [scan_end count hi, scanLoop, if_neg hi]

theorem scan_of_scanLoop {turns : ℕ} {s t : System α} {count i final : ℕ}
    (h : scanLoop turns s count i = some (t, final)) : s.scan count i = t := by
  induction turns generalizing s count i with
  | zero => cases h
  | succ turns ih =>
    rw [scanLoop] at h
    split at h
    next hi =>
      split at h
      next hf =>
        rw [scan_found count hi hf]
        exact ih h
      next hf =>
        rw [scan_passed count hi hf]
        exact ih h
    next hi =>
      rw [scan_end count hi]
      exact congrArg Prod.fst (Option.some.inj h)

/-- The verdict is that of the bounded loop, once it has ended. -/
theorem isSafe_of_scanLoop {turns : ℕ} {s : System α} {verdict : Bool}
    (h : (scanLoop turns s.startCheck 0 0).map
      (fun r => decide (∀ p < r.1.progressNum, r.1.finish p = true)) = some verdict) :
    s.isSafe.2 = verdict := by
  obtain ⟨⟨t,final⟩,hend,hverdict⟩ := Option.map_eq_some_iff.mp h
  rw [System.isSafe, scan_of_scanLoop hend]
  exact hverdict

/-- What is found to finish stands at the front of `safe`, the rest of which is as
before the check. -/
structure Recorded (before : ℕ → ℕ) (s : System α) (count : ℕ) (done : List ℕ) : Prop where
  scanned : Scanned s done
  count_eq : count = done.length
  safe_eq : ∀ k, s.safe k = done.getD k (before k)

theorem Recorded.startCheck (s : System α) : Recorded s.safe s.startCheck 0 [] :=
  ⟨Scanned.startCheck s,rfl,fun _ => rfl⟩

theorem Recorded.finishProcess {before : ℕ → ℕ} {s : System α} {count i : ℕ} {done : List ℕ}
    (h : Recorded before s count done) (hi : i < s.progressNum) (hf : s.finish i = false)
    (hfit : s.Fits i) : Recorded before (s.finishProcess count i) (count + 1) (done ++ [i]) := by
  obtain ⟨hscanned,rfl,hsafe⟩ := h
  refine ⟨hscanned.finishProcess _ hi hf hfit,by simp,?_⟩
  intro k
  rcases lt_trichotomy k done.length with hlt | rfl | hgt
  · simp only [System.finishProcess, Function.update_of_ne hlt.ne, List.getD_append _ _ _ _ hlt]
    exact hsafe k
  · simp [System.finishProcess]
  · have hk : done.getD k (before k) = before k := List.getD_eq_default _ _ hgt.le
    have hk' : (done ++ [i]).getD k (before k) = before k :=
      List.getD_eq_default _ _ (by simpa using hgt)
    simpa only [System.finishProcess, Function.update_of_ne hgt.ne', hk', hk] using hsafe k

theorem Recorded.scanLoop {before : ℕ → ℕ} {turns : ℕ} {s t : System α} {count i final : ℕ}
    {done : List ℕ} (h : Recorded before s count done)
    (hend : scanLoop turns s count i = some (t, final)) :
    ∃ done', Recorded before t final done' := by
  induction turns generalizing s count i done with
  | zero => cases hend
  | succ turns ih =>
    rw [System.scanLoop] at hend
    split at hend
    next hi =>
      split at hend
      next hf => exact ih (h.finishProcess hi hf.1 hf.2) hend
      next => exact ih h hend
    next =>
      obtain ⟨rfl,rfl⟩ := Prod.mk.inj (Option.some.inj hend)
      exact ⟨done,h⟩

theorem Recorded.count_le {before : ℕ → ℕ} {s : System α} {count : ℕ} {done : List ℕ}
    (h : Recorded before s count done) : count ≤ s.progressNum := by
  have hsub : done ⊆ List.range s.progressNum := fun p hp => List.mem_range.mpr (h.scanned.lt p hp)
  have hle := (List.subperm_of_subset h.scanned.nodup hsub).length_le
  rwa [List.length_range, ← h.count_eq] at hle

theorem Recorded.map_safe {before : ℕ → ℕ} {s : System α} {count : ℕ} {done : List ℕ}
    (h : Recorded before s count done) : (List.range count).map s.safe = done := by
  rw [h.count_eq]
  apply List.ext_getElem
  · simp
  · intro k hk hk'
    rw [List.getElem_map, List.getElem_range, h.safe_eq, List.getD_eq_getElem _ _ hk']

theorem Scanned.perm {s : System α} {done : List ℕ} (h : Scanned s done)
    (hall : ∀ p < s.progressNum, s.finish p = true) : done.Perm (List.range s.progressNum) := by
  apply (List.perm_ext_iff_of_nodup h.nodup List.nodup_range).mpr
  exact h.mem_done_iff hall

theorem SameTables.covered {s t : System α} {order : List ℕ} (h : SameTables s t)
    (ht : Covered (fun p (r : Fin t.resourceNum) => t.need p r) (fun p r => t.allocate p r)
      (fun r => t.available r) order) :
    Covered (fun p (r : Fin s.resourceNum) => s.need p r) (fun p r => s.allocate p r)
      (fun r => s.available r) order := by
  obtain ⟨-,hr,ha,hn,hal⟩ := h
  cases s
  cases t
  simp only at hr ha hn hal
  subst hr ha hn hal
  exact ht

theorem isSafe_recorded (s : System α) : ∃ turns ≤ s.progressNum * s.progressNum + s.progressNum + 1,
    ∃ count done, scanLoop turns s.startCheck 0 0 = some (s.isSafe.1, count) ∧
      Recorded s.safe s.isSafe.1 count done := by
  obtain ⟨turns,hle,count,hend⟩ := scanLoop_ends s.startCheck 0 0
  obtain ⟨done,hdone⟩ := (Recorded.startCheck s).scanLoop hend
  have hnum : s.startCheck.progressNum = s.progressNum := rfl
  have hunfinished : s.startCheck.unfinished ≤ s.progressNum :=
    (List.length_filter_le _ _).trans_eq (List.length_range)
  have hmul := Nat.mul_le_mul_right s.progressNum hunfinished
  refine ⟨turns,?_,count,done,hend,hdone⟩
  rw [hnum] at hle
  omega

/-- The check ends after a bounded number of turns.  It has then put each process
into `safe` at most once, at the front and at no index beyond the last process, the
tables are as before, and after a positive verdict `safe` is a safe sequence. -/
theorem isSafe_spec (s : System α) :
    (∃ turns ≤ s.progressNum * s.progressNum + s.progressNum + 1, ∃ count ≤ s.progressNum,
      scanLoop turns s.startCheck 0 0 = some (s.isSafe.1, count) ∧
      ((List.range count).map s.isSafe.1.safe).Nodup ∧
      (∀ k < count, s.isSafe.1.safe k < s.progressNum) ∧
      ∀ k, count ≤ k → s.isSafe.1.safe k = s.safe k) ∧
    SameTables s s.isSafe.1 ∧
    (s.isSafe.2 = true →
      s.isSafe.1.safeSequence.Perm (List.range s.progressNum) ∧
      Covered (fun p (r : Fin s.resourceNum) => s.need p r) (fun p r => s.allocate p r)
        (fun r => s.available r) s.isSafe.1.safeSequence) := by
  obtain ⟨turns,hturns,count,done,hend,hdone⟩ := isSafe_recorded s
  have htables : SameTables s s.isSafe.1 := by
    obtain ⟨hp,hr,ha,hn,hal⟩ := s.checked_sameTables
    exact ⟨hp,hr,ha,hn,hal⟩
  have hmap := hdone.map_safe
  refine ⟨⟨turns,hturns,count,?_,hend,?_,?_,?_⟩,htables,?_⟩
  · exact htables.progressNum ▸ hdone.count_le
  · rw [hmap]
    exact hdone.scanned.nodup
  · intro k hk
    have hmem : s.isSafe.1.safe k ∈ done := by
      rw [← hmap]
      exact List.mem_map_of_mem (List.mem_range.mpr hk)
    exact htables.progressNum ▸ hdone.scanned.lt _ hmem
  · intro k hk
    rw [hdone.safe_eq, List.getD_eq_default _ _ (hdone.count_eq ▸ hk)]
  · intro hverdict
    have hperm := hdone.scanned.perm (of_decide_eq_true hverdict)
    have hlen : count = s.isSafe.1.progressNum := by
      rw [hdone.count_eq, hperm.length_eq, List.length_range]
    have hseq : s.isSafe.1.safeSequence = done := by rw [safeSequence, ← hlen, hmap]
    rw [hseq]
    exact ⟨htables.progressNum ▸ hperm,htables.covered hdone.scanned.covered⟩

end CppExamples.Banker.System
