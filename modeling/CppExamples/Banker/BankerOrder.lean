import CppExamples.Banker.BankerCompleteness
import CppExamples.Banker.BankerAccounts

/-! # Grants in any order

What a run of granted requests has moved depends on the amounts only, and so does what the
check says of it.  Amounts that are granted together are therefore granted in any order and
in any parts, and so is less than all of them: what is not asked for stays where a safe
order finds it earlier.
-/
namespace CppExamples.Banker.System
open Machine SafeSequence
variable {α : Type*} [AddCommGroup α] [LinearOrder α]

def Command.amount (n p : ℕ) : Command α → ℕ → α
  | .request typed amounts => if readId n typed = some (p : ℤ) then amounts else 0
  | .print => 0
  | .check => 0

def asked (n : ℕ) (commands : List (Command α)) (p : ℕ) : ℕ → α :=
  (commands.map (Command.amount n p)).sum

def Command.Nonneg (n : ℕ) : Command α → Prop
  | .request _ amounts => ∀ j < n, 0 ≤ amounts j
  | .print => True
  | .check => True

def Output.isRefused : Output α → Bool
  | .unsafeState => true
  | .failed _ => true
  | _ => false

/-- The tables with the amounts moved to the rows of the processes. -/
def afterAll (s : System α) (x : ℕ → ℕ → α) : System α :=
  { s with
    available := fun j =>
      if j < s.resourceNum then s.available j - ∑ p ∈ Finset.range s.progressNum, x p j
      else s.available j
    allocate := fun p j =>
      if p < s.progressNum ∧ j < s.resourceNum then s.allocate p j + x p j else s.allocate p j
    need := fun p j =>
      if p < s.progressNum ∧ j < s.resourceNum then s.need p j - x p j else s.need p j }

/-- Nothing is owed. -/
structure Solvent (s : System α) : Prop where
  available : ∀ j < s.resourceNum, 0 ≤ s.available j
  allocate : s.HoldsNonneg
  need : ∀ p < s.progressNum, ∀ j < s.resourceNum, 0 ≤ s.need p j

section Amounts
variable {s t u : System α} {c : Command α} {x y : ℕ → ℕ → α} {row : ℕ} {request : ℕ → α}

omit [LinearOrder α] in
theorem asked_cons (n : ℕ) (c : Command α) (commands : List (Command α)) (p : ℕ) :
    asked n (c :: commands) p = c.amount n p + asked n commands p := by
  rw [asked, List.map_cons, List.sum_cons, asked]

omit [LinearOrder α] in
theorem afterAll_zero (s : System α) : SameTables s (s.afterAll 0) := by
  refine ⟨rfl,rfl,?_,?_,?_⟩ <;> simp [afterAll]

omit [LinearOrder α] in
theorem SameTables.afterGrant (h : SameTables s t) (row : ℕ) (request : ℕ → α) :
    SameTables (s.afterGrant row request) (t.afterGrant row request) := by
  refine ⟨h.progressNum,h.resourceNum,?_,?_,?_⟩ <;>
    simp [System.afterGrant, h.resourceNum, h.available, h.need, h.allocate]

theorem SameTables.refused_iff (h : SameTables s t) :
    t.Refused row request ↔ s.Refused row request := by
  simp only [Refused, h.resourceNum, h.need, h.available, (h.afterGrant row request).isSafe]

def plus (x : ℕ → ℕ → α) (row : ℕ) (request : ℕ → α) (p : ℕ) : ℕ → α :=
  x p + if p = row then request else 0

omit [LinearOrder α] in
theorem afterGrant_afterAll (s : System α) (x : ℕ → ℕ → α) (request : ℕ → α)
    (hrow : row < s.progressNum) :
    SameTables (s.afterAll (plus x row request)) ((s.afterAll x).afterGrant row request) := by
  have hsum : ∀ j, ∑ p ∈ Finset.range s.progressNum, plus x row request p j =
      ∑ p ∈ Finset.range s.progressNum, x p j + request j := by
    intro j
    have hone : ∀ p, plus x row request p j = x p j + if p = row then request j else 0 := by
      intro p
      by_cases hp : p = row <;> simp [plus, hp]
    simp only [hone, Finset.sum_add_distrib, Finset.sum_ite_eq', Finset.mem_range, if_pos hrow]
  refine ⟨rfl,rfl,?_,?_,?_⟩
  · funext j
    by_cases hj : j < s.resourceNum
    · simp only [System.afterGrant, afterAll, if_pos hj, hsum, sub_sub]
    · simp only [System.afterGrant, afterAll, if_neg hj]
  · funext p j
    by_cases hp : p = row <;> by_cases hj : j < s.resourceNum <;>
      by_cases hlt : p < s.progressNum <;>
      simp [System.afterGrant, afterAll, plus, hp, hj, hlt, hrow, sub_sub]
  · funext p j
    by_cases hp : p = row <;> by_cases hj : j < s.resourceNum <;>
      by_cases hlt : p < s.progressNum <;>
      simp [System.afterGrant, afterAll, plus, hp, hj, hlt, hrow, add_assoc]

/-- The amounts are there, they are needed, and the tables with them moved pass the check. -/
structure Backed (s : System α) (x : ℕ → ℕ → α) : Prop where
  available : ∀ j < s.resourceNum, ∑ p ∈ Finset.range s.progressNum, x p j ≤ s.available j
  need : ∀ p < s.progressNum, ∀ j < s.resourceNum, x p j ≤ s.need p j
  checked : (s.afterAll x).isSafe.2 = true

omit [LinearOrder α] in
theorem afterAll_entry {p j : ℕ} (hp : p < s.progressNum) (hj : j < s.resourceNum) :
    (s.afterAll x).need p j = s.need p j - x p j ∧ (s.afterAll x).allocate p j = s.allocate p j + x p j :=
  ⟨if_pos ⟨hp,hj⟩,if_pos ⟨hp,hj⟩⟩

omit [LinearOrder α] in
theorem afterAll_available {j : ℕ} (hj : j < s.resourceNum) :
    (s.afterAll x).available j = s.available j - ∑ p ∈ Finset.range s.progressNum, x p j := if_pos hj

omit [LinearOrder α] in
theorem sum_order {order : List ℕ} {n m : ℕ} (hperm : order.Perm (List.range n)) (g : ℕ → ℕ → α)
    (r : Fin m) : (order.map fun p (r : Fin m) => g p r).sum r = ∑ p ∈ Finset.range n, g p r := by
  rw [(hperm.map _).sum_eq]
  exact Finset.sum_apply r (Finset.range n) fun p (r : Fin m) => g p r

theorem Backed.mono [IsOrderedAddMonoid α] (hy : s.Backed y) (hs : s.HoldsNonneg)
    (hx : ∀ p < s.progressNum, ∀ j < s.resourceNum, 0 ≤ x p j)
    (hle : ∀ p < s.progressNum, ∀ j < s.resourceNum, x p j ≤ y p j) : s.Backed x := by
  refine ⟨fun j hj => ?_,fun p hp j hj => (hle p hp j hj).trans (hy.need p hp j hj),?_⟩
  · exact (Finset.sum_le_sum fun p hp => hle p (Finset.mem_range.mp hp) j hj).trans (hy.available j hj)
  · obtain ⟨first,second,hfirst,hsecond,hperm,hlast,hcovered⟩ := twoRuns_of_isSafe hy.checked
    have hlt : ∀ p ∈ first ++ second, p < s.progressNum :=
      fun p hp => List.mem_range.mp (hperm.mem_iff.mp hp)
    have hnonneg : (s.afterAll x).HoldsNonneg := by
      intro p hp j hj
      exact (add_nonneg (hs p hp j hj) (hx p hp j hj)).trans_eq (if_pos ⟨hp,hj⟩).symm
    have hgiven : ∀ p ∈ first ++ second, 0 ≤ fun r : Fin s.resourceNum => y p r - x p r :=
      fun p hp r => sub_nonneg.mpr (hle p (hlt p hp) r r.2)
    have hcovers : Covered (fun p (r : Fin s.resourceNum) => (s.afterAll x).need p r)
        (fun p r => (s.afterAll x).allocate p r) (fun r => (s.afterAll x).available r)
        (first ++ second) := by
      have hcovers : Covered (fun p (r : Fin s.resourceNum) => (s.afterAll y).need p r)
          (fun p r => (s.afterAll y).allocate p r) (fun r => (s.afterAll y).available r)
          (first ++ second) := hcovered
      refine hcovers.giveBack hgiven (fun p hp => ?_) (fun p hp => ?_) ?_ <;> funext r
      · change (s.afterAll x).need p r = (s.afterAll y).need p r + (y p r - x p r)
        rw [(afterAll_entry (hlt p hp) r.2).1, (afterAll_entry (hlt p hp) r.2).1]
        abel
      · change (s.afterAll y).allocate p r = (s.afterAll x).allocate p r + (y p r - x p r)
        rw [(afterAll_entry (hlt p hp) r.2).2, (afterAll_entry (hlt p hp) r.2).2]
        abel
      · have hsum := sum_order hperm (fun p j => y p j - x p j) r
        have hnum : (s.afterAll y).progressNum = s.progressNum := rfl
        rw [Pi.add_apply, hsum, afterAll_available r.2, afterAll_available r.2, hnum,
          Finset.sum_sub_distrib]
        abel
    exact isSafe_of_twoRuns hnonneg ⟨first,second,hfirst,hsecond,hperm,hlast,hcovers⟩

theorem Backed.refused_iff [IsOrderedAddMonoid α] (hx : s.Backed x)
    (h : SameTables (s.afterAll x) u) (hrow : row < s.progressNum) :
    ¬ u.Refused row request ↔ s.Backed (plus x row request) := by
  have hmoved := afterGrant_afterAll s x request hrow
  have hentry : ∀ {p j : ℕ}, j < s.resourceNum →
      plus x row request p j = x p j + if p = row then request j else 0 := by
    intro p j hj
    by_cases hp : p = row <;> simp [plus, hp]
  have hneed : ∀ j < s.resourceNum, (s.afterAll (plus x row request)).need row j =
      (s.afterAll x).need row j - request j := by
    intro j hj
    rw [(afterAll_entry hrow hj).1, (afterAll_entry hrow hj).1, hentry hj, if_pos rfl, sub_sub]
  have havailable : ∀ j < s.resourceNum, (s.afterAll (plus x row request)).available j =
      (s.afterAll x).available j - request j := by
    intro j hj
    rw [← hmoved.available]
    exact if_pos hj
  have hleft : ∀ j < s.resourceNum, request j ≤ (s.afterAll x).need row j ↔
      plus x row request row j ≤ s.need row j := by
    intro j hj
    rw [← sub_nonneg, ← hneed j hj, (afterAll_entry hrow hj).1, sub_nonneg]
  have hfree : ∀ j < s.resourceNum, request j ≤ (s.afterAll x).available j ↔
      ∑ p ∈ Finset.range s.progressNum, plus x row request p j ≤ s.available j := by
    intro j hj
    rw [← sub_nonneg, ← havailable j hj, afterAll_available hj, sub_nonneg]
  rw [h.refused_iff, Refused, not_or, hmoved.isSafe, Bool.not_eq_false]
  push Not
  constructor
  · rintro ⟨hpass,hchecked⟩
    refine ⟨fun j hj => (hfree j hj).mp (hpass j hj).2,fun p hp j hj => ?_,hchecked⟩
    by_cases hp' : p = row
    · subst hp'
      exact (hleft j hj).mp (hpass j hj).1
    · rw [hentry hj, if_neg hp', add_zero]
      exact hx.need p hp j hj
  · rintro ⟨havailable,hneed,hchecked⟩
    exact ⟨fun j hj => ⟨(hleft j hj).mpr (hneed row hrow j hj),(hfree j hj).mpr (havailable j hj)⟩,
      hchecked⟩

theorem isRefused_request {typed : List ℤ} {o : Output α}
    (hstep : u.bankerStep (.request typed request) = some (t, o)) : o.isRefused = !o.isGranted := by
  obtain ⟨r,-,he⟩ := Option.map_eq_some_iff.mp hstep
  dsimp only at he
  split_ifs at he <;> obtain ⟨-,rfl⟩ := Prod.mk.inj he <;> rfl

/-- A command whose amounts are backed beside those moved so far is not refused, and no
other is. -/
theorem Backed.step [IsOrderedAddMonoid α] (hx : s.Backed x) (h : SameTables (s.afterAll x) u)
    (hc : s.CommandAllowed c) :
    ∃ u' o, u.bankerStep c = some (u', o) ∧
      (o.isRefused = false ↔ s.Backed fun p => x p + c.amount s.progressNum p) ∧
      (o.isRefused = false → SameTables (s.afterAll fun p => x p + c.amount s.progressNum p) u') := by
  have hnone : (fun p => x p + 0) = x := by
    funext p
    exact add_zero (x p)
  cases c with
  | print =>
    refine ⟨u,_,rfl,?_⟩
    simp only [Command.amount, hnone]
    exact ⟨iff_of_true rfl hx,fun _ => h⟩
  | check =>
    refine ⟨u.checked,_,rfl,?_⟩
    simp only [Command.amount, hnone]
    exact ⟨iff_of_true rfl hx,fun _ => h.trans u.checked_sameTables⟩
  | request typed request =>
    obtain ⟨id,hid,hlt⟩ := hc
    have hbound := readId_nonneg hid
    have hrow : id.toNat < s.progressNum := by omega
    have hM := hrow.trans_le s.progress_le
    have hamount : (fun p => x p + (Command.request typed request).amount s.progressNum p) =
        plus x id.toNat request := by
      funext p
      have hiff : readId s.progressNum typed = some (p : ℤ) ↔ p = id.toNat := by
        rw [hid, Option.some.injEq]
        omega
      simp only [Command.amount, plus, if_congr hiff rfl rfl]
    have hid' : readId u.progressNum typed = some id := by
      rw [h.progressNum]
      exact hid
    obtain ⟨u',o,hstep,-,hrefused,-,hgrant⟩ := request_spec request hid' hM
    have hnot : o.isRefused = false ↔ o.isGranted = true := by
      rw [isRefused_request hstep, Bool.not_eq_false']
    rw [hamount]
    refine ⟨u',o,hstep,?_,fun ho => ?_⟩
    · rw [hnot, ← hx.refused_iff h hrow, ← hrefused, Bool.not_eq_false]
    · have htables := (h.afterGrant id.toNat request).trans (hgrant (hnot.mp ho))
      exact (afterGrant_afterAll s x request hrow).trans htables

variable {commands : List (Command α)} {os : List (Output α)}

theorem Backed.run_refused [IsOrderedAddMonoid α] (hx : s.Backed x) (h : SameTables (s.afterAll x) u)
    (hc : ∀ c ∈ commands, s.CommandAllowed c) (hrun : run bankerStep u commands = some (t, os))
    (hos : ∀ o ∈ os, o.isRefused = false) :
    s.Backed fun p => x p + asked s.progressNum commands p := by
  induction commands generalizing u x os with
  | nil => simpa [asked] using hx
  | cons c commands ih =>
    obtain ⟨u',o,os',hstep,hrest,rfl⟩ := run_cons_eq_some hrun
    obtain ⟨u'',o',hstep',hbacked,htables⟩ := hx.step h (hc c List.mem_cons_self)
    obtain ⟨rfl,rfl⟩ := Prod.mk.inj (Option.some.inj (hstep.symm.trans hstep'))
    have ho := hos o List.mem_cons_self
    have hend := ih (hbacked.mp ho) (htables ho) (fun c hm => hc c (List.mem_cons_of_mem _ hm)) hrest
      fun o hm => hos o (List.mem_cons_of_mem _ hm)
    simpa only [asked_cons, ← add_assoc] using hend

theorem asked_nonneg [IsOrderedAddMonoid α] (hc : ∀ c ∈ commands, c.Nonneg s.resourceNum) (p : ℕ)
    {j : ℕ} (hj : j < s.resourceNum) : 0 ≤ asked s.progressNum commands p j := by
  induction commands with
  | nil => exact le_rfl
  | cons c commands ih =>
    have hfirst : 0 ≤ c.amount s.progressNum p j := by
      cases c with
      | print => exact le_rfl
      | check => exact le_rfl
      | request typed request =>
        rw [Command.amount]
        split
        · exact hc _ List.mem_cons_self j hj
        · exact le_rfl
    rw [asked_cons, Pi.add_apply]
    exact add_nonneg hfirst (ih fun c hm => hc c (List.mem_cons_of_mem _ hm))

theorem Backed.run [IsOrderedAddMonoid α] (hs : s.HoldsNonneg) (hx : s.Backed x)
    (hpos : ∀ p < s.progressNum, ∀ j < s.resourceNum, 0 ≤ x p j)
    (h : SameTables (s.afterAll x) u) (hc : ∀ c ∈ commands, s.CommandAllowed c)
    (hnonneg : ∀ c ∈ commands, c.Nonneg s.resourceNum)
    (hend : s.Backed fun p => x p + asked s.progressNum commands p) :
    ∃ t os, Machine.run bankerStep u commands = some (t, os) ∧ (∀ o ∈ os, o.isRefused = false) ∧
      SameTables (s.afterAll fun p => x p + asked s.progressNum commands p) t := by
  induction commands generalizing u x with
  | nil => exact ⟨u,[],rfl,by simp,by simpa [asked] using h⟩
  | cons c commands ih =>
    have hfirst : ∀ c' ∈ [c], c'.Nonneg s.resourceNum := by simpa using hnonneg c List.mem_cons_self
    have hlater : ∀ c ∈ commands, c.Nonneg s.resourceNum :=
      fun c hm => hnonneg c (List.mem_cons_of_mem _ hm)
    simp only [asked_cons, ← add_assoc] at hend ⊢
    have hmoved : ∀ p < s.progressNum, ∀ j < s.resourceNum, 0 ≤ (x p + c.amount s.progressNum p) j := by
      intro p hp j hj
      have hamount := asked_nonneg hfirst p hj
      rw [asked_cons, asked, List.map_nil, List.sum_nil, add_zero] at hamount
      exact add_nonneg (hpos p hp j hj) hamount
    have hbacked : s.Backed fun p => x p + c.amount s.progressNum p :=
      hend.mono hs hmoved fun p _ j hj => le_add_of_nonneg_right (asked_nonneg hlater p hj)
    obtain ⟨u',o,hstep,hiff,htables⟩ := hx.step h (hc c List.mem_cons_self)
    have ho := hiff.mpr hbacked
    obtain ⟨t,os,hrun,hos,ht⟩ := ih hbacked hmoved (htables ho)
      (fun c hm => hc c (List.mem_cons_of_mem _ hm)) hlater hend
    refine ⟨t,o :: os,by rw [run_cons _ hstep, hrun]; rfl,?_,ht⟩
    simpa using ⟨ho,hos⟩

/-- What is granted in one run is granted in any order and in any parts: let no command of the
first run be refused, and let the second ask no process's amounts beyond those of the first.
Then none of its commands is refused either, and where it ends depends on the amounts only. -/
theorem grants_anyOrder [IsOrderedAddMonoid α] (hs : s.Solvent) (hsafe : s.isSafe.2 = true)
    {commands' : List (Command α)} (hc : ∀ c ∈ commands, s.CommandAllowed c)
    (hrun : Machine.run bankerStep s commands = some (t, os)) (hos : ∀ o ∈ os, o.isRefused = false)
    (hc' : ∀ c ∈ commands', s.CommandAllowed c ∧ c.Nonneg s.resourceNum)
    (hle : ∀ p < s.progressNum, ∀ j < s.resourceNum,
      asked s.progressNum commands' p j ≤ asked s.progressNum commands p j) :
    ∃ t' os', Machine.run bankerStep s commands' = some (t', os') ∧
      (∀ o ∈ os', o.isRefused = false) ∧
      SameTables (s.afterAll (asked s.progressNum commands')) t' := by
  have hstart : s.Backed 0 := by
    refine ⟨fun j hj => ?_,hs.need,?_⟩
    · simpa using hs.available j hj
    · rw [(afterAll_zero s).isSafe, hsafe]
  have hend := hstart.run_refused (afterAll_zero s).symm hc hrun hos
  simp only [Pi.zero_apply, zero_add] at hend
  have hless := hend.mono hs.allocate (fun p _ j hj => asked_nonneg (fun c hm => (hc' c hm).2) p hj) hle
  have hrun' := hstart.run hs.allocate (fun _ _ _ _ => le_rfl) (afterAll_zero s).symm
    (fun c hm => (hc' c hm).1) (fun c hm => (hc' c hm).2)
  simp only [Pi.zero_apply, zero_add] at hrun'
  exact hrun' hless

end Amounts

def pair : System ℤ := oneResource 2 4 (fun p => p + 3) (fun p => p + 3) fun _ => 0

theorem pair_solvent : pair.Solvent where
  available _ _ := show (0 : ℤ) ≤ 4 by decide
  allocate _ _ _ _ := le_refl (0 : ℤ)
  need p _ _ _ := show (0 : ℤ) ≤ p + 3 by omega

theorem pair_safe : pair.isSafe.2 = true := by
  apply @isSafe_of_scanLoop ℤ _ _ 5
  decide

theorem pair_backed : pair.Backed (asked 2 [.request [0] fun _ => 2, .request [1] fun _ => 1]) where
  available := by decide
  need := by decide
  checked := by
    apply @isSafe_of_scanLoop ℤ _ _ 5
    decide

/-- The second process comes first, and the first one asks twice for one unit. -/
theorem grants_anyOrder_pair :
    ∃ t os, Machine.run bankerStep pair [.request [0] fun _ => 2, .request [1] fun _ => 1] =
        some (t, os) ∧ (∀ o ∈ os, o.isRefused = false) ∧
      ∃ t' os', Machine.run bankerStep pair
          [.request [1] fun _ => 1, .check, .request [0] fun _ => 1, .request [0] fun _ => 1] =
            some (t', os') ∧ (∀ o ∈ os', o.isRefused = false) ∧
        SameTables (pair.afterAll (asked 2
          [.request [1] fun _ => 1, .check, .request [0] fun _ => 1, .request [0] fun _ => 1])) t' := by
  have hzero : ∃ id, readId 2 [0] = some id ∧ id < ((2 : ℕ) : ℤ) := ⟨0,by decide⟩
  have hone : ∃ id, readId 2 [1] = some id ∧ id < ((2 : ℕ) : ℤ) := ⟨1,by decide⟩
  have hc : ∀ c ∈ [Command.request [0] fun _ => (2 : ℤ), .request [1] fun _ => 1],
      pair.CommandAllowed c := by
    simpa using ⟨hzero,hone⟩
  have hc' : ∀ c ∈ [Command.request [1] fun _ => (1 : ℤ), .check, .request [0] fun _ => 1,
      .request [0] fun _ => 1], pair.CommandAllowed c ∧ c.Nonneg pair.resourceNum := by
    simpa [Command.Nonneg] using ⟨hone,trivial,hzero⟩
  have hstart : pair.Backed 0 := by
    refine ⟨by decide,by decide,?_⟩
    rw [(afterAll_zero pair).isSafe, pair_safe]
  have hend : pair.Backed fun p => (0 : ℕ → ℕ → ℤ) p +
      asked pair.progressNum [.request [0] fun _ => 2, .request [1] fun _ => 1] p := by
    simp only [Pi.zero_apply, zero_add]
    exact pair_backed
  obtain ⟨t,os,hrun,hos,-⟩ := hstart.run pair_solvent.allocate (fun _ _ _ _ => le_rfl)
    (afterAll_zero pair).symm hc (by simp [Command.Nonneg]) hend
  exact ⟨t,os,hrun,hos,grants_anyOrder pair_solvent pair_safe hc hrun hos hc' (by decide)⟩

end CppExamples.Banker.System
