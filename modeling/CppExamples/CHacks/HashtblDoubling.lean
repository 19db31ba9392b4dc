import CppExamples.CHacks.LinkedHashtblPointers

/-! # Doubling a table size

`resize` cuts a requested capacity to the largest size, but an insertion doubles the size
of its table in front of the call.  The doubling stays within `int` just where a table of
the largest size is not at its threshold; the shifts of the rounding always do.
-/
namespace CppExamples.HashTable
open Machine

def SizeInt (i : ℤ) : Prop := 0 ≤ i ∧ i < 2 ^ 31

/-- What `n <<= 1` yields in the turns of `roundup_to_next_power_of_2`. -/
def roundupShifts (x : ℕ) : ℕ → ℕ → List ℤ
  | 0, _ => []
  | turns + 1, n => if n < x then (2 * n : ℕ) :: roundupShifts x turns (2 * n) else []

def resizeInts (turns : ℕ) (requested : ℤ) : List ℤ :=
  if requested < 1 then []
  else if (maxTableSize : ℤ) ≤ requested then []
  else if isPowerOf2 requested.toNat then []
  else roundupShifts requested.toNat turns 1

variable {K V : Type*}

/-- The product that is passed to `resize`, and what `resize` computes from it. -/
def autoResizeInts (cfg : Config K) (turns tableSize nentries : ℕ) (threshold : ℤ) : List ℤ :=
  if cfg.autoResize && atThreshold nentries threshold then
    (2 * tableSize : ℕ) :: resizeInts turns (doubled tableSize)
  else []

def hashtblInts (cfg : Config K) (turns : ℕ) (h : Hashtbl K V) : Op K V → List ℤ
  | .insert k _ _ _ =>
    match findEntry cfg h.toSlots (cfg.hashFn k) k with
    | some _ => []
    | none => autoResizeInts cfg turns h.tableSize h.nentries h.resizeThreshold
  | .resize capacity _ => resizeInts turns capacity
  | _ => []

/-- An auto-resizing table of the largest size is below its threshold. -/
def BelowThreshold (cfg : Config K) (tableSize nentries : ℕ) (threshold : ℤ) : Prop :=
  cfg.autoResize = true → tableSize = maxTableSize → atThreshold nentries threshold = false

/-- A new key does not come into a largest table that is at its threshold. -/
def Doublable (cfg : Config K) (h : Hashtbl K V) : Op K V → Prop
  | .insert k _ _ _ => findEntry cfg h.toSlots (cfg.hashFn k) k = none →
    BelowThreshold cfg h.tableSize h.nentries h.resizeThreshold
  | _ => True

section Arithmetic
variable {cfg : Config K} {size n : ℕ} {threshold : ℤ}

theorem roundupFrom_eq_getLastD (x turns n : ℕ) :
    (roundupShifts x turns n).getLastD n = roundupFrom x turns n := by
  induction turns generalizing n with
  | zero => rfl
  | succ turns ih =>
    unfold roundupShifts roundupFrom
    split
    · rw [List.getLastD_cons]
      exact ih (2 * n)
    · rfl

/-- A number is doubled while it is below the argument. -/
theorem lt_of_mem_roundupShifts {x turns n : ℕ} {i : ℤ} (hi : i ∈ roundupShifts x turns n) :
    0 ≤ i ∧ i < 2 * x := by
  induction turns generalizing n with
  | zero => cases hi
  | succ turns ih =>
    unfold roundupShifts at hi
    split at hi
    · rcases List.mem_cons.mp hi with rfl | hi
      · omega
      · exact ih hi
    · cases hi

theorem resizeInts_sizeInt {turns : ℕ} {requested i : ℤ} (hi : i ∈ resizeInts turns requested) :
    SizeInt i := by
  unfold resizeInts at hi
  split_ifs at hi with hsmall hbig hpower
  · cases hi
  · cases hi
  · cases hi
  · obtain ⟨hnonneg,hlt⟩ := lt_of_mem_roundupShifts hi
    unfold maxTableSize at hbig
    exact ⟨hnonneg,by omega⟩

theorem autoResizeInts_iff (hpower : ∃ j ≤ 30, size = 2 ^ j) :
    (∀ turns, ∀ i ∈ autoResizeInts cfg turns size n threshold, SizeInt i) ↔
      BelowThreshold cfg size n threshold := by
  have hle : size ≤ maxTableSize := by
    obtain ⟨j,hj,hsize⟩ := hpower
    exact hsize ▸ Nat.pow_le_pow_right Nat.two_pos hj
  unfold autoResizeInts BelowThreshold
  cases hauto : cfg.autoResize with
  | false => simp
  | true =>
    cases hat : atThreshold n threshold with
    | false => simp
    | true =>
      simp only [Bool.and_self, if_true, List.forall_mem_cons, true_imp_iff]
      constructor
      · intro hints hlast
        have hproduct := (hints 0).1.2
        unfold maxTableSize at hlast
        omega
      · intro hlast turns
        refine ⟨⟨Int.natCast_nonneg _,?_⟩,fun i hi => resizeInts_sizeInt hi⟩
        have hlt : size < maxTableSize := lt_of_le_of_ne hle fun he => by simpa using hlast he
        unfold maxTableSize at hlt
        omega

end Arithmetic

variable {cfg : Config K} {h : Hashtbl K V}

theorem hashtblInts_iff (hpower : ∃ j ≤ 30, h.tableSize = 2 ^ j) (op : Op K V) :
    (∀ turns, ∀ i ∈ hashtblInts cfg turns h op, SizeInt i) ↔ Doublable cfg h op := by
  cases op with
  | insert k v tableAlloc entryAlloc =>
    cases hf : findEntry cfg h.toSlots (cfg.hashFn k) k with
    | some entry => simp [hashtblInts, Doublable, hf]
    | none =>
      simp only [hashtblInts, Doublable, hf, true_imp_iff]
      exact autoResizeInts_iff hpower
  | resize capacity tableAlloc =>
    simp only [hashtblInts, Doublable, iff_true]
    exact fun turns i hi => resizeInts_sizeInt hi
  | lookup k => simp [hashtblInts, Doublable]
  | remove k => simp [hashtblInts, Doublable]
  | clear => simp [hashtblInts, Doublable]
  | count => simp [hashtblInts, Doublable]

theorem hashtblRun_ints {capacity : ℤ} {handleAlloc tableAlloc : Option ℕ}
    (hcreate : hashtblCreate cfg capacity handleAlloc tableAlloc = .ok h) (ops : List (Op K V)) :
    Admits (hashtblStep cfg) (fun h op => ∀ turns, ∀ i ∈ hashtblInts cfg turns h op, SizeInt i) h ops ↔
      Admits (hashtblStep cfg) (Doublable cfg) h ops := by
  have hstep : ∀ (h : Hashtbl K V) (op : Op K V) (h' : Hashtbl K V) (answer : Answer V),
      (∃ j ≤ 30, h.tableSize = 2 ^ j) → True → hashtblStep cfg h op = some (h', answer) →
        ∃ j ≤ 30, h'.tableSize = 2 ^ j :=
    fun h op h' answer hpower _ hs => (hashtblStep_resizes hs).power hpower
  exact admits_congr hstep (fun h op hpower _ => hashtblInts_iff hpower op)
    (hashtblCreate_sized hcreate).power (admits_of_forall (fun _ _ => trivial) h ops)

end CppExamples.HashTable

namespace CppExamples.LinkedTable
open HashTable Machine

variable {K V : Type*}

/-- The test for growing comes behind the link of the new entry and the eviction. -/
def lHashtblInts (cfg : LConfig K) (turns : ℕ) (h : LHashtbl K V) : Op K V → List ℤ
  | .insert k v _ entryAlloc =>
    match findEntry cfg h k, entryAlloc with
    | some 0, some entry => (evict cfg (linkNew cfg h k v entry)).elim [] fun evicted =>
      autoResizeInts cfg.toConfig turns evicted.tableSize evicted.nentries evicted.resizeThreshold
    | _, _ => []
  | .resize capacity _ => resizeInts turns capacity
  | _ => []

def insertedCount (cfg : LConfig K) (n : ℕ) : ℕ := if cfg.evictorFn (n + 1) then n else n + 1

/-- The entry of a new key does not bring a largest table to its threshold. -/
def Doublable (cfg : LConfig K) (h : LHashtbl K V) : Op K V → Prop
  | .insert k _ _ (some _) => findEntry cfg h k = some 0 →
    BelowThreshold cfg.toConfig h.tableSize (insertedCount cfg h.nentries) h.resizeThreshold
  | _ => True

variable {cfg : LConfig K} {h : LHashtbl K V} {k : K} {v : Option V} {entry : ℕ}

theorem evict_linkNew (ht : Threaded cfg h) (hmiss : findEntry cfg h k = some 0)
    (h0 : entry ≠ 0) (hfree : h.data entry = none) :
    ∃ evicted, evict cfg (linkNew cfg h k v entry) = some evicted ∧
      SameSize h evicted ∧ evicted.nentries = insertedCount cfg h.nentries := by
  obtain ⟨L,pairs,hr⟩ := (ht.linkNew hmiss h0 hfree v).represents
  have hlen : pairs.length = h.nentries + 1 := hr.length.symm.trans hr.count.symm
  have hne : pairs ≠ [] := by
    rintro rfl
    exact Nat.succ_ne_zero _ hlen.symm
  obtain ⟨evicted,L',hevict,hr'⟩ := evict_spec hr hne
  have hsame := evict_sameSize hevict
  refine ⟨evicted,hevict,hsame,?_⟩
  rw [hr'.count, hr'.length, hlen, insertedCount]
  split
  · rw [List.length_dropLast, hlen, Nat.add_sub_cancel]
  · exact hlen

theorem lHashtblInts_iff (ht : Threaded cfg h) (op : Op K V) (hfresh : FreshBlock h op) :
    (∀ turns, ∀ i ∈ lHashtblInts cfg turns h op, SizeInt i) ↔ Doublable cfg h op := by
  cases op with
  | insert k v tableAlloc entryAlloc =>
    cases entryAlloc with
    | none =>
      simp only [lHashtblInts, Doublable, iff_true]
      split
      next hno => cases hno
      next => simp
    | some entry =>
      by_cases hmiss : findEntry cfg h k = some 0
      · obtain ⟨evicted,hevict,⟨hsize,hthreshold⟩,hcount⟩ := evict_linkNew (v := v) ht hmiss hfresh.1 hfresh.2
        simp only [lHashtblInts, Doublable, hmiss, hevict, Option.elim_some, hsize, hthreshold, hcount,
          true_imp_iff]
        exact autoResizeInts_iff ht.power
      · simp [lHashtblInts, Doublable, hmiss]
  | resize capacity tableAlloc =>
    simp only [lHashtblInts, Doublable, iff_true]
    exact fun turns i hi => resizeInts_sizeInt hi
  | lookup k => simp [lHashtblInts, Doublable]
  | remove k => simp [lHashtblInts, Doublable]
  | clear => simp [lHashtblInts, Doublable]
  | count => simp [lHashtblInts, Doublable]

theorem lHashtblRun_ints {capacity : ℤ} {handleAlloc tableAlloc : Option ℕ}
    (hcreate : lHashtblCreate cfg capacity handleAlloc tableAlloc = some (.ok h)) (ops : List (Op K V))
    (hfresh : Admits (lHashtblStep cfg) FreshBlock h ops) :
    Admits (lHashtblStep cfg) (fun h op => ∀ turns, ∀ i ∈ lHashtblInts cfg turns h op, SizeInt i) h ops ↔
      Admits (lHashtblStep cfg) (Doublable cfg) h ops := by
  have hstep : ∀ (h : LHashtbl K V) (op : Op K V) (h' : LHashtbl K V) (answer : Answer V),
      Threaded cfg h → FreshBlock h op → lHashtblStep cfg h op = some (h', answer) → Threaded cfg h' := by
    intro h op h' answer ht hfresh hs
    obtain ⟨h'',answer',hs',ht'⟩ := ht.step hfresh
    obtain ⟨rfl,-⟩ := Prod.mk.inj (Option.some.inj (hs'.symm.trans hs))
    exact ht'
  exact admits_congr hstep (fun h op ht hfresh => lHashtblInts_iff ht op hfresh)
    (lHashtblCreate_threaded hcreate) hfresh

/-- In the runs of both tables all sizes stay within `int` just when no new key comes to a
largest table that resizes by itself and is at its threshold. -/
theorem doubling_inRange (capacity : ℤ) (handleAlloc tableAlloc : Option ℕ) (ops : List (Op K V)) :
    (∀ turns, ∀ i ∈ resizeInts turns capacity, SizeInt i) ∧
    (∀ (cfg : Config K) (h : Hashtbl K V),
      hashtblCreate cfg capacity handleAlloc tableAlloc = .ok h →
      (Admits (hashtblStep cfg) (fun h op => ∀ turns, ∀ i ∈ hashtblInts cfg turns h op, SizeInt i) h ops ↔
        Admits (hashtblStep cfg) (HashTable.Doublable cfg) h ops)) ∧
    ∀ (cfg : LConfig K) (h : LHashtbl K V),
      lHashtblCreate cfg capacity handleAlloc tableAlloc = some (.ok h) →
      Admits (lHashtblStep cfg) FreshBlock h ops →
      (Admits (lHashtblStep cfg) (fun h op => ∀ turns, ∀ i ∈ lHashtblInts cfg turns h op, SizeInt i) h ops ↔
        Admits (lHashtblStep cfg) (Doublable cfg) h ops) := by
  refine ⟨fun turns i hi => resizeInts_sizeInt hi,?_,?_⟩
  · exact fun cfg h hcreate => hashtblRun_ints hcreate ops
  · exact fun cfg h hcreate hfresh => lHashtblRun_ints hcreate ops hfresh

theorem doubling_inRange_sample :
    (Admits (hashtblStep collidingKeys)
        (fun h op => ∀ turns, ∀ i ∈ hashtblInts collidingKeys turns h op, SizeInt i) collidingTable collidingOps ↔
      Admits (hashtblStep collidingKeys) (HashTable.Doublable collidingKeys) collidingTable collidingOps) ∧
    (Admits (lHashtblStep lruConfig)
        (fun h op => ∀ turns, ∀ i ∈ lHashtblInts lruConfig turns h op, SizeInt i) lruTable lruOps ↔
      Admits (lHashtblStep lruConfig) (Doublable lruConfig) lruTable lruOps) := by
  have hfresh : Admits (lHashtblStep lruConfig) FreshBlock lruTable lruOps := by
    refine ⟨⟨by decide,rfl⟩,fun r hr => ?_⟩
    cases hr
    exact ⟨⟨by decide,rfl⟩,fun _ _ => ⟨trivial,fun _ _ => ⟨trivial,fun _ _ => trivial⟩⟩⟩
  exact ⟨(doubling_inRange 1 (some 1) (some 2) collidingOps).2.1 collidingKeys _ rfl,
    (doubling_inRange 1 (some 1) (some 2) lruOps).2.2 lruConfig _ rfl hfresh⟩

def smallFactor : ℚ := 1 / 2 ^ 32

theorem thresholdOf_smallFactor (cfg : Config K) :
    (HashTable.atFactor exactly smallFactor cfg).thresholdOf maxTableSize = 0 := by
  norm_num [HashTable.atFactor, resizeThreshold, storedFactor, smallFactor, maxTableSize, exactly]

theorem roundedCapacity_largest : roundedCapacity (2 ^ 30) = maxTableSize := by
  norm_num [roundedCapacity, maxTableSize]

theorem doubled_largest (cfg : Config K) (hauto : cfg.autoResize = true) (n turns : ℕ) :
    2 ^ 31 ∈ autoResizeInts cfg turns maxTableSize n 0 := by
  simp [autoResizeInts, hauto, atThreshold, maxTableSize]

/-- The first insertion doubles the largest size: 2^31 is no `int`. -/
theorem doubling_overflows :
    (∃ h : Hashtbl ℕ ℕ,
      hashtblCreate (HashTable.atFactor exactly smallFactor collidingKeys) (2 ^ 30) (some 1) (some 2) = .ok h ∧
      ¬ Admits (hashtblStep (HashTable.atFactor exactly smallFactor collidingKeys))
        (fun h op => ∀ turns, ∀ i ∈ hashtblInts (HashTable.atFactor exactly smallFactor collidingKeys) turns h op,
          SizeInt i) h [.insert 1 (some 10) (some 3) (some 4)]) ∧
    ∃ h : LHashtbl ℕ ℕ,
      lHashtblCreate (atFactor exactly smallFactor lruConfig) (2 ^ 30) (some 1) (some 2) = some (.ok h) ∧
      ¬ Admits (lHashtblStep (atFactor exactly smallFactor lruConfig))
        (fun h op => ∀ turns, ∀ i ∈ lHashtblInts (atFactor exactly smallFactor lruConfig) turns h op, SizeInt i)
        h [.insert 1 (some 10) (some 3) (some 4)] := by
  have hno : ¬ SizeInt (2 ^ 31) := fun hin => lt_irrefl _ hin.2
  constructor
  · obtain ⟨h,hcreate⟩ : ∃ h : Hashtbl ℕ ℕ, hashtblCreate
        (HashTable.atFactor exactly smallFactor collidingKeys) (2 ^ 30) (some 1) (some 2) = .ok h := by
      simp only [hashtblCreate, hashtblResize, if_neg (roundedCapacity_pos _).not_ge]
      exact ⟨_,rfl⟩
    refine ⟨h,hcreate,fun hok => hno (hok.1 0 _ ?_)⟩
    obtain ⟨handle,block,rfl⟩ := hashtblCreate_ok hcreate
    rw [roundedCapacity_largest]
    simp only [hashtblInts, thresholdOf_smallFactor]
    exact doubled_largest _ rfl 0 0
  · obtain ⟨h,hcreate⟩ : ∃ h : LHashtbl ℕ ℕ, lHashtblCreate
        (atFactor exactly smallFactor lruConfig) (2 ^ 30) (some 1) (some 2) = some (.ok h) := by
      simp only [lHashtblCreate, lHashtblResize, listInit, if_neg (roundedCapacity_pos _).not_ge, relink,
        Function.update_self, if_true, Option.map_some]
      exact ⟨_,rfl⟩
    refine ⟨h,hcreate,fun hok => hno (hok.1 0 _ ?_)⟩
    have ht := lHashtblCreate_threaded hcreate
    obtain ⟨hlast,hzero,hmiss,hfree⟩ : h.tableSize = maxTableSize ∧ h.resizeThreshold = 0 ∧
        findEntry (atFactor exactly smallFactor lruConfig) h 1 = some 0 ∧ h.data 4 = none := by
      obtain ⟨handle,block,rfl⟩ := lHashtblCreate_ok hcreate
      refine ⟨roundedCapacity_largest,?_,rfl,rfl⟩
      rw [roundedCapacity_largest]
      exact thresholdOf_smallFactor lruConfig.toConfig
    obtain ⟨evicted,hevict,⟨hsize,hthreshold⟩,hcount⟩ :=
      evict_linkNew (v := some 10) ht hmiss (show 4 ≠ 0 by decide) hfree
    simp only [lHashtblInts, hmiss, hevict, Option.elim_some, hsize, hthreshold, hlast, hzero]
    exact doubled_largest _ rfl _ 0

end CppExamples.LinkedTable
