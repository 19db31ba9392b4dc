import CppExamples.CHacks.HashtblMap
import CppExamples.CHacks.LinkedHashtblOrder

/-! # The capacity follows the load

A table that grows only by itself doubles when its entries reach the threshold of its
size, so twice the size, times the load factor, stays below twice the entries and one.
The sizes are powers of two that never leave the range of `int`: doubling the largest
wraps to a negative number, and the table stays as it is.
-/
namespace CppExamples.HashTable
open Machine

/-- The arithmetic of `double`: the exact result of an operation is rounded.  Fractions
with few digits are not changed, and a double is scaled by a power of two exactly. -/
structure Rounding where
  round : ℚ → ℚ
  mono : Monotone round
  fraction : ∀ n j : ℕ, n ≤ 2 ^ 53 → j ≤ 30 → round (n / 2 ^ j) = n / 2 ^ j
  scale : ∀ (x : ℚ) (j : ℕ), 0 ≤ x → x ≤ 1 → j ≤ 30 → round x = x → round (2 ^ j * x) = 2 ^ j * x

def exactly : Rounding := ⟨id,monotone_id,fun _ _ _ _ => rfl,fun _ _ _ _ _ _ => rfl⟩

/-- `(int)` cuts off the digits behind the point; no factor is negative. -/
def resizeThreshold (R : Rounding) (capacity : ℕ) (maxLoadFactor : ℚ) : ℤ :=
  ⌊R.round (R.round (capacity * maxLoadFactor) + 1 / 2)⌋

/-- The load factor that both `create` functions store for their argument. -/
def storedFactor (maxLoadFactor : ℚ) : ℚ :=
  if maxLoadFactor < 0 then 3 / 4 else if 1 < maxLoadFactor then 1 else maxLoadFactor

/-- The load factor that both headers describe: also 0.0 uses the default value. -/
def documentedFactor (maxLoadFactor : ℚ) : ℚ :=
  if maxLoadFactor ≤ 0 then 3 / 4 else if 1 < maxLoadFactor then 1 else maxLoadFactor

variable {K V : Type*}

def atFactor (R : Rounding) (maxLoadFactor : ℚ) (cfg : Config K) : Config K :=
  { cfg with thresholdOf := fun capacity => resizeThreshold R capacity (storedFactor maxLoadFactor) }

def roundedUp (capacity : ℤ) : ℕ := min (2 ^ 30) (2 ^ Nat.clog 2 capacity.toNat)

def capacityBound (capacity : ℤ) (maxLoadFactor : ℚ) (p : ℕ) : ℚ :=
  max (roundedUp capacity) ((2 * p + 1) / documentedFactor maxLoadFactor)

def Automatic : Op K V → Prop
  | .resize _ _ => False
  | _ => True

variable {R : Rounding} {factor bound : ℚ} {n size : ℕ} {threshold : ℤ}

theorem storedFactor_nonneg (factor : ℚ) : 0 ≤ storedFactor factor := by
  unfold storedFactor
  split_ifs with hneg hbig
  · norm_num
  · exact zero_le_one
  · exact not_lt.mp hneg

theorem storedFactor_le_one (factor : ℚ) : storedFactor factor ≤ 1 := by
  unfold storedFactor
  split_ifs with hneg hbig
  · norm_num
  · exact le_rfl
  · exact not_lt.mp hbig

theorem round_storedFactor (hdouble : R.round factor = factor) :
    R.round (storedFactor factor) = storedFactor factor := by
  have hdefault := R.fraction 3 2 (by norm_num) (by norm_num)
  have hone := R.fraction 1 0 (by norm_num) (by norm_num)
  norm_num at hdefault hone
  unfold storedFactor
  split_ifs
  · exact hdefault
  · exact hone
  · exact hdouble

theorem storedFactor_eq (hzero : factor ≠ 0) : storedFactor factor = documentedFactor factor := by
  unfold storedFactor documentedFactor
  rw [if_congr (lt_iff_le_and_ne.trans (and_iff_left hzero)) rfl rfl]

theorem documentedFactor_pos (factor : ℚ) : 0 < documentedFactor factor := by
  unfold documentedFactor
  split_ifs with hneg hbig
  · norm_num
  · exact one_pos
  · exact not_le.mp hneg

theorem roundupFrom_eq {x fuel i : ℕ} (hi : i ≤ Nat.clog 2 x) (hfuel : Nat.clog 2 x ≤ i + fuel) :
    roundupFrom x fuel (2 ^ i) = 2 ^ Nat.clog 2 x := by
  induction fuel generalizing i with
  | zero =>
    rw [roundupFrom, le_antisymm hi hfuel]
  | succ fuel ih =>
    have hlt := (Nat.clog_le_iff_le_pow Nat.one_lt_two (x := x) (y := i)).not
    rw [not_le, not_le] at hlt
    unfold roundupFrom
    split
    · rw [← pow_succ']
      exact ih (hlt.mpr ‹_›) (by omega)
    · rw [le_antisymm hi (not_lt.mp (hlt.not.mpr ‹_›))]

theorem roundedCapacity_eq (capacity : ℤ) : roundedCapacity capacity = roundedUp capacity := by
  have hclog := fun i => Nat.clog_le_iff_le_pow Nat.one_lt_two (x := capacity.toNat) (y := i)
  unfold roundedCapacity roundedUp maxTableSize
  split_ifs with hsmall hbig hpower
  · rw [Int.toNat_of_nonpos (by omega)]
    simp
  · have hle : 2 ^ 30 ≤ 2 ^ Nat.clog 2 capacity.toNat :=
      le_trans (by omega) (Nat.le_pow_clog Nat.one_lt_two capacity.toNat)
    rw [min_eq_left hle]
  · have hpos : capacity.toNat ≠ 0 := by omega
    obtain ⟨i,hi⟩ := (Nat.and_sub_one_eq_zero_iff_isPowerOfTwo hpos).mp (by simpa [isPowerOf2] using hpower)
    rw [hi, Nat.clog_pow 2 i Nat.one_lt_two, ← hi]
    omega
  · have hle : Nat.clog 2 capacity.toNat ≤ 30 := (hclog 30).mpr (by omega)
    have hround := roundupFrom_eq (Nat.zero_le _) (hle.trans_eq (Nat.zero_add 30).symm)
    rw [pow_zero] at hround
    rw [roundupToNextPowerOf2, hround, min_eq_right (Nat.pow_le_pow_right Nat.two_pos hle)]

theorem roundedUp_power (capacity : ℤ) : ∃ j ≤ 30, roundedUp capacity = 2 ^ j := by
  refine ⟨min 30 (Nat.clog 2 capacity.toNat),min_le_left _ _,?_⟩
  exact (pow_right_mono₀ one_le_two).map_min.symm

theorem doubled_of_le {x : ℕ} (hx : x ≤ 2 ^ 29) : doubled x = 2 * x := by
  unfold doubled Int.bmod
  norm_num
  rw [Int.emod_eq_of_lt (by omega) (by omega), if_pos (by omega)]

theorem roundedCapacity_doubled {j : ℕ} (hj : j ≤ 30) :
    roundedCapacity (doubled (2 ^ j)) = if j = 30 then 1 else 2 ^ (j + 1) := by
  split_ifs with hlast
  · have hwraps : doubled (2 ^ 30) < 1 := by
      unfold doubled Int.bmod
      norm_num
    rw [hlast, roundedCapacity, if_pos hwraps]
  · have hle : 2 ^ (j + 1) ≤ 2 ^ 30 := Nat.pow_le_pow_right Nat.two_pos (by omega)
    have hdoubled : doubled (2 ^ j) = (2 ^ (j + 1) : ℕ) := by
      rw [doubled_of_le (Nat.pow_le_pow_right Nat.two_pos (by omega))]
      push_cast
      ring
    rw [hdoubled, roundedCapacity_eq, roundedUp, Int.toNat_natCast, Nat.clog_pow 2 _ Nat.one_lt_two,
      min_eq_right hle]

theorem round_natCast (R : Rounding) {k : ℕ} (hk : k ≤ 2 ^ 53) : R.round k = k := by
  have hfraction := R.fraction k 0 hk (by norm_num)
  rwa [pow_zero, div_one] at hfraction

theorem resizeThreshold_bounds (hnonneg : 0 ≤ factor) (hle : factor ≤ 1)
    (hdouble : R.round factor = factor) {j : ℕ} (hj : j ≤ 30) :
    ⌊2 ^ j * factor + 1 / 2⌋ ≤ resizeThreshold R (2 ^ j) factor ∧
      0 ≤ resizeThreshold R (2 ^ j) factor ∧ resizeThreshold R (2 ^ j) factor ≤ 2 ^ 30 + 1 := by
  have hpow : (2 : ℚ) ^ j ≤ 2 ^ 30 := pow_le_pow_right₀ one_le_two hj
  have hprod : 2 ^ j * factor ≤ 2 ^ 30 := (mul_le_of_le_one_right (by positivity) hle).trans hpow
  have hpos : 0 ≤ 2 ^ j * factor := by positivity
  obtain ⟨k,hk⟩ := Int.eq_ofNat_of_zero_le (Int.floor_nonneg.mpr (add_nonneg hpos one_half_pos.le))
  have hkle : (k : ℚ) ≤ 2 ^ j * factor + 1 / 2 := by
    have hfloor := Int.floor_le (2 ^ j * factor + 1 / 2)
    rwa [hk, Int.cast_natCast] at hfloor
  have hsmall : (k : ℚ) ≤ (2 ^ 53 : ℕ) := by
    push_cast
    linarith
  have hlow := R.mono hkle
  have hhigh := R.mono (show 2 ^ j * factor + 1 / 2 ≤ ((2 ^ 30 + 1 : ℕ) : ℚ) by push_cast; linarith)
  rw [round_natCast R (Nat.cast_le.mp hsmall)] at hlow
  rw [round_natCast R (by norm_num)] at hhigh
  simp only [resizeThreshold, Nat.cast_pow, Nat.cast_ofNat, R.scale factor j hnonneg hle hj hdouble]
  refine ⟨?_,?_,?_⟩
  · rw [hk]
    exact Int.le_floor.mpr (by exact_mod_cast hlow)
  · exact Int.floor_nonneg.mpr ((Nat.cast_nonneg k).trans hlow)
  · apply Int.floor_le_iff.mpr
    push_cast at hhigh ⊢
    linarith

theorem lt_of_atThreshold (hnonneg : 0 ≤ factor) (hle : factor ≤ 1) (hdouble : R.round factor = factor)
    {j : ℕ} (hj : j ≤ 30) (hat : atThreshold n (resizeThreshold R (2 ^ j) factor) = true) :
    2 * 2 ^ j * factor < 2 * n + 1 := by
  obtain ⟨hfloor,hlow,hhigh⟩ := resizeThreshold_bounds hnonneg hle hdouble hj
  rw [atThreshold, decide_eq_true_eq, Int.emod_eq_of_lt hlow (by omega)] at hat
  have hlt := Int.lt_floor_add_one (2 ^ j * factor + 1 / 2)
  have hcount : ((⌊2 ^ j * factor + 1 / 2⌋ : ℤ) : ℚ) ≤ n := by exact_mod_cast hfloor.trans hat
  linarith

/-- The size of a table is a power of two within a bound, and its threshold the one of
that size. -/
structure Sized (thresholdOf : ℕ → ℤ) (size : ℕ) (threshold : ℤ) (bound : ℚ) : Prop where
  power : ∃ j ≤ 30, size = 2 ^ j
  threshold_eq : threshold = thresholdOf size
  le : (size : ℚ) ≤ bound

/-- A bound leaves room for growing at a number of entries. -/
def Room (factor bound : ℚ) (n : ℕ) : Prop :=
  2 ^ 30 ≤ bound ∨ 0 < factor ∧ (2 * n + 1) / factor ≤ bound

theorem Sized.grow {cfg : Config K} (hdouble : R.round factor = factor)
    (hs : Sized (atFactor R factor cfg).thresholdOf size threshold bound)
    (hat : atThreshold n threshold = true) (hroom : Room (storedFactor factor) bound n)
    (hgrow : ¬ roundedCapacity (doubled size) ≤ size) :
    Sized (atFactor R factor cfg).thresholdOf (roundedCapacity (doubled size))
      ((atFactor R factor cfg).thresholdOf (roundedCapacity (doubled size))) bound := by
  obtain ⟨⟨j,hj,rfl⟩,rfl,hle⟩ := hs
  have hlt := lt_of_atThreshold (storedFactor_nonneg factor) (storedFactor_le_one factor)
    (round_storedFactor hdouble) hj hat
  rw [roundedCapacity_doubled hj] at hgrow ⊢
  have hlast : j ≠ 30 := by
    rintro rfl
    exact hgrow (by norm_num)
  rw [if_neg hlast]
  refine ⟨⟨j + 1,by omega,rfl⟩,rfl,?_⟩
  push_cast
  rcases hroom with hroom | ⟨hpos,hroom⟩
  · exact (pow_le_pow_right₀ one_le_two (show j + 1 ≤ 30 by omega)).trans hroom
  · refine le_trans ((le_div_iff₀ hpos).mpr ?_) hroom
    rw [pow_succ']
    exact hlt.le

theorem Sized.mono {thresholdOf : ℕ → ℤ} {bound' : ℚ} (hs : Sized thresholdOf size threshold bound)
    (hle : bound ≤ bound') : Sized thresholdOf size threshold bound' :=
  ⟨hs.power,hs.threshold_eq,hs.le.trans hle⟩

/-- The size and the threshold of a table stay, or those of a larger capacity, which has a
cause, take their place. -/
def Resizes (thresholdOf : ℕ → ℤ) (cause : ℤ → Prop) (size size' : ℕ) (threshold threshold' : ℤ) :
    Prop :=
  (size' = size ∧ threshold' = threshold) ∨ ∃ requested, cause requested ∧
    size < roundedCapacity requested ∧ size' = roundedCapacity requested ∧
      threshold' = thresholdOf (roundedCapacity requested)

/-- A table with `n` entries at its threshold doubles. -/
def Doubles (size n : ℕ) (threshold requested : ℤ) : Prop :=
  requested = doubled size ∧ atThreshold n threshold = true

variable {thresholdOf : ℕ → ℤ} {cause cause' : ℤ → Prop} {size' : ℕ} {threshold' : ℤ}

theorem Resizes.mono (hresizes : Resizes thresholdOf cause size size' threshold threshold')
    (hcause : ∀ requested, cause requested → cause' requested) :
    Resizes thresholdOf cause' size size' threshold threshold' := by
  rcases hresizes with hstays | ⟨requested,hc,hgrows⟩
  · exact .inl hstays
  · exact .inr ⟨requested,hcause requested hc,hgrows⟩

theorem Resizes.le (hresizes : Resizes thresholdOf cause size size' threshold threshold') :
    size ≤ size' := by
  rcases hresizes with ⟨rfl,-⟩ | ⟨requested,-,hlt,rfl,-⟩
  · exact le_rfl
  · exact hlt.le

theorem Resizes.power (hresizes : Resizes thresholdOf cause size size' threshold threshold')
    (hsize : ∃ j ≤ 30, size = 2 ^ j) : ∃ j ≤ 30, size' = 2 ^ j := by
  rcases hresizes with ⟨rfl,-⟩ | ⟨requested,-,-,rfl,-⟩
  · exact hsize
  · exact roundedCapacity_eq requested ▸ roundedUp_power requested

theorem Sized.resizes (cfg : Config K) (hdouble : R.round factor = factor)
    (hs : Sized (atFactor R factor cfg).thresholdOf size threshold bound)
    (hroom : Room (storedFactor factor) bound n)
    (hresizes : Resizes (atFactor R factor cfg).thresholdOf (Doubles size n threshold) size size'
      threshold threshold') :
    Sized (atFactor R factor cfg).thresholdOf size' threshold' bound := by
  rcases hresizes with ⟨rfl,rfl⟩ | ⟨requested,⟨hcause,hat⟩,hlt,rfl,rfl⟩
  · exact hs
  · rw [hcause] at hlt ⊢
    have hgrow : ¬ roundedCapacity (doubled size) ≤ size := not_le.mpr hlt
    exact hs.grow hdouble hat hroom hgrow

theorem sized_roundedCapacity (thresholdOf : ℕ → ℤ) (capacity : ℤ) :
    Sized thresholdOf (roundedCapacity capacity) (thresholdOf (roundedCapacity capacity))
      (roundedUp capacity) := by
  have hround := roundedCapacity_eq capacity
  exact ⟨hround ▸ roundedUp_power capacity,rfl,by rw [hround]⟩

/-- A table of the largest size needs no room, and other tables grow only with their
entries, unless the factor is 0. -/
theorem room_capacityBound {capacity : ℤ} {p : ℕ} (hfactor : factor ≠ 0 ∨ 2 ^ 29 < capacity) (hn : n ≤ p) :
    Room (storedFactor factor) (capacityBound capacity factor p) n := by
  rcases hfactor with hzero | hlarge
  · right
    rw [storedFactor_eq hzero]
    have hpos := documentedFactor_pos factor
    refine ⟨hpos,le_trans ?_ (le_max_right _ _)⟩
    have hcast : (n : ℚ) ≤ p := by exact_mod_cast hn
    gcongr
  · left
    have hclog : ¬ Nat.clog 2 capacity.toNat ≤ 29 := by
      rw [Nat.clog_le_iff_le_pow Nat.one_lt_two]
      omega
    have hpow : 2 ^ 30 ≤ 2 ^ Nat.clog 2 capacity.toNat := Nat.pow_le_pow_right Nat.two_pos (by omega)
    refine le_trans ?_ (le_max_left _ _)
    rw [roundedUp, min_eq_left hpow]
    norm_num

def SizedTable (cfg : Config K) (bound : ℚ) (h : Hashtbl K V) : Prop :=
  Sized cfg.thresholdOf h.tableSize h.resizeThreshold bound

variable {cfg : Config K} {h h' : Hashtbl K V} {op : Op K V} {answer : Answer V}

theorem moveChain_targetSize (i : ℕ) (chain : List (Entry K V)) (p : Slots K V × Slots K V) :
    (moveChain i chain p).2.tableSize = p.2.tableSize := by
  induction chain generalizing p with
  | nil => rfl
  | cons entry chain ih => exact ih _

theorem moveSlots_targetSize (is : List ℕ) (p : Slots K V × Slots K V) :
    (is.foldl moveSlot p).2.tableSize = p.2.tableSize := by
  induction is generalizing p with
  | nil => rfl
  | cons i is ih =>
    rw [List.foldl_cons, ih]
    exact moveChain_targetSize i _ p

theorem transfer_tableSize (s : Slots K V) (capacity : ℕ) :
    (transfer s capacity).2.tableSize = capacity := moveSlots_targetSize _ _

theorem clearChain_resizeThreshold (chain : List (Entry K V)) (h : Hashtbl K V) :
    (clearChain cfg chain h).resizeThreshold = h.resizeThreshold := by
  induction chain generalizing h with
  | nil => rfl
  | cons entry chain ih => exact ih _

theorem clearSlots_size (cfg : Config K) (is : List ℕ) (h : Hashtbl K V) :
    (is.foldl (clearSlot cfg) h).tableSize = h.tableSize ∧
      (is.foldl (clearSlot cfg) h).resizeThreshold = h.resizeThreshold := by
  induction is generalizing h with
  | nil => exact ⟨rfl,rfl⟩
  | cons i is ih =>
    obtain ⟨hsize,hthreshold⟩ := ih (clearSlot cfg h i)
    rw [List.foldl_cons, hsize, hthreshold]
    constructor
    · simp only [clearSlot, clearChain_slots]
    · exact clearChain_resizeThreshold _ h

/-- The size and the threshold after a call, and what may have caused a larger one. -/
def TableResizes (cfg : Config K) (cause : ℤ → Prop) (h h' : Hashtbl K V) : Prop :=
  Resizes cfg.thresholdOf cause h.tableSize h'.tableSize h.resizeThreshold h'.resizeThreshold

theorem hashtblResize_resizes (cfg : Config K) (h : Hashtbl K V) (requested : ℤ)
    (tableAlloc : Option ℕ) :
    TableResizes cfg (· = requested) h (hashtblResize cfg h requested tableAlloc).1 := by
  by_cases hsmall : roundedCapacity requested ≤ h.tableSize
  · simp only [hashtblResize, if_pos hsmall]
    exact .inl ⟨rfl,rfl⟩
  · simp only [hashtblResize, if_neg hsmall]
    cases tableAlloc with
    | none => exact .inl ⟨rfl,rfl⟩
    | some block =>
      exact .inr ⟨requested,rfl,not_le.mp hsmall,transfer_tableSize _ _,rfl⟩

theorem autoResized_resizes (cfg : Config K) (h : Hashtbl K V) (tableAlloc : Option ℕ) :
    TableResizes cfg (Doubles h.tableSize h.nentries h.resizeThreshold) h
      (autoResized cfg h tableAlloc) := by
  unfold autoResized
  split
  next hauto =>
    obtain ⟨-,hat⟩ := Bool.and_eq_true_iff.mp hauto
    exact (hashtblResize_resizes cfg h _ tableAlloc).mono fun requested he => ⟨he,hat⟩
  next => exact .inl ⟨rfl,rfl⟩

/-- The entries that decide about growing are those in front of the call. -/
theorem hashtblInsert_resizes (cfg : Config K) (h : Hashtbl K V) (k : K) (v : Option V)
    (tableAlloc entryAlloc : Option ℕ) :
    TableResizes cfg (Doubles h.tableSize h.nentries h.resizeThreshold) h
      (hashtblInsert cfg h k v tableAlloc entryAlloc).1 := by
  have hgrown := autoResized_resizes cfg h tableAlloc
  cases hf : findEntry cfg h.toSlots (cfg.hashFn k) k with
  | some entry =>
    simp only [hashtblInsert, hf]
    exact .inl ⟨rfl,rfl⟩
  | none =>
    cases entryAlloc with
    | none =>
      simp only [hashtblInsert, hf]
      exact hgrown
    | some block =>
      simp only [hashtblInsert, hf]
      exact hgrown

theorem hashtblRemove_resizes (cfg : Config K) (cause : ℤ → Prop) (h : Hashtbl K V) (k : K) :
    TableResizes cfg cause h (hashtblRemove cfg h k).1 := by
  cases hf : findEntry cfg h.toSlots (cfg.hashFn k) k with
  | some entry =>
    simp only [hashtblRemove, removeKey, hf]
    exact .inl ⟨rfl,rfl⟩
  | none =>
    simp only [hashtblRemove, removeKey, hf]
    exact .inl ⟨rfl,rfl⟩

theorem hashtblStep_resizes (hstep : hashtblStep cfg h op = some (h', answer)) :
    TableResizes cfg (fun requested => Automatic op →
      Doubles h.tableSize h.nentries h.resizeThreshold requested) h h' := by
  cases op with
  | insert k v tableAlloc entryAlloc =>
    obtain ⟨rfl,-⟩ := Prod.mk.inj (Option.some.inj hstep)
    exact (hashtblInsert_resizes cfg h k v tableAlloc entryAlloc).mono fun _ hc _ => hc
  | lookup k =>
    obtain ⟨rfl,-⟩ := Prod.mk.inj (Option.some.inj hstep)
    exact .inl ⟨rfl,rfl⟩
  | remove k =>
    obtain ⟨rfl,-⟩ := Prod.mk.inj (Option.some.inj hstep)
    exact hashtblRemove_resizes cfg _ h k
  | clear =>
    obtain ⟨rfl,-⟩ := Prod.mk.inj (Option.some.inj hstep)
    exact .inl (clearSlots_size cfg (List.range h.tableSize) h)
  | resize capacity tableAlloc =>
    obtain ⟨rfl,-⟩ := Prod.mk.inj (Option.some.inj hstep)
    exact (hashtblResize_resizes cfg h capacity tableAlloc).mono fun _ _ hop => absurd hop id
  | count =>
    obtain ⟨rfl,-⟩ := Prod.mk.inj (Option.some.inj hstep)
    exact .inl ⟨rfl,rfl⟩

theorem hashtblStep_sized (hdouble : R.round factor = factor)
    (hs : SizedTable (atFactor R factor cfg) bound h) (hop : Automatic op)
    (hroom : Room (storedFactor factor) bound h.nentries)
    (hstep : hashtblStep (atFactor R factor cfg) h op = some (h', answer)) :
    SizedTable (atFactor R factor cfg) bound h' :=
  Sized.resizes cfg hdouble hs hroom ((hashtblStep_resizes hstep).mono fun _ hcause => hcause hop)

theorem hashtblCreate_sized {capacity : ℤ} {handleAlloc tableAlloc : Option ℕ}
    (hcreate : hashtblCreate cfg capacity handleAlloc tableAlloc = .ok h) :
    SizedTable cfg (roundedUp capacity) h := by
  obtain ⟨handle,block,rfl⟩ := hashtblCreate_ok hcreate
  rw [SizedTable, transfer_tableSize]
  exact sized_roundedCapacity cfg.thresholdOf capacity

theorem hashtblRun_sized (hdouble : R.round factor = factor) {capacity : ℤ}
    (hfactor : factor ≠ 0 ∨ 2 ^ 29 < capacity) {handleAlloc tableAlloc : Option ℕ}
    (hcreate : hashtblCreate (atFactor R factor cfg) capacity handleAlloc tableAlloc = .ok h)
    {ops : List (Op K V)} {p : ℕ} (hops : ∀ op ∈ ops, Automatic op)
    (hpeak : peak (hashtblStep (atFactor R factor cfg)) hashtblCount h ops ≤ p) :
    ∃ h' answers, run (hashtblStep (atFactor R factor cfg)) h ops = some (h', answers) ∧
      SizedTable (atFactor R factor cfg) (capacityBound capacity factor p) h' := by
  have hall : Admits (hashtblStep (atFactor R factor cfg)) (fun _ _ => True) h ops :=
    admits_of_forall (fun _ _ => trivial) h ops
  obtain ⟨h',_,answers,_,hrun,_,_,_⟩ := run_refines
    (fun h m op hr (_ : True) => hashtblStep_refines h m op hr) (hashtblCreate_represents hcreate) hall
  have hstart : SizedTable (atFactor R factor cfg) (capacityBound capacity factor p) h :=
    (hashtblCreate_sized hcreate).mono (le_max_left _ _)
  refine ⟨h',answers,hrun,run_invariant ?_ hstart (admits_peak (hall.restrict hops) hpeak) hrun⟩
  rintro s op s' o hs ⟨⟨-,hop⟩,hcount,-⟩ hi
  exact hashtblStep_sized hdouble hs hop (room_capacityBound hfactor hcount) hi

end CppExamples.HashTable

namespace CppExamples.LinkedTable
open HashTable Machine

variable {K V : Type*}

def atFactor (R : Rounding) (maxLoadFactor : ℚ) (cfg : LConfig K) : LConfig K :=
  { cfg with toConfig := HashTable.atFactor R maxLoadFactor cfg.toConfig }

def SizedTable (cfg : LConfig K) (bound : ℚ) (h : LHashtbl K V) : Prop :=
  Sized cfg.thresholdOf h.tableSize h.resizeThreshold bound

def SameSize (h h' : LHashtbl K V) : Prop :=
  h'.tableSize = h.tableSize ∧ h'.resizeThreshold = h.resizeThreshold

variable {R : Rounding} {factor bound : ℚ} {cfg : LConfig K} {h h' : LHashtbl K V} {op : Op K V}
variable {answer : Answer V} {k : K} {code : ℕ}

/-- The size and the threshold after a call, and what may have caused a larger one. -/
def TableResizes (cfg : LConfig K) (cause : ℤ → Prop) (h h' : LHashtbl K V) : Prop :=
  Resizes cfg.thresholdOf cause h.tableSize h'.tableSize h.resizeThreshold h'.resizeThreshold

theorem SameSize.resizes (hsame : SameSize h h') (cause : ℤ → Prop) : TableResizes cfg cause h h' :=
  .inl hsame

@[simp] theorem unlinkChain_resizeThreshold (h : LHashtbl K V) (i : ℕ) (ref : Option ℕ) (entry : ℕ) :
    (unlinkChain h i ref entry).resizeThreshold = h.resizeThreshold := by cases ref <;> rfl

theorem removeKey_sameSize {r : LHashtbl K V × ℕ} (hrun : removeKey cfg h k = some r) : SameSize h r.1 := by
  obtain ⟨⟨ref,a⟩,_,rfl⟩ := Option.map_eq_some_iff.mp hrun
  dsimp only
  split
  · exact ⟨rfl,rfl⟩
  · exact ⟨unlinkChain_tableSize ..,unlinkChain_resizeThreshold ..⟩

theorem lHashtblRemove_sameSize (hrun : lHashtblRemove cfg h k = some (h', code)) : SameSize h h' := by
  obtain ⟨r,hremove,hrun⟩ := Option.bind_eq_some_iff.mp hrun
  have hsame := removeKey_sameSize hremove
  split at hrun
  · obtain ⟨rfl,-⟩ := Prod.mk.inj (Option.some.inj hrun)
    exact hsame
  · obtain ⟨e,_,he⟩ := Option.map_eq_some_iff.mp hrun
    obtain ⟨rfl,-⟩ := Prod.mk.inj he
    exact hsame

theorem evict_sameSize (hrun : evict cfg h = some h') : SameSize h h' := by
  unfold evict at hrun
  split at hrun
  · simp only [Option.bind_eq_some_iff, Option.map_eq_some_iff] at hrun
    obtain ⟨e,_,⟨t,code⟩,hremove,rfl⟩ := hrun
    exact lHashtblRemove_sameSize hremove
  · obtain rfl := Option.some.inj hrun
    exact ⟨rfl,rfl⟩

theorem clearLoop_sameSize {fuel node tmp : ℕ} (hrun : clearLoop cfg fuel node tmp h = some h') :
    SameSize h h' := by
  induction fuel generalizing node tmp h with
  | zero =>
    unfold clearLoop at hrun
    split at hrun
    · obtain rfl := Option.some.inj hrun
      exact ⟨rfl,rfl⟩
    · cases hrun
  | succ fuel ih =>
    unfold clearLoop at hrun
    split at hrun
    · obtain rfl := Option.some.inj hrun
      exact ⟨rfl,rfl⟩
    · obtain ⟨e,_,hrest⟩ := Option.bind_eq_some_iff.mp hrun
      have hsame := ih hrest
      exact hsame

theorem recordAccess_sameSize (h : LHashtbl K V) (entry : ℕ) : SameSize h (recordAccess cfg h entry) := by
  unfold recordAccess
  split
  · exact ⟨rfl,rfl⟩
  · exact ⟨rfl,rfl⟩

theorem lHashtblResize_resizes {requested : ℤ} {tableAlloc : Option ℕ}
    (hrun : lHashtblResize cfg h requested tableAlloc = some (h', code)) :
    TableResizes cfg (· = requested) h h' ∧ h'.nentries = h.nentries := by
  by_cases hsmall : roundedCapacity requested ≤ h.tableSize
  · simp only [lHashtblResize, if_pos hsmall] at hrun
    obtain ⟨rfl,-⟩ := Prod.mk.inj (Option.some.inj hrun)
    exact ⟨.inl ⟨rfl,rfl⟩,rfl⟩
  · simp only [lHashtblResize, if_neg hsmall] at hrun
    cases tableAlloc with
    | none =>
      obtain ⟨rfl,-⟩ := Prod.mk.inj (Option.some.inj hrun)
      exact ⟨.inl ⟨rfl,rfl⟩,rfl⟩
    | some block =>
      obtain ⟨links,-,he⟩ := Option.map_eq_some_iff.mp hrun
      obtain ⟨rfl,-⟩ := Prod.mk.inj he
      exact ⟨.inr ⟨requested,rfl,not_le.mp hsmall,rfl,rfl⟩,rfl⟩

theorem autoResized_resizes {tableAlloc : Option ℕ} (hrun : autoResized cfg h tableAlloc = some h') :
    TableResizes cfg (Doubles h.tableSize h'.nentries h.resizeThreshold) h h' := by
  unfold autoResized at hrun
  split at hrun
  next hauto =>
    obtain ⟨-,hat⟩ := Bool.and_eq_true_iff.mp hauto
    obtain ⟨⟨t,code⟩,hresize,rfl⟩ := Option.map_eq_some_iff.mp hrun
    obtain ⟨hresizes,hcount⟩ := lHashtblResize_resizes hresize
    rw [hcount]
    exact hresizes.mono fun requested he => ⟨he,hat⟩
  next =>
    obtain rfl := Option.some.inj hrun
    exact .inl ⟨rfl,rfl⟩

theorem lHashtblInsert_resizes {v : Option V} {tableAlloc entryAlloc : Option ℕ}
    (hrun : lHashtblInsert cfg h k v tableAlloc entryAlloc = some (h', code)) :
    TableResizes cfg (Doubles h.tableSize h'.nentries h.resizeThreshold) h h' := by
  obtain ⟨entry,-,hrun⟩ := Option.bind_eq_some_iff.mp hrun
  split at hrun
  · obtain ⟨e,-,he⟩ := Option.map_eq_some_iff.mp hrun
    obtain ⟨rfl,-⟩ := Prod.mk.inj he
    exact .inl ⟨rfl,rfl⟩
  · cases entryAlloc with
    | none =>
      obtain ⟨rfl,-⟩ := Prod.mk.inj (Option.some.inj hrun)
      exact .inl ⟨rfl,rfl⟩
    | some block =>
      obtain ⟨evicted,hevict,hrest⟩ := Option.bind_eq_some_iff.mp hrun
      obtain ⟨grown,hgrow,he⟩ := Option.map_eq_some_iff.mp hrest
      obtain ⟨rfl,-⟩ := Prod.mk.inj he
      obtain ⟨hsize,hthreshold⟩ := evict_sameSize hevict
      have hresizes := autoResized_resizes hgrow
      rw [TableResizes, hsize, hthreshold] at hresizes
      exact hresizes

theorem lHashtblLookup_sameSize {v : Option V} (hrun : lHashtblLookup cfg h k = some (h', v)) :
    SameSize h h' := by
  obtain ⟨entry,-,hrun⟩ := Option.bind_eq_some_iff.mp hrun
  split at hrun
  · obtain ⟨rfl,-⟩ := Prod.mk.inj (Option.some.inj hrun)
    exact ⟨rfl,rfl⟩
  · obtain ⟨e,-,he⟩ := Option.map_eq_some_iff.mp hrun
    obtain ⟨rfl,-⟩ := Prod.mk.inj he
    exact recordAccess_sameSize h entry

theorem lHashtblClear_sameSize (hrun : lHashtblClear cfg h = some h') : SameSize h h' := by
  obtain ⟨cleared,hclear,rfl⟩ := Option.map_eq_some_iff.mp hrun
  have hsame := clearLoop_sameSize hclear
  exact hsame

theorem lHashtblStep_resizes (hstep : lHashtblStep cfg h op = some (h', answer)) :
    TableResizes cfg (fun requested => Automatic op →
      Doubles h.tableSize h'.nentries h.resizeThreshold requested) h h' := by
  cases op with
  | insert k v tableAlloc entryAlloc =>
    obtain ⟨⟨t,code⟩,hrun,he⟩ := Option.map_eq_some_iff.mp hstep
    obtain ⟨rfl,-⟩ := Prod.mk.inj he
    exact (lHashtblInsert_resizes hrun).mono fun _ hc _ => hc
  | lookup k =>
    obtain ⟨⟨t,v⟩,hrun,he⟩ := Option.map_eq_some_iff.mp hstep
    obtain ⟨rfl,-⟩ := Prod.mk.inj he
    exact (lHashtblLookup_sameSize hrun).resizes _
  | remove k =>
    obtain ⟨⟨t,code⟩,hrun,he⟩ := Option.map_eq_some_iff.mp hstep
    obtain ⟨rfl,-⟩ := Prod.mk.inj he
    exact (lHashtblRemove_sameSize hrun).resizes _
  | clear =>
    obtain ⟨t,hrun,he⟩ := Option.map_eq_some_iff.mp hstep
    obtain ⟨rfl,-⟩ := Prod.mk.inj he
    exact (lHashtblClear_sameSize hrun).resizes _
  | resize capacity tableAlloc =>
    obtain ⟨⟨t,code⟩,hrun,he⟩ := Option.map_eq_some_iff.mp hstep
    obtain ⟨rfl,-⟩ := Prod.mk.inj he
    exact (lHashtblResize_resizes hrun).1.mono fun _ _ hop => absurd hop id
  | count =>
    obtain ⟨rfl,-⟩ := Prod.mk.inj (Option.some.inj hstep)
    exact .inl ⟨rfl,rfl⟩

theorem lHashtblStep_sized (hdouble : R.round factor = factor)
    (hs : SizedTable (atFactor R factor cfg) bound h) (hop : Automatic op)
    (hroom : Room (storedFactor factor) bound h'.nentries)
    (hstep : lHashtblStep (atFactor R factor cfg) h op = some (h', answer)) :
    SizedTable (atFactor R factor cfg) bound h' :=
  Sized.resizes cfg.toConfig hdouble hs hroom
    ((lHashtblStep_resizes hstep).mono fun _ hcause => hcause hop)

theorem lHashtblCreate_sized {capacity : ℤ} {handleAlloc tableAlloc : Option ℕ}
    (hcreate : lHashtblCreate cfg capacity handleAlloc tableAlloc = some (.ok h)) :
    SizedTable cfg (roundedUp capacity) h := by
  obtain ⟨handle,block,rfl⟩ := lHashtblCreate_ok hcreate
  exact sized_roundedCapacity cfg.thresholdOf capacity

theorem lHashtblRun_sized (hdouble : R.round factor = factor) {capacity : ℤ}
    (hfactor : factor ≠ 0 ∨ 2 ^ 29 < capacity) {handleAlloc tableAlloc : Option ℕ}
    (hcreate : lHashtblCreate (atFactor R factor cfg) capacity handleAlloc tableAlloc = some (.ok h))
    {ops : List (Op K V)} {p : ℕ} (hops : ∀ op ∈ ops, Automatic op)
    (hfresh : Admits (lHashtblStep (atFactor R factor cfg)) FreshBlock h ops)
    (hpeak : peak (lHashtblStep (atFactor R factor cfg)) lHashtblCount h ops ≤ p) :
    ∃ h' answers, run (lHashtblStep (atFactor R factor cfg)) h ops = some (h', answers) ∧
      SizedTable (atFactor R factor cfg) (capacityBound capacity factor p) h' := by
  obtain ⟨h',_,answers,_,hrun,_,_,_⟩ :=
    run_refines lHashtblStep_refines ⟨[],lHashtblCreate_represents hcreate⟩ hfresh
  have hstart : SizedTable (atFactor R factor cfg) (capacityBound capacity factor p) h :=
    (lHashtblCreate_sized hcreate).mono (le_max_left _ _)
  refine ⟨h',answers,hrun,run_invariant ?_ hstart (admits_peak (hfresh.restrict hops) hpeak) hrun⟩
  rintro s op s' o hs ⟨⟨-,hop⟩,-,hcount⟩ hi
  exact lHashtblStep_sized hdouble hs hop (room_capacityBound hfactor (hcount _ hi)) hi

/-- Unless the load factor is 0.0, or when the first capacity is the largest, the capacity
of a table that is left to grow by itself stays proportional to its largest load. -/
theorem capacity_proportional (hdouble : R.round factor = factor) {capacity : ℤ}
    (hfactor : factor ≠ 0 ∨ 2 ^ 29 < capacity) {ops : List (Op K V)} (hops : ∀ op ∈ ops, Automatic op)
    (handleAlloc tableAlloc : Option ℕ) :
    (∀ (cfg : Config K) (h : Hashtbl K V),
      hashtblCreate (HashTable.atFactor R factor cfg) capacity handleAlloc tableAlloc = .ok h →
      ∃ h' answers, run (hashtblStep (HashTable.atFactor R factor cfg)) h ops = some (h', answers) ∧
        (h'.tableSize : ℚ) ≤ capacityBound capacity factor
          (peak (hashtblStep (HashTable.atFactor R factor cfg)) hashtblCount h ops)) ∧
    ∀ (cfg : LConfig K) (h : LHashtbl K V),
      lHashtblCreate (atFactor R factor cfg) capacity handleAlloc tableAlloc = some (.ok h) →
      Admits (lHashtblStep (atFactor R factor cfg)) FreshBlock h ops →
      ∃ h' answers, run (lHashtblStep (atFactor R factor cfg)) h ops = some (h', answers) ∧
        (h'.tableSize : ℚ) ≤ capacityBound capacity factor
          (peak (lHashtblStep (atFactor R factor cfg)) lHashtblCount h ops) := by
  constructor
  · intro cfg h hcreate
    obtain ⟨h',answers,hrun,hsized⟩ := hashtblRun_sized hdouble hfactor hcreate hops le_rfl
    exact ⟨h',answers,hrun,hsized.le⟩
  · intro cfg h hcreate hfresh
    obtain ⟨h',answers,hrun,hsized⟩ := lHashtblRun_sized hdouble hfactor hcreate hops hfresh le_rfl
    exact ⟨h',answers,hrun,hsized.le⟩

theorem capacity_proportional_sample :
    (∃ h' answers, run (hashtblStep (HashTable.atFactor exactly (3 / 4) collidingKeys))
        { collidingTable with
          resizeThreshold := (HashTable.atFactor exactly (3 / 4) collidingKeys).thresholdOf 1 }
        [.insert 1 (some 10) (some 3) (some 4), .remove 1] = some (h', answers) ∧
      (h'.tableSize : ℚ) ≤ capacityBound 1 (3 / 4)
        (peak (hashtblStep (HashTable.atFactor exactly (3 / 4) collidingKeys)) hashtblCount
          { collidingTable with
            resizeThreshold := (HashTable.atFactor exactly (3 / 4) collidingKeys).thresholdOf 1 }
          [.insert 1 (some 10) (some 3) (some 4), .remove 1])) ∧
    ∃ h' answers, run (lHashtblStep (atFactor exactly (3 / 4) lruConfig))
        { lruTable with resizeThreshold := (atFactor exactly (3 / 4) lruConfig).thresholdOf 1 }
        [.insert 1 (some 10) (some 3) (some 4), .remove 1] = some (h', answers) ∧
      (h'.tableSize : ℚ) ≤ capacityBound 1 (3 / 4)
        (peak (lHashtblStep (atFactor exactly (3 / 4) lruConfig)) lHashtblCount
          { lruTable with resizeThreshold := (atFactor exactly (3 / 4) lruConfig).thresholdOf 1 }
          [.insert 1 (some 10) (some 3) (some 4), .remove 1]) := by
  have hops : ∀ op ∈ ([.insert 1 (some 10) (some 3) (some 4), .remove 1] : List (Op ℕ ℕ)), Automatic op := by
    simp [Automatic]
  obtain ⟨hchained,hlinked⟩ := capacity_proportional (R := exactly) rfl
    (.inl (show (3 / 4 : ℚ) ≠ 0 by norm_num)) hops (some 1) (some 2)
  refine ⟨hchained collidingKeys _ rfl,hlinked lruConfig _ rfl ⟨⟨by decide,rfl⟩,fun _ _ => ?_⟩⟩
  exact ⟨trivial,fun _ _ => trivial⟩

def comeAndGo : List (Op ℕ ℕ) :=
  [.insert 1 (some 10) (some 3) (some 4), .remove 1, .insert 1 (some 10) (some 5) (some 6), .remove 1,
    .insert 1 (some 10) (some 7) (some 8)]

theorem atFactor_zero (cfg : Config K) :
    HashTable.atFactor exactly 0 cfg = { cfg with thresholdOf := fun _ => 0 } := by
  have hzero : ∀ capacity, resizeThreshold exactly capacity (storedFactor 0) = 0 := by
    intro capacity
    norm_num [resizeThreshold, storedFactor, exactly]
  unfold HashTable.atFactor
  simp only [hzero]

/-- At 0.0 every insertion doubles the capacity, although there is never more than one entry. -/
theorem capacity_atZero :
    (∃ h' answers,
      hashtblCreate (HashTable.atFactor exactly 0 collidingKeys) 1 (some 1) (some 2) = .ok collidingTable ∧
      run (hashtblStep (HashTable.atFactor exactly 0 collidingKeys)) collidingTable comeAndGo
        = some (h', answers) ∧
      capacityBound 1 0 (peak (hashtblStep (HashTable.atFactor exactly 0 collidingKeys)) hashtblCount
        collidingTable comeAndGo) < h'.tableSize) ∧
    ∃ h' answers,
      lHashtblCreate (atFactor exactly 0 lruConfig) 1 (some 1) (some 2) = some (.ok lruTable) ∧
      run (lHashtblStep (atFactor exactly 0 lruConfig)) lruTable comeAndGo = some (h', answers) ∧
      capacityBound 1 0 (peak (lHashtblStep (atFactor exactly 0 lruConfig)) lHashtblCount
        lruTable comeAndGo) < h'.tableSize := by
  have hbound : capacityBound 1 0 1 < (8 : ℕ) := by
    norm_num [capacityBound, roundedUp, documentedFactor]
  have hchained : HashTable.atFactor exactly 0 collidingKeys = collidingKeys := atFactor_zero collidingKeys
  have hlinked : atFactor exactly 0 lruConfig = lruConfig := by
    unfold atFactor
    rw [atFactor_zero]
    rfl
  rw [hchained, hlinked]
  constructor
  · have hsize : (run (hashtblStep collidingKeys) collidingTable comeAndGo).map (fun r => r.1.tableSize)
        = some 8 := by decide +kernel
    have hpeak : peak (hashtblStep collidingKeys) hashtblCount collidingTable comeAndGo = 1 := by
      decide +kernel
    obtain ⟨⟨h',answers⟩,hrun,hsize⟩ := Option.map_eq_some_iff.mp hsize
    exact ⟨h',answers,rfl,hrun,by rw [hpeak, hsize]; exact hbound⟩
  · have hsize : (run (lHashtblStep lruConfig) lruTable comeAndGo).map (fun r => r.1.tableSize)
        = some 8 := by decide +kernel
    have hpeak : peak (lHashtblStep lruConfig) lHashtblCount lruTable comeAndGo = 1 := by
      decide +kernel
    obtain ⟨⟨h',answers⟩,hrun,hsize⟩ := Option.map_eq_some_iff.mp hsize
    exact ⟨h',answers,rfl,hrun,by rw [hpeak, hsize]; exact hbound⟩

end CppExamples.LinkedTable
