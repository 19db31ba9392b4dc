import Mathlib

/-! # What both hash tables share

The caller's hash and equality functions with what their headers ask of them, the
slot of a hash value, the capacity that a requested one is rounded to, and the
calls in both directions.  The C files have their own copies of the arithmetic.
-/
namespace CppExamples.HashTable

/-- `hash_fn` and `equals_fn`: an equivalence on keys, and equal keys hash alike. -/
structure HashFns (K : Type*) where
  hashFn : K → BitVec 32
  equalsFn : K → K → Bool
  refl : ∀ k, equalsFn k k = true
  symm : ∀ {k l}, equalsFn k l = true → equalsFn l k = true
  trans : ∀ {k l m}, equalsFn k l = true → equalsFn l m = true → equalsFn k m = true
  hash_eq : ∀ {k l}, equalsFn k l = true → hashFn k = hashFn l

namespace HashFns
variable {K : Type*} (fns : HashFns K)

def setoid : Setoid K := ⟨fun k l => fns.equalsFn k l = true,fns.refl,fns.symm,fns.trans⟩

/-- Keys up to `equals_fn`. -/
def Key := Quotient fns.setoid

def toKey (k : K) : fns.Key := Quotient.mk fns.setoid k

theorem toKey_eq_iff {k l : K} : fns.toKey k = fns.toKey l ↔ fns.equalsFn k l = true :=
  Quotient.eq (r := fns.setoid)

instance : DecidableEq fns.Key :=
  @Quotient.decidableEq K fns.setoid fun k l => inferInstanceAs (Decidable (fns.equalsFn k l = true))

end HashFns

def collidingFns : HashFns ℕ where
  hashFn _ := 0
  equalsFn k l := k == l
  refl := by simp
  symm := by simp
  trans := by simp
  hash_eq := by simp

/-- `(int)hashval & (table_size - 1)`, for a positive table size. -/
def slotOf (tableSize : ℕ) (hashval : BitVec 32) : ℕ :=
  (hashval &&& BitVec.ofNat 32 (tableSize - 1)).toNat

theorem slotOf_lt {n : ℕ} (hn : 0 < n) (hv : BitVec 32) : slotOf n hv < n := by
  have hle : (hv &&& BitVec.ofNat 32 (n - 1)).toNat ≤ (BitVec.ofNat 32 (n - 1)).toNat := by
    rw [BitVec.toNat_and]
    exact Nat.and_le_right
  have hmod : (BitVec.ofNat 32 (n - 1)).toNat ≤ n - 1 := by
    rw [BitVec.toNat_ofNat]
    exact Nat.mod_le _ _
  unfold slotOf
  omega

def maxTableSize : ℕ := 2 ^ 30

theorem toNat_and_eq_ldiff {a k : ℕ} (ha : a < 2 ^ 32) (hk : k < 2 ^ 32) :
    a &&& k = Nat.ldiff k (2 ^ 32 - (a + 1)) := by
  apply Nat.eq_of_testBit_eq
  intro i
  rw [Nat.testBit_and, Nat.testBit_ldiff, Nat.testBit_two_pow_sub_succ ha]
  rcases lt_or_ge i 32 with hi | hi
  · simp [hi, Bool.and_comm]
  · have hbit : k.testBit i = false :=
        Nat.testBit_lt_two_pow (hk.trans_le (Nat.pow_le_pow_right two_pos hi))
    simp [hbit]

/-- The slot is the one that the masked `int` names, also where the hash is negative as an `int`. -/
theorem slotOf_signed {n : ℕ} (hn : 0 < n) (hle : n ≤ maxTableSize) (hv : BitVec 32) :
    (slotOf n hv : ℤ) = Int.land hv.toInt (n - 1) := by
  have hlt : n - 1 < 2 ^ 32 := by
    unfold maxTableSize at hle
    omega
  have hmask : ((n : ℤ) - 1) = ((n - 1 : ℕ) : ℤ) := by omega
  have hslot : slotOf n hv = hv.toNat &&& (n - 1) := by
    rw [slotOf, BitVec.toNat_and, BitVec.toNat_ofNat, Nat.mod_eq_of_lt hlt]
  rw [hslot, hmask, BitVec.toInt_eq_toNat_cond]
  split
  · rfl
  · have hneg : (hv.toNat : ℤ) - ((2 ^ 32 : ℕ) : ℤ) = Int.negSucc (2 ^ 32 - (hv.toNat + 1)) := by
      have := hv.isLt
      omega
    rw [toNat_and_eq_ldiff hv.isLt hlt, hneg]
    rfl

def isPowerOf2 (x : ℕ) : Bool := x &&& (x - 1) == 0

/-- The loop of `roundup_to_next_power_of_2`, with a bound on its iterations. -/
def roundupFrom (x : ℕ) : ℕ → ℕ → ℕ
  | 0, n => n
  | fuel + 1, n => if n < x then roundupFrom x fuel (2 * n) else n

/-- No argument below `maxTableSize` needs more than thirty doublings. -/
def roundupToNextPowerOf2 (x : ℕ) : ℕ := roundupFrom x 30 1

theorem roundupFrom_pos {x fuel n : ℕ} (hn : 0 < n) : 0 < roundupFrom x fuel n := by
  induction fuel generalizing n with
  | zero => exact hn
  | succ fuel ih =>
    unfold roundupFrom
    split
    · exact ih (by omega)
    · exact hn

/-- The head of both `resize` functions: the capacity used for a requested one. -/
def roundedCapacity (capacity : ℤ) : ℕ :=
  if capacity < 1 then 1
  else if (maxTableSize : ℤ) ≤ capacity then maxTableSize
  else if isPowerOf2 capacity.toNat then capacity.toNat
  else roundupToNextPowerOf2 capacity.toNat

theorem roundedCapacity_pos (capacity : ℤ) : 0 < roundedCapacity capacity := by
  unfold roundedCapacity
  split
  · exact Nat.one_pos
  split
  · exact Nat.two_pow_pos 30
  split
  · omega
  · exact roundupFrom_pos Nat.one_pos

/-- `2 * h->table_size` in two's-complement `int` arithmetic. -/
def doubled (tableSize : ℕ) : ℤ := Int.bmod (2 * tableSize) (2 ^ 32)

/-- `nentries >= (unsigned int)resize_threshold`. -/
def atThreshold (nentries : ℕ) (resizeThreshold : ℤ) : Bool :=
  decide (resizeThreshold % 2 ^ 32 ≤ nentries)

/-- A call of one of the caller's functions. -/
inductive Call (K V : Type*) where
  | malloc (block : Option ℕ)
  | free (block : ℕ)
  | keyFree (k : K)
  | valFree (v : Option V)

/-- What a table is created with and never changes.  `thresholdOf` is
`resize_threshold` at the load factor of the table. -/
structure Config (K : Type*) extends HashFns K where
  thresholdOf : ℕ → ℤ
  autoResize : Bool
  keyFreeFn : Bool
  valFreeFn : Bool

variable {K V : Type*}

def keyFreed (cfg : Config K) (k : K) : List (Call K V) := if cfg.keyFreeFn then [.keyFree k] else []

def valFreed (cfg : Config K) (v : Option V) : List (Call K V) := if cfg.valFreeFn then [.valFree v] else []

/-- A call of a table's function, with the outcomes of the allocations it may ask for. -/
inductive Op (K V : Type*) where
  | insert (k : K) (v : Option V) (tableAlloc entryAlloc : Option ℕ)
  | lookup (k : K)
  | remove (k : K)
  | clear
  | resize (capacity : ℤ) (tableAlloc : Option ℕ)
  | count

inductive Answer (V : Type*) where
  | code (n : ℕ)
  | val (v : Option V)
  | count (n : ℕ)
  | done

/-- A specification may leave an answer open. -/
def Agrees (answer : Answer V) (determined : Option (Answer V)) : Prop :=
  ∀ a ∈ determined, answer = a

end CppExamples.HashTable
