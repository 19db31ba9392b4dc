import CppExamples.Library.XorShift
import CppExamples.CHacks.HashtblInvariant

/-! # How the shipped hash functions spread their keys

Numbers hash to themselves, so that those of an interval come to the slots in turn and no
chain is longer than the interval goes round the table.  Pointers hash to a mix of their lower
half that loses nothing: every slot is that of as many words as any other.
-/
namespace CppExamples.HashTable
open Buckets Machine XorShift

/-- `*(unsigned int *)k`. -/
def hashtblIntHash (k : BitVec 32) : BitVec 32 := k
def hashtblIntEquals (a b : BitVec 32) : Bool := a.toInt == b.toInt

/-- `(unsigned int)*(long long *)k`. -/
def hashtblInt64Hash (k : BitVec 64) : BitVec 32 := k.setWidth 32
def hashtblInt64Equals (a b : BitVec 64) : Bool := a.toInt == b.toInt

def intFns : HashFns (BitVec 32) where
  hashFn := hashtblIntHash
  equalsFn := hashtblIntEquals
  refl k := by simp [hashtblIntEquals]
  symm h := by simpa [hashtblIntEquals] using (beq_iff_eq.mp h).symm
  trans h h' := by simpa [hashtblIntEquals] using (beq_iff_eq.mp h).trans (beq_iff_eq.mp h')
  hash_eq h := BitVec.eq_of_toInt_eq (beq_iff_eq.mp h)

def int64Fns : HashFns (BitVec 64) where
  hashFn := hashtblInt64Hash
  equalsFn := hashtblInt64Equals
  refl k := by simp [hashtblInt64Equals]
  symm h := by simpa [hashtblInt64Equals] using (beq_iff_eq.mp h).symm
  trans h h' := by simpa [hashtblInt64Equals] using (beq_iff_eq.mp h).trans (beq_iff_eq.mp h')
  hash_eq h := congrArg hashtblInt64Hash (BitVec.eq_of_toInt_eq (beq_iff_eq.mp h))

/-- Keys stand for numbers, and their hashes for the same numbers modulo 2^32. -/
structure HashFns.Numbers {K : Type*} (fns : HashFns K) (value : K → ℤ) : Prop where
  equals : ∀ {k l}, value k = value l → fns.equalsFn k l = true
  hash : ∀ k, ((fns.hashFn k).toNat : ℤ) ≡ value k [ZMOD 2 ^ 32]

theorem setWidth_modEq {w : ℕ} (hw : 32 ≤ w) (k : BitVec w) :
    ((k.setWidth 32).toNat : ℤ) ≡ k.toInt [ZMOD 2 ^ 32] := by
  have hlow : (k.toNat : ℤ) ≡ k.toInt [ZMOD ((2 ^ w : ℕ) : ℤ)] := by
    rw [BitVec.toInt_eq_toNat_bmod, Int.ModEq, Int.bmod_emod]
  have hdvd : (2 : ℤ) ^ 32 ∣ ((2 ^ w : ℕ) : ℤ) := by
    push_cast
    exact pow_dvd_pow 2 hw
  rw [BitVec.toNat_setWidth]
  push_cast
  exact (Int.mod_modEq _ _).trans (hlow.of_dvd hdvd)

theorem intFns_numbers : intFns.Numbers BitVec.toInt where
  equals h := beq_iff_eq.mpr h
  hash k := by
    have hword := setWidth_modEq le_rfl k
    rwa [BitVec.setWidth_eq] at hword

theorem int64Fns_numbers : int64Fns.Numbers BitVec.toInt where
  equals h := beq_iff_eq.mpr h
  hash := setWidth_modEq (by norm_num)

theorem slotOf_twoPow {j : ℕ} (hj : j ≤ 30) (hv : BitVec 32) : slotOf (2 ^ j) hv = hv.toNat % 2 ^ j := by
  have hpos := Nat.two_pow_pos j
  have hlt : 2 ^ j - 1 < 2 ^ 32 := by
    have := Nat.pow_le_pow_right Nat.two_pos hj
    omega
  rw [slotOf, BitVec.toNat_and, BitVec.toNat_ofNat, Nat.mod_eq_of_lt hlt, Nat.and_two_pow_sub_one_eq_mod]

variable {K V : Type*} {value : K → ℤ}

/-- Different numbers of an interval that have one remainder are no more than the times that the
interval goes round. -/
theorem length_le_of_modEq {l : List ℤ} (hl : l.Nodup) {a v r : ℤ} {n : ℕ} (hr : 0 < r)
    (hmem : ∀ x ∈ l, a ≤ x ∧ x < a + n ∧ x ≡ v [ZMOD r]) : (l.length : ℤ) ≤ (n + r - 1) / r := by
  -- each number is found from how often the interval has gone round before it
  have hround : ∀ x ∈ l.toFinset, (x - a) / r ∈ Finset.Ico 0 ((n + r - 1) / r) := by
    intro x hx
    obtain ⟨hlow,hhigh,-⟩ := hmem x (List.mem_toFinset.mp hx)
    have hle : (x - a) / r ≤ (n - 1) / r := Int.ediv_le_ediv hr (by omega)
    have hlast : (n + r - 1) / r = (n - 1) / r + 1 := by
      rw [show (n : ℤ) + r - 1 = n - 1 + 1 * r by ring, Int.add_mul_ediv_right _ _ hr.ne']
    exact Finset.mem_Ico.mpr ⟨Int.ediv_nonneg (by omega) hr.le,by omega⟩
  have hinj : Set.InjOn (fun x => (x - a) / r) l.toFinset := by
    intro x hx y hy he
    obtain ⟨-,-,hxv⟩ := hmem x (List.mem_toFinset.mp hx)
    obtain ⟨-,-,hyv⟩ := hmem y (List.mem_toFinset.mp hy)
    have hrest : (x - a) % r = (y - a) % r := (hxv.trans hyv.symm).sub_right a
    have he : (x - a) / r = (y - a) / r := he
    have hx' := Int.mul_ediv_add_emod (x - a) r
    rw [he, hrest, Int.mul_ediv_add_emod] at hx'
    omega
  have hcard := Finset.card_le_card_of_injOn _ hround hinj
  rw [List.toFinset_card_of_nodup hl, Int.card_Ico, sub_zero] at hcard
  have hnonneg : 0 ≤ ((n : ℤ) + r - 1) / r := Int.ediv_nonneg (by omega) hr.le
  omega

theorem chain_length_le {cfg : Config K} (hnumbers : cfg.toHashFns.Numbers value) {h : Hashtbl K V}
    (hinv : TableInvariant cfg h) {a : ℤ} {n : ℕ}
    (hkeys : ∀ entry ∈ h.chained, a ≤ value entry.key ∧ value entry.key < a + n) (i : ℕ) :
    ((h.table i).length : ℤ) ≤ (n + h.tableSize - 1) / h.tableSize := by
  obtain ⟨j,hj,hsize⟩ := hinv.power
  have hpos := Nat.two_pow_pos j
  by_cases hi : i < h.tableSize
  · have hnodup : ((h.table i).map fun entry => value entry.key).Nodup := by
      have hchain := (List.pairwise_flatMap.mp hinv.distinct).1 i (List.mem_range.mpr hi)
      refine List.pairwise_map.mpr (hchain.imp fun hne he => ?_)
      rw [hnumbers.equals he] at hne
      cases hne
    have hmem : ∀ x ∈ (h.table i).map fun entry => value entry.key,
        a ≤ x ∧ x < a + n ∧ x ≡ i [ZMOD h.tableSize] := by
      intro x hx
      obtain ⟨entry,hentry,rfl⟩ := List.mem_map.mp hx
      obtain ⟨hlow,hhigh⟩ := hkeys entry (List.mem_flatMap.mpr ⟨i,List.mem_range.mpr hi,hentry⟩)
      have hslot := hinv.slot i entry hentry
      rw [← slotOf_signed (by omega) (hsize ▸ Nat.pow_le_pow_right Nat.two_pos hj), hsize,
        slotOf_twoPow hj, hinv.hashed i entry hentry] at hslot
      have hdvd : (h.tableSize : ℤ) ∣ 2 ^ 32 := by
        rw [hsize, Nat.cast_pow, Nat.cast_ofNat]
        exact pow_dvd_pow 2 (by omega)
      refine ⟨hlow,hhigh,(hnumbers.hash entry.key).symm.of_dvd hdvd |>.trans ?_⟩
      rw [hslot, hsize]
      push_cast
      exact (Int.mod_modEq _ _).symm
    have hlen := length_le_of_modEq hnodup (by omega) hmem
    rwa [List.length_map] at hlen
  · have hnone : h.table i = [] := by
      refine List.eq_nil_iff_forall_not_mem.mpr fun entry hentry => hi (hinv.inside i entry hentry)
    rw [hnone, hsize]
    exact Int.ediv_nonneg (by omega) (by positivity)

theorem hashtblRun_chains {cfg : Config K} (hnumbers : cfg.toHashFns.Numbers value) {h : Hashtbl K V}
    {capacity : ℤ} {handleAlloc tableAlloc : Option ℕ}
    (hcreate : hashtblCreate cfg capacity handleAlloc tableAlloc = .ok h) (ops : List (Op K V)) :
    ∃ h' answers, run (hashtblStep cfg) h ops = some (h', answers) ∧ ∀ (a : ℤ) (n : ℕ),
      (∀ entry ∈ h'.chained, a ≤ value entry.key ∧ value entry.key < a + n) →
        ∀ i, ((h'.table i).length : ℤ) ≤ (n + h'.tableSize - 1) / h'.tableSize := by
  have hstep : ∀ (h : Hashtbl K V) (op : Op K V),
      ((∃ m, Represents cfg h m) ∧ ∃ j ≤ 30, h.tableSize = 2 ^ j) → True →
        ∃ h' answer, hashtblStep cfg h op = some (h', answer) ∧
          ((∃ m, Represents cfg h' m) ∧ ∃ j ≤ 30, h'.tableSize = 2 ^ j) ∧ True := by
    rintro h op ⟨⟨m,hr⟩,hpower⟩ -
    obtain ⟨h',m',answer,-,hs,-,-,hr'⟩ := hashtblStep_refines h m op hr
    exact ⟨h',answer,hs,⟨⟨m',hr'⟩,(hashtblStep_resizes hs).power hpower⟩,trivial⟩
  obtain ⟨h',answers,hrun,⟨⟨m,hr⟩,hpower⟩,-⟩ := run_total hstep
    ⟨⟨∅,hashtblCreate_represents hcreate⟩,(hashtblCreate_sized hcreate).power⟩
    (admits_of_forall (fun _ _ => trivial) h ops)
  exact ⟨h',answers,hrun,fun a n hkeys => chain_length_le hnumbers (hr.invariant hpower) hkeys⟩

/-- In every table that a run reaches with one of the pairs of functions for numbers, an
interval that holds the keys bounds the chains by the times it goes round the table: keys from
an interval no longer than the table do not collide. -/
theorem numberKeys_spread {capacity : ℤ} {handleAlloc tableAlloc : Option ℕ} :
    (∀ (cfg : Config (BitVec 32)) (h : Hashtbl (BitVec 32) V), cfg.toHashFns = intFns →
      hashtblCreate cfg capacity handleAlloc tableAlloc = .ok h → ∀ ops, ∃ h' answers,
        run (hashtblStep cfg) h ops = some (h', answers) ∧ ∀ (a : ℤ) (n : ℕ),
          (∀ entry ∈ h'.chained, a ≤ entry.key.toInt ∧ entry.key.toInt < a + n) →
            ∀ i, ((h'.table i).length : ℤ) ≤ (n + h'.tableSize - 1) / h'.tableSize) ∧
    ∀ (cfg : Config (BitVec 64)) (h : Hashtbl (BitVec 64) V), cfg.toHashFns = int64Fns →
      hashtblCreate cfg capacity handleAlloc tableAlloc = .ok h → ∀ ops, ∃ h' answers,
        run (hashtblStep cfg) h ops = some (h', answers) ∧ ∀ (a : ℤ) (n : ℕ),
          (∀ entry ∈ h'.chained, a ≤ entry.key.toInt ∧ entry.key.toInt < a + n) →
            ∀ i, ((h'.table i).length : ℤ) ≤ (n + h'.tableSize - 1) / h'.tableSize := by
  constructor
  · intro cfg h hfns hcreate ops
    exact hashtblRun_chains (hfns ▸ intFns_numbers) hcreate ops
  · intro cfg h hfns hcreate ops
    exact hashtblRun_chains (hfns ▸ int64Fns_numbers) hcreate ops

def intTable : Config (BitVec 32) where
  toHashFns := intFns
  thresholdOf := fun _ => 3
  autoResize := false
  keyFreeFn := false
  valFreeFn := false

def fourSlots : Hashtbl (BitVec 32) ℕ where
  table := fun _ => []
  tableSize := 4
  nentries := 0
  resizeThreshold := 3
  handle := 1
  tableBlock := some 2
  calls := [.malloc (some 1), .malloc (some 2)]

/-- The numbers -1 to 2 fill the four slots. -/
theorem numberKeys_spread_four :
    ∃ h' answers, hashtblCreate intTable 4 (some 1) (some 2) = .ok fourSlots ∧
      run (hashtblStep intTable) fourSlots [.insert (-1) (some 9) none (some 3),
        .insert 0 (some 10) none (some 4), .insert 1 (some 11) none (some 5),
        .insert 2 (some 12) none (some 6)] = some (h', answers) ∧
      h'.chained.length = 4 ∧ ∀ i, (h'.table i).length ≤ 1 := by
  have hcreate : hashtblCreate intTable 4 (some 1) (some 2) = .ok fourSlots := rfl
  obtain ⟨h',answers,hrun,hchains⟩ := numberKeys_spread.1 intTable fourSlots rfl hcreate
    [.insert (-1) (some 9) none (some 3), .insert 0 (some 10) none (some 4),
      .insert 1 (some 11) none (some 5), .insert 2 (some 12) none (some 6)]
  have hfacts : h'.tableSize = 4 ∧ h'.chained.length = 4 ∧
      ∀ entry ∈ h'.chained, -1 ≤ entry.key.toInt ∧ entry.key.toInt < -1 + (4 : ℕ) := by
    obtain ⟨rfl,-⟩ := Prod.mk.inj (Option.some.inj (hrun.symm.trans rfl))
    exact ⟨rfl,by decide,by decide⟩
  obtain ⟨hsize,hlength,hkeys⟩ := hfacts
  refine ⟨h',answers,hcreate,hrun,hlength,fun i => ?_⟩
  have hchain := hchains (-1) 4 hkeys i
  rw [hsize] at hchain
  norm_num at hchain
  exact hchain

/-- The shifts of Java 1.4 over the lower half of the pointer. -/
def hashtblDirectHash (k : BitVec 64) : BitVec 32 :=
  let h := k.setWidth 32
  let h := h ^^^ ((h >>> 20) ^^^ (h >>> 12))
  h ^^^ (h >>> 7) ^^^ (h >>> 4)

def directMix (h : BitVec 32) : BitVec 32 := xorShifts [7, 4] (xorShifts [20, 12] h)

theorem hashtblDirectHash_eq (k : BitVec 64) : hashtblDirectHash k = directMix (k.setWidth 32) := by
  simp only [hashtblDirectHash, directMix, xorShifts, List.foldl_cons, List.foldl_nil, BitVec.xor_assoc]

theorem directMix_injective : Function.Injective directMix :=
  (xorShifts_injective (by simp)).comp (xorShifts_injective (by simp))

/-- Two pointers hash alike exactly when their lower halves agree, and whatever the size of the
table, every slot is that of as many lower halves as any other. -/
theorem directHash_spread :
    (∀ a b : BitVec 64, hashtblDirectHash a = hashtblDirectHash b ↔ a.setWidth 32 = b.setWidth 32) ∧
    ∀ j ≤ 30, ∀ i < 2 ^ j, ((Finset.range (2 ^ 32)).filter fun x =>
      slotOf (2 ^ j) (hashtblDirectHash (BitVec.ofNat 64 x)) = i).card = 2 ^ (32 - j) := by
  refine ⟨fun a b => ?_,fun j hj i hi => ?_⟩
  · rw [hashtblDirectHash_eq, hashtblDirectHash_eq]
    exact directMix_injective.eq_iff
  · have hhalf : ∀ x, (BitVec.ofNat 64 x).setWidth 32 = BitVec.ofNat 32 x := by
      intro x
      apply BitVec.eq_of_toNat_eq
      simp
    simp only [hashtblDirectHash_eq, hhalf, slotOf_twoPow hj]
    exact (card_filter_mix directMix_injective (· % 2 ^ j = i)).trans (card_filter_mod (by omega) hi)

end CppExamples.HashTable
