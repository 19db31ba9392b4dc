import CppExamples.CHacks.Leb128Canonical

/-! # Signed arithmetic in the LEB128 decoders

The signed decoders shift in `long` and `long long`.  The numbers they compute are listed
with their exact values; `value |= …` joins them to the result.  On the encoding of a value
they all fit the type until a negative value needs a ninth byte: then `1L << 63` does not,
and in a tenth byte neither does `0x7f << 63`.
-/
namespace CppExamples.Leb128
open Memory

/-- A number of type `long` or `long long`. -/
def Representable (x : ℤ) : Prop := -2 ^ 63 ≤ x ∧ x < 2 ^ 63

/-- An expression of signed type in the decoders: `(byte & 0x7f) << shift`, `1L << shift`
and `-(1L << shift)`. -/
inductive Intermediate where
  | shifted (byte : Byte) (shift : ℕ)
  | bit (shift : ℕ)
  | negated (shift : ℕ)

namespace Intermediate

def exact : Intermediate → ℤ
  | shifted byte shift => payload byte * 2 ^ shift
  | bit shift => 2 ^ shift
  | negated shift => -2 ^ shift

def joined (value : Word) : Intermediate → Word
  | shifted byte shift => value ||| BitVec.ofInt 64 (shifted byte shift).exact
  | bit _ => value
  | negated shift => value ||| BitVec.ofInt 64 (negated shift).exact

end Intermediate

/-- The expressions of the sign extension behind the loop. -/
def extensionIntermediates (byte : Byte) (shift : ℕ) : List Intermediate :=
  if shift < 64 ∧ byte &&& 0x40#8 ≠ 0 then [.bit shift, .negated shift] else []

/-- The expressions of signed type that the signed decoders evaluate from pointer `p` on. -/
def intermediates (mem : ℕ → Byte) (p shift : ℕ) : List Intermediate :=
  if shift < 64 then
    let byte := mem p
    if byte &&& 0x80#8 ≠ 0 then .shifted byte shift :: intermediates mem (p + 1) (shift + 7)
    else .shifted byte shift :: extensionIntermediates byte (shift + 7)
  else []
termination_by 64 - shift

def leb128DecodeLIntermediates (mem : ℕ → Byte) (buf : ℕ) : List Intermediate :=
  intermediates mem buf 0
def leb128DecodeLlIntermediates (mem : ℕ → Byte) (buf : ℕ) : List Intermediate :=
  intermediates mem buf 0

def InRange (l : List Intermediate) : Prop := ∀ x ∈ l, Representable x.exact

theorem inRange_cons {x : Intermediate} {l : List Intermediate} :
    InRange (x :: l) ↔ Representable x.exact ∧ InRange l := List.forall_mem_cons

theorem ofInt_mul_two_pow (x : ℤ) (shift : ℕ) :
    BitVec.ofInt 64 (x * 2 ^ shift) = BitVec.ofInt 64 x <<< shift := by
  rw [BitVec.ofInt_mul, BitVec.shiftLeft_eq_mul_twoPow]
  congr 1
  apply BitVec.eq_of_toNat_eq
  rw [BitVec.toNat_ofInt, BitVec.toNat_twoPow]
  norm_cast

theorem joined_shifted (value : Word) (byte : Byte) (shift : ℕ) :
    Intermediate.joined value (.shifted byte shift) =
      value ||| (byte &&& 0x7f#8).setWidth 64 <<< shift := by
  have hpayload : BitVec.ofNat 64 (payload byte) = (byte &&& 0x7f#8).setWidth 64 := by
    rw [payload, BitVec.ofNat_toNat]
  rw [Intermediate.joined, Intermediate.exact, ofInt_mul_two_pow, BitVec.ofInt_natCast, hpayload]

theorem joined_negated (value : Word) (shift : ℕ) :
    Intermediate.joined value (.negated shift) = value ||| -(1#64 <<< shift) := by
  have hpow := ofInt_mul_two_pow (-1) shift
  rw [Intermediate.joined, Intermediate.exact, neg_one_shiftLeft, ← neg_one_mul, hpow]
  rfl

theorem foldl_extensionIntermediates (byte : Byte) (shift : ℕ) (value : Word) :
    (extensionIntermediates byte shift).foldl Intermediate.joined value =
      signExtend byte shift value := by
  unfold extensionIntermediates signExtend
  split
  · exact joined_negated value shift
  · rfl

/-- A decoder's result is what its expressions join to. -/
theorem decodeSigned_foldl {mem : ℕ → Byte} {p shift q : ℕ} {value result : Word}
    (h : decodeSigned mem p shift value = some (q, result)) :
    result = (intermediates mem p shift).foldl Intermediate.joined value := by
  fun_induction decodeSigned mem p shift value with
  | case1 p shift value hs byte joined hmore ih =>
    have hlist : intermediates mem p shift =
        .shifted byte shift :: intermediates mem (p + 1) (shift + 7) := by
      rw [intermediates, if_pos hs, if_pos hmore]
    rw [ih h, hlist, List.foldl_cons, joined_shifted]
  | case2 p shift value hs byte joined hmore =>
    rw [intermediates, if_pos hs, if_neg hmore, List.foldl_cons, joined_shifted,
      foldl_extensionIntermediates]
    exact (congrArg Prod.snd (Option.some.inj h)).symm
  | case3 => exact absurd h (by simp)

theorem representable_pow {n : ℕ} : Representable (2 ^ n) ↔ n < 63 := by
  rw [Representable, pow_lt_pow_iff_right₀ (by norm_num)]
  exact and_iff_right (le_trans (by norm_num) (pow_nonneg (by norm_num) n))

theorem representable_neg_pow {n : ℕ} (hn : n ≤ 63) : Representable (-2 ^ n) := by
  have hle : (2 : ℤ) ^ n ≤ 2 ^ 63 := pow_le_pow_right₀ (by norm_num) hn
  have hpos : (0 : ℤ) < 2 ^ n := pow_pos (by norm_num) n
  constructor <;> omega

theorem representable_shifted (byte : Byte) {shift : ℕ} (hs : shift ≤ 56) :
    Representable (Intermediate.shifted byte shift).exact := by
  have hlt := payload_lt byte
  have hle : (2 : ℤ) ^ shift ≤ 2 ^ 56 := pow_le_pow_right₀ (by norm_num) hs
  have hpos : (0 : ℤ) < 2 ^ shift := pow_pos (by norm_num) shift
  have hmul : (payload byte : ℤ) * 2 ^ shift ≤ 127 * 2 ^ 56 :=
    mul_le_mul (by omega) hle hpos.le (by norm_num)
  have hnonneg : 0 ≤ (payload byte : ℤ) * 2 ^ shift := by positivity
  constructor <;> rw [Intermediate.exact] <;> omega

/-- The values whose groups from bit `shift` on are decoded within the type: a negative one
must end below the ninth byte. -/
def Decodable (value : Word) (shift : ℕ) : Prop :=
  0 ≤ value.toInt ∨ shift ≤ 49 ∧ -2 ^ (55 - shift) ≤ value.toInt

theorem decodable_rest {value : Word} {k : ℕ} (hk : k + 1 < 10)
    (hr : ¬ signedStop (group value) (value.sshiftRight 7) = true) :
    Decodable (value.sshiftRight 7) (7 * (k + 1)) ↔ Decodable value (7 * k) := by
  have hlarge : ¬ (-64 ≤ value.toInt ∧ value.toInt < 64) := fun h => hr (signedStop_of_small h.1 h.2)
  rw [Decodable, Decodable, toInt_sshiftRight_seven]
  by_cases hk7 : k < 7
  · have hp : (2 ^ (55 - 7 * k) : ℤ) = 2 ^ (55 - 7 * (k + 1)) * 2 ^ 7 := by
      rw [← pow_add]
      congr 1
      omega
    constructor <;> rintro (h | ⟨h,hlo⟩)
    all_goals omega
  · have hp : k = 7 → (2 ^ (55 - 7 * k) : ℤ) = 64 := by
      rintro rfl
      norm_num
    constructor
    · rintro (h | ⟨h,-⟩) <;> omega
    · rintro (h | ⟨h,hlo⟩)
      · omega
      · have := hp (by omega)
        omega

theorem inRange_lastNonneg {value : Word} {k : ℕ} (hk : k < 10) (hv : SignedFits value (7 * k))
    (hrest : value.sshiftRight 7 = 0#64) (hb : group value &&& 0x40#8 = 0) :
    InRange (.shifted (group value) (7 * k) :: extensionIntermediates (group value) (7 * k + 7)) ↔
      Decodable value (7 * k) := by
  have hshift := toInt_sshiftRight_seven value
  have hmod := toInt_emod value
  rw [hrest, BitVec.toInt_zero] at hshift
  rw [inRange_cons, extensionIntermediates, if_neg (fun h => h.2 hb),
    iff_true_right (.inl (by omega))]
  refine ⟨?_,by simp [InRange]⟩
  by_cases hk9 : k = 9
  · obtain ⟨hlo,hhi⟩ := hv
    rw [hk9] at hhi
    have hzero : payload (group value) = 0 := by
      rw [payload_group]
      norm_num at hhi
      omega
    rw [Intermediate.exact, hzero, Nat.cast_zero, zero_mul]
    constructor <;> norm_num
  · exact representable_shifted _ (by omega)

theorem inRange_lastNegative {value : Word} {k : ℕ} (hk : k < 10) (hv : SignedFits value (7 * k))
    (hrest : value.sshiftRight 7 = -1#64) (hb : group value &&& 0x40#8 ≠ 0) :
    InRange (.shifted (group value) (7 * k) :: extensionIntermediates (group value) (7 * k + 7)) ↔
      Decodable value (7 * k) := by
  have hshift := toInt_sshiftRight_seven value
  have hmod := toInt_emod value
  have hminus : (-1#64 : Word).toInt = -1 := by decide
  have hstop := (signedStop_iff (group value) (value.sshiftRight 7)).mpr (.inr ⟨hrest,hb⟩)
  have hvalue := signedValue_encodeSigned value
  rw [encodeSigned, if_pos hstop] at hvalue
  obtain ⟨hlo,-,-⟩ := signedValue_last (group value)
  rw [hrest, hminus] at hshift
  rw [inRange_cons, extensionIntermediates]
  by_cases hk7 : k ≤ 7
  · -- they are those of a power below `2 ^ 63`
    have hpow : (2 : ℤ) ^ 6 ≤ 2 ^ (55 - 7 * k) := pow_le_pow_right₀ (by norm_num) (by omega)
    have hdecodable : Decodable value (7 * k) := .inr ⟨by omega,by omega⟩
    rw [if_pos ⟨by omega,hb⟩, iff_true_right hdecodable]
    refine ⟨representable_shifted _ (by omega),inRange_cons.mpr ⟨?_,inRange_cons.mpr ⟨?_,?_⟩⟩⟩
    · exact representable_pow.mpr (by omega)
    · exact representable_neg_pow (by omega)
    · simp [InRange]
  · have hdecodable : ¬ Decodable value (7 * k) := by
      rintro (h | ⟨h,-⟩) <;> omega
    rw [iff_false_right hdecodable]
    rintro ⟨hshifted,hextension⟩
    by_cases hk9 : k = 9
    · -- `0x7f << 63`
      have hpayload : payload (group value) = 127 := by
        obtain ⟨hlo,-⟩ := hv
        rw [hk9] at hlo
        rw [payload_group]
        norm_num at hlo
        omega
      rw [Intermediate.exact, hpayload, hk9, Representable] at hshifted
      norm_num at hshifted
    · -- `1L << 63`
      rw [if_pos ⟨by omega,hb⟩, inRange_cons, Intermediate.exact, representable_pow] at hextension
      omega

theorem inRange_last {value : Word} {k : ℕ} (hk : k < 10) (hv : SignedFits value (7 * k))
    (hstop : signedStop (group value) (value.sshiftRight 7) = true) :
    InRange (.shifted (group value) (7 * k) :: extensionIntermediates (group value) (7 * k + 7)) ↔
      Decodable value (7 * k) := by
  rcases (signedStop_iff _ _).mp hstop with ⟨hrest,hb⟩ | ⟨hrest,hb⟩
  · exact inRange_lastNonneg hk hv hrest hb
  · exact inRange_lastNegative hk hv hrest hb

theorem inRange_encodeSigned (value : Word) {mem : ℕ → Byte} {p k : ℕ} (hk : k < 10)
    (hv : SignedFits value (7 * k))
    (hm : load mem p (encodeSigned value).length = encodeSigned value) :
    InRange (intermediates mem p (7 * k)) ↔ Decodable value (7 * k) := by
  induction value using encodeSigned.induct generalizing p k with
  | case1 value hstop =>
    have he : encodeSigned value = [group value] := by rw [encodeSigned, if_pos hstop]
    rw [he] at hm
    obtain ⟨hb,-⟩ := load_eq_cons hm
    rw [intermediates, if_pos (by omega), hb, if_neg (not_not.mpr (group_last value))]
    exact inRange_last hk hv hstop
  | case2 value hstop ih =>
    have he : encodeSigned value =
        (group value ||| 0x80#8) :: encodeSigned (value.sshiftRight 7) := by
      rw [encodeSigned, if_neg hstop]
    rw [he] at hm
    obtain ⟨hb,htail⟩ := load_eq_cons hm
    obtain ⟨hroom,hfit⟩ := signed_room (by omega) hv hstop
    have hnext : 7 * k + 7 = 7 * (k + 1) := by omega
    rw [hnext] at hfit
    rw [intermediates, if_pos (by omega), hb, if_pos (flagged_more _), inRange_cons, hnext,
      ih (by omega) hfit htail, decodable_rest (by omega) hstop]
    exact and_iff_right (representable_shifted _ (by omega))

/-- Decoding what the signed encoders write stays within the type exactly from `-2 ^ 55` on. -/
theorem signed_decode_inRange (value : Word) (mem : ℕ → Byte) (buf : ℕ) :
    (InRange (leb128DecodeLIntermediates (store mem buf (leb128EncodeL value)) buf) ↔
        -2 ^ 55 ≤ value.toInt) ∧
      (InRange (leb128DecodeLlIntermediates (store mem buf (leb128EncodeLl value)) buf) ↔
        -2 ^ 55 ≤ value.toInt) := by
  have hrange := inRange_encodeSigned value (k := 0) (by omega) ⟨value.le_toInt,value.toInt_lt⟩
    (load_store_self mem buf (encodeSigned value))
  have hdecodable : Decodable value 0 ↔ -2 ^ 55 ≤ value.toInt := by
    constructor
    · rintro (h | ⟨-,h⟩) <;> omega
    · exact fun h => .inr ⟨by omega,h⟩
  exact ⟨hrange.trans hdecodable,hrange.trans hdecodable⟩

/-- At the value below that bound `1L << 63` is computed. -/
theorem signed_decode_overflow :
    ¬ InRange (leb128DecodeLIntermediates (store (fun _ => 0#8) 0
        (leb128EncodeL (BitVec.ofInt 64 (-2 ^ 55 - 1)))) 0) ∧
      ¬ InRange (leb128DecodeLlIntermediates (store (fun _ => 0#8) 0
        (leb128EncodeLl (BitVec.ofInt 64 (-2 ^ 55 - 1)))) 0) := by
  have hrange := inRange_encodeSigned (BitVec.ofInt 64 (-2 ^ 55 - 1)) (k := 0) (by omega)
    ⟨BitVec.le_toInt _,BitVec.toInt_lt⟩ (load_store_self (fun _ => 0#8) 0 (encodeSigned _))
  have hundecodable : ¬ Decodable (BitVec.ofInt 64 (-2 ^ 55 - 1)) (7 * 0) := by
    rintro (h | ⟨-,h⟩)
    · exact absurd h (by decide)
    · exact absurd h (by decide)
  have hoverflow := mt hrange.mp hundecodable
  exact ⟨hoverflow,hoverflow⟩

end CppExamples.Leb128
