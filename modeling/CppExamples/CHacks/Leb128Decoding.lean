import CppExamples.CHacks.Leb128Canonical

/-! # What the LEB128 decoders read

A decoder accumulates the exact value of a terminated string modulo the width of the word,
for as long as the shift stays below that width: the shift grows by seven with every byte,
so the eleventh byte is one too many, also when it carries no more than padding.
-/
namespace CppExamples.Leb128
open Memory

theorem toNat_ofInt (r : ℤ) : ((BitVec.ofInt 64 r).toNat : ℤ) = r % 2 ^ 64 := by
  rw [BitVec.toNat_ofInt]
  omega

theorem shiftLeft_payload (b : Byte) (r : ℤ) (shift : ℕ) :
    (b &&& 0x7f#8).setWidth 64 <<< shift ||| (BitVec.ofInt 64 r) <<< (shift + 7) =
      (BitVec.ofInt 64 (payload b + 128 * r)) <<< shift := by
  have hlt := payload_lt b
  have hvalue := toNat_ofInt (payload b + 128 * r)
  have hrest := toNat_ofInt r
  have hlow : (b &&& 0x7f#8).setWidth 64 = BitVec.ofInt 64 (payload b + 128 * r) &&& 0x7f#64 := by
    apply BitVec.eq_of_toNat_eq
    rw [BitVec.toNat_and, show (0x7f#64).toNat = 2 ^ 7 - 1 from rfl, Nat.and_two_pow_sub_one_eq_mod,
      BitVec.toNat_setWidth]
    change payload b % 2 ^ 64 = _
    omega
  have hhigh : (BitVec.ofInt 64 r) <<< 7 = (BitVec.ofInt 64 (payload b + 128 * r) >>> 7) <<< 7 := by
    apply BitVec.eq_of_toNat_eq
    rw [BitVec.toNat_shiftLeft, BitVec.toNat_shiftLeft, toNat_ushiftRight_seven, Nat.shiftLeft_eq,
      Nat.shiftLeft_eq]
    omega
  rw [hlow, Nat.add_comm shift 7, BitVec.shiftLeft_add, hhigh, ← BitVec.shiftLeft_add,
    Nat.add_comm 7 shift, shiftLeft_groups]

theorem decodeUnsigned_eq {bytes : List Byte} (hbytes : Terminated bytes) {mem : ℕ → Byte}
    {p : ℕ} (shift : ℕ) (acc : Word) (hload : load mem p bytes.length = bytes) :
    decodeUnsigned mem p shift acc = if shift + 7 * bytes.length < 71 then
      some (p + bytes.length, acc ||| BitVec.ofInt 64 (unsignedValue bytes) <<< shift) else none := by
  induction hbytes generalizing p shift acc with
  | @last b hb =>
    obtain ⟨hmem,-⟩ := load_eq_cons hload
    have hjoin := shiftLeft_payload b 0 shift
    rw [BitVec.ofInt_ofNat, BitVec.zero_shiftLeft, BitVec.or_zero] at hjoin
    rw [decodeUnsigned, hmem, if_pos hb, hjoin]
    simp only [List.length_singleton, unsignedValue, Nat.cast_add, Nat.cast_mul]
    exact if_congr (by omega) rfl rfl
  | @more b bs hb hbs ih =>
    obtain ⟨hmem,htail⟩ := load_eq_cons hload
    have hpos := List.length_pos_iff.mpr hbs.ne_nil
    rw [decodeUnsigned, hmem]
    split
    · rw [if_neg hb, ih _ _ htail, BitVec.or_assoc, shiftLeft_payload, List.length_cons]
      simp only [unsignedValue, Nat.cast_add, Nat.cast_mul, Nat.cast_ofNat]
      rw [show p + 1 + bs.length = p + (bs.length + 1) by omega]
      exact if_congr (by omega) rfl rfl
    · rw [List.length_cons, if_neg (by omega)]

/-- The sign extension is by the bits above the last byte. -/
theorem signExtend_eq (b : Byte) (shift : ℕ) (acc : Word) :
    signExtend b (shift + 7) (acc ||| (b &&& 0x7f#8).setWidth 64 <<< shift) =
      acc ||| BitVec.ofInt 64 (signedValue [b]) <<< shift := by
  by_cases hb : b &&& 0x40#8 ≠ 0
  · have hjoin := shiftLeft_payload b (-1) shift
    rw [signExtend_of_stop ((signedStop_iff b (-1#64)).mpr (.inr ⟨rfl,hb⟩)), BitVec.or_assoc,
      signedValue, if_pos hb]
    exact congrArg _ hjoin
  · have hjoin := shiftLeft_payload b 0 shift
    rw [signExtend_of_stop ((signedStop_iff b 0#64).mpr (.inl ⟨rfl,not_not.mp hb⟩)), BitVec.or_assoc,
      signedValue, if_neg hb]
    exact congrArg _ hjoin

theorem decodeSigned_eq {bytes : List Byte} (hbytes : Terminated bytes) {mem : ℕ → Byte}
    {p : ℕ} (shift : ℕ) (acc : Word) (hload : load mem p bytes.length = bytes) :
    decodeSigned mem p shift acc = if shift + 7 * bytes.length < 71 then
      some (p + bytes.length, acc ||| BitVec.ofInt 64 (signedValue bytes) <<< shift) else none := by
  induction hbytes generalizing p shift acc with
  | @last b hb =>
    obtain ⟨hmem,-⟩ := load_eq_cons hload
    rw [decodeSigned, hmem, if_neg (not_not.mpr hb), signExtend_eq, List.length_singleton]
    exact if_congr (by omega) rfl rfl
  | @more b bs hb hbs ih =>
    obtain ⟨hmem,htail⟩ := load_eq_cons hload
    have hpos := List.length_pos_iff.mpr hbs.ne_nil
    rw [decodeSigned, hmem]
    split
    · rw [if_pos hb, ih _ _ htail, BitVec.or_assoc, shiftLeft_payload, List.length_cons,
        signedValue_cons b hbs.ne_nil]
      rw [show p + 1 + bs.length = p + (bs.length + 1) by omega]
      exact if_congr (by omega) rfl rfl
    · rw [List.length_cons, if_neg (by omega)]

theorem decode_eq (kind : Kind) {bytes : List Byte} (hbytes : Terminated bytes) {mem : ℕ → Byte}
    {p : ℕ} (hload : load mem p bytes.length = bytes) :
    decode kind mem p = if bytes.length ≤ 10 then
      some (p + bytes.length, BitVec.ofInt 64 (exactValue kind bytes)) else none := by
  have hu := decodeUnsigned_eq hbytes 0 0#64 hload
  have hs := decodeSigned_eq hbytes 0 0#64 hload
  have hlen : 0 + 7 * bytes.length < 71 ↔ bytes.length ≤ 10 := by omega
  rw [BitVec.shiftLeft_zero, BitVec.zero_or, if_congr hlen rfl rfl] at hu hs
  cases kind with
  | ul => exact hu
  | ull => exact hu
  | l => exact hs
  | ll => exact hs

/-- A terminated string is read for its exact value modulo the width of the word, without a
shift by that width or more, exactly when it has at most ten bytes. -/
theorem decode_terminated (kind : Kind) {bytes : List Byte} (hbytes : Terminated bytes)
    {mem : ℕ → Byte} {p : ℕ} (hload : load mem p bytes.length = bytes) :
    decode kind mem p = some (p + bytes.length, BitVec.ofInt 64 (exactValue kind bytes)) ↔
      bytes.length ≤ 10 := by
  rw [decode_eq kind hbytes hload]
  constructor
  · intro hsome
    by_contra hlong
    rw [if_neg hlong] at hsome
    exact absurd hsome (by simp)
  · intro hlong
    rw [if_pos hlong]

/-- Two bytes, the second of them padding. -/
theorem decode_terminated_padded :
    decode .ull (store (fun _ => 0#8) 0 [0x81#8, 0x00#8]) 0 = some (2, 1#64) :=
  (decode_terminated .ull (.more (by decide) (.last (by decide))) (load_store_self _ _ _)).mpr
    (by decide)

def paddedOne : List Byte := 0x81#8 :: List.replicate 9 0x80#8 ++ [0x00#8]

theorem decode_paddedOne : Terminated paddedOne ∧ exactValue .ull paddedOne = 1 ∧
    decode .ull (store (fun _ => 0#8) 0 paddedOne) 0 = none := by
  have hmore : (0x80#8 : Byte) &&& 0x80#8 ≠ 0 := by decide
  have hterminated : Terminated paddedOne :=
    .more (by decide) (.more hmore (.more hmore (.more hmore (.more hmore (.more hmore
      (.more hmore (.more hmore (.more hmore (.more hmore (.last (by decide)))))))))))
  refine ⟨hterminated,by decide,?_⟩
  rw [decode_eq .ull hterminated (load_store_self _ _ _)]
  rfl

end CppExamples.Leb128
