import CppExamples.CHacks.Leb128

/-! # LEB128 streams round-trip

A group of seven bits and the shifted rest join to the value again, for the
logical and for the arithmetic shift.  From that each decoder inverts its encoder
at every shift the loop can reach, and streams of mixed items invert by
induction on their list.
-/
namespace CppExamples.Leb128
open Memory

theorem getLsbD_mask (i : ℕ) : (0x7f#64).getLsbD i = decide (i < 7) := by
  rw [show (0x7f#64) = BitVec.ofNat 64 (2 ^ 7 - 1) from rfl, BitVec.getLsbD_ofNat,
    Nat.testBit_two_pow_sub_one]
  by_cases h : i < 7
  · simp [h, show i < 64 by omega]
  · simp [h]

theorem shiftLeft_groups (value : Word) (shift : ℕ) :
    (value &&& 0x7f#64) <<< shift ||| (value >>> 7) <<< (shift + 7) = value <<< shift := by
  apply BitVec.eq_of_getLsbD_eq
  intro i hi
  simp only [BitVec.getLsbD_or, BitVec.getLsbD_shiftLeft, BitVec.getLsbD_and, getLsbD_mask,
    BitVec.getLsbD_ushiftRight, hi, decide_true, Bool.true_and]
  by_cases h : i < shift
  · simp [h, show i < shift + 7 by omega]
  · by_cases h7 : i < shift + 7
    · simp [h, h7, show i - shift < 7 by omega]
    · simp [h, h7, show ¬ i - shift < 7 by omega, show 7 + (i - (shift + 7)) = i - shift by omega]

theorem shiftLeft_groups_signed (value : Word) (shift : ℕ) :
    (value &&& 0x7f#64) <<< shift ||| (value.sshiftRight 7) <<< (shift + 7) = value <<< shift := by
  apply BitVec.eq_of_getLsbD_eq
  intro i hi
  simp only [BitVec.getLsbD_or, BitVec.getLsbD_shiftLeft, BitVec.getLsbD_and, getLsbD_mask,
    BitVec.getLsbD_sshiftRight, hi, decide_true, Bool.true_and]
  by_cases h : i < shift
  · simp [h, show i < shift + 7 by omega]
  · by_cases h7 : i < shift + 7
    · simp [h, h7, show i - shift < 7 by omega]
    · simp [h, h7, show ¬ i - shift < 7 by omega, show 7 + (i - (shift + 7)) = i - shift by omega,
        show i - shift < 64 by omega, show i - (shift + 7) < 64 by omega]

theorem neg_one_shiftLeft (n : ℕ) : -(1#64 <<< n) = (-1#64) <<< n := by
  rw [BitVec.shiftLeft_eq_mul_twoPow, BitVec.shiftLeft_eq_mul_twoPow, BitVec.neg_mul]

theorem group_eq (value : Word) : group value = value.setWidth 8 &&& 0x7f#8 := by
  rw [group, BitVec.setWidth_and]
  rfl

theorem group_payload (value : Word) : (group value &&& 0x7f#8).setWidth 64 = value &&& 0x7f#64 := by
  rw [group_eq, BitVec.and_assoc, BitVec.and_self, ← group_eq]
  apply BitVec.eq_of_getLsbD_eq
  intro i hi
  rw [BitVec.getLsbD_setWidth, group, BitVec.getLsbD_setWidth, BitVec.getLsbD_and, getLsbD_mask]
  by_cases h : i < 7
  · simp [h, hi, show i < 8 by omega]
  · simp [h]

theorem group_last (value : Word) : group value &&& 0x80#8 = 0 := by
  rw [group_eq, BitVec.and_assoc, show (0x7f#8 &&& 0x80#8 : Byte) = 0 from rfl]
  exact BitVec.and_zero

theorem flagged_payload (byte : Byte) : (byte ||| 0x80#8) &&& 0x7f#8 = byte &&& 0x7f#8 := by
  revert byte
  decide

theorem flagged_more (byte : Byte) : (byte ||| 0x80#8) &&& 0x80#8 ≠ 0 := by
  revert byte
  decide

theorem load_eq_cons {mem : ℕ → Byte} {p : ℕ} {b : Byte} {bs : List Byte}
    (h : load mem p (b :: bs).length = b :: bs) : mem p = b ∧ load mem (p + 1) bs.length = bs := by
  rw [List.length_cons, load_succ] at h
  exact List.cons.inj h

theorem unsigned_room {value : Word} {shift : ℕ} (hs : shift < 64)
    (hv : value.toNat < 2 ^ (64 - shift)) (hr : value >>> 7 ≠ 0#64) :
    shift + 7 < 64 ∧ (value >>> 7).toNat < 2 ^ (64 - (shift + 7)) := by
  have hn : (value >>> 7).toNat ≠ 0 := fun h => hr (BitVec.eq_of_toNat_eq h)
  rw [toNat_ushiftRight_seven] at hn ⊢
  have hroom : shift + 7 < 64 := by
    by_contra hc
    have hp : 2 ^ (64 - shift) ≤ 2 ^ 7 := Nat.pow_le_pow_right (by omega) (by omega)
    omega
  refine ⟨hroom,?_⟩
  have hp : 2 ^ (64 - shift) = 2 ^ (64 - (shift + 7)) * 2 ^ 7 := by
    rw [← Nat.pow_add]
    congr 1
    omega
  omega

theorem decodeUnsigned_encodeUnsigned (value : Word) {mem : ℕ → Byte} {p shift : ℕ} {acc : Word}
    (hs : shift < 64) (hv : value.toNat < 2 ^ (64 - shift))
    (hm : load mem p (encodeUnsigned value).length = encodeUnsigned value) :
    decodeUnsigned mem p shift acc =
      some (p + (encodeUnsigned value).length, acc ||| value <<< shift) := by
  induction value using encodeUnsigned.induct generalizing p shift acc with
  | case1 value hrest ih =>
    have he : encodeUnsigned value = (group value ||| 0x80#8) :: encodeUnsigned (value >>> 7) := by
      rw [encodeUnsigned, if_pos hrest]
    rw [he] at hm ⊢
    obtain ⟨hb,htail⟩ := load_eq_cons hm
    obtain ⟨hroom,hfit⟩ := unsigned_room hs hv hrest
    rw [decodeUnsigned, if_pos hs, hb, if_neg (flagged_more _), flagged_payload, group_payload,
      ih hroom hfit htail, BitVec.or_assoc, shiftLeft_groups]
    simp only [List.length_cons, Option.some.injEq, Prod.mk.injEq, and_true]
    omega
  | case2 value hrest =>
    have he : encodeUnsigned value = [group value] := by rw [encodeUnsigned, if_neg hrest]
    rw [he] at hm ⊢
    obtain ⟨hb,-⟩ := load_eq_cons hm
    have hj := shiftLeft_groups value shift
    rw [not_not.mp hrest, BitVec.zero_shiftLeft, BitVec.or_zero] at hj
    rw [decodeUnsigned, if_pos hs, hb, if_pos (group_last value), group_payload, hj]
    rfl

theorem signedStop_iff (byte : Byte) (value : Word) :
    signedStop byte value = true ↔
      (value = 0#64 ∧ byte &&& 0x40#8 = 0) ∨ (value = -1#64 ∧ byte &&& 0x40#8 ≠ 0) := by
  have hbit : (byte &&& 0x40#8 = 0x40#8) ↔ byte &&& 0x40#8 ≠ 0 := by
    revert byte
    decide
  simp [signedStop, hbit]

/-- The signed bounds for a value above `shift` bits; the loop stops at the last
round that has room. -/
def SignedFits (value : Word) (shift : ℕ) : Prop :=
  -(2 ^ (63 - shift) : ℤ) ≤ value.toInt ∧ value.toInt < 2 ^ (63 - shift)

theorem signedStop_of_small {value : Word} (hlo : -64 ≤ value.toInt) (hhi : value.toInt < 64) :
    signedStop (group value) (value.sshiftRight 7) = true := by
  have hall : ∀ k : Fin 128, signedStop (group (BitVec.ofInt 64 ((k : ℤ) - 64)))
      ((BitVec.ofInt 64 ((k : ℤ) - 64)).sshiftRight 7) = true := by decide
  have hv : ((⟨(value.toInt + 64).toNat, by omega⟩ : Fin 128) : ℤ) - 64 = value.toInt := by
    simp only
    omega
  have hk := hall ⟨(value.toInt + 64).toNat, by omega⟩
  rwa [hv, BitVec.ofInt_toInt] at hk

theorem signed_room {value : Word} {shift : ℕ} (hs : shift < 64) (hv : SignedFits value shift)
    (hr : ¬ signedStop (group value) (value.sshiftRight 7) = true) :
    shift + 7 < 64 ∧ SignedFits (value.sshiftRight 7) (shift + 7) := by
  obtain ⟨hlo,hhi⟩ := hv
  have hroom : shift + 7 < 64 := by
    by_contra hc
    have hp : (2 ^ (63 - shift) : ℤ) ≤ 2 ^ 6 := pow_le_pow_right₀ (by norm_num) (by omega)
    exact hr (signedStop_of_small (by omega) (by omega))
  refine ⟨hroom,?_⟩
  have hp : (2 ^ (63 - shift) : ℤ) = 2 ^ (63 - (shift + 7)) * 2 ^ 7 := by
    rw [← pow_add]
    congr 1
    omega
  rw [SignedFits, toInt_sshiftRight_seven]
  constructor <;> omega

/-- On the last round the sign extension stands for the rest of the value. -/
theorem signExtend_of_stop {byte : Byte} {rest acc : Word} {shift : ℕ}
    (h : signedStop byte rest = true) : signExtend byte shift acc = acc ||| rest <<< shift := by
  rcases (signedStop_iff byte rest).mp h with ⟨rfl,hb⟩ | ⟨rfl,hb⟩
  · rw [signExtend, if_neg (by tauto), BitVec.zero_shiftLeft, BitVec.or_zero]
  · rw [signExtend]
    split_ifs with hc
    · rw [neg_one_shiftLeft]
    · have hw : 64 ≤ shift := Nat.le_of_not_lt fun hlt => hc ⟨hlt,hb⟩
      rw [BitVec.shiftLeft_eq_zero hw, BitVec.or_zero]

theorem decodeSigned_encodeSigned (value : Word) {mem : ℕ → Byte} {p shift : ℕ} {acc : Word}
    (hs : shift < 64) (hv : SignedFits value shift)
    (hm : load mem p (encodeSigned value).length = encodeSigned value) :
    decodeSigned mem p shift acc = some (p + (encodeSigned value).length, acc ||| value <<< shift) := by
  induction value using encodeSigned.induct generalizing p shift acc with
  | case1 value hstop =>
    have he : encodeSigned value = [group value] := by rw [encodeSigned, if_pos hstop]
    rw [he] at hm ⊢
    obtain ⟨hb,-⟩ := load_eq_cons hm
    rw [decodeSigned, if_pos hs, hb, if_neg (not_not.mpr (group_last value)), group_payload,
      signExtend_of_stop hstop, BitVec.or_assoc, shiftLeft_groups_signed]
    rfl
  | case2 value hstop ih =>
    have he : encodeSigned value =
        (group value ||| 0x80#8) :: encodeSigned (value.sshiftRight 7) := by
      rw [encodeSigned, if_neg hstop]
    rw [he] at hm ⊢
    obtain ⟨hb,htail⟩ := load_eq_cons hm
    obtain ⟨hroom,hfit⟩ := signed_room hs hv hstop
    rw [decodeSigned, if_pos hs, hb, if_pos (flagged_more _), flagged_payload, group_payload,
      ih hroom hfit htail, BitVec.or_assoc, shiftLeft_groups_signed]
    simp only [List.length_cons, Option.some.injEq, Prod.mk.injEq, and_true]
    omega

/-- Which of the four encoder and decoder pairs handles a value. -/
inductive Kind where
  | ul | ull | l | ll
  deriving DecidableEq

def encode : Kind → Word → List Byte
  | .ul => leb128EncodeUl
  | .ull => leb128EncodeUll
  | .l => leb128EncodeL
  | .ll => leb128EncodeLl

def decode : Kind → (ℕ → Byte) → ℕ → Option (ℕ × Word)
  | .ul => leb128DecodeUl
  | .ull => leb128DecodeUll
  | .l => leb128DecodeL
  | .ll => leb128DecodeLl

/-- Writes one value after another, each at the cursor advanced by the returned
size; gives the memory and the last cursor. -/
def writeAll : (ℕ → Byte) → ℕ → List (Kind × Word) → (ℕ → Byte) × ℕ
  | mem, cursor, [] => (mem, cursor)
  | mem, cursor, (kind, value) :: items =>
    let bytes := encode kind value
    writeAll (store mem cursor bytes) (cursor + bytes.length) items

/-- Reads one value after another, each from the pointer the last read returned. -/
def readAll (mem : ℕ → Byte) : ℕ → List Kind → Option (ℕ × List Word)
  | p, [] => some (p, [])
  | p, kind :: kinds => do
    let (next, value) ← decode kind mem p
    let (last, values) ← readAll mem next kinds
    return (last, value :: values)

theorem decode_encode (kind : Kind) (value : Word) {mem : ℕ → Byte} {p : ℕ}
    (hm : load mem p (encode kind value).length = encode kind value) :
    decode kind mem p = some (p + (encode kind value).length, value) := by
  have hu := @decodeUnsigned_encodeUnsigned value mem p 0 0#64 (by omega) value.isLt
  have hfits : SignedFits value 0 := ⟨value.le_toInt,value.toInt_lt⟩
  have hs := @decodeSigned_encodeSigned value mem p 0 0#64 (by omega) hfits
  rw [BitVec.shiftLeft_zero, BitVec.zero_or] at hu hs
  cases kind with
  | ul => exact hu hm
  | ull => exact hu hm
  | l => exact hs hm
  | ll => exact hs hm

theorem writeAll_eq (mem : ℕ → Byte) (cursor : ℕ) (items : List (Kind × Word)) :
    writeAll mem cursor items =
      (store mem cursor (items.flatMap fun x => encode x.1 x.2),
        cursor + (items.flatMap fun x => encode x.1 x.2).length) := by
  induction items generalizing mem cursor with
  | nil => simp [writeAll]
  | cons x items ih =>
    simp only [writeAll, ih, List.flatMap_cons, store_append, List.length_append, Nat.add_assoc]

theorem readAll_of_load {mem : ℕ → Byte} {p : ℕ} (items : List (Kind × Word))
    (hm : load mem p (items.flatMap fun x => encode x.1 x.2).length =
      items.flatMap fun x => encode x.1 x.2) :
    readAll mem p (items.map Prod.fst) =
      some (p + (items.flatMap fun x => encode x.1 x.2).length, items.map Prod.snd) := by
  induction items generalizing p with
  | nil => rfl
  | cons x items ih =>
    rw [List.flatMap_cons, List.length_append, load_add] at hm
    obtain ⟨hx,hrest⟩ := List.append_inj hm (load_length ..)
    simp only [List.map_cons, readAll, decode_encode x.1 x.2 hx, ih hrest, Option.bind_eq_bind,
      Option.bind_some, Option.pure_def, List.flatMap_cons, List.length_append, Nat.add_assoc]

/-- Every stream of values reads back as the same values and ends where the
writes ended, whatever bytes `after` stand behind them. -/
theorem readAll_writeAll (items : List (Kind × Word)) (mem after : ℕ → Byte) (buf : ℕ) :
    let written := writeAll mem buf items
    readAll (fun i => if i < written.2 then written.1 i else after i) buf (items.map Prod.fst) =
      some (written.2, items.map Prod.snd) := by
  simp only [writeAll_eq]
  apply readAll_of_load
  calc load _ buf _ = load (store mem buf (items.flatMap fun x => encode x.1 x.2)) buf
        (items.flatMap fun x => encode x.1 x.2).length :=
        load_congr fun i hi => if_pos (Nat.add_lt_add_left hi buf)
    _ = _ := load_store_self mem buf _

end CppExamples.Leb128
