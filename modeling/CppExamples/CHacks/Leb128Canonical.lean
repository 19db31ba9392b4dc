import CppExamples.CHacks.Leb128Roundtrip

/-! # LEB128 encodings are the shortest

A string of bytes that ends where its high bits say has an exact value, a natural number
or an integer.  Among the strings with the value of a word the encoding is the shortest,
and the only one of its length: as long as more than one byte is needed the seven bits of
a byte and the value of the rest are determined.
-/
namespace CppExamples.Leb128
open Memory

/-- The high bit is set on every byte but the last. -/
inductive Terminated : List Byte → Prop
  | last {b : Byte} (hb : b &&& 0x80#8 = 0) : Terminated [b]
  | more {b : Byte} {bs : List Byte} (hb : b &&& 0x80#8 ≠ 0) (hbs : Terminated bs) :
    Terminated (b :: bs)

/-- `byte & 0x7f` -/
def payload (b : Byte) : ℕ := (b &&& 0x7f#8).toNat

def unsignedValue : List Byte → ℕ
  | [] => 0
  | b :: bs => payload b + 128 * unsignedValue bs

/-- Bit 6 of the last byte stands for the sign. -/
def signedValue : List Byte → ℤ
  | [] => 0
  | [b] => if b &&& 0x40#8 ≠ 0 then payload b - 128 else payload b
  | b :: bs => payload b + 128 * signedValue bs

/-- The exact value that the pair of functions gives a string. -/
def exactValue : Kind → List Byte → ℤ
  | .ul, bytes => unsignedValue bytes
  | .ull, bytes => unsignedValue bytes
  | .l, bytes => signedValue bytes
  | .ll, bytes => signedValue bytes

def wordValue : Kind → Word → ℤ
  | .ul, value => value.toNat
  | .ull, value => value.toNat
  | .l, value => value.toInt
  | .ll, value => value.toInt

theorem payload_lt (b : Byte) : payload b < 128 := by
  revert b
  decide

theorem byte_eq {b c : Byte} (hflag : b &&& 0x80#8 = c &&& 0x80#8) (hpayload : payload b = payload c) :
    b = c := by
  have hsplit : ∀ b : Byte, b = (b &&& 0x80#8) ||| (b &&& 0x7f#8) := by decide
  rw [hsplit b, hsplit c, hflag, BitVec.eq_of_toNat_eq hpayload]

theorem payload_group (value : Word) : payload (group value) = value.toNat % 128 := by
  have hgroup := congrArg BitVec.toNat (group_payload value)
  rw [BitVec.toNat_setWidth, BitVec.toNat_and value, show (0x7f#64).toNat = 2 ^ 7 - 1 from rfl,
    Nat.and_two_pow_sub_one_eq_mod] at hgroup
  have hlt := payload_lt (group value)
  unfold payload at hlt ⊢
  omega

theorem payload_flagged (value : Word) : payload (group value ||| 0x80#8) = value.toNat % 128 := by
  rw [← payload_group, payload, flagged_payload]
  rfl

theorem toInt_emod (value : Word) : value.toInt % 128 = (value.toNat % 128 : ℕ) := by
  rw [BitVec.toInt_eq_toNat_cond]
  split <;> omega

theorem flag_eq {b : Byte} (hb : b &&& 0x80#8 ≠ 0) (c : Byte) :
    b &&& 0x80#8 = (c ||| 0x80#8) &&& 0x80#8 := by
  have hset : ∀ b : Byte, b &&& 0x80#8 ≠ 0 → b &&& 0x80#8 = 0x80#8 := by decide
  rw [hset b hb, hset _ (flagged_more c)]

theorem last_eq {b : Byte} (value : Word) (hb : b &&& 0x80#8 = 0)
    (hpayload : payload b = value.toNat % 128) : b = group value :=
  byte_eq (hb.trans (group_last value).symm) (hpayload.trans (payload_group value).symm)

theorem more_eq {b : Byte} (value : Word) (hb : b &&& 0x80#8 ≠ 0)
    (hpayload : payload b = value.toNat % 128) : b = group value ||| 0x80#8 :=
  byte_eq (flag_eq hb _) (hpayload.trans (payload_flagged value).symm)

theorem signedValue_cons (b : Byte) {bs : List Byte} (hbs : bs ≠ []) :
    signedValue (b :: bs) = payload b + 128 * signedValue bs := by
  cases bs with
  | nil => exact absurd rfl hbs
  | cons c bs => rfl

theorem Terminated.ne_nil {bytes : List Byte} (h : Terminated bytes) : bytes ≠ [] := by
  cases h <;> simp

theorem encodeUnsigned_terminated (value : Word) : Terminated (encodeUnsigned value) := by
  fun_induction encodeUnsigned value with
  | case1 value hrest ih => exact .more (flagged_more _) ih
  | case2 value hrest => exact .last (group_last value)

theorem unsignedValue_encodeUnsigned (value : Word) :
    unsignedValue (encodeUnsigned value) = value.toNat := by
  fun_induction encodeUnsigned value with
  | case1 value hrest ih =>
    rw [unsignedValue, ih, payload_flagged, toNat_ushiftRight_seven]
    omega
  | case2 value hrest =>
    have hzero := congrArg BitVec.toNat (not_not.mp hrest)
    rw [toNat_ushiftRight_seven, BitVec.toNat_zero] at hzero
    rw [unsignedValue, unsignedValue, payload_group]
    omega

theorem encodeUnsigned_length {value : Word} {shift : ℕ} (hs : shift < 64)
    (hv : value.toNat < 2 ^ (64 - shift)) : shift + 7 * (encodeUnsigned value).length < 71 := by
  induction value using encodeUnsigned.induct generalizing shift with
  | case1 value hrest ih =>
    obtain ⟨hroom,hfit⟩ := unsigned_room hs hv hrest
    have hlength := ih hroom hfit
    rw [encodeUnsigned, if_pos hrest, List.length_cons]
    omega
  | case2 value hrest =>
    rw [encodeUnsigned, if_neg hrest, List.length_singleton]
    omega

/-- A string with the value of a word is not shorter than its encoding, and no other has
that length. -/
theorem encodeUnsigned_shortest {bytes : List Byte} (hbytes : Terminated bytes) (value : Word)
    (hvalue : unsignedValue bytes = value.toNat) :
    (encodeUnsigned value).length ≤ bytes.length ∧
      (bytes.length = (encodeUnsigned value).length → bytes = encodeUnsigned value) := by
  induction hbytes generalizing value with
  | @last b hb =>
    have hlt := payload_lt b
    simp only [unsignedValue, Nat.mul_zero, Nat.add_zero] at hvalue
    have hrest : ¬ value >>> 7 ≠ 0#64 := by
      refine not_not.mpr (BitVec.eq_of_toNat_eq ?_)
      rw [toNat_ushiftRight_seven, BitVec.toNat_zero]
      omega
    rw [encodeUnsigned, if_neg hrest]
    refine ⟨le_rfl,fun _ => ?_⟩
    rw [last_eq value hb (by omega)]
  | @more b bs hb hbs ih =>
    have hlt := payload_lt b
    rw [unsignedValue] at hvalue
    have hpos := List.length_pos_iff.mpr hbs.ne_nil
    rw [encodeUnsigned]
    split
    · obtain ⟨hle,honly⟩ := ih (value >>> 7) (by
        rw [toNat_ushiftRight_seven]
        omega)
      refine ⟨Nat.succ_le_succ hle,fun hlength => ?_⟩
      rw [more_eq value hb (by omega), honly (Nat.succ.inj hlength)]
    · refine ⟨by simp,fun hlength => ?_⟩
      simp only [List.length_cons, List.length_nil] at hlength
      omega

theorem encodeSigned_terminated (value : Word) : Terminated (encodeSigned value) := by
  fun_induction encodeSigned value with
  | case1 value hstop => exact .last (group_last value)
  | case2 value hstop ih => exact .more (flagged_more _) ih

theorem signedValue_encodeSigned (value : Word) : signedValue (encodeSigned value) = value.toInt := by
  fun_induction encodeSigned value with
  | case1 value hstop =>
    have hmod := toInt_emod value
    have hshift := toInt_sshiftRight_seven value
    rw [signedValue, payload_group, ← hmod]
    rcases (signedStop_iff _ _).mp hstop with ⟨hrest,hb⟩ | ⟨hrest,hb⟩
    · rw [if_neg (not_not.mpr hb)]
      rw [hrest, BitVec.toInt_zero] at hshift
      omega
    · have hminus : (-1#64 : Word).toInt = -1 := by decide
      rw [if_pos hb]
      rw [hrest, hminus] at hshift
      omega
  | case2 value hstop ih =>
    have hmod := toInt_emod value
    rw [signedValue_cons _ (encodeSigned_terminated _).ne_nil, ih, payload_flagged, ← hmod,
      toInt_sshiftRight_seven]
    omega

theorem encodeSigned_length {value : Word} {shift : ℕ} (hs : shift < 64)
    (hv : SignedFits value shift) : shift + 7 * (encodeSigned value).length < 71 := by
  induction value using encodeSigned.induct generalizing shift with
  | case1 value hstop =>
    rw [encodeSigned, if_pos hstop, List.length_singleton]
    omega
  | case2 value hstop ih =>
    obtain ⟨hroom,hfit⟩ := signed_room hs hv hstop
    have hlength := ih hroom hfit
    rw [encodeSigned, if_neg hstop, List.length_cons]
    omega

theorem signedValue_last (b : Byte) : -64 ≤ signedValue [b] ∧ signedValue [b] < 64 ∧
    signedValue [b] % 128 = payload b := by
  have hall : ∀ b : Byte, (b &&& 0x40#8 ≠ 0 → 64 ≤ payload b) ∧ (b &&& 0x40#8 = 0 → payload b < 64) := by
    decide
  have hlt := payload_lt b
  obtain ⟨hset,hclear⟩ := hall b
  unfold signedValue
  split
  · have := hset ‹_›
    omega
  · have := hclear (not_not.mp ‹_›)
    omega

theorem encodeSigned_shortest {bytes : List Byte} (hbytes : Terminated bytes) (value : Word)
    (hvalue : signedValue bytes = value.toInt) :
    (encodeSigned value).length ≤ bytes.length ∧
      (bytes.length = (encodeSigned value).length → bytes = encodeSigned value) := by
  induction hbytes generalizing value with
  | @last b hb =>
    obtain ⟨hlo,hhi,hlast⟩ := signedValue_last b
    have hmod := toInt_emod value
    rw [hvalue] at hlo hhi hlast
    rw [encodeSigned, if_pos (signedStop_of_small hlo hhi)]
    refine ⟨le_rfl,fun _ => ?_⟩
    rw [last_eq value hb (by omega)]
  | @more b bs hb hbs ih =>
    have hlt := payload_lt b
    have hmod := toInt_emod value
    rw [signedValue_cons b hbs.ne_nil] at hvalue
    have hpos := List.length_pos_iff.mpr hbs.ne_nil
    rw [encodeSigned]
    split
    · refine ⟨by simp,fun hlength => ?_⟩
      simp only [List.length_cons, List.length_nil] at hlength
      omega
    · obtain ⟨hle,honly⟩ := ih (value.sshiftRight 7) (by
        rw [toInt_sshiftRight_seven]
        omega)
      refine ⟨Nat.succ_le_succ hle,fun hlength => ?_⟩
      rw [more_eq value hb (by omega), honly (Nat.succ.inj hlength)]

theorem encode_terminated (kind : Kind) (value : Word) : Terminated (encode kind value) := by
  cases kind with
  | ul => exact encodeUnsigned_terminated value
  | ull => exact encodeUnsigned_terminated value
  | l => exact encodeSigned_terminated value
  | ll => exact encodeSigned_terminated value

theorem exactValue_encode (kind : Kind) (value : Word) :
    exactValue kind (encode kind value) = wordValue kind value := by
  have hu : (unsignedValue (encodeUnsigned value) : ℤ) = value.toNat := by
    rw [unsignedValue_encodeUnsigned]
  cases kind with
  | ul => exact hu
  | ull => exact hu
  | l => exact signedValue_encodeSigned value
  | ll => exact signedValue_encodeSigned value

theorem encode_length (kind : Kind) (value : Word) : (encode kind value).length ≤ 10 := by
  have hu := @encodeUnsigned_length value 0 (by omega) value.isLt
  have hs := @encodeSigned_length value 0 (by omega) ⟨value.le_toInt,value.toInt_lt⟩
  have hl : ∀ n, 0 + 7 * n < 71 → n ≤ 10 := fun n h => by omega
  cases kind with
  | ul => exact hl _ hu
  | ull => exact hl _ hu
  | l => exact hl _ hs
  | ll => exact hl _ hs

theorem encode_le {bytes : List Byte} (kind : Kind) (value : Word) (hbytes : Terminated bytes)
    (hvalue : exactValue kind bytes = wordValue kind value) :
    (encode kind value).length ≤ bytes.length ∧
      (bytes.length = (encode kind value).length → bytes = encode kind value) := by
  cases kind with
  | ul => exact encodeUnsigned_shortest hbytes value (Int.ofNat_inj.mp hvalue)
  | ull => exact encodeUnsigned_shortest hbytes value (Int.ofNat_inj.mp hvalue)
  | l => exact encodeSigned_shortest hbytes value hvalue
  | ll => exact encodeSigned_shortest hbytes value hvalue

/-- A string that no other string with its value undercuts. -/
def Shortest (kind : Kind) (bytes : List Byte) : Prop :=
  Terminated bytes ∧ ∀ other, Terminated other → exactValue kind other = exactValue kind bytes →
    bytes.length ≤ other.length

/-- The encoding of a word has at most ten bytes, and is the only shortest string with the
exact value of the word; a shortest string is read as the word, and written back as it is. -/
theorem encode_canonical (kind : Kind) (value : Word) :
    Terminated (encode kind value) ∧ (encode kind value).length ≤ 10 ∧
      exactValue kind (encode kind value) = wordValue kind value ∧
      ∀ bytes, exactValue kind bytes = wordValue kind value →
        (Shortest kind bytes ↔ bytes = encode kind value) ∧
        ∀ mem p, Shortest kind bytes → load mem p bytes.length = bytes →
          ∃ decoded, decode kind mem p = some (p + bytes.length, decoded) ∧
            encode kind decoded = bytes := by
  have hexact := exactValue_encode kind value
  refine ⟨encode_terminated kind value,encode_length kind value,hexact,fun bytes hvalue => ?_⟩
  have hshortest : Shortest kind bytes ↔ bytes = encode kind value := by
    constructor
    · rintro ⟨hbytes,hmin⟩
      obtain ⟨hle,honly⟩ := encode_le kind value hbytes hvalue
      exact honly (le_antisymm (hmin _ (encode_terminated kind value) (hexact.trans hvalue.symm)) hle)
    · rintro rfl
      exact ⟨encode_terminated kind value,fun other hother he =>
        (encode_le kind value hother (he.trans hexact)).1⟩
  refine ⟨hshortest,fun mem p hbytes hload => ⟨value,?_,(hshortest.mp hbytes).symm⟩⟩
  obtain rfl := hshortest.mp hbytes
  exact decode_encode kind value hload

end CppExamples.Leb128
