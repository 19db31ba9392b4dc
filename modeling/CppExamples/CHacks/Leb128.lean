import CppExamples.Library.Memory

/-! # LEB128 encoders and decoders

`unsigned long` and `unsigned long long` are both 64 bits wide here, so the two
encoders of each signedness run the same loop, and so do the two decoders.  An
encoder yields the bytes it stores from `buf` on; the size it returns is their
number.  A decoder reads memory from a pointer on and has no result when a
shift would be by the width of the type or more, which C leaves undefined.
-/
namespace CppExamples.Leb128
open Memory

abbrev Byte := BitVec 8
abbrev Word := BitVec 64

theorem toNat_ushiftRight_seven (value : Word) : (value >>> 7).toNat = value.toNat / 128 := by
  rw [BitVec.toNat_ushiftRight, Nat.shiftRight_eq_div_pow]

theorem toInt_sshiftRight_seven (value : Word) : (value.sshiftRight 7).toInt = value.toInt / 128 := by
  rw [BitVec.toInt_sshiftRight, Int.shiftRight_eq_div_pow]
  rfl

/-- `value & 0x7f`, stored as an `unsigned char`. -/
def group (value : Word) : Byte := (value &&& 0x7f#64).setWidth 8

/-- The `do … while (value)` loop of the unsigned encoders. -/
def encodeUnsigned (value : Word) : List Byte :=
  if value >>> 7 ≠ 0#64 then (group value ||| 0x80#8) :: encodeUnsigned (value >>> 7) else [group value]
termination_by value.toNat
decreasing_by
  have h : (value >>> 7).toNat ≠ 0 := fun h => ‹value >>> 7 ≠ 0#64› (BitVec.eq_of_toNat_eq h)
  rw [toNat_ushiftRight_seven] at h ⊢
  omega

def leb128EncodeUl (value : Word) : List Byte := encodeUnsigned value
def leb128EncodeUll (value : Word) : List Byte := encodeUnsigned value

/-- The test on which the signed encoders leave their loop: what is left of the
value repeats the sign bit of the byte. -/
def signedStop (byte : Byte) (value : Word) : Bool :=
  (value == 0#64 && (byte &&& 0x40#8) != 0x40#8) || (value == -1#64 && (byte &&& 0x40#8) == 0x40#8)

/-- The magnitude that every round of the signed loop lowers. -/
def magnitude (value : Word) : ℕ := (if value.toInt < 0 then -value.toInt - 1 else value.toInt).toNat

theorem magnitude_lt {value : Word} (h : value ≠ 0#64 ∧ value ≠ -1#64) :
    magnitude (value.sshiftRight 7) < magnitude value := by
  have h0 : value.toInt ≠ 0 := fun e => h.1 (BitVec.eq_of_toInt_eq e)
  have h1 : value.toInt ≠ -1 := fun e => h.2 (BitVec.eq_of_toInt_eq e)
  simp only [magnitude, toInt_sshiftRight_seven]
  split_ifs <;> omega

theorem signedStop_of_eq {value : Word} (h : value = 0#64 ∨ value = -1#64) :
    signedStop (group value) (value.sshiftRight 7) = true := by
  rcases h with rfl | rfl <;> decide

/-- The `while (more)` loop of the signed encoders. -/
def encodeSigned (value : Word) : List Byte :=
  if signedStop (group value) (value.sshiftRight 7) then [group value]
  else (group value ||| 0x80#8) :: encodeSigned (value.sshiftRight 7)
termination_by magnitude value
decreasing_by
  apply magnitude_lt
  by_contra h
  exact ‹¬signedStop (group value) (value.sshiftRight 7) = true› (signedStop_of_eq (by tauto))

def leb128EncodeL (value : Word) : List Byte := encodeSigned value
def leb128EncodeLl (value : Word) : List Byte := encodeSigned value

/-- The loop of the unsigned decoders from pointer `p` on. -/
def decodeUnsigned (mem : ℕ → Byte) (p shift : ℕ) (value : Word) : Option (ℕ × Word) :=
  if shift < 64 then
    let byte := mem p
    let value := value ||| ((byte &&& 0x7f#8).setWidth 64 <<< shift)
    if byte &&& 0x80#8 = 0 then some (p + 1, value) else decodeUnsigned mem (p + 1) (shift + 7) value
  else none
termination_by 64 - shift

def leb128DecodeUl (mem : ℕ → Byte) (buf : ℕ) : Option (ℕ × Word) := decodeUnsigned mem buf 0 0
def leb128DecodeUll (mem : ℕ → Byte) (buf : ℕ) : Option (ℕ × Word) := decodeUnsigned mem buf 0 0

/-- The sign extension behind the signed decoders' loop. -/
def signExtend (byte : Byte) (shift : ℕ) (value : Word) : Word :=
  if shift < 64 ∧ byte &&& 0x40#8 ≠ 0 then value ||| -(1#64 <<< shift) else value

/-- The `do … while` loop of the signed decoders, with the sign extension. -/
def decodeSigned (mem : ℕ → Byte) (p shift : ℕ) (value : Word) : Option (ℕ × Word) :=
  if shift < 64 then
    let byte := mem p
    let value := value ||| ((byte &&& 0x7f#8).setWidth 64 <<< shift)
    if byte &&& 0x80#8 ≠ 0 then decodeSigned mem (p + 1) (shift + 7) value
    else some (p + 1, signExtend byte (shift + 7) value)
  else none
termination_by 64 - shift

def leb128DecodeL (mem : ℕ → Byte) (buf : ℕ) : Option (ℕ × Word) := decodeSigned mem buf 0 0
def leb128DecodeLl (mem : ℕ → Byte) (buf : ℕ) : Option (ℕ × Word) := decodeSigned mem buf 0 0

end CppExamples.Leb128
