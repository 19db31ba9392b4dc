import CppExamples.HttpTest.Buffer

/-! # C strings

A C string is the list of its characters, without the terminating NUL; a text in
quotes is given by its character codes.  `strncmp` returns 0 or, by its
specification, a value of which only the sign is fixed.
-/
namespace CppExamples.HttpTest
open Memory

def ascii (text : String) : List Byte := text.toList.map fun c => c.toNat.toUInt8

def crlf : List Byte := [13, 10]

theorem cString_of_notMem {chars : List Byte} (h : 0 ∉ chars) : cString chars = chars :=
  List.takeWhile_eq_self_iff.mpr fun c hc => by
    have hne : c ≠ 0 := fun he => h (he ▸ hc)
    simpa using hne

/-- What a library's `strncmp` returns for the first two characters that differ. -/
structure CharDifference where
  value : Byte → Byte → ℤ
  pos : ∀ a b, b < a → 0 < value a b
  neg : ∀ a b, a < b → value a b < 0

theorem CharDifference.ne_zero (difference : CharDifference) {a b : Byte} (h : a ≠ b) :
    difference.value a b ≠ 0 := by
  have hnat : a.toNat ≠ b.toNat := fun he => h (UInt8.toNat_inj.mp he)
  rcases lt_or_gt_of_ne hnat with hlt | hgt
  · exact ne_of_lt (difference.neg a b (UInt8.lt_iff_toNat_lt.mpr hlt))
  · exact ne_of_gt (difference.pos a b (UInt8.lt_iff_toNat_lt.mpr hgt))

def strncmp (difference : CharDifference) : List Byte → List Byte → ℕ → ℤ
  | _, _, 0 => 0
  | [], [], _ + 1 => 0
  | a :: _, [], _ + 1 => difference.value a 0
  | [], b :: _, _ + 1 => difference.value 0 b
  | a :: s, b :: t, n + 1 => if a = b then strncmp difference s t n else difference.value a b

theorem strncmp_eq_zero_iff (difference : CharDifference) {s t : List Byte} (ht : 0 ∉ t) :
    strncmp difference s t t.length = 0 ↔ t <+: s := by
  induction t generalizing s with
  | nil => cases s <;> simp [strncmp]
  | cons b t ih =>
    obtain ⟨hb,ht'⟩ := List.ne_and_not_mem_of_not_mem_cons ht
    cases s with
    | nil => simp [strncmp, difference.ne_zero hb]
    | cons a s =>
      by_cases hab : a = b
      · subst hab
        simp [strncmp, ih ht']
      · simp [strncmp, hab, difference.ne_zero hab, Ne.symm hab]

/-- `strncpy(dst, src, n)` from a source with `n` characters at hand. -/
def strncpy (dst : ℕ → Byte) (src : List Byte) : ℕ → Byte :=
  store dst 0 (cString src ++ List.replicate (src.length - (cString src).length) 0)

/-- `snprintf(buf, size, ...)` of a text. -/
def snprintf (size : ℕ) (text : List Byte) : List Byte := text.take (size - 1)

end CppExamples.HttpTest
