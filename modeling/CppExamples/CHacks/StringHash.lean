import CppExamples.CHacks.HashtblFuncs

/-! # The hash of a string

`hashtbl_string_hash` tests a character and folds in the one behind it.  The first
character is tested only, and the terminating NUL is folded in at the end.
-/
namespace CppExamples.HashTable

abbrev UnsignedChar := BitVec 8

def djbStep (hash : BitVec 32) (c : UnsignedChar) : BitVec 32 := 33 * hash ^^^ c.setWidth 32

/-- The loop on the characters that `str` points to; without result are reads behind
their end. -/
def stringHashLoop : List UnsignedChar → BitVec 32 → Option (BitVec 32)
  | [], _ => none
  | c :: str, hash =>
    if c = 0#8 then some hash
    else
      -- the test has moved `str` to the next character
      str.head?.bind fun next => stringHashLoop str (djbStep hash next)

def hashtblStringHash (k : Option (List UnsignedChar)) : Option (BitVec 32) :=
  match k with
  | none => some 5381
  | some str => stringHashLoop str 5381

/-- A key: memory with a NUL in it. -/
abbrev StringKey := { block : List UnsignedChar // 0#8 ∈ block }

def StringKey.chars (k : StringKey) : List UnsignedChar := k.1.takeWhile (· ≠ 0#8)

/-- The fold over all the bytes of a string. -/
def djbHash (chars : List UnsignedChar) : BitVec 32 := chars.foldl djbStep 5381

theorem stringHashLoop_eq {block : List UnsignedChar} (h : 0#8 ∈ block) (hash : BitVec 32) :
    stringHashLoop block hash =
      some ((block.takeWhile (· ≠ 0#8) ++ [0#8]).tail.foldl djbStep hash) := by
  induction block generalizing hash with
  | nil => cases h
  | cons c str ih =>
    by_cases hc : c = 0#8
    · simp [stringHashLoop, hc]
    · have hstr : 0#8 ∈ str := (List.mem_cons.mp h).resolve_left (Ne.symm hc)
      obtain ⟨next,rest,rfl⟩ := List.exists_cons_of_ne_nil (List.ne_nil_of_mem hstr)
      have hnext : ((next :: rest).takeWhile (· ≠ 0#8) ++ [0#8]).foldl djbStep hash =
          ((next :: rest).takeWhile (· ≠ 0#8) ++ [0#8]).tail.foldl djbStep (djbStep hash next) := by
        by_cases hn : next = 0#8 <;> simp [hn]
      have htake : (c :: next :: rest).takeWhile (· ≠ 0#8) = c :: (next :: rest).takeWhile (· ≠ 0#8) := by
        simp [hc]
      rw [htake, List.cons_append, List.tail_cons, hnext, ← ih hstr]
      simp [stringHashLoop, hc]

/-- The hash of a key: of its characters the first is left out, and the NUL is taken in. -/
theorem hashtblStringHash_eq (k : StringKey) :
    hashtblStringHash (some k.1) = some ((k.chars ++ [0#8]).tail.foldl djbStep 5381) :=
  stringHashLoop_eq k.2 5381

/-- Two lists of one length that differ in position `i` and nowhere else. -/
structure DifferAt {α : Type*} (a b : List α) (i : ℕ) : Prop where
  length : a.length = b.length
  differ : a[i]? ≠ b[i]?
  elsewhere : ∀ j, j ≠ i → a[j]? = b[j]?

theorem DifferAt.parts {α : Type*} {a b : List α} {i : ℕ} (h : DifferAt a b i) :
    ∃ before c d after, before.length = i ∧ c ≠ d ∧ a = before ++ c :: after ∧
      b = before ++ d :: after := by
  induction a generalizing b i with
  | nil =>
    obtain rfl := List.length_eq_zero_iff.mp h.length.symm
    exact absurd rfl h.differ
  | cons c a ih =>
    cases b with
    | nil => cases h.length
    | cons d b =>
      cases i with
      | zero =>
        obtain rfl : a = b := List.ext_getElem? fun j => h.elsewhere (j + 1) j.succ_ne_zero
        exact ⟨[],c,d,a,rfl,fun he => h.differ (congrArg some he),rfl,rfl⟩
      | succ i =>
        obtain rfl : c = d := Option.some.inj (h.elsewhere 0 (Nat.succ_ne_zero i).symm)
        have hrest : DifferAt a b i := ⟨Nat.succ.inj h.length,h.differ,
          fun j hj => h.elsewhere (j + 1) fun he => hj (Nat.succ.inj he)⟩
        obtain ⟨before,x,y,after,rfl,hne,rfl,rfl⟩ := ih hrest
        exact ⟨c :: before,x,y,after,rfl,hne,rfl,rfl⟩

theorem foldl_injective {α β : Type*} {step : β → α → β} (h : ∀ c, Function.Injective (step · c))
    (l : List α) : Function.Injective fun b => l.foldl step b := by
  induction l with
  | nil => exact Function.injective_id
  | cons c l ih => exact ih.comp (h c)

theorem djbStep_injective_hash (c : UnsignedChar) : Function.Injective (djbStep · c) := by
  intro hash hash' he
  have hmul : 33 * hash = 33 * hash' := (BitVec.xor_left_inj (c.setWidth 32)).mp he
  -- 33 is odd, so it has an inverse
  have hinv : (1041204193 : BitVec 32) * 33 = 1#32 := by decide
  calc hash = 1041204193 * (33 * hash) := by rw [← BitVec.mul_assoc, hinv, BitVec.one_mul]
    _ = 1041204193 * (33 * hash') := by rw [hmul]
    _ = hash' := by rw [← BitVec.mul_assoc, hinv, BitVec.one_mul]

theorem djbStep_injective_char (hash : BitVec 32) : Function.Injective (djbStep hash) := by
  intro c d he
  have hwide : c.setWidth 32 = d.setWidth 32 := (BitVec.xor_right_inj (33 * hash)).mp he
  apply BitVec.eq_of_toNat_eq
  have hc := congrArg BitVec.toNat hwide
  simp only [BitVec.toNat_setWidth] at hc
  omega

theorem foldl_djbStep_ne (before after : List UnsignedChar) {c d : UnsignedChar} (hne : c ≠ d)
    (hash : BitVec 32) :
    (before ++ c :: after).foldl djbStep hash ≠ (before ++ d :: after).foldl djbStep hash := by
  rw [List.foldl_append, List.foldl_append, List.foldl_cons, List.foldl_cons]
  intro he
  exact hne (djbStep_injective_char _ (foldl_injective djbStep_injective_hash after he))

theorem djbHash_ne {a b : List UnsignedChar} {i : ℕ} (h : DifferAt a b i) : djbHash a ≠ djbHash b := by
  obtain ⟨before,c,d,after,-,hne,rfl,rfl⟩ := h.parts
  exact foldl_djbStep_ne before after hne 5381

/-- Two strings of one length that differ in exactly one position have different hashes
just when that is not the first position. -/
theorem hashtblStringHash_ne_iff {a b : StringKey} {i : ℕ} (h : DifferAt a.chars b.chars i) :
    hashtblStringHash (some a.1) ≠ hashtblStringHash (some b.1) ↔ i ≠ 0 := by
  obtain ⟨before,c,d,after,rfl,hne,ha,hb⟩ := h.parts
  rw [hashtblStringHash_eq, hashtblStringHash_eq, ha, hb, Ne, Option.some.injEq]
  cases before with
  | nil => simp
  | cons e before =>
    have hdiffer := foldl_djbStep_ne before (after ++ [0#8]) hne 5381
    simpa using hdiffer

theorem hashtblStringHash_ne_second :
    hashtblStringHash (some [97, 98, 0]) ≠ hashtblStringHash (some [97, 99, 0]) ↔ 1 ≠ 0 :=
  @hashtblStringHash_ne_iff ⟨[97, 98, 0],by decide⟩ ⟨[97, 99, 0],by decide⟩ 1
    ⟨rfl,by decide,fun j hj => by
      match j with
      | 0 => rfl
      | 1 => exact absurd rfl hj
      | j + 2 => rfl⟩

/-- Two strings of one character each: their only position is left out. -/
theorem hashtblStringHash_collides :
    DifferAt ([97] : List UnsignedChar) [98] 0 ∧
      hashtblStringHash (some [97, 0]) = hashtblStringHash (some [98, 0]) ∧
      djbHash [97] ≠ djbHash [98] := by
  refine ⟨⟨rfl,by decide,?_⟩,rfl,by decide⟩
  intro j hj
  cases j with
  | zero => exact absurd rfl hj
  | succ j => rfl

end CppExamples.HashTable
