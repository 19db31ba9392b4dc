import Mathlib

/-! # Searching and splitting sequences

`find` is the offset of the first occurrence of a needle, `cut` takes a sequence apart
there, and `lines` cuts it at all occurrences of a two-letter separator.  A needle is found where it was put
when none of it can be seen before; a separator of two different letters never
overlaps itself, so what is joined by it is cut there again.
-/
namespace CppExamples.Search
variable {α : Type*} [DecidableEq α]

def find (needle : List α) : List α → Option ℕ
  | [] => if needle = [] then some 0 else none
  | a :: l => if needle <+: a :: l then some 0 else (find needle l).map (· + 1)

theorem find_eq_none_iff {needle l : List α} : find needle l = none ↔ ¬ needle <:+: l := by
  induction l with
  | nil => simp [find]
  | cons a l ih =>
    rw [find, List.infix_cons_iff]
    by_cases h : needle <+: a :: l
    · simp [h]
    · simp [h, ih]

/-- A needle that cannot be seen before its own first letter is found there. -/
theorem find_append {needle : List α} (a b : List α) (hne : needle ≠ [])
    (h : ¬ needle <:+: a ++ needle.dropLast) : find needle (a ++ needle ++ b) = some a.length := by
  induction a with
  | nil =>
    cases needle with
    | nil => exact absurd rfl hne
    | cons x needle =>
      have hpre : x :: needle <+: x :: (needle ++ b) := List.prefix_append (x :: needle) b
      rw [List.nil_append, List.cons_append, find, if_pos hpre]
      rfl
  | cons x a ih =>
    have hrest : ¬ needle <:+: a ++ needle.dropLast :=
      fun hin => h (hin.trans (List.suffix_cons x _).isInfix)
    have hnot : ¬ needle <+: x :: (a ++ needle ++ b) := by
      intro hpre
      -- all but the last letter of the needle lies in front of it, so this one does not reach it
      have hsplit : x :: (a ++ needle ++ b) =
          (x :: a ++ needle.dropLast) ++ ([needle.getLast hne] ++ b) := by
        calc x :: (a ++ needle ++ b)
            = x :: (a ++ (needle.dropLast ++ [needle.getLast hne]) ++ b) := by
              rw [List.dropLast_concat_getLast]
          _ = _ := by simp
      have hfit : needle.length ≤ (x :: a ++ needle.dropLast).length := by
        simp only [List.length_append, List.length_cons, List.length_dropLast]
        omega
      rw [hsplit] at hpre
      exact h (List.prefix_of_prefix_length_le hpre (List.prefix_append _ _) hfit).isInfix
    rw [List.cons_append, List.cons_append, find, if_neg hnot, ih hrest]
    rfl

omit [DecidableEq α] in
theorem infix_append_left {x y : α} {a : List α} (hxy : x ≠ y) (h : ¬ [x, y] <:+: a) :
    ¬ [x, y] <:+: a ++ [x] := by
  rintro ⟨s,t,he⟩
  rcases List.eq_nil_or_concat t with rfl | ⟨t,z,rfl⟩
  · have hlast := congrArg List.getLast? he
    simp only [List.append_nil, List.getLast?_append, List.getLast?_singleton] at hlast
    exact hxy (by simpa using hlast.symm)
  · rw [List.concat_eq_append, ← List.append_assoc] at he
    exact h ⟨s,t,(List.append_inj' he rfl).1⟩

theorem find_pair {x y : α} (hxy : x ≠ y) (a b : List α) (h : ¬ [x, y] <:+: a) :
    find [x, y] (a ++ x :: y :: b) = some a.length := by
  have := find_append a b (List.cons_ne_nil x [y]) (infix_append_left hxy h)
  simpa using this

/-- What stands before the first occurrence of the needle, and behind it. -/
def cut (needle l : List α) : Option (List α × List α) :=
  (find needle l).map fun i => (l.take i, l.drop (i + needle.length))

theorem cut_append_of_find {needle a b : List α}
    (h : find needle (a ++ needle ++ b) = some a.length) :
    cut needle (a ++ needle ++ b) = some (a, b) := by
  have htake : (a ++ needle ++ b).take a.length = a := by simp
  have hdrop : (a ++ needle ++ b).drop (a.length + needle.length) = b := by simp
  rw [cut, h, Option.map_some, htake, hdrop]

theorem find_spec {needle l : List α} {i : ℕ} (h : find needle l = some i) : needle <+: l.drop i := by
  induction l generalizing i with
  | nil =>
    simp only [find, Option.ite_none_right_eq_some] at h
    simp [h.1]
  | cons a l ih =>
    rw [find] at h
    split at h
    next hpre =>
      obtain rfl := Option.some.inj h
      exact hpre
    next =>
      obtain ⟨j,hj,rfl⟩ := Option.map_eq_some_iff.mp h
      exact ih hj

theorem cut_eq_some {needle l a b : List α} (h : cut needle l = some (a, b)) :
    l = a ++ needle ++ b := by
  obtain ⟨i,hi,he⟩ := Option.map_eq_some_iff.mp h
  obtain ⟨rfl,rfl⟩ := Prod.mk.inj he
  obtain ⟨t,ht⟩ := find_spec hi
  rw [← List.drop_drop, ← ht, List.drop_left, List.append_assoc, ht, List.take_append_drop]

theorem not_infix_take_of_find {needle l : List α} {i : ℕ} (hne : needle ≠ [])
    (h : find needle l = some i) : ¬ needle <:+: l.take i := by
  induction l generalizing i with
  | nil =>
    rw [List.take_nil, List.infix_nil]
    exact hne
  | cons a l ih =>
    rw [find] at h
    split at h
    next =>
      obtain rfl := Option.some.inj h
      rw [List.take_zero, List.infix_nil]
      exact hne
    next hpre =>
      obtain ⟨j,hj,rfl⟩ := Option.map_eq_some_iff.mp h
      rw [List.take_succ_cons, List.infix_cons_iff]
      rintro (hin | hin)
      · have hwhole : a :: l.take j <+: a :: l :=
          (List.prefix_cons_inj a).mpr (List.take_prefix j l)
        exact hpre (hin.trans hwhole)
      · exact ih hj hin

theorem eq_append_of_find {needle l : List α} {i : ℕ} (h : find needle l = some i) :
    l = l.take i ++ needle ++ l.drop (i + needle.length) := by
  apply cut_eq_some
  rw [cut, h, Option.map_some]

theorem add_length_le_of_find {needle l : List α} {i : ℕ} (hne : needle ≠ [])
    (h : find needle l = some i) : i + needle.length ≤ l.length := by
  have hpos := List.length_pos_of_ne_nil hne
  have hle := (find_spec h).length_le
  rw [List.length_drop] at hle
  omega

theorem length_take_of_find {needle l : List α} {i : ℕ} (hne : needle ≠ [])
    (h : find needle l = some i) : (l.take i).length = i := by
  have := add_length_le_of_find hne h
  rw [List.length_take]
  omega

theorem find_single {x : α} (a b : List α) (h : x ∉ a) : find [x] (a ++ x :: b) = some a.length := by
  have hin : ¬ [x] <:+: a ++ [x].dropLast := by
    simpa using fun h' => h (h'.subset (List.mem_singleton_self x))
  simpa using find_append a b (List.cons_ne_nil x []) hin

/-- The parts between the occurrences of the separator `x y`. -/
def lines (x y : α) : List α → List (List α)
  | [] => [[]]
  | [a] => [[a]]
  | a :: b :: l =>
    if a = x ∧ b = y then [] :: lines x y l
    else
      match lines x y (b :: l) with
      | [] => [[a]]
      | h :: t => (a :: h) :: t

theorem lines_ne_nil (x y : α) (l : List α) : lines x y l ≠ [] := by
  induction l using lines.induct x y with
  | case1 => simp [lines]
  | case2 a => simp [lines]
  | case3 a b l h ih => simp [lines, h]
  | case4 a b l h hnil ih => simp [lines, h, hnil]
  | case5 a b l h hd tl hcons ih => simp [lines, h, hcons]

theorem lines_append {x y : α} (hxy : x ≠ y) (a b : List α) :
    lines x y (a ++ x :: y :: b) = lines x y a ++ lines x y b := by
  induction a using lines.induct x y with
  | case1 => simp [lines]
  | case2 c =>
    have hc : ¬ (c = x ∧ x = y) := fun h => hxy h.2
    simp [lines, hc]
  | case3 c d l h ih => simp [lines, h, ih]
  | case4 c d l h hnil ih => exact absurd hnil (lines_ne_nil x y _)
  | case5 c d l h hd tl hcons ih =>
    have htail : lines x y (d :: (l ++ x :: y :: b)) = hd :: (tl ++ lines x y b) := by
      simpa [hcons] using ih
    simp [lines, h, hcons, htail]

theorem lines_eq_singleton {x y : α} {l : List α} (h : ¬ [x, y] <:+: l) : lines x y l = [l] := by
  induction l using lines.induct x y with
  | case1 => rfl
  | case2 a => rfl
  | case3 a b l hsep ih =>
    obtain ⟨rfl,rfl⟩ := hsep
    exact absurd ⟨[],l,rfl⟩ h
  | case4 a b l hsep hnil ih => exact absurd hnil (lines_ne_nil x y _)
  | case5 a b l hsep hd tl hcons ih =>
    have htail := ih fun hin => h (hin.trans (List.suffix_cons a _).isInfix)
    simp [lines, hsep, htail]

theorem lines_of_find {x y : α} (hxy : x ≠ y) {l : List α} {i : ℕ} (h : find [x, y] l = some i) :
    lines x y l = l.take i :: lines x y (l.drop (i + 2)) := by
  have hsplit : l = l.take i ++ x :: y :: l.drop (i + 2) := by
    simpa using eq_append_of_find h
  have hfirst := lines_eq_singleton (not_infix_take_of_find (List.cons_ne_nil x [y]) h)
  calc lines x y l = lines x y (l.take i ++ x :: y :: l.drop (i + 2)) := by rw [← hsplit]
    _ = l.take i :: lines x y (l.drop (i + 2)) := by
      rw [lines_append hxy, hfirst, List.singleton_append]

theorem intercalate_lines (x y : α) (l : List α) : [x, y].intercalate (lines x y l) = l := by
  induction l using lines.induct x y with
  | case1 => rfl
  | case2 a => rfl
  | case3 a b l hsep ih =>
    obtain ⟨rfl,rfl⟩ := hsep
    rw [lines, if_pos ⟨rfl,rfl⟩, List.intercalate_cons_of_ne_nil (lines_ne_nil _ _ l), ih]
    rfl
  | case4 a b l hsep hnil ih => exact absurd hnil (lines_ne_nil x y _)
  | case5 a b l hsep hd tl hcons ih =>
    rw [hcons] at ih
    simp [lines, hsep, hcons, ih]

omit [DecidableEq α] in
theorem intercalate_append {sep : List α} {a b : List (List α)} (ha : a ≠ []) (hb : b ≠ []) :
    sep.intercalate (a ++ b) = sep.intercalate a ++ sep ++ sep.intercalate b := by
  induction a with
  | nil => exact absurd rfl ha
  | cons l a ih =>
    cases a with
    | nil => simp [List.intercalate_cons_of_ne_nil hb]
    | cons m a =>
      have ih := ih (List.cons_ne_nil m a)
      rw [List.cons_append, List.intercalate_cons_of_ne_nil (by simp), ih]
      simp

/-- Parts without the separator are cut where it was put between them. -/
theorem lines_intercalate {x y : α} {parts : List (List α)} (hxy : x ≠ y) (hne : parts ≠ [])
    (h : ∀ part ∈ parts, ¬ [x, y] <:+: part) : lines x y ([x, y].intercalate parts) = parts := by
  induction parts with
  | nil => exact absurd rfl hne
  | cons part parts ih =>
    obtain ⟨hpart,hparts⟩ := List.forall_mem_cons.mp h
    cases parts with
    | nil => simpa using lines_eq_singleton hpart
    | cons next parts =>
      have hcut := lines_append hxy part ([x, y].intercalate (next :: parts))
      rw [List.intercalate_cons_of_ne_nil (by simp), List.append_assoc]
      simpa [lines_eq_singleton hpart, ih (by simp) hparts] using hcut

/-- Lines none of which is empty end at the first empty line. -/
theorem cut_blank {x y : α} {parts : List (List α)} (hxy : x ≠ y) (hne : parts ≠ [])
    (h : ∀ part ∈ parts, part ≠ [] ∧ ¬ [x, y] <:+: part) (rest : List α) :
    cut [x, y, x, y] ([x, y].intercalate parts ++ [x, y, x, y] ++ rest) =
      some ([x, y].intercalate parts, rest) := by
  refine cut_append_of_find (find_append _ _ (by simp) ?_)
  rintro ⟨s,t,he⟩
  have hlines := congrArg (lines x y) he
  have hleft : lines x y (s ++ [x, y, x, y] ++ t) = lines x y s ++ [] :: lines x y t := by
    have hblank : lines x y (x :: y :: t) = [] :: lines x y t := by simp [lines]
    rw [List.append_assoc, ← hblank, ← lines_append hxy]
    rfl
  have hright : lines x y ([x, y].intercalate parts ++ [x, y, x, y].dropLast) = parts ++ [[x]] := by
    have hlast := lines_append hxy ([x, y].intercalate parts) [x]
    rwa [lines_intercalate hxy hne fun part hpart => (h part hpart).2] at hlast
  rw [hleft, hright] at hlines
  have hmem : [] ∈ parts ++ [[x]] := hlines ▸ List.mem_append_right _ List.mem_cons_self
  rcases List.mem_append.mp hmem with hin | hin
  · exact (h [] hin).1 rfl
  · simp at hin

end CppExamples.Search
