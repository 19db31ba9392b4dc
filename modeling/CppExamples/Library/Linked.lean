import Mathlib

/-! # Linked nodes

A link is a function from nodes to nodes; a null pointer is a node like any other
that no list contains.  `Path` reads off the nodes met on the way from one node to
another, `walk` computes them with a bound on the number of steps, and the lemmas
say what assignments to one link do to a path.
-/
namespace CppExamples.Linked
variable {π : Type*} {next next' : π → π} {p q r a c n : π} {l m : List π}

/-- Following `next` from the first node visits the listed nodes and arrives at the last one. -/
def Path (next : π → π) : π → List π → π → Prop
  | p, [], q => p = q
  | p, a :: l, q => p = a ∧ Path next (next a) l q

@[simp] theorem path_nil : Path next p [] q ↔ p = q := Iff.rfl
@[simp] theorem path_cons : Path next p (a :: l) q ↔ p = a ∧ Path next (next a) l q := Iff.rfl

theorem path_append : Path next p (l ++ m) q ↔ ∃ r, Path next p l r ∧ Path next r m q := by
  induction l generalizing p with
  | nil => simp
  | cons b l ih =>
    simp only [List.cons_append, path_cons, ih]
    constructor
    · rintro ⟨hp,r,hl,hm⟩
      exact ⟨r,⟨hp,hl⟩,hm⟩
    · rintro ⟨r,⟨hp,hl⟩,hm⟩
      exact ⟨hp,r,hl,hm⟩

theorem Path.congr (h : Path next p l q) (hn : ∀ b ∈ l, next' b = next b) : Path next' p l q := by
  induction l generalizing p with
  | nil => exact h
  | cons b l ih =>
    obtain ⟨hp,hl⟩ := h
    refine ⟨hp,?_⟩
    rw [hn b List.mem_cons_self]
    exact ih hl fun c hc => hn c (List.mem_cons_of_mem b hc)

/-- The nodes met before the first arrival are determined by the start. -/
theorem Path.unique (hl : Path next p l q) (hm : Path next p m q) (hql : q ∉ l) (hqm : q ∉ m) :
    l = m := by
  induction l generalizing p m with
  | nil =>
    cases m with
    | nil => rfl
    | cons b m =>
      obtain rfl : p = q := hl
      exact absurd (hm.1 ▸ List.mem_cons_self) hqm
  | cons a l ih =>
    cases m with
    | nil =>
      obtain rfl : p = q := hm
      exact absurd (hl.1 ▸ List.mem_cons_self) hql
    | cons b m =>
      obtain rfl : a = b := hl.1.symm.trans hm.1
      have hrest := ih hl.2 hm.2 (fun h => hql (List.mem_cons_of_mem a h))
        (fun h => hqm (List.mem_cons_of_mem a h))
      rw [hrest]

theorem Path.nodup (h : Path next p l q) (hq : q ∉ l) : l.Nodup := by
  induction l generalizing p with
  | nil => exact List.nodup_nil
  | cons b l ih =>
    have hql : q ∉ l := fun hm => hq (List.mem_cons_of_mem b hm)
    refine List.nodup_cons.mpr ⟨?_,ih h.2 hql⟩
    intro hb
    obtain ⟨l₁,l₂,rfl⟩ := List.append_of_mem hb
    obtain ⟨r,_,hr⟩ := path_append.mp h.2
    -- the second visit of `b` would lead through the same nodes again
    have hsame := Path.unique h.2 hr.2 hql (fun hm => hql (by simp [hm]))
    have hlen := congrArg List.length hsame
    simp only [List.length_append, List.length_cons] at hlen
    omega

theorem Path.iterate (h : Path next p l q) {i : ℕ} (hi : i < l.length) : next^[i] p = l[i] := by
  induction l generalizing p i with
  | nil => cases hi
  | cons a l ih =>
    obtain ⟨rfl,hl⟩ := h
    cases i with
    | zero => rfl
    | succ i =>
      rw [Function.iterate_succ_apply, List.getElem_cons_succ]
      exact ih hl (Nat.lt_of_succ_lt_succ hi)

theorem Path.iterate_length (h : Path next p l q) : next^[l.length] p = q := by
  induction l generalizing p with
  | nil => exact h
  | cons a l ih =>
    obtain ⟨rfl,hl⟩ := h
    rw [List.length_cons, Function.iterate_succ_apply]
    exact ih hl

theorem Path.mem_iff (h : Path next p l q) : a ∈ l ↔ ∃ i < l.length, next^[i] p = a := by
  rw [List.mem_iff_getElem]
  refine exists_congr fun i => ?_
  constructor
  · rintro ⟨hi,he⟩
    exact ⟨hi,(h.iterate hi).trans he⟩
  · rintro ⟨hi,he⟩
    exact ⟨hi,(h.iterate hi).symm.trans he⟩

theorem Path.mem_iff_before (h : Path next p l q) (hq : q ∉ l) :
    a ∈ l ↔ ∃ n, next^[n] p = a ∧ ∀ m ≤ n, next^[m] p ≠ q := by
  rw [h.mem_iff]
  constructor
  · rintro ⟨n,hn,he⟩
    refine ⟨n,he,fun m hm hmq => hq ?_⟩
    exact h.mem_iff.mpr ⟨m,hm.trans_lt hn,hmq⟩
  · rintro ⟨n,he,hbefore⟩
    refine ⟨n,lt_of_not_ge fun hle => ?_,he⟩
    exact hbefore l.length hle h.iterate_length

section Assignment
variable [DecidableEq π]

theorem Path.update_of_notMem (h : Path next p l q) (ha : a ∉ l) :
    Path (Function.update next a r) p l q := by
  refine h.congr fun b hb => Function.update_of_ne ?_ r next
  rintro rfl
  exact ha hb

theorem Path.push (h : Path next p l q) (ha : a ∉ l) :
    Path (Function.update next a p) a (a :: l) q := by
  refine ⟨rfl,?_⟩
  rw [Function.update_self]
  exact h.update_of_notMem ha

/-- Assigning the link of the last node leads the path elsewhere. -/
theorem Path.redirect (h : Path next p (l ++ [a]) q) (ha : a ∉ l) :
    Path (Function.update next a r) p (l ++ [a]) r := by
  obtain ⟨b,hl,rfl,_⟩ := path_append.mp h
  refine path_append.mpr ⟨b,hl.update_of_notMem ha,rfl,?_⟩
  rw [Function.update_self]
  rfl

/-- Assigning to a link the one of the next node passes that node over. -/
theorem Path.bypass (h : Path next p (l ++ n :: c :: m) q) (hl : n ∉ l) (hm : n ∉ m) :
    Path (Function.update next n (next c)) p (l ++ n :: m) q := by
  rw [List.append_cons] at h ⊢
  obtain ⟨r,hfirst,rfl,hrest⟩ := path_append.mp h
  exact path_append.mpr ⟨_,hfirst.redirect hl,hrest.update_of_notMem hm⟩

/-- The nodes met from `p` on before `stop`; none when there are more than the bound. -/
def walk (next : π → π) (stop : π) : ℕ → π → Option (List π)
  | 0, p => if p = stop then some [] else none
  | n + 1, p => if p = stop then some [] else (walk next stop n (next p)).map (p :: ·)

theorem Path.walk (h : Path next p l q) (hq : q ∉ l) {n : ℕ} (hn : l.length ≤ n) :
    walk next q n p = some l := by
  induction l generalizing p n with
  | nil =>
    obtain rfl : p = q := h
    cases n <;> simp [Linked.walk]
  | cons b l ih =>
    obtain ⟨rfl,hl⟩ := h
    have hne : p ≠ q := fun he => hq (he ▸ List.mem_cons_self)
    cases n with
    | zero => simp at hn
    | succ n =>
      have hrest := ih hl (fun hm => hq (List.mem_cons_of_mem p hm)) (by simpa using hn)
      simp [Linked.walk, hne, hrest]

end Assignment

end CppExamples.Linked
