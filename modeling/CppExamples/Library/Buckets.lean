import Mathlib

/-! # Buckets

Lists indexed below a size are buckets; together they hold a multiset.  An
assignment to one bucket changes the content by the difference of its lists.  The
second part says what insertion and erasure do to the entries of a finite map, so
that buckets of pairs can be compared with one.
-/
namespace CppExamples.Buckets
variable {α : Type*} {n i : ℕ} {t : ℕ → List α} {a : α} {l l' c : List α}

def content (n : ℕ) (t : ℕ → List α) : Multiset α := ∑ i ∈ Finset.range n, (t i : Multiset α)

theorem mem_content : a ∈ content n t ↔ ∃ i < n, a ∈ t i := by
  simp [content, Multiset.mem_sum]

theorem content_eq_zero (h : ∀ i < n, t i = []) : content n t = 0 := by
  refine Finset.sum_eq_zero fun i hi => ?_
  rw [h i (Finset.mem_range.mp hi), Multiset.coe_nil]

theorem coe_flatMap_range (n : ℕ) (t : ℕ → List α) :
    (↑((List.range n).flatMap t) : Multiset α) = content n t := by
  induction n with
  | zero => rfl
  | succ n ih =>
    rw [List.range_succ, List.flatMap_append, List.flatMap_singleton, ← Multiset.coe_add, ih, content,
      content, Finset.sum_range_succ]

theorem content_update (hi : i < n) :
    content n (Function.update t i c) + t i = content n t + c := by
  have hmem := Finset.mem_range.mpr hi
  have hnew : (fun j => (Function.update t i c j : Multiset α))
      = Function.update (fun j => (t j : Multiset α)) i c := by
    funext j
    rcases eq_or_ne j i with rfl | hj
    · simp
    · simp [hj]
  have hupd := Finset.sum_update_of_mem hmem (fun j => (t j : Multiset α)) (c : Multiset α)
  have hold := Finset.sum_update_of_mem hmem (fun j => (t j : Multiset α)) (t i : Multiset α)
  rw [Function.update_eq_self] at hold
  unfold content
  rw [hnew, hupd, hold]
  abel

theorem coe_middle (l l' : List α) (a : α) :
    ((l ++ a :: l' : List α) : Multiset α) = a ::ₘ ↑(l ++ l') := by
  rw [Multiset.cons_coe]
  exact Multiset.coe_eq_coe.mpr List.perm_middle

theorem content_insert (l l' : List α) (a : α) (hi : i < n) :
    content n (Function.update t i (l ++ a :: l')) =
      a ::ₘ content n (Function.update t i (l ++ l')) := by
  have hwith := content_update (t := t) (c := l ++ a :: l') hi
  have hwithout := content_update (t := t) (c := l ++ l') hi
  rw [coe_middle, Multiset.add_cons, ← hwithout, ← Multiset.cons_add] at hwith
  exact add_right_cancel hwith

theorem content_push (hi : i < n) :
    content n (Function.update t i (a :: t i)) = a ::ₘ content n t := by
  have h := content_insert (t := t) [] (t i) a hi
  rwa [List.nil_append, List.nil_append, Function.update_eq_self] at h

theorem content_cut (hi : i < n) (h : t i = l ++ a :: l') :
    a ::ₘ content n (Function.update t i (l ++ l')) = content n t := by
  rw [← content_insert l l' a hi, ← h, Function.update_eq_self]

theorem length_le_card_content (hi : i < n) : (t i).length ≤ (content n t).card := by
  have hsum := congrArg Multiset.card (content_update (t := t) (c := []) hi)
  simp only [Multiset.card_add, Multiset.coe_card, List.length_nil] at hsum
  omega

/-- Every member is in the bucket that `slot` names. -/
def Placed (slot : α → ℕ) (t : ℕ → List α) : Prop := ∀ i, ∀ a ∈ t i, slot a = i

theorem Placed.assign {slot : α → ℕ} (h : Placed slot t) (hc : ∀ a ∈ c, slot a = i) :
    Placed slot (Function.update t i c) := by
  intro j b hb
  rcases eq_or_ne j i with rfl | hj
  · rw [Function.update_self] at hb
    exact hc b hb
  · rw [Function.update_of_ne hj] at hb
    exact h j b hb

theorem Placed.push {slot : α → ℕ} (h : Placed slot t) (a : α) :
    Placed slot (Function.update t (slot a) (a :: t (slot a))) :=
  h.assign (List.forall_mem_cons.mpr ⟨rfl,h (slot a)⟩)

theorem Placed.shrink {slot : α → ℕ} (h : Placed slot t) (hc : c ⊆ t i) :
    Placed slot (Function.update t i c) :=
  h.assign fun a ha => h i a (hc ha)

theorem Placed.mem_slot {slot : α → ℕ} (h : Placed slot t) (ha : a ∈ content n t) :
    a ∈ t (slot a) := by
  obtain ⟨i,_,hi⟩ := mem_content.mp ha
  rwa [h i a hi]

section FiniteMap
variable {κ : Type*} [DecidableEq κ] {ν : Type*} {m : Finmap fun _ : κ => ν} {k : κ} {v w : ν}
variable {R : Multiset (Σ _ : κ, ν)}

/-- A map with a distinguished entry is the rest with that entry inserted. -/
theorem exists_insert (h : m.entries = ⟨k,v⟩ ::ₘ R) :
    ∃ m' : Finmap fun _ : κ => ν, m'.entries = R ∧ k ∉ m' ∧ m = m'.insert k v := by
  have hkeys : (m.entries.keys).Nodup := Multiset.nodup_keys.mpr m.nodupKeys
  rw [h, Multiset.keys_cons, Multiset.nodup_cons] at hkeys
  refine ⟨⟨R,Multiset.nodup_keys.mp hkeys.2⟩,rfl,hkeys.1,?_⟩
  apply Finmap.ext
  rw [Finmap.entries_insert_of_notMem hkeys.1, h]

theorem entries_replace (h : m.entries = ⟨k,v⟩ ::ₘ R) :
    (m.insert k w).entries = ⟨k,w⟩ ::ₘ R := by
  obtain ⟨m',rfl,hk,rfl⟩ := exists_insert h
  rw [Finmap.insert_insert, Finmap.entries_insert_of_notMem hk]

theorem entries_erase (h : m.entries = ⟨k,v⟩ ::ₘ R) : (m.erase k).entries = R := by
  obtain ⟨m',rfl,hk,rfl⟩ := exists_insert h
  have herase : (m'.insert k v).erase k = m' := by
    apply Finmap.ext_lookup
    intro x
    rcases eq_or_ne x k with rfl | hx
    · rw [Finmap.lookup_erase, Finmap.lookup_eq_none.mpr hk]
    · rw [Finmap.lookup_erase_ne hx, Finmap.lookup_insert_of_ne m' hx]
  rw [herase]

end FiniteMap

end CppExamples.Buckets
