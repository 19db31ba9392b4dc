import Mathlib

/-! # A table of slots searched from the front

A slot is free or has an entry, a key with a value.  Changing the first slot that
passes a test is how such a table adds, removes and replaces entries; as long as no key
has two slots it is a finite map.
-/
namespace CppExamples.Slots
variable {α κ ν : Type*}

/-- Change the first slot that passes the test. -/
def modifyFirst (p : α → Bool) (f : α → α) : List α → List α
  | [] => []
  | a :: l => if p a then f a :: l else a :: modifyFirst p f l

@[simp] theorem modifyFirst_length (p : α → Bool) (f : α → α) (l : List α) :
    (modifyFirst p f l).length = l.length := by
  induction l with
  | nil => rfl
  | cons a l ih =>
    rw [modifyFirst]
    split <;> simp [ih]

theorem modifyFirst_split (p : α → Bool) (f : α → α) (l : List α) :
    (∀ a ∈ l, p a = false) ∧ modifyFirst p f l = l ∨
      ∃ l₁ a l₂, l = l₁ ++ a :: l₂ ∧ p a = true ∧ modifyFirst p f l = l₁ ++ f a :: l₂ := by
  induction l with
  | nil => exact Or.inl ⟨by simp,rfl⟩
  | cons a l ih =>
    cases ha : p a with
    | true => exact Or.inr ⟨[],a,l,rfl,ha,by simp [modifyFirst, ha]⟩
    | false =>
      rcases ih with ⟨hnone,he⟩ | ⟨l₁,b,l₂,rfl,hb,he⟩
      · refine Or.inl ⟨?_,by simp [modifyFirst, ha, he]⟩
        intro b hb
        rcases List.mem_cons.mp hb with rfl | hb
        · exact ha
        · exact hnone b hb
      · exact Or.inr ⟨a :: l₁,b,l₂,rfl,hb,by simp [modifyFirst, ha, he]⟩

theorem map_modifyFirst {β : Type*} {g : α → β} (p : α → Bool) (f : α → α) (h : ∀ a, g (f a) = g a)
    (l : List α) : (modifyFirst p f l).map g = l.map g := by
  rcases modifyFirst_split p f l with ⟨-,he⟩ | ⟨l₁,a,l₂,rfl,-,he⟩
  · rw [he]
  · rw [he]
    simp [h]

theorem modifyFirst_of_mem {p : α → Bool} {l : List α} (f : α → α) (h : ∃ a ∈ l, p a = true) :
    ∃ l₁ a l₂, l = l₁ ++ a :: l₂ ∧ p a = true ∧ modifyFirst p f l = l₁ ++ f a :: l₂ := by
  rcases modifyFirst_split p f l with ⟨hnone,-⟩ | hsplit
  · obtain ⟨a,ha,hp⟩ := h
    rw [hnone a ha] at hp
    cases hp
  · exact hsplit

theorem forall_modifyFirst {p : α → Bool} {f : α → α} {l : List α} {good : α → Prop}
    (h : ∀ a ∈ l, good a) (hf : ∀ a ∈ l, good (f a)) : ∀ a ∈ modifyFirst p f l, good a := by
  rcases modifyFirst_split p f l with ⟨-,he⟩ | ⟨l₁,a,l₂,rfl,-,he⟩
  · rwa [he]
  · rw [he]
    intro b hb
    rcases List.mem_append.mp hb with hb | hb
    · exact h b (List.mem_append_left _ hb)
    · rcases List.mem_cons.mp hb with rfl | hb
      · exact hf a (List.mem_append_right _ List.mem_cons_self)
      · exact h b (List.mem_append_right _ (List.mem_cons_of_mem _ hb))

theorem modifyFirst_append (p : α → Bool) (f : α → α) (l₁ l₂ : List α) :
    modifyFirst p f (l₁ ++ l₂) = modifyFirst p f l₁ ++ l₂ ∨
      modifyFirst p f (l₁ ++ l₂) = l₁ ++ modifyFirst p f l₂ := by
  induction l₁ with
  | nil => exact Or.inr rfl
  | cons a l₁ ih =>
    rw [List.cons_append, modifyFirst, modifyFirst]
    split
    · exact Or.inl rfl
    · rcases ih with ih | ih
      · exact Or.inl (by rw [ih, List.cons_append])
      · exact Or.inr (by rw [ih, List.cons_append])

theorem forall₂_modifyFirst {β : Type*} {R : β → α → Prop} {p : α → Bool} {f : α → α}
    {bs : List β} {l : List α} (h : List.Forall₂ R bs l)
    (hf : ∀ b ∈ bs, ∀ a, R b a → p a = true → R b (f a)) :
    List.Forall₂ R bs (modifyFirst p f l) := by
  induction h with
  | nil => exact .nil
  | cons hr hrest ih =>
    rw [modifyFirst]
    split
    next hp => exact .cons (hf _ List.mem_cons_self _ hr hp) hrest
    next => exact .cons hr (ih fun b hb => hf b (List.mem_cons_of_mem _ hb))

/-- The entries of the table are those of a map, each of them in one slot. -/
structure Holds (entry : α → Option (κ × ν)) (l : List α) (m : κ → Option ν) : Prop where
  distinct : ((l.filterMap entry).map Prod.fst).Nodup
  mem : ∀ k v, (k, v) ∈ l.filterMap entry ↔ m k = some v

variable {entry : α → Option (κ × ν)} {l l₁ l₂ : List α} {m : κ → Option ν} {k : κ} {v : ν}

theorem holds_empty (h : ∀ a ∈ l, entry a = none) : Holds entry l fun _ => none := by
  have hnil : l.filterMap entry = [] := List.filterMap_eq_nil_iff.mpr h
  exact ⟨by simp [hnil],by simp [hnil]⟩

theorem Holds.key_mem (h : Holds entry l m) : k ∈ (l.filterMap entry).map Prod.fst ↔ m k ≠ none := by
  rw [Option.ne_none_iff_exists']
  constructor
  · intro hk
    obtain ⟨⟨k',v⟩,hmem,rfl⟩ := List.mem_map.mp hk
    exact ⟨v,(h.mem _ v).mp hmem⟩
  · rintro ⟨v,hv⟩
    exact List.mem_map.mpr ⟨(k, v),(h.mem k v).mpr hv,rfl⟩

/-- A key of the map has exactly one slot. -/
theorem Holds.unique (h : Holds entry l m) :
    m k ≠ none ↔ ∃! i : ℕ, ∃ v, (l[i]?).bind entry = some (k, v) := by
  have hpair : ∀ (i j : ℕ) (a b : α) (e e' : κ × ν), l[i]? = some a → l[j]? = some b → i < j →
      entry a = some e → entry b = some e' → e.1 ≠ e'.1 := by
    have hnodup := h.distinct
    rw [List.Nodup, List.pairwise_map, List.pairwise_filterMap, List.pairwise_iff_getElem] at hnodup
    intro i j a b e e' hi hj hlt ha hb
    obtain ⟨hil,rfl⟩ := List.getElem?_eq_some_iff.mp hi
    obtain ⟨hjl,rfl⟩ := List.getElem?_eq_some_iff.mp hj
    exact hnodup i j hil hjl hlt e ha e' hb
  have hslot : ∀ (i : ℕ) (v : ν), (l[i]?).bind entry = some (k, v) →
      ∃ a, l[i]? = some a ∧ entry a = some (k, v) := fun i v hi => Option.bind_eq_some_iff.mp hi
  constructor
  · intro hk
    obtain ⟨v,hv⟩ := Option.ne_none_iff_exists'.mp hk
    obtain ⟨a,ha,he⟩ := List.mem_filterMap.mp ((h.mem k v).mpr hv)
    obtain ⟨i,hi⟩ := List.mem_iff_getElem?.mp ha
    refine ⟨i,⟨v,by simp [hi, he]⟩,?_⟩
    rintro j ⟨v',hj⟩
    obtain ⟨b,hb,he'⟩ := hslot j v' hj
    by_contra hne
    rcases Nat.lt_or_gt_of_ne hne with hlt | hgt
    · exact hpair j i b a _ _ hb hi hlt he' he rfl
    · exact hpair i j a b _ _ hi hb hgt he he' rfl
  · rintro ⟨i,⟨v,hi⟩,-⟩
    obtain ⟨a,ha,he⟩ := hslot i v hi
    have hmem := List.mem_filterMap.mpr ⟨a,List.mem_of_getElem? ha,he⟩
    rw [(h.mem k v).mp hmem]
    exact Option.some_ne_none v

/-- As many slots are taken as the map has keys. -/
theorem Holds.card [DecidableEq κ] (h : Holds entry l m) {keys : Finset κ}
    (hkeys : ∀ k, k ∈ keys ↔ m k ≠ none) : keys.card = (l.filterMap entry).length := by
  have he : keys = ((l.filterMap entry).map Prod.fst).toFinset := by
    ext k
    rw [hkeys, List.mem_toFinset, h.key_mem]
  rw [he, List.toFinset_card_of_nodup h.distinct, List.length_map]

theorem exists_free (h : (l.filterMap entry).length < l.length) : ∃ a ∈ l, entry a = none := by
  by_contra hno
  have hall : ∀ a ∈ l, (entry a).isSome := by
    intro a ha
    rw [Option.isSome_iff_ne_none]
    exact fun he => hno ⟨a,ha,he⟩
  exact absurd (List.filterMap_length_eq_length.mpr hall) (by omega)

section Change
variable [DecidableEq κ] {a a' : α}

theorem Holds.fill (h : Holds entry (l₁ ++ a :: l₂) m) (ha : entry a = none)
    (ha' : entry a' = some (k, v)) (hk : m k = none) :
    Holds entry (l₁ ++ a' :: l₂) (Function.update m k (some v)) := by
  have hold : (l₁ ++ a :: l₂).filterMap entry = l₁.filterMap entry ++ l₂.filterMap entry := by
    simp [ha]
  have hnew : ((l₁ ++ a' :: l₂).filterMap entry).Perm
      ((k, v) :: (l₁ ++ a :: l₂).filterMap entry) := by
    rw [hold]
    simp [ha']
  have hnot : k ∉ ((l₁ ++ a :: l₂).filterMap entry).map Prod.fst := fun hmem =>
    h.key_mem.mp hmem hk
  constructor
  · rw [(hnew.map Prod.fst).nodup_iff, List.map_cons]
    exact List.nodup_cons.mpr ⟨hnot,h.distinct⟩
  · intro k' v'
    rw [hnew.mem_iff, List.mem_cons, h.mem, Function.update_apply]
    by_cases hk' : k' = k
    · subst hk'
      simp [hk, eq_comm]
    · simp [hk']

theorem Holds.free (h : Holds entry (l₁ ++ a :: l₂) m) (ha : entry a = some (k, v))
    (ha' : entry a' = none) : Holds entry (l₁ ++ a' :: l₂) (Function.update m k none) := by
  have hold : ((l₁ ++ a :: l₂).filterMap entry).Perm
      ((k, v) :: (l₁ ++ a' :: l₂).filterMap entry) := by
    simp [ha, ha']
  have hdistinct := h.distinct
  rw [(hold.map Prod.fst).nodup_iff, List.map_cons, List.nodup_cons] at hdistinct
  refine ⟨hdistinct.2,?_⟩
  intro k' v'
  rw [Function.update_apply]
  split
  next hk' =>
    subst hk'
    have hnot : (k', v') ∉ (l₁ ++ a' :: l₂).filterMap entry := fun hmem =>
      hdistinct.1 (List.mem_map.mpr ⟨_,hmem,rfl⟩)
    simpa using hnot
  next hk' =>
    rw [← h.mem, hold.mem_iff, List.mem_cons]
    simp [hk']

theorem Holds.replace {v' : ν} (h : Holds entry (l₁ ++ a :: l₂) m) (ha : entry a = some (k, v))
    (ha' : entry a' = some (k, v')) :
    Holds entry (l₁ ++ a' :: l₂) (Function.update m k (some v')) := by
  have hold : ((l₁ ++ a :: l₂).filterMap entry).Perm
      ((k, v) :: (l₁.filterMap entry ++ l₂.filterMap entry)) := by
    simp [ha]
  have hnew : ((l₁ ++ a' :: l₂).filterMap entry).Perm
      ((k, v') :: (l₁.filterMap entry ++ l₂.filterMap entry)) := by
    simp [ha']
  have hdistinct := h.distinct
  rw [(hold.map Prod.fst).nodup_iff] at hdistinct
  refine ⟨(hnew.map Prod.fst).nodup_iff.mpr hdistinct,?_⟩
  rw [List.map_cons, List.nodup_cons] at hdistinct
  intro k' w
  rw [hnew.mem_iff, List.mem_cons, Function.update_apply]
  split
  next hk' =>
    subst hk'
    have hnot : (k', w) ∉ l₁.filterMap entry ++ l₂.filterMap entry := fun hmem =>
      hdistinct.1 (List.mem_map.mpr ⟨_,hmem,rfl⟩)
    simp [hnot, eq_comm]
  next hk' =>
    rw [← h.mem, hold.mem_iff, List.mem_cons]
    simp [hk']

/-- Writing into the first free slot adds an entry, when there is a free slot. -/
theorem Holds.add {p : α → Bool} {f : α → α} (h : Holds entry l m) (hk : m k = none)
    (hroom : (l.filterMap entry).length < l.length) (hp : ∀ a, p a = true ↔ entry a = none)
    (hf : ∀ a, entry (f a) = some (k, v)) :
    Holds entry (modifyFirst p f l) (Function.update m k (some v)) := by
  obtain ⟨a,ha,hfree⟩ := exists_free hroom
  obtain ⟨l₁,b,l₂,rfl,hb,he⟩ := modifyFirst_of_mem f ⟨a,ha,(hp a).mpr hfree⟩
  rw [he]
  exact h.fill ((hp b).mp hb) (hf b) hk

theorem Holds.remove {p : α → Bool} {f : α → α} (h : Holds entry l m)
    (hp : ∀ a, p a = true ↔ ∃ v, entry a = some (k, v)) (hf : ∀ a, entry (f a) = none) :
    Holds entry (modifyFirst p f l) (Function.update m k none) := by
  rcases modifyFirst_split p f l with ⟨hnone,he⟩ | ⟨l₁,a,l₂,rfl,ha,he⟩
  · have hk : m k = none := by
      by_contra hk
      obtain ⟨v,hv⟩ := Option.ne_none_iff_exists'.mp hk
      obtain ⟨a,ha,hav⟩ := List.mem_filterMap.mp ((h.mem k v).mpr hv)
      have := (hp a).mpr ⟨v,hav⟩
      rw [hnone a ha] at this
      cases this
    rw [he, ← hk, Function.update_eq_self]
    exact h
  · obtain ⟨v,hv⟩ := (hp a).mp ha
    rw [he]
    exact h.free hv (hf a)

theorem Holds.update {p : α → Bool} {f : α → α} (h : Holds entry l m) (hk : m k ≠ none)
    (hp : ∀ a, p a = true ↔ ∃ v, entry a = some (k, v))
    (hf : ∀ a, p a = true → entry (f a) = some (k, v)) :
    Holds entry (modifyFirst p f l) (Function.update m k (some v)) := by
  obtain ⟨w,hw⟩ := Option.ne_none_iff_exists'.mp hk
  obtain ⟨a,ha,haw⟩ := List.mem_filterMap.mp ((h.mem k w).mpr hw)
  obtain ⟨l₁,b,l₂,rfl,hb,he⟩ := modifyFirst_of_mem f ⟨a,ha,(hp a).mpr ⟨w,haw⟩⟩
  obtain ⟨w',hw'⟩ := (hp b).mp hb
  rw [he]
  exact h.replace hw' (hf b hb)

end Change

end CppExamples.Slots
