import Mathlib
import CppExamples.Library.Linked
import CppExamples.Library.Buckets

/-! # Chained buckets

Every slot of a table points to a chain of linked nodes that ends at the null node.
A node is pushed on the chain of its slot, or cut out behind the node or the slot
that points to it; the other chains keep their nodes because each node is only on
the chain of its own slot.
-/
namespace CppExamples.Linked
open Buckets

variable {π : Type*} {slot slot' : π → ℕ} {size i : ℕ} {null a n : π} {chain : π → π}
variable {table : ℕ → π} {C : ℕ → List π} {l m : List π}

structure Chains (slot : π → ℕ) (size : ℕ) (null : π) (chain : π → π) (table : ℕ → π)
    (C : ℕ → List π) : Prop where
  path : ∀ i < size, Path chain (table i) (C i) null
  placed : Placed slot C
  null_notMem : ∀ i, null ∉ C i

theorem Chains.empty (h : ∀ i < size, table i = null) :
    Chains slot size null chain table fun _ => [] :=
  ⟨h,fun _ _ ha => absurd ha List.not_mem_nil,fun _ => List.not_mem_nil⟩

theorem Chains.congr (h : Chains slot size null chain table C)
    (hs : ∀ i, ∀ a ∈ C i, slot' a = slot a) : Chains slot' size null chain table C :=
  ⟨h.path,fun i a ha => (hs i a ha).trans (h.placed i a ha),h.null_notMem⟩

theorem Chains.notMem_of_ne (h : Chains slot size null chain table C) (ha : a ∈ C i) {j : ℕ}
    (hj : j ≠ i) : a ∉ C j := by
  intro ha'
  exact hj ((h.placed j a ha').symm.trans (h.placed i a ha))

theorem Chains.nodup (h : Chains slot size null chain table C) (hi : i < size) : (C i).Nodup :=
  Path.nodup (h.path i hi) (h.null_notMem i)

theorem notMem_update {C : ℕ → List π} {c : List π} (hc : null ∉ c) (h : ∀ i, null ∉ C i) (j : ℕ) :
    null ∉ Function.update C i c j := by
  rcases eq_or_ne j i with rfl | hj
  · rwa [Function.update_self]
  · rw [Function.update_of_ne hj]
    exact h j

theorem Chains.cutFirst (h : Chains slot size null chain table C) (hi : i < size)
    (hc : C i = a :: m) :
    Chains slot size null chain (Function.update table i (chain a)) (Function.update C i m) := by
  have hpath := h.path i hi
  have hnull := h.null_notMem i
  rw [hc] at hpath hnull
  constructor
  · intro j hj
    rcases eq_or_ne j i with rfl | hji
    · rw [Function.update_self, Function.update_self]
      exact hpath.2
    · rw [Function.update_of_ne hji, Function.update_of_ne hji]
      exact h.path j hj
  · exact h.placed.shrink (hc ▸ List.subset_cons_self a m)
  · exact notMem_update (fun hm => hnull (List.mem_cons_of_mem a hm)) h.null_notMem

section Assignment
variable [DecidableEq π]

theorem Chains.push (h : Chains slot size null chain table C) (ha : a ∉ C (slot a))
    (hne : a ≠ null) :
    Chains slot size null (Function.update chain a (table (slot a)))
      (Function.update table (slot a) a) (Function.update C (slot a) (a :: C (slot a))) := by
  constructor
  · intro j hj
    rcases eq_or_ne j (slot a) with rfl | hja
    · rw [Function.update_self, Function.update_self]
      exact (h.path _ hj).push ha
    · rw [Function.update_of_ne hja, Function.update_of_ne hja]
      exact (h.path j hj).update_of_notMem fun hm => hja (h.placed j a hm).symm
  · exact h.placed.push a
  · exact notMem_update (by simp [hne.symm, h.null_notMem]) h.null_notMem

theorem Chains.cutNext (h : Chains slot size null chain table C) (hi : i < size)
    (hc : C i = l ++ n :: a :: m) :
    Chains slot size null (Function.update chain n (chain a)) table
      (Function.update C i (l ++ n :: m)) := by
  have hpath := h.path i hi
  have hnodup := h.nodup hi
  have hsub : l ++ n :: m ⊆ C i := by
    intro x hx
    rw [hc]
    simp only [List.mem_append, List.mem_cons] at hx ⊢
    tauto
  have hn : n ∈ C i := hsub (by simp)
  rw [hc] at hpath hnodup
  obtain ⟨_,hrest,hdisj⟩ := List.nodup_append.mp hnodup
  have hnl : n ∉ l := fun hm => hdisj _ hm _ List.mem_cons_self rfl
  have hnm : n ∉ m := fun hm => (List.nodup_cons.mp hrest).1 (List.mem_cons_of_mem a hm)
  constructor
  · intro j hj
    rcases eq_or_ne j i with rfl | hji
    · rw [Function.update_self]
      exact hpath.bypass hnl hnm
    · rw [Function.update_of_ne hji]
      exact (h.path j hj).update_of_notMem (h.notMem_of_ne hn hji)
  · exact h.placed.shrink hsub
  · exact notMem_update (fun hm => h.null_notMem i (hsub hm)) h.null_notMem

end Assignment

end CppExamples.Linked
