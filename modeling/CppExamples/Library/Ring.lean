import Mathlib
import CppExamples.Library.Linked

/-! # Rings of doubly linked nodes

Two links lead around in opposite directions, from a head that is no member and
back to it.  A node is added behind the head or taken out anywhere by assigning the
links of its neighbours; the lemmas have the assignments in the order in which an
implementation makes them.
-/
namespace CppExamples.Linked
variable {π : Type*} {next prev : π → π} {head p q c : π} {l m : List π}

structure Ring (next prev : π → π) (head : π) (l : List π) : Prop where
  forward : Path next head (head :: l) head
  backward : Path prev head (head :: l.reverse) head
  head_notMem : head ∉ l

theorem Ring.nodup (h : Ring next prev head l) : (head :: l).Nodup :=
  List.nodup_cons.mpr ⟨h.head_notMem,Path.nodup h.forward.2 h.head_notMem⟩

theorem Ring.empty (hn : next head = head) (hp : prev head = head) : Ring next prev head [] :=
  ⟨⟨rfl,hn⟩,⟨rfl,hp⟩,List.not_mem_nil⟩

theorem Ring.reverse (h : Ring next prev head l) : Ring prev next head l.reverse := by
  constructor
  · exact h.backward
  · rw [List.reverse_reverse]
    exact h.forward
  · rw [List.mem_reverse]
    exact h.head_notMem

theorem Ring.prev_first (h : Ring next prev head (c :: l)) : prev c = head := by
  have hback := h.backward.2
  rw [List.reverse_cons] at hback
  obtain ⟨_,_,_,hc⟩ := path_append.mp hback
  exact hc

theorem Path.exists_snoc (h : Path next p l.reverse q) : ∃ xs, q :: l = xs ++ [p] := by
  rcases List.eq_nil_or_concat l with rfl | ⟨l',a,hl⟩
  · obtain rfl : p = q := h
    exact ⟨[],rfl⟩
  · rw [hl, List.concat_eq_append, List.reverse_append, List.reverse_singleton] at h
    obtain ⟨rfl,_⟩ := h
    exact ⟨q :: l',by rw [hl, List.concat_eq_append]; rfl⟩

/-- The two links are inverse to each other all around. -/
theorem Ring.next_prev (h : Ring next prev head l) (hc : c ∈ head :: l) : next (prev c) = c := by
  rcases List.mem_cons.mp hc with rfl | hc
  · obtain ⟨xs,hxs⟩ := Path.exists_snoc h.backward.2
    have hforward := h.forward
    rw [hxs] at hforward
    obtain ⟨_,_,rfl,hlast⟩ := path_append.mp hforward
    exact hlast
  · obtain ⟨l₁,l₂,rfl⟩ := List.append_of_mem hc
    have hbackward := h.backward
    have hforward := h.forward
    rw [List.reverse_append, List.reverse_cons, List.append_assoc, List.singleton_append] at hbackward
    obtain ⟨_,_,_,hprev⟩ := path_append.mp hbackward.2
    obtain ⟨xs,hxs⟩ := Path.exists_snoc hprev
    rw [← List.cons_append, hxs, List.append_assoc, List.singleton_append] at hforward
    obtain ⟨_,_,rfl,hnext,_⟩ := path_append.mp hforward
    exact hnext

theorem Ring.prev_next (h : Ring next prev head l) (hc : c ∈ head :: l) : prev (next c) = c :=
  h.reverse.next_prev (by simpa using hc)

section Assignment
variable [DecidableEq π]

theorem Ring.addFront (h : Ring next prev head l) (hc : c ∉ l) (hne : c ≠ head) :
    Ring (Function.update (Function.update next c (next head)) head c)
      (Function.update (Function.update prev c head) (next head) c) head (c :: l) := by
  have hhead : head ∉ c :: l := by simp [hne.symm, h.head_notMem]
  have hfront := h.forward.2
  rw [← List.reverse_reverse l] at hfront
  obtain ⟨xs,hxs⟩ := hfront.exists_snoc
  have hnodup := h.reverse.nodup
  rw [hxs] at hnodup
  have hlast : next head ∉ xs := fun hmem =>
    (List.nodup_append.mp hnodup).2.2 _ hmem _ (List.mem_singleton_self _) rfl
  have hother : c ∉ head :: l.reverse := by simp [hne, hc]
  have hcn : c ≠ next head := by
    rintro rfl
    exact hother (hxs ▸ by simp)
  constructor
  · exact (Path.push h.forward.2 hc).push hhead
  · -- the node that was first keeps its place, and now points back to the new one
    have hkept := h.backward.update_of_notMem (r := head) hother
    rw [List.reverse_cons, ← List.cons_append]
    rw [hxs] at hkept ⊢
    refine path_append.mpr ⟨c,hkept.redirect hlast,rfl,?_⟩
    rw [Function.update_of_ne hcn, Function.update_self]
    rfl
  · exact hhead

theorem Ring.bypass (h : Ring next prev head (l ++ c :: m)) :
    Path (Function.update next (prev c) (next c)) head (head :: (l ++ m)) head ∧ c ≠ prev c := by
  have hnodup := h.nodup
  have hforward := h.forward
  have hbackward := h.backward
  rw [List.reverse_append, List.reverse_cons, List.append_assoc, List.singleton_append] at hbackward
  obtain ⟨_,_,_,hprev⟩ := path_append.mp hbackward.2
  obtain ⟨xs,hxs⟩ := hprev.exists_snoc
  rw [← List.cons_append, hxs, List.append_assoc, List.singleton_append] at hnodup hforward
  obtain ⟨_,hrest,hdisj⟩ := List.nodup_append.mp hnodup
  have hself : prev c ∉ c :: m := (List.nodup_cons.mp hrest).1
  have hbefore : prev c ∉ xs := fun hmem => hdisj _ hmem _ List.mem_cons_self rfl
  constructor
  · have hpath := hforward.bypass hbefore fun hm => hself (List.mem_cons_of_mem c hm)
    rwa [List.append_cons, ← hxs, List.cons_append] at hpath
  · exact fun he => hself (he ▸ List.mem_cons_self)

theorem Ring.remove (h : Ring next prev head (l ++ c :: m)) :
    Ring (Function.update next (prev c) (next c))
      (Function.update prev (Function.update next (prev c) (next c) c) (prev c)) head (l ++ m) := by
  obtain ⟨hforward,hne⟩ := h.bypass
  have hreverse := h.reverse
  rw [List.reverse_append, List.reverse_cons, List.append_assoc, List.singleton_append] at hreverse
  obtain ⟨hbackward,_⟩ := hreverse.bypass
  constructor
  · exact hforward
  · rwa [Function.update_of_ne hne, List.reverse_append]
  · intro hmem
    exact h.head_notMem (by simp only [List.mem_append, List.mem_cons] at hmem ⊢; tauto)

end Assignment

end CppExamples.Linked
