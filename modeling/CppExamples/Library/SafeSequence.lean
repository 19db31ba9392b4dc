import Mathlib

/-! # Safe sequences of resource holders

Processes hold resources and still need some.  An order of the processes covers
them when each one's need is met by what is free together with what the earlier
ones hold; a state is safe when some order of all its processes does.
-/
namespace CppExamples.SafeSequence
variable {π ρ α : Type*} [AddCommMonoid α] [LE α]
variable (need allocate : π → ρ → α) (available : ρ → α)

def Covered (order : List π) : Prop :=
  ∀ before p after, order = before ++ p :: after →
    need p ≤ available + (before.map allocate).sum

def Safe (procs : List π) : Prop :=
  ∃ order, order.Perm procs ∧ Covered need allocate available order

variable {need allocate available}

theorem Covered.nil : Covered need allocate available [] := by
  intro before p after he
  simp at he

theorem Covered.snoc {order : List π} {p : π} (h : Covered need allocate available order)
    (hp : need p ≤ available + (order.map allocate).sum) :
    Covered need allocate available (order ++ [p]) := by
  intro before q after he
  rcases List.eq_nil_or_concat after with rfl | ⟨mid,z,rfl⟩
  · obtain ⟨rfl,hq⟩ := List.append_inj' he rfl
    obtain rfl : p = q := by simpa using hq
    exact hp
  · have he' : order ++ [p] = (before ++ q :: mid) ++ [z] := by simpa using he
    exact h before q mid (List.append_inj' he' rfl).1

/-- A duplicate-free covered order that leaves out no process is a safe one. -/
theorem Covered.safe {order procs : List π} (h : Covered need allocate available order)
    (hprocs : procs.Nodup) (horder : order.Nodup) (hmem : ∀ p, p ∈ order ↔ p ∈ procs) :
    Safe need allocate available procs :=
  ⟨order,(List.perm_ext_iff_of_nodup horder hprocs).mpr hmem,h⟩

theorem Covered.need_le {π ρ α : Type*} [AddCommMonoid α] [PartialOrder α] [IsOrderedAddMonoid α]
    {need allocate : π → ρ → α} {available : ρ → α} {order done before after : List π} {p : π}
    (h : Covered need allocate available order) (he : order = before ++ p :: after)
    (hbefore : before.Nodup) (hsub : before ⊆ done) (hnonneg : ∀ q ∈ done, 0 ≤ allocate q) :
    need p ≤ available + (done.map allocate).sum := by
  obtain ⟨part,hperm,hpart⟩ := List.subperm_of_subset hbefore hsub
  have hsum : (part.map allocate).sum = (before.map allocate).sum := (hperm.map allocate).sum_eq
  have hle : (part.map allocate).sum ≤ (done.map allocate).sum :=
    (hpart.map allocate).sum_le_sum (by simpa using hnonneg)
  calc need p ≤ available + (before.map allocate).sum := h before p after he
    _ = available + (part.map allocate).sum := by rw [hsum]
    _ ≤ available + (done.map allocate).sum := add_le_add_right hle available

/-- An order that covers the processes still does so when they give back some of what they
hold and need it again. -/
theorem Covered.giveBack {π ρ α : Type*} [AddCommGroup α] [PartialOrder α] [IsOrderedAddMonoid α]
    {need need' allocate allocate' given : π → ρ → α} {available available' : ρ → α} {order : List π}
    (h : Covered need allocate available order) (hgiven : ∀ p ∈ order, 0 ≤ given p)
    (hneed : ∀ p ∈ order, need' p = need p + given p)
    (hallocate : ∀ p ∈ order, allocate p = allocate' p + given p)
    (havailable : available' = available + (order.map given).sum) :
    Covered need' allocate' available' order := by
  rintro before p after rfl
  have hbefore : (before.map allocate).sum = (before.map allocate').sum + (before.map given).sum := by
    rw [← List.sum_map_add]
    exact congrArg List.sum (List.map_congr_left fun q hq => hallocate q (by simp [hq]))
  have hafter : 0 ≤ (after.map given).sum := by
    apply List.sum_nonneg
    simpa using fun q hq => hgiven q (by simp [hq])
  have hsum : ((before ++ p :: after).map given).sum =
      (before.map given).sum + (given p + (after.map given).sum) := by
    rw [List.map_append, List.sum_append, List.map_cons, List.sum_cons]
  calc need' p = need p + given p := hneed p (by simp)
    _ ≤ available + (before.map allocate).sum + given p := add_le_add_left (h before p after rfl) _
    _ ≤ available + (before.map allocate).sum + given p + (after.map given).sum :=
        le_add_of_nonneg_right hafter
    _ = available' + (before.map allocate').sum := by
        rw [havailable, hsum, hbefore]
        abel

end CppExamples.SafeSequence
