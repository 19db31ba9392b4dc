import Mathlib

/-! # Things held one at a time

Finitely many holders hold at most one thing each.  What they hold together is a
multiset, and a holder that exchanges its thing changes it by just that exchange.
-/
namespace CppExamples.Holders
variable {ι κ : Type*} [Fintype ι]

/-- What is in one hand. -/
def hand : Option κ → Multiset κ
  | none => 0
  | some c => {c}

@[simp] theorem hand_none : hand (none : Option κ) = 0 := rfl
@[simp] theorem hand_some (c : κ) : hand (some c) = {c} := rfl

def held (f : ι → Option κ) : Multiset κ := ∑ i, hand (f i)

theorem mem_held {f : ι → Option κ} {c : κ} : c ∈ held f ↔ ∃ i, f i = some c := by
  rw [held, Multiset.mem_sum]
  apply exists_congr
  intro i
  cases f i with
  | none => simp
  | some d => simp [eq_comm]

theorem held_eq_zero {f : ι → Option κ} (h : ∀ i, f i = none) : held f = 0 := by
  simp [held, h]

variable [DecidableEq ι]

theorem held_update (f : ι → Option κ) (i : ι) (x : Option κ) :
    held (Function.update f i x) + hand (f i) = held f + hand x := by
  have hothers : ∑ j ∈ Finset.univ.erase i, hand (Function.update f i x j) =
      ∑ j ∈ Finset.univ.erase i, hand (f j) := by
    apply Finset.sum_congr rfl
    intro j hj
    rw [Function.update_of_ne (Finset.ne_of_mem_erase hj)]
  rw [held, held, ← Finset.add_sum_erase _ _ (Finset.mem_univ i), hothers, Function.update_self,
    ← Finset.add_sum_erase _ (fun j => hand (f j)) (Finset.mem_univ i)]
  ac_rfl

theorem held_take {f : ι → Option κ} {i : ι} (c : κ) (h : f i = none) :
    held (Function.update f i (some c)) = held f + {c} := by
  have := held_update f i (some c)
  rwa [h, hand_none, add_zero] at this

theorem held_give {f : ι → Option κ} {i : ι} {c : κ} (h : f i = some c) :
    held (Function.update f i none) + {c} = held f := by
  have := held_update f i none
  rwa [h, hand_none, add_zero] at this

theorem held_keep {f : ι → Option κ} {i : ι} {x : Option κ} (h : f i = x) :
    held (Function.update f i x) = held f := by
  rw [← h, Function.update_eq_self]

end CppExamples.Holders
