import Mathlib

/-! # Steps that come to an end

A machine takes the steps of a list of inputs one after the other, `is.foldlM step s`.
Some steps are its own, the others come from outside.  A potential that pays for the own
steps bounds their number, and they lead to a state in which none of them can be taken.
-/
namespace CppExamples.Progress
variable {σ ι : Type*} {step : σ → ι → Option σ} {s t : σ}

theorem foldlM_cons_eq_some {i : ι} {is : List ι} (h : (i :: is).foldlM step s = some t) :
    ∃ u, step s i = some u ∧ is.foldlM step u = some t := by
  rw [List.foldlM_cons] at h
  exact Option.bind_eq_some_iff.mp h

theorem foldlM_invariant {inv : σ → Prop}
    (hstep : ∀ s i t, inv s → step s i = some t → inv t) {is : List ι} (hs : inv s)
    (h : is.foldlM step s = some t) : inv t := by
  induction is generalizing s with
  | nil =>
    obtain rfl := Option.some.inj h
    exact hs
  | cons i is ih =>
    obtain ⟨u,hi,hrest⟩ := foldlM_cons_eq_some h
    exact ih (hstep s i u hs hi) hrest

/-- The potential and what the inputs add to it pay for the own steps of a run. -/
theorem countP_le {inv : σ → Prop} {potential : σ → ℕ} {own : ι → Bool} {gain : ι → ℕ}
    (hinv : ∀ s i t, inv s → step s i = some t → inv t)
    (hstep : ∀ s i t, inv s → step s i = some t →
      potential t + (own i).toNat ≤ potential s + gain i)
    {is : List ι} (hs : inv s) (h : is.foldlM step s = some t) :
    is.countP own + potential t ≤ potential s + (is.map gain).sum := by
  induction is generalizing s with
  | nil =>
    obtain rfl := Option.some.inj h
    simp
  | cons i is ih =>
    obtain ⟨u,hi,hrest⟩ := foldlM_cons_eq_some h
    have hlater := ih (hinv s i u hs hi) hrest
    have hfirst := hstep s i u hs hi
    have hcount : (i :: is).countP own = is.countP own + (own i).toNat := by
      rw [List.countP_cons]
      cases own i <;> rfl
    rw [hcount, List.map_cons, List.sum_cons]
    omega

/-- None of its own steps can be taken. -/
def AtRest (step : σ → ι → Option σ) (own : ι → Bool) (s : σ) : Prop :=
  ∀ i, own i = true → step s i = none

theorem leads_to {inv goal : σ → Prop} {own : ι → Prop} {potential : σ → ℕ}
    (hstep : ∀ s, inv s → ¬ goal s →
      ∃ i t, own i ∧ step s i = some t ∧ inv t ∧ potential t < potential s)
    (s : σ) (hs : inv s) :
    ∃ (is : List ι) (t : σ), (∀ i ∈ is, own i) ∧ is.foldlM step s = some t ∧ inv t ∧ goal t := by
  induction hn : potential s using Nat.strong_induction_on generalizing s with
  | _ n ih =>
    by_cases hgoal : goal s
    · exact ⟨[],s,by simp,rfl,hs,hgoal⟩
    · obtain ⟨i,u,hown,hi,hu,hlt⟩ := hstep s hs hgoal
      obtain ⟨is,t,hall,hrest,ht,hend⟩ := ih (potential u) (hn ▸ hlt) u hu rfl
      refine ⟨i :: is,t,?_,?_,ht,hend⟩
      · intro j hj
        rcases List.mem_cons.mp hj with rfl | hj
        · exact hown
        · exact hall j hj
      · rw [List.foldlM_cons, hi]
        exact hrest

/-- Where every own step lowers the potential, own steps lead to rest. -/
theorem leads_to_rest {inv : σ → Prop} {own : ι → Bool} {potential : σ → ℕ}
    (hinv : ∀ s i t, inv s → step s i = some t → inv t)
    (hstep : ∀ s i t, inv s → own i = true → step s i = some t → potential t < potential s)
    (s : σ) (hs : inv s) :
    ∃ (is : List ι) (t : σ), (∀ i ∈ is, own i = true) ∧ is.foldlM step s = some t ∧ inv t ∧ AtRest step own t := by
  have hbusy : ∀ u, inv u → ¬ AtRest step own u →
      ∃ i t, own i = true ∧ step u i = some t ∧ inv t ∧ potential t < potential u := by
    intro u hu hrest
    simp only [AtRest, not_forall] at hrest
    obtain ⟨i,hown,hi⟩ := hrest
    obtain ⟨t,ht⟩ := Option.ne_none_iff_exists'.mp hi
    exact ⟨i,t,hown,ht,hinv u i t hu ht,hstep u i t hu hown ht⟩
  exact leads_to hbusy s hs

/-- Who goes from one place to another changes the sum of all weights by the weights of
the two. -/
theorem sum_update {α β : Type*} [Fintype α] [DecidableEq α] (weight : β → ℕ) (f : α → β) (a : α)
    (b : β) :
    ∑ x, weight (Function.update f a b x) + weight (f a) = ∑ x, weight (f x) + weight b := by
  have hothers : ∑ x ∈ Finset.univ.erase a, weight (Function.update f a b x) =
      ∑ x ∈ Finset.univ.erase a, weight (f x) := by
    apply Finset.sum_congr rfl
    intro x hx
    rw [Function.update_of_ne (Finset.ne_of_mem_erase hx)]
  rw [← Finset.add_sum_erase _ _ (Finset.mem_univ a), hothers, Function.update_self,
    ← Finset.add_sum_erase _ (fun x => weight (f x)) (Finset.mem_univ a)]
  ac_rfl

theorem map_sum_update {α β : Type*} [DecidableEq α] (weight : β → ℕ) (f : α → β) {a : α} (b : β)
    {l : List α} (hl : l.Nodup) (ha : a ∈ l) :
    (l.map fun x => weight (Function.update f a b x)).sum + weight (f a) =
      (l.map fun x => weight (f x)).sum + weight b := by
  induction l with
  | nil => cases ha
  | cons c l ih =>
    obtain ⟨hc,hl⟩ := List.nodup_cons.mp hl
    simp only [List.map_cons, List.sum_cons]
    rcases List.mem_cons.mp ha with rfl | ha
    · have hothers : (l.map fun x => weight (Function.update f a b x)) = l.map fun x => weight (f x) := by
        refine List.map_congr_left fun x hx => ?_
        rw [Function.update_of_ne]
        rintro rfl
        exact hc hx
      rw [hothers, Function.update_self]
      omega
    · have hne : c ≠ a := by
        rintro rfl
        exact hc ha
      have hrest := ih hl ha
      rw [Function.update_of_ne hne]
      omega

end CppExamples.Progress
