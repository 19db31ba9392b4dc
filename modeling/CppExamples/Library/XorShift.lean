import Mathlib

/-! # Words mixed by shifts

A word to which its own right shifts are added bit by bit keeps all it says: the highest bit
stands for itself, and every bit below it is found from those above.  What such a mix does to
all words together is a permutation, and any property has as many words after it as before.
-/
namespace CppExamples.XorShift
variable {w : ℕ} {shifts : List ℕ} {a b : BitVec w}

/-- `h ^ (h >> s) ^ ...` for the shifts `s`. -/
def xorShifts (shifts : List ℕ) (h : BitVec w) : BitVec w :=
  shifts.foldl (fun mixed s => mixed ^^^ (h >>> s)) h

theorem getLsbD_foldl (h mixed : BitVec w) (i : ℕ) :
    (shifts.foldl (fun mixed s => mixed ^^^ (h >>> s)) mixed).getLsbD i =
      (mixed.getLsbD i ^^ (shifts.map fun s => h.getLsbD (s + i)).foldl Bool.xor false) := by
  induction shifts generalizing mixed with
  | nil => simp
  | cons s shifts ih =>
    have hstart : ∀ (l : List Bool) (x : Bool), l.foldl Bool.xor x = (x ^^ l.foldl Bool.xor false) := by
      intro l
      induction l with
      | nil => simp
      | cons y l ihl =>
        intro x
        rw [List.foldl_cons, List.foldl_cons, ihl, ihl (false ^^ y), Bool.false_xor, Bool.xor_assoc]
    rw [List.foldl_cons, ih, List.map_cons, List.foldl_cons, hstart _ (false ^^ _), Bool.false_xor,
      BitVec.getLsbD_xor, BitVec.getLsbD_ushiftRight, Bool.xor_assoc]

theorem xorShifts_injective (hshifts : ∀ s ∈ shifts, 0 < s) :
    Function.Injective (xorShifts (w := w) shifts) := by
  intro a b hab
  -- the bits agree from the highest one down
  have hdown : ∀ n i, w ≤ i + n → a.getLsbD i = b.getLsbD i := by
    intro n
    induction n with
    | zero =>
      intro i hi
      rw [BitVec.getLsbD_of_ge a i hi, BitVec.getLsbD_of_ge b i hi]
    | succ n ih =>
      intro i hi
      have hbit := congrArg (fun v => v.getLsbD i) hab
      simp only [xorShifts, getLsbD_foldl] at hbit
      have habove : (shifts.map fun s => a.getLsbD (s + i)) = shifts.map fun s => b.getLsbD (s + i) := by
        refine List.map_congr_left fun s hs => ih (s + i) ?_
        have := hshifts s hs
        omega
      rw [habove] at hbit
      exact Bool.xor_left_inj.mp hbit
  exact BitVec.eq_of_getLsbD_eq fun i _ => hdown w i (Nat.le_add_left w i)

theorem card_filter_comp {n : ℕ} {f : ℕ → ℕ} (hmap : ∀ x < n, f x < n)
    (hinj : Set.InjOn f (Finset.range n)) (p : ℕ → Prop) [DecidablePred p] :
    ((Finset.range n).filter fun x => p (f x)).card = ((Finset.range n).filter p).card := by
  have himage : (Finset.range n).image f = Finset.range n := by
    refine Finset.eq_of_subset_of_card_le ?_ (Finset.card_image_of_injOn hinj).ge
    intro y hy
    obtain ⟨x,hx,rfl⟩ := Finset.mem_image.mp hy
    exact Finset.mem_range.mpr (hmap x (Finset.mem_range.mp hx))
  conv_rhs => rw [← himage, Finset.filter_image]
  exact (Finset.card_image_of_injOn (hinj.mono (Finset.coe_subset.mpr (Finset.filter_subset _ _)))).symm

/-- A mix of words leaves the sizes of sets of words. -/
theorem card_filter_mix {mix : BitVec w → BitVec w} (hmix : Function.Injective mix) (p : ℕ → Prop)
    [DecidablePred p] :
    ((Finset.range (2 ^ w)).filter fun x => p (mix (BitVec.ofNat w x)).toNat).card =
      ((Finset.range (2 ^ w)).filter p).card := by
  refine card_filter_comp (fun x _ => (mix _).isLt) ?_ p
  intro x hx y hy he
  have hx : x < 2 ^ w := by simpa using hx
  have hy : y < 2 ^ w := by simpa using hy
  have hwords := congrArg BitVec.toNat (hmix (BitVec.eq_of_toNat_eq he))
  rwa [BitVec.toNat_ofNat, BitVec.toNat_ofNat, Nat.mod_eq_of_lt hx, Nat.mod_eq_of_lt hy] at hwords

/-- The numbers below a power of two are spread evenly over the remainders by a smaller one. -/
theorem card_filter_mod {j i : ℕ} (hj : j ≤ w) (hi : i < 2 ^ j) :
    ((Finset.range (2 ^ w)).filter fun x => x % 2 ^ j = i).card = 2 ^ (w - j) := by
  have hcount := Nat.count_modEq_card (2 ^ w) (Nat.two_pow_pos j) i
  have hsplit : 2 ^ w = 2 ^ j * 2 ^ (w - j) := by rw [← pow_add, Nat.add_sub_cancel' hj]
  have hmod : 2 ^ w % 2 ^ j = 0 := by rw [hsplit, Nat.mul_mod_right]
  have hdiv : 2 ^ w / 2 ^ j = 2 ^ (w - j) := by rw [hsplit, Nat.mul_div_cancel_left _ (Nat.two_pow_pos j)]
  rw [hmod, if_neg (Nat.not_lt_zero _), Nat.add_zero, hdiv, Nat.count_eq_card_filter_range] at hcount
  rw [← hcount]
  refine congrArg Finset.card (Finset.filter_congr fun x _ => ?_)
  rw [Nat.ModEq, Nat.mod_eq_of_lt hi]

end CppExamples.XorShift
