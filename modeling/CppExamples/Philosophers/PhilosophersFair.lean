import CppExamples.Library.FairLocks
import CppExamples.Philosophers.Philosophers

/-! # Every philosopher eats again and again

In a fair run `main` creates all threads, and from then on the philosophers are threads
with ordered locks, none of which is kept waiting for ever.
-/
namespace CppExamples.Philosophers
open Filter LockOrder
variable {num : ℕ}

def Act.thread : Act num → Option (Fin num)
  | .beginthreadex => none
  | .run current => some current

namespace Table

/-- An infinite run from the start in which every step that can be taken again and again is
taken again and again. -/
structure FairRun (state : ℕ → Table num) (acts : ℕ → Act num) : Prop where
  start : state 0 = initial
  moves : ∀ n, (state n).step (acts n) = some (state (n + 1))
  fair : ∀ a, (∃ᶠ n in atTop, ((state n).step a).isSome) → ∃ᶠ n in atTop, acts n = a

namespace FairRun
variable {state : ℕ → Table num} {acts : ℕ → Act num}

theorem created_step (h : FairRun state acts) (n : ℕ) :
    (state (n + 1)).created = (state n).created + if (acts n).thread = none then 1 else 0 := by
  have hmove := h.moves n
  cases ha : acts n with
  | beginthreadex =>
    rw [ha] at hmove
    obtain ⟨-,he⟩ := Option.ite_none_right_eq_some.mp hmove
    rw [← Option.some.inj he]
    rfl
  | run current =>
    rw [ha] at hmove
    obtain ⟨-,he⟩ := Option.ite_none_right_eq_some.mp hmove
    obtain ⟨threads,-,he⟩ := Option.map_eq_some_iff.mp he
    rw [← he]
    rfl

theorem created_mono (h : FairRun state acts) : Monotone fun n => (state n).created :=
  monotone_nat_of_le_succ fun n => by
    rw [h.created_step n]
    exact Nat.le_add_right ..

theorem all_created (h : FairRun state acts) (j : ℕ) (hj : j ≤ num) : ∃ n, j ≤ (state n).created := by
  induction j with
  | zero => exact ⟨0,Nat.zero_le _⟩
  | succ j ih =>
    obtain ⟨n,hn⟩ := ih (Nat.le_of_succ_le hj)
    by_contra hno
    push Not at hno
    have hready : ∀ m, ((state m).step .beginthreadex).isSome := by
      intro m
      have hlt : (state m).created < num := lt_of_lt_of_le (hno m) hj
      simp [Table.step, hlt]
    obtain ⟨m,hm,hact⟩ := frequently_atTop.mp (h.fair _ (Frequently.of_forall hready)) n
    have hgrown := h.created_step m
    rw [hact, Act.thread, if_pos rfl] at hgrown
    have hmono := h.created_mono hm
    have hlate := hno (m + 1)
    simp only at hmono
    omega

theorem threads (h : FairRun state acts) :
    LockOrder.FairRun threadFun (fun n => (state n).threads) fun n => (acts n).thread where
  start := by
    rw [h.start]
    exact Threads.consistent_initial threadFun_ne_nil
  moves n t ht := by
    have hmove := h.moves n
    cases ha : acts n with
    | beginthreadex =>
      rw [ha] at ht
      cases ht
    | run current =>
      rw [ha] at ht hmove
      obtain rfl := Option.some.inj ht
      obtain ⟨-,he⟩ := Option.ite_none_right_eq_some.mp hmove
      obtain ⟨threads,hthreads,he⟩ := Option.map_eq_some_iff.mp he
      rw [← he]
      exact hthreads
  stays n hn := by
    have hmove := h.moves n
    cases ha : acts n with
    | run current =>
      rw [ha] at hn
      cases hn
    | beginthreadex =>
      rw [ha] at hmove
      obtain ⟨-,he⟩ := Option.ite_none_right_eq_some.mp hmove
      rw [← Option.some.inj he]
  fair t hoften := by
    obtain ⟨N,hN⟩ := h.all_created num le_rfl
    have hcreated : ∀ᶠ n in atTop, t.val < (state n).created :=
      eventually_atTop.mpr ⟨N,fun n hn => lt_of_lt_of_le t.isLt (le_trans hN (h.created_mono hn))⟩
    have hready : ∃ᶠ n in atTop, ((state n).step (.run t)).isSome := by
      refine (hoften.and_eventually hcreated).mono fun n hn => ?_
      simpa [Table.step, hn.2] using hn.1
    refine (h.fair _ hready).mono fun n hn => ?_
    rw [hn, Act.thread]

end FairRun

theorem eats_of_pc {s : Table num} {i : Fin num} (hpc : s.threads.pc i = 2) : s.Eats i := by
  refine .inl ?_
  simp only [next, Threads.next, hpc, threadFun]
  split <;> rfl

/-- In every fair run every philosopher eats again and again. -/
theorem dining_fair (hnum : 2 ≤ num) {state : ℕ → Table num} {acts : ℕ → Act num}
    (h : FairRun state acts) (i : Fin num) : ∃ᶠ n in atTop, (state n).Eats i := by
  have hplace : 2 < (threadFun i).length := by
    unfold threadFun
    split <;> simp
  exact (h.threads.visits_always (threadFun_ordered hnum) i hplace).mono fun _ => eats_of_pc

def turns (n : ℕ) : Act 2 :=
  if n < 2 then .beginthreadex else .run ⟨(n - 2) / 8 % 2,Nat.mod_lt _ two_pos⟩

def turn (i : Fin 2) (j : ℕ) : Threads (Fin 2) (Fin 2) :=
  ((List.replicate j i).foldlM (Threads.step threadFun) Threads.initial).getD Threads.initial

def turnState (n : ℕ) : Table 2 :=
  if n < 2 then ⟨Threads.initial,n⟩ else ⟨turn ⟨(n - 2) / 8 % 2,Nat.mod_lt _ two_pos⟩ ((n - 2) % 8),2⟩

theorem turn_step (i : Fin 2) (j : ℕ) (hj : j < 8) :
    (turn i j).step threadFun i = some (if j = 7 then Threads.initial else turn i (j + 1)) := by
  fin_cases i <;> interval_cases j <;> first
    | rfl
    | refine congrArg some (congrArg₂ Threads.mk (funext fun k => ?_) (funext fun k => ?_)) <;>
        fin_cases k <;> rfl

theorem turn_moves (n : ℕ) : (turnState n).step (turns n) = some (turnState (n + 1)) := by
  rcases Nat.lt_or_ge n 2 with hn | hn
  · interval_cases n <;> rfl
  · have hstep := turn_step ⟨(n - 2) / 8 % 2,Nat.mod_lt _ two_pos⟩ ((n - 2) % 8)
      (Nat.mod_lt _ (by omega))
    have hcreated : (n - 2) / 8 % 2 < 2 := Nat.mod_lt _ two_pos
    simp only [turnState, turns, if_neg (not_lt.mpr hn), Table.step, if_pos hcreated, hstep,
      Option.map_some, if_neg (show ¬ n + 1 < 2 by omega)]
    by_cases hend : (n - 2) % 8 = 7
    · have hnext : (n + 1 - 2) % 8 = 0 := by omega
      rw [if_pos hend, hnext]
      rfl
    · have hnext : (n + 1 - 2) % 8 = (n - 2) % 8 + 1 := by omega
      have hsame : (n + 1 - 2) / 8 = (n - 2) / 8 := by omega
      simp only [if_neg hend, hnext, hsame]

theorem turns_fair : FairRun turnState turns where
  start := rfl
  moves := turn_moves
  fair a hoften := by
    cases a with
    | beginthreadex =>
      refine absurd hoften (not_frequently.mpr (eventually_atTop.mpr ⟨2,fun n hn => ?_⟩))
      simp only [turnState, if_neg (not_lt.mpr hn), Table.step]
      simp
    | run current =>
      refine frequently_atTop.mpr fun N => ⟨16 * N + 8 * current + 2,by omega,?_⟩
      have hwho : (16 * N + 8 * current.val + 2 - 2) / 8 % 2 = current := by omega
      simp only [turns, if_neg (show ¬ 16 * N + 8 * current.val + 2 < 2 by omega), hwho]

theorem dining_fair_two :
    (∃ᶠ n in atTop, (turnState n).Eats 0) ∧ ∃ᶠ n in atTop, (turnState n).Eats 1 :=
  ⟨dining_fair le_rfl turns_fair 0,dining_fair le_rfl turns_fair 1⟩

end Table

end CppExamples.Philosophers
