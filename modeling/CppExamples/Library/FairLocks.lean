import CppExamples.Library.LockOrder

/-! # Fair schedules of threads with ordered locks

An infinite run in which a thread that can go on again and again does go on again and
again.  The holder of the greatest lock waits for nothing, so that it gives the lock back;
downwards along the order every lock is given back after every taking, and every thread
comes through its body again and again.
-/
namespace CppExamples.LockOrder
open Filter
variable {τ κ α : Type*} [DecidableEq τ] [LinearOrder κ]

/-- The states of an infinite run and the thread that moves in each of them, if any. -/
structure FairRun (body : τ → List (Stmt κ α)) (state : ℕ → Threads τ κ) (sched : ℕ → Option τ) :
    Prop where
  start : (state 0).Consistent body
  moves : ∀ n t, sched n = some t → (state n).step body t = some (state (n + 1))
  stays : ∀ n, sched n = none → state (n + 1) = state n
  fair : ∀ t, (∃ᶠ n in atTop, ((state n).step body t).isSome) → ∃ᶠ n in atTop, sched n = some t

namespace FairRun
variable {body : τ → List (Stmt κ α)} {state : ℕ → Threads τ κ} {sched : ℕ → Option τ} {t : τ}

theorem consistent (h : FairRun body state sched) (hbody : ∀ t, Ordered [] (body t)) (n : ℕ) :
    (state n).Consistent body := by
  induction n with
  | zero => exact h.start
  | succ n ih =>
    cases hn : sched n with
    | none => exact h.stays n hn ▸ ih
    | some t => exact ih.step hbody (h.moves n t hn)

theorem pc_of_ne (h : FairRun body state sched) {n : ℕ} (hn : sched n ≠ some t) :
    (state (n + 1)).pc t = (state n).pc t := by
  cases hs : sched n with
  | none => rw [h.stays n hs]
  | some u =>
    have hne : t ≠ u := by
      rintro rfl
      exact hn hs
    exact Threads.step_pc_of_ne (h.moves n u hs) hne

theorem pc_step (h : FairRun body state sched) {n : ℕ} (hn : sched n = some t) :
    (state (n + 1)).pc t = ((state n).pc t + 1) % (body t).length := by
  have hstep := h.moves n t hn
  simp only [Threads.step, Option.bind_eq_some_iff, Option.map_eq_some_iff] at hstep
  obtain ⟨stmt,-,mutex,-,hnext⟩ := hstep
  rw [← hnext]
  exact Function.update_self ..

theorem pc_const (h : FairRun body state sched) {m n : ℕ} (hmn : m ≤ n)
    (hno : ∀ j, m ≤ j → j < n → sched j ≠ some t) : (state n).pc t = (state m).pc t := by
  induction n, hmn using Nat.le_induction with
  | base => rfl
  | succ n hmn ih =>
    rw [h.pc_of_ne (hno n hmn (Nat.lt_succ_self n))]
    exact ih fun j hj hjn => hno j hj (Nat.lt_succ_of_lt hjn)

theorem advances (h : FairRun body state sched) (hmoves : ∀ N, ∃ m ≥ N, sched m = some t) (N j : ℕ)
    (hinside : (state N).pc t < (body t).length) :
    ∃ m ≥ N, (state m).pc t = ((state N).pc t + j) % (body t).length := by
  induction j with
  | zero => exact ⟨N,le_rfl,(Nat.mod_eq_of_lt hinside).symm⟩
  | succ j ih =>
    obtain ⟨m,hm,hpc⟩ := ih
    let first := Nat.find (hmoves m)
    obtain ⟨hge,hfirst⟩ : first ≥ m ∧ sched first = some t := Nat.find_spec (hmoves m)
    have hsame : (state first).pc t = (state m).pc t := by
      refine h.pc_const hge fun k hk hlt hsched => ?_
      exact Nat.find_min (hmoves m) hlt ⟨hk,hsched⟩
    refine ⟨first + 1,by omega,?_⟩
    rw [h.pc_step hfirst, hsame, hpc, Nat.mod_add_mod, Nat.add_assoc]

theorem visits (h : FairRun body state sched) (hbody : ∀ t, Ordered [] (body t))
    (hmoves : ∀ N, ∃ m ≥ N, sched m = some t) {place : ℕ} (hplace : place < (body t).length) (N : ℕ) :
    ∃ m ≥ N, (state m).pc t = place := by
  have hinside := (h.consistent hbody N).inside t
  obtain ⟨m,hm,hpc⟩ := h.advances hmoves N ((body t).length - (state N).pc t + place) hinside
  refine ⟨m,hm,?_⟩
  have hround : (state N).pc t + ((body t).length - (state N).pc t + place) =
      place + (body t).length := by omega
  rw [hpc, hround, Nat.add_mod_right, Nat.mod_eq_of_lt hplace]

theorem freed (h : FairRun body state sched) (hbody : ∀ t, Ordered [] (body t)) {k : κ} {m n : ℕ}
    (hmn : m ≤ n) (hheld : k ∈ (state m).held body t) (hgone : k ∉ (state n).held body t) :
    ∃ j ≥ m, (state j).mutex k = .free := by
  induction n, hmn using Nat.le_induction with
  | base => exact absurd hheld hgone
  | succ n hmn ih =>
    by_cases hstill : k ∈ (state n).held body t
    · have hmover : sched n = some t := by
        by_contra hno
        refine hgone ?_
        rwa [Threads.held, h.pc_of_ne hno]
      refine ⟨n + 1,by omega,?_⟩
      have howned := ((h.consistent hbody n).owned k t).mpr hstill
      rcases (h.consistent hbody (n + 1)).once k with hfree | ⟨u,hu⟩
      · exact hfree
      · have hholds := ((h.consistent hbody (n + 1)).owned k u).mp hu
        have hne : u ≠ t := by
          rintro rfl
          exact hgone hholds
        have hsame : sched n ≠ some u := by
          rw [hmover]
          exact fun he => hne (Option.some.inj he).symm
        rw [Threads.held, h.pc_of_ne hsame] at hholds
        exact absurd ((h.consistent hbody n).exclusive hholds hstill) hne
    · exact ih hstill

/-- A thread moves again when the locks it can be waiting for are given back. -/
theorem moves_again (h : FairRun body state sched) (hbody : ∀ t, Ordered [] (body t)) (N : ℕ)
    (hgiven : ∀ n ≥ N, ∀ k u, (state n).next body t = some (.wait k) →
      k ∈ (state n).held body u → ∃ m ≥ n, k ∉ (state m).held body u) :
    ∃ m ≥ N, sched m = some t := by
  by_contra hno
  push Not at hno
  have hsame : ∀ n ≥ N, (state n).pc t = (state N).pc t := fun n hn =>
    h.pc_const hn fun j hj _ => hno j hj
  have hrarely : ¬ ∃ᶠ n in atTop, ((state n).step body t).isSome := by
    intro hoften
    obtain ⟨m,hm,hmoves⟩ := frequently_atTop.mp (h.fair t hoften) N
    exact hno m hm hmoves
  obtain ⟨M,hM⟩ := eventually_atTop.mp (not_frequently.mp hrarely)
  have hidle : ∀ n ≥ M, (state n).step body t = none := fun n hn => by simpa using hM n hn
  -- from here on the thread waits for one lock
  obtain ⟨k,u,hnext,hheld⟩ := (h.consistent hbody (max M N)).blocked (hbody t)
    (hidle _ (le_max_left ..))
  obtain ⟨m,hm,hgone⟩ := hgiven _ (le_max_right ..) k u hnext hheld
  obtain ⟨j,hj,hfree⟩ := h.freed hbody hm hheld hgone
  have hpc : (state j).pc t = (state (max M N)).pc t := by
    rw [hsame j (le_trans (le_max_right ..) hj), hsame _ (le_max_right ..)]
  have hwaits : (state j).next body t = some (.wait k) := by
    rw [← hnext, Threads.next, Threads.next, hpc]
  have hnone := hidle j (le_trans (le_max_left ..) hj)
  simp [Threads.step, hwaits, Threads.effect, hfree] at hnone

theorem given_back [WellFoundedGT κ] (h : FairRun body state sched)
    (hbody : ∀ t, Ordered [] (body t)) (k : κ) :
    ∀ t n, k ∈ (state n).held body t → ∃ m ≥ n, k ∉ (state m).held body t := by
  induction k using WellFoundedGT.induction with
  | _ k ih =>
    intro t n hheld
    by_contra hno
    push Not at hno
    have hmoves : ∀ N, ∃ m ≥ N, sched m = some t := by
      intro N
      obtain ⟨m,hm,hsched⟩ := h.moves_again hbody (t := t) (max n N) fun m hm l u hnext hl => by
        obtain ⟨rest,hlt,-⟩ := Threads.ordered_next (hbody t) hnext
        exact ih l (hlt k (hno m (le_trans (le_max_left ..) hm))) u m hl
      exact ⟨m,le_trans (le_max_right ..) hm,hsched⟩
    have hlen : 0 < (body t).length := Nat.zero_lt_of_lt ((h.consistent hbody n).inside t)
    obtain ⟨m,hm,hpc⟩ := h.visits hbody hmoves hlen n
    have hheld' := hno m hm
    rw [Threads.held, hpc, List.take_zero, heldAfter] at hheld'
    cases hheld'

/-- Every thread comes to every place of its body again and again. -/
theorem visits_always [WellFoundedGT κ] (h : FairRun body state sched)
    (hbody : ∀ t, Ordered [] (body t)) (t : τ) {place : ℕ} (hplace : place < (body t).length) :
    ∃ᶠ n in atTop, (state n).pc t = place := by
  have hmoves : ∀ N, ∃ m ≥ N, sched m = some t := fun N =>
    h.moves_again hbody N fun n _ k u _ hheld => h.given_back hbody k u n hheld
  exact frequently_atTop.mpr fun N => h.visits hbody hmoves hplace N

end FairRun
end CppExamples.LockOrder
