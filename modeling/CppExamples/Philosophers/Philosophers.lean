import CppExamples.Library.LockOrder

/-! # Dining philosophers

`main` creates a mutex for every chopstick and one thread for every philosopher.  All
but the last one take the left chopstick first; the last one takes the right one
first, so that every philosopher takes the chopsticks in the order of their numbers.
-/
namespace CppExamples.Philosophers
open LockOrder
variable {num : ℕ}

/-- What `ThreadFun` does between the calls on mutexes. -/
inductive Action where
  | printDining
  | sleep
  | printLeftDown
  | printRightDown
deriving DecidableEq

def left (current : Fin num) : Fin num := ⟨current.val % num,Nat.mod_lt _ current.pos⟩

def right (current : Fin num) : Fin num := ⟨(current.val + 1) % num,Nat.mod_lt _ current.pos⟩

/-- The body of the loop of `ThreadFun`; the test on `*current` comes out the same in
every round. -/
def threadFun (current : Fin num) : List (Stmt (Fin num) Action) :=
  if current.val < num - 1 then
    [.wait current,.wait (right current),.work .printDining,.work .sleep,
      .release (left current),.work .printLeftDown,.release (right current),.work .printRightDown]
  else
    [.wait (right current),.wait current,.work .printDining,.work .sleep,
      .release (right current),.work .printRightDown,.release (left current),.work .printLeftDown]

/-- The philosophers and how many of their threads `main` has created. -/
structure Table (num : ℕ) where
  threads : Threads (Fin num) (Fin num)
  created : ℕ

inductive Act (num : ℕ) where
  | beginthreadex
  | run (current : Fin num)

namespace Table

def initial : Table num := ⟨.initial,0⟩

/-- One step of `main` or of a thread it has created; none when it cannot be taken. -/
def step (s : Table num) : Act num → Option (Table num)
  | .beginthreadex => if s.created < num then some { s with created := s.created + 1 } else none
  | .run current =>
    if current.val < s.created then
      (s.threads.step threadFun current).map fun threads => { s with threads := threads }
    else none

def Reachable (s : Table num) : Prop :=
  Relation.ReflTransGen (fun u v => ∃ a, step u a = some v) initial s

def held (s : Table num) (i : Fin num) : List (Fin num) := s.threads.held threadFun i

def next (s : Table num) (i : Fin num) : Option (Stmt (Fin num) Action) :=
  s.threads.next threadFun i

def Eats (s : Table num) (i : Fin num) : Prop :=
  s.next i = some (.work .printDining) ∨ s.next i = some (.work .sleep)

end Table

@[simp] theorem left_eq (i : Fin num) : left i = i := Fin.ext (Nat.mod_eq_of_lt i.isLt)

theorem lt_right {i : Fin num} (hi : i.val < num - 1) : i < right i := by
  have hmod : (i.val + 1) % num = i.val + 1 := Nat.mod_eq_of_lt (by omega)
  show i.val < (i.val + 1) % num
  omega

theorem right_lt {i : Fin num} (hnum : 2 ≤ num) (hi : ¬ i.val < num - 1) : right i < i := by
  have hlast : i.val + 1 = num := by omega
  show (i.val + 1) % num < i.val
  rw [hlast, Nat.mod_self]
  omega

theorem right_ne (hnum : 2 ≤ num) (i : Fin num) : right i ≠ i := by
  by_cases hi : i.val < num - 1
  · exact (lt_right hi).ne'
  · exact (right_lt hnum hi).ne

theorem threadFun_ne_nil (i : Fin num) : threadFun i ≠ [] := by
  unfold threadFun
  split <;> simp

/-- The last philosopher reverses the order of the chopsticks and thereby keeps to the
order of their numbers. -/
theorem threadFun_ordered (hnum : 2 ≤ num) (i : Fin num) : Ordered [] (threadFun i) := by
  unfold threadFun
  split
  next hi =>
    have hlt := lt_right hi
    simp [Ordered, hlt, hlt.ne']
  next hi =>
    have hlt := right_lt hnum hi
    simp [Ordered, hlt, hlt.ne']

namespace Table
variable {s s' : Table num}

theorem Eats.holds {i : Fin num} (h : s.Eats i) : i ∈ s.held i ∧ right i ∈ s.held i := by
  unfold Eats next Threads.next at h
  unfold held Threads.held
  generalize s.threads.pc i = pc at h ⊢
  have hpc : pc < (threadFun i).length := by
    rcases h with h | h <;> exact (List.getElem?_eq_some_iff.mp h).1
  unfold threadFun at h hpc ⊢
  split at h
  all_goals
    simp only [*, if_true, if_false, List.length_cons, List.length_nil] at hpc ⊢
    interval_cases pc <;> simp [heldAfter] at h ⊢

/-- The threads are where the mutexes say, and only created ones have begun. -/
structure Invariant (s : Table num) : Prop where
  consistent : s.threads.Consistent threadFun
  waiting : ∀ i : Fin num, s.created ≤ i.val → s.threads.pc i = 0

theorem invariant_initial : (initial : Table num).Invariant :=
  ⟨Threads.consistent_initial threadFun_ne_nil,fun _ _ => rfl⟩

theorem Invariant.step (hnum : 2 ≤ num) (hs : s.Invariant) {a : Act num}
    (h : s.step a = some s') : s'.Invariant := by
  cases a with
  | beginthreadex =>
    simp only [Table.step, Option.ite_none_right_eq_some, Option.some.injEq] at h
    obtain ⟨-,rfl⟩ := h
    exact ⟨hs.consistent,fun i hi => hs.waiting i (by simp only at hi; omega)⟩
  | run current =>
    simp only [Table.step, Option.ite_none_right_eq_some, Option.map_eq_some_iff] at h
    obtain ⟨hcreated,threads,hstep,rfl⟩ := h
    refine ⟨hs.consistent.step (threadFun_ordered hnum) hstep,?_⟩
    intro i hi
    have hne : i ≠ current := by
      rintro rfl
      exact absurd hcreated (not_lt_of_ge hi)
    rw [Threads.step_pc_of_ne hstep hne]
    exact hs.waiting i hi

theorem Reachable.invariant (hnum : 2 ≤ num) (h : s.Reachable) : s.Invariant := by
  induction h with
  | refl => exact invariant_initial
  | tail _ hstep ih =>
    obtain ⟨a,ha⟩ := hstep
    exact ih.step hnum ha

/-- Whenever some philosophers have been created, one of them can go on. -/
theorem Invariant.progress (hnum : 2 ≤ num) (hs : s.Invariant) (hcreated : 0 < s.created) :
    ∃ i : Fin num, i.val < s.created ∧ (s.step (.run i)).isSome := by
  have hholders : ∀ i k, k ∈ s.held i → i ∈ Finset.univ.filter fun i : Fin num => i.val < s.created := by
    intro i k hk
    refine Finset.mem_filter.mpr ⟨Finset.mem_univ i,?_⟩
    by_contra hi
    simp [held, Threads.held, hs.waiting i (by omega), heldAfter] at hk
  obtain ⟨i,hi,hstep⟩ := hs.consistent.progress (threadFun_ordered hnum) _
    ⟨⟨0,by omega⟩,by simpa using hcreated⟩ hholders
  have hi : i.val < s.created := (Finset.mem_filter.mp hi).2
  exact ⟨i,hi,by simpa [Table.step, hi] using hstep⟩

/-- In every reachable state each chopstick is held by at most one philosopher, who owns
its mutex, neighbours do not eat at once, chopsticks are put down by those who hold
them, and some philosopher can go on. -/
theorem dining_safe (hnum : 2 ≤ num) (h : s.Reachable) :
    (∀ k i j, k ∈ s.held i → k ∈ s.held j → i = j) ∧
    (∀ k i, k ∈ s.held i ↔ s.threads.mutex k = .owned i 0) ∧
    (∀ i, ¬ (s.Eats i ∧ s.Eats (right i))) ∧
    (∀ i k, s.next i = some (.release k) → s.threads.mutex k = .owned i 0) ∧
    (0 < s.created → ∃ i : Fin num, i.val < s.created ∧ (s.step (.run i)).isSome) := by
  have hs := h.invariant hnum
  refine ⟨fun k i j => hs.consistent.exclusive,fun k i => (hs.consistent.owned k i).symm,?_,
    fun i k => hs.consistent.releases (threadFun_ordered hnum i),hs.progress hnum⟩
  rintro i ⟨hi,hj⟩
  exact right_ne hnum i (hs.consistent.exclusive hj.holds.1 hi.holds.2)

/-- Two philosophers, one of whom has the left chopstick while the other is blocked. -/
theorem dining_safe_two :
    ∃ s : Table 2, s.Reachable ∧ s.created = 2 ∧ (s.step (.run 1)).isNone ∧
      ∃ i : Fin 2, i.val < s.created ∧ (s.step (.run i)).isSome := by
  have hone : (⟨.initial,1⟩ : Table 2).Reachable := Relation.ReflTransGen.refl.tail ⟨.beginthreadex,rfl⟩
  have htwo : (⟨.initial,2⟩ : Table 2).Reachable := hone.tail ⟨.beginthreadex,rfl⟩
  have htaken := htwo.tail ⟨.run 0,rfl⟩
  exact ⟨_,htaken,rfl,by decide,(dining_safe (by decide) htaken).2.2.2.2 (by decide)⟩

end Table

end CppExamples.Philosophers
