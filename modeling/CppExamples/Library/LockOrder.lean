import Mathlib

/-! # Threads that take mutexes in one order

Every thread runs a body of statements over and over.  The locks a thread has to be
holding at a place of its body are read off the statements before that place.  Where
each body takes its locks in increasing order, gives back only what it holds and ends
with nothing, the mutexes agree with the places of the threads, and no group of
threads that covers the holders can be blocked as a whole.
-/
namespace CppExamples.LockOrder
variable {τ κ α : Type*}

/-- A mutex its owner may take again; `again` counts the takings after the first. -/
inductive Mutex (τ : Type*) where
  | free
  | owned (thread : τ) (again : ℕ)
deriving DecidableEq

namespace Mutex
variable [DecidableEq τ]

/-- None while another thread owns the mutex: the caller blocks. -/
def wait (t : τ) : Mutex τ → Option (Mutex τ)
  | free => some (owned t 0)
  | owned u again => if u = t then some (owned t (again + 1)) else none

/-- A release by a thread that is not the owner changes nothing. -/
def release (t : τ) : Mutex τ → Mutex τ
  | free => free
  | owned u 0 => if u = t then free else owned u 0
  | owned u (again + 1) => if u = t then owned u again else owned u (again + 1)

@[simp] theorem wait_free (t : τ) : wait t free = some (owned t 0) := rfl

@[simp] theorem release_owned (t : τ) : release t (owned t 0) = free := by
  simp [release]

end Mutex

inductive Stmt (κ α : Type*) where
  | wait (lock : κ)
  | release (lock : κ)
  | work (what : α)
deriving DecidableEq

/-- The mutexes, and for every thread the place of its next statement. -/
structure Threads (τ κ : Type*) where
  mutex : κ → Mutex τ
  pc : τ → ℕ

namespace Threads

def initial : Threads τ κ := ⟨fun _ => .free,fun _ => 0⟩

def next (body : τ → List (Stmt κ α)) (s : Threads τ κ) (t : τ) : Option (Stmt κ α) :=
  (body t)[s.pc t]?

/-- What a statement does to the mutexes; none when it blocks. -/
def effect [DecidableEq τ] [DecidableEq κ] (s : Threads τ κ) (t : τ) :
    Stmt κ α → Option (κ → Mutex τ)
  | .wait k => ((s.mutex k).wait t).map (Function.update s.mutex k)
  | .release k => some (Function.update s.mutex k ((s.mutex k).release t))
  | .work _ => some s.mutex

/-- One statement of one thread; behind the last one its body starts again. -/
def step [DecidableEq τ] [DecidableEq κ] (body : τ → List (Stmt κ α)) (s : Threads τ κ) (t : τ) :
    Option (Threads τ κ) :=
  (s.next body t).bind fun stmt => (s.effect t stmt).map fun mutex =>
    ⟨mutex,Function.update s.pc t ((s.pc t + 1) % (body t).length)⟩

end Threads

section Held
variable [DecidableEq κ]

/-- The locks held behind some statements, from those held before. -/
def heldAfter : List κ → List (Stmt κ α) → List κ
  | held, [] => held
  | held, .wait k :: rest => heldAfter (k :: held) rest
  | held, .release k :: rest => heldAfter (held.erase k) rest
  | held, .work _ :: rest => heldAfter held rest

/-- The locks the thread has waited for and not given back since its body began. -/
def Threads.held (body : τ → List (Stmt κ α)) (s : Threads τ κ) (t : τ) : List κ :=
  heldAfter [] ((body t).take (s.pc t))

theorem heldAfter_append (held : List κ) (xs ys : List (Stmt κ α)) :
    heldAfter held (xs ++ ys) = heldAfter (heldAfter held xs) ys := by
  induction xs generalizing held with
  | nil => rfl
  | cons x xs ih => cases x <;> exact ih _

/-- Locks are taken above all held ones, only held ones are given back, and all of
them by the end. -/
def Ordered [LT κ] : List κ → List (Stmt κ α) → Prop
  | held, [] => held = []
  | held, .wait k :: rest => (∀ l ∈ held, l < k) ∧ Ordered (k :: held) rest
  | held, .release k :: rest => k ∈ held ∧ Ordered (held.erase k) rest
  | held, .work _ :: rest => Ordered held rest

theorem Ordered.heldAfter [LT κ] {held : List κ} {xs ys : List (Stmt κ α)}
    (h : Ordered held (xs ++ ys)) : Ordered (heldAfter held xs) ys := by
  induction xs generalizing held with
  | nil => exact h
  | cons x xs ih =>
    cases x with
    | wait k => exact ih h.2
    | release k => exact ih h.2
    | work a => exact ih h

theorem Ordered.nodup [Preorder κ] {held : List κ} {xs ys : List (Stmt κ α)}
    (h : Ordered held (xs ++ ys)) (hheld : held.Nodup) :
    (LockOrder.heldAfter held xs).Nodup := by
  induction xs generalizing held with
  | nil => exact hheld
  | cons x xs ih =>
    cases x with
    | wait k =>
      have hk : k ∉ held := fun hk => lt_irrefl k (h.1 k hk)
      exact ih h.2 (List.nodup_cons.mpr ⟨hk,hheld⟩)
    | release k => exact ih h.2 (hheld.erase k)
    | work a => exact ih h hheld

end Held

namespace Threads
variable [DecidableEq τ] [LinearOrder κ] {body : τ → List (Stmt κ α)}
  {s s' : Threads τ κ} {t : τ}

/-- The mutexes are owned as the places of the threads say. -/
structure Consistent (body : τ → List (Stmt κ α)) (s : Threads τ κ) : Prop where
  inside : ∀ t, s.pc t < (body t).length
  owned : ∀ k t, s.mutex k = .owned t 0 ↔ k ∈ s.held body t
  once : ∀ k, s.mutex k = .free ∨ ∃ t, s.mutex k = .owned t 0

omit [DecidableEq τ] [LinearOrder κ] in
theorem next_eq_some {stmt : Stmt κ α} (h : s.next body t = some stmt) :
    ∃ rest, body t = (body t).take (s.pc t) ++ stmt :: rest ∧
      (body t).take (s.pc t + 1) = (body t).take (s.pc t) ++ [stmt] := by
  obtain ⟨hlt,hget⟩ := List.getElem?_eq_some_iff.mp h
  refine ⟨(body t).drop (s.pc t + 1),?_,?_⟩
  · rw [← hget, List.cons_getElem_drop_succ, List.take_append_drop]
  · rw [List.take_add_one, ← hget, List.getElem?_eq_getElem hlt, Option.toList_some]

omit [DecidableEq τ] in
theorem ordered_next {stmt : Stmt κ α} (hbody : Ordered [] (body t))
    (h : s.next body t = some stmt) :
    ∃ rest, Ordered (s.held body t) (stmt :: rest) := by
  obtain ⟨rest,hsplit,-⟩ := next_eq_some h
  rw [hsplit] at hbody
  exact ⟨rest,hbody.heldAfter⟩

omit [DecidableEq τ] in
theorem held_nodup (s : Threads τ κ) (hbody : Ordered [] (body t)) : (s.held body t).Nodup := by
  rw [← List.take_append_drop (s.pc t) (body t)] at hbody
  exact hbody.nodup List.nodup_nil

/-- The held locks behind the statement that a step runs; at the end of the body,
where the thread starts again, nothing is held. -/
theorem held_step {stmt : Stmt κ α} (mutex : κ → Mutex τ) (hbody : Ordered [] (body t))
    (h : s.next body t = some stmt) :
    held body ⟨mutex,Function.update s.pc t ((s.pc t + 1) % (body t).length)⟩ t =
      heldAfter (s.held body t) [stmt] := by
  obtain ⟨hlt,-⟩ := List.getElem?_eq_some_iff.mp h
  obtain ⟨rest,-,htake⟩ := next_eq_some h
  have hafter : heldAfter [] ((body t).take (s.pc t + 1)) = heldAfter (s.held body t) [stmt] := by
    rw [htake, heldAfter_append, held]
  simp only [held, Function.update_self] at hafter ⊢
  rcases Nat.lt_or_ge (s.pc t + 1) (body t).length with hnext | hend
  · rw [Nat.mod_eq_of_lt hnext, hafter]
  · have hlen : s.pc t + 1 = (body t).length := by omega
    have hnothing : heldAfter [] (body t) = [] := by
      rw [← List.append_nil (body t)] at hbody
      exact hbody.heldAfter
    rw [hlen, List.take_length, hnothing] at hafter
    rw [hlen, Nat.mod_self, List.take_zero, ← hafter, heldAfter]

theorem held_step_of_ne {mutex : κ → Mutex τ} {u : τ} {pc : ℕ} (h : u ≠ t) :
    held body ⟨mutex,Function.update s.pc t pc⟩ u = s.held body u := by
  simp only [held, Function.update_of_ne h]

omit [LinearOrder κ] in
theorem step_pc_of_ne [DecidableEq κ] (h : s.step body t = some s') {u : τ} (hu : u ≠ t) :
    s'.pc u = s.pc u := by
  simp only [Threads.step, Option.bind_eq_some_iff, Option.map_eq_some_iff] at h
  obtain ⟨stmt,-,mutex,-,rfl⟩ := h
  exact Function.update_of_ne hu ..

omit [DecidableEq τ] in
theorem consistent_initial (hne : ∀ t, body t ≠ []) : Consistent body (initial : Threads τ κ) where
  inside t := List.length_pos_iff.mpr (hne t)
  owned k t := by simp [initial, held, heldAfter]
  once k := Or.inl rfl

omit [DecidableEq τ] in
theorem Consistent.waits (hs : Consistent body s) (hbody : Ordered [] (body t)) {k : κ}
    (h : s.next body t = some (.wait k)) :
    s.mutex k = .free ∨ ∃ u, u ≠ t ∧ s.mutex k = .owned u 0 := by
  rcases hs.once k with hfree | ⟨u,hu⟩
  · exact Or.inl hfree
  · refine Or.inr ⟨u,?_,hu⟩
    rintro rfl
    obtain ⟨rest,hlt,-⟩ := ordered_next hbody h
    exact lt_irrefl k (hlt k ((hs.owned k u).mp hu))

omit [DecidableEq τ] in
theorem Consistent.releases (hs : Consistent body s) (hbody : Ordered [] (body t)) {k : κ}
    (h : s.next body t = some (.release k)) : s.mutex k = .owned t 0 := by
  obtain ⟨rest,hmem,-⟩ := ordered_next hbody h
  exact (hs.owned k t).mpr hmem

omit [DecidableEq τ] in
theorem Consistent.exclusive (hs : Consistent body s) {k : κ} {t u : τ}
    (ht : k ∈ s.held body t) (hu : k ∈ s.held body u) : t = u := by
  have h := ((hs.owned k t).mpr ht).symm.trans ((hs.owned k u).mpr hu)
  cases h
  rfl

theorem Consistent.inside_step (hs : Consistent body s) (u : τ) :
    Function.update s.pc t ((s.pc t + 1) % (body t).length) u < (body u).length := by
  by_cases hu : u = t
  · subst hu
    rw [Function.update_self]
    exact Nat.mod_lt _ (Nat.zero_lt_of_lt (hs.inside u))
  · rw [Function.update_of_ne hu]
    exact hs.inside u

omit [DecidableEq τ] in
theorem Consistent.change (hs : Consistent body s) {k : κ} {m : Mutex τ} {pc : τ → ℕ}
    (hinside : ∀ u, pc u < (body u).length)
    (hothers : ∀ l u, l ≠ k →
      (l ∈ held body ⟨Function.update s.mutex k m,pc⟩ u ↔ l ∈ s.held body u))
    (hm : ∀ u, m = .owned u 0 ↔ k ∈ held body ⟨Function.update s.mutex k m,pc⟩ u)
    (honce : m = .free ∨ ∃ u, m = .owned u 0) :
    Consistent body ⟨Function.update s.mutex k m,pc⟩ := by
  refine ⟨hinside,?_,?_⟩
  · intro l u
    by_cases hl : l = k
    · subst hl
      simpa only [Function.update_self] using hm u
    · simpa only [Function.update_of_ne hl, hothers l u hl] using hs.owned l u
  · intro l
    by_cases hl : l = k
    · subst hl
      simpa only [Function.update_self] using honce
    · simpa only [Function.update_of_ne hl] using hs.once l

theorem Consistent.step (hs : Consistent body s) (hbody : ∀ t, Ordered [] (body t))
    (h : s.step body t = some s') : Consistent body s' := by
  simp only [Threads.step, Option.bind_eq_some_iff, Option.map_eq_some_iff] at h
  obtain ⟨stmt,hnext,mutex,heffect,rfl⟩ := h
  have hheld := held_step mutex (hbody t) hnext
  cases stmt with
  | work what =>
    cases heffect
    refine ⟨hs.inside_step,?_,hs.once⟩
    intro k u
    by_cases hu : u = t
    · subst hu
      rw [hheld]
      exact hs.owned k u
    · rw [held_step_of_ne hu]
      exact hs.owned k u
  | wait k =>
    have hfree : s.mutex k = .free := by
      rcases hs.waits (hbody t) hnext with hfree | ⟨u,hu,howned⟩
      · exact hfree
      · simp [effect, howned, Mutex.wait, hu] at heffect
    obtain rfl : Function.update s.mutex k (.owned t 0) = mutex := by
      simpa [effect, hfree] using heffect
    refine hs.change hs.inside_step ?_ ?_ (Or.inr ⟨t,rfl⟩)
    · intro l u hl
      by_cases hu : u = t
      · subst hu
        rw [hheld]
        simp [heldAfter, hl]
      · rw [held_step_of_ne hu]
    · intro u
      by_cases hu : u = t
      · subst hu
        rw [hheld]
        simp [heldAfter]
      · have hnone : k ∉ s.held body u := by
          intro hmem
          simp [(hs.owned k u).mpr hmem] at hfree
        rw [held_step_of_ne hu]
        simp [hnone, Ne.symm hu]
  | release k =>
    have howned := hs.releases (hbody t) hnext
    obtain rfl : Function.update s.mutex k .free = mutex := by
      simpa [effect, howned] using heffect
    refine hs.change hs.inside_step ?_ ?_ (Or.inl rfl)
    · intro l u hl
      by_cases hu : u = t
      · subst hu
        rw [hheld]
        simp [heldAfter, List.mem_erase_of_ne hl]
      · rw [held_step_of_ne hu]
    · intro u
      by_cases hu : u = t
      · subst hu
        rw [hheld]
        simp [heldAfter, (held_nodup s (hbody u)).mem_erase_iff]
      · have hnone : k ∉ s.held body u := fun hmem =>
          hu (hs.exclusive hmem ((hs.owned k t).mp howned))
        rw [held_step_of_ne hu]
        simp [hnone]

theorem Consistent.blocked (hs : Consistent body s) (hbody : Ordered [] (body t))
    (h : s.step body t = none) :
    ∃ k u, s.next body t = some (.wait k) ∧ k ∈ s.held body u := by
  obtain ⟨stmt,hnext⟩ : ∃ stmt, s.next body t = some stmt :=
    ⟨_,List.getElem?_eq_getElem (hs.inside t)⟩
  cases stmt with
  | work what => simp [Threads.step, hnext, effect] at h
  | release k => simp [Threads.step, hnext, effect] at h
  | wait k =>
    rcases hs.waits hbody hnext with hfree | ⟨u,-,hu⟩
    · simp [Threads.step, hnext, effect, hfree] at h
    · exact ⟨k,u,hnext,(hs.owned k u).mp hu⟩

/-- The blocked thread whose lock is the greatest would be waiting for a thread that
waits for a greater one: some thread of a group that holds all the locks can go on. -/
theorem Consistent.progress (hs : Consistent body s) (hbody : ∀ t, Ordered [] (body t))
    (group : Finset τ) (hgroup : group.Nonempty)
    (hholders : ∀ t k, k ∈ s.held body t → t ∈ group) :
    ∃ t ∈ group, (s.step body t).isSome := by
  by_contra hno
  have hblocked : ∀ t ∈ group, ∃ k u, s.next body t = some (.wait k) ∧ k ∈ s.held body u := by
    intro t ht
    refine hs.blocked (hbody t) ?_
    cases h : s.step body t with
    | none => rfl
    | some s' => exact absurd ⟨t,ht,by simp [h]⟩ hno
  choose wanted holder hnext hheld using hblocked
  obtain ⟨⟨t,ht⟩,-,hmax⟩ := group.attach.exists_max_image (fun t => wanted t.1 t.2)
    (Finset.attach_nonempty_iff.mpr hgroup)
  have hu : holder t ht ∈ group := hholders _ _ (hheld t ht)
  obtain ⟨rest,hlt,-⟩ := ordered_next (hbody _) (hnext _ hu)
  exact absurd (hlt _ (hheld t ht)) (not_lt_of_ge (hmax ⟨_,hu⟩ (Finset.mem_attach ..)))

end Threads

end CppExamples.LockOrder
