import Mathlib

/-! # Flat memory: storing and loading runs of cells

A memory is a total map from addresses to cells.  `store` writes a list of
cells at consecutive addresses and `load` reads them back; the lemmas say how
loads see stores, how loads split, and what a store leaves alone.
-/
namespace CppExamples.Memory
variable {α : Type*}

/-- `m` with the cells of `xs` written at `p`, `p + 1`, ... -/
def store (m : ℕ → α) (p : ℕ) (xs : List α) : ℕ → α := fun i =>
  if p ≤ i then (xs[i - p]?).getD (m i) else m i

/-- The `n` cells of `m` from address `p` on. -/
def load (m : ℕ → α) (p n : ℕ) : List α := (List.range n).map (fun i => m (p + i))

@[simp] theorem load_length (m : ℕ → α) (p n : ℕ) : (load m p n).length = n := by simp [load]

@[simp] theorem load_zero (m : ℕ → α) (p : ℕ) : load m p 0 = [] := rfl

theorem load_add (m : ℕ → α) (p a b : ℕ) : load m p (a + b) = load m p a ++ load m (p + a) b := by
  simp only [load, List.range_add, List.map_append, List.map_map]
  congr 1
  exact List.map_congr_left (fun i _ => by simp [Nat.add_assoc])

theorem load_succ (m : ℕ → α) (p n : ℕ) : load m p (n + 1) = m p :: load m (p + 1) n := by
  rw [Nat.add_comm, load_add]
  rfl

theorem load_congr {m m' : ℕ → α} {p q n : ℕ} (h : ∀ i < n, m (p + i) = m' (q + i)) :
    load m p n = load m' q n :=
  List.map_congr_left (fun i hi => h i (List.mem_range.mp hi))

theorem getElem?_load (m : ℕ → α) (p n i : ℕ) (hi : i < n) : (load m p n)[i]? = some (m (p + i)) := by
  simp [load, hi]

theorem take_load (m : ℕ → α) (p : ℕ) {k n : ℕ} (h : k ≤ n) : (load m p n).take k = load m p k := by
  obtain ⟨d,rfl⟩ := Nat.exists_eq_add_of_le h
  rw [load_add, List.take_left' (load_length m p k)]

theorem drop_load (m : ℕ → α) (p : ℕ) {k n : ℕ} (h : k ≤ n) :
    (load m p n).drop k = load m (p + k) (n - k) := by
  obtain ⟨d,rfl⟩ := Nat.exists_eq_add_of_le h
  rw [load_add, List.drop_left' (load_length m p k), Nat.add_sub_cancel_left]

theorem store_apply_of_lt {m : ℕ → α} {p i : ℕ} {xs : List α} (h : i < p) : store m p xs i = m i := by
  simp [store, Nat.not_le.mpr h]

theorem store_apply_of_ge {m : ℕ → α} {p i : ℕ} {xs : List α} (h : p + xs.length ≤ i) :
    store m p xs i = m i := by
  have hp : p ≤ i := by omega
  simp [store, hp, List.getElem?_eq_none (show xs.length ≤ i - p by omega)]

@[simp] theorem store_nil (m : ℕ → α) (p : ℕ) : store m p [] = m := by
  funext i
  simp [store]

theorem store_cons (m : ℕ → α) (p : ℕ) (x : α) (xs : List α) :
    store m p (x :: xs) = store (Function.update m p x) (p + 1) xs := by
  funext i
  rcases Nat.lt_trichotomy i p with h | rfl | h
  · rw [store_apply_of_lt h, store_apply_of_lt (by omega), Function.update_of_ne (by omega)]
  · rw [store_apply_of_lt (Nat.lt_succ_self i), Function.update_self]
    simp [store]
  · have hs : i - p = (i - (p + 1)) + 1 := by omega
    simp [store, h.le, Nat.succ_le_of_lt h, hs, Function.update_of_ne (show i ≠ p by omega)]

theorem store_append (m : ℕ → α) (p : ℕ) (xs ys : List α) :
    store m p (xs ++ ys) = store (store m p xs) (p + xs.length) ys := by
  induction xs generalizing m p with
  | nil => simp
  | cons x xs ih =>
    rw [List.cons_append, store_cons, store_cons, ih, List.length_cons]
    congr 1
    omega

theorem load_store_self (m : ℕ → α) (p : ℕ) (xs : List α) : load (store m p xs) p xs.length = xs := by
  apply List.ext_getElem?
  intro i
  by_cases hi : i < xs.length
  · rw [getElem?_load _ _ _ _ hi]
    simp [store, hi]
  · rw [List.getElem?_eq_none (by simp; omega), List.getElem?_eq_none (by omega)]

theorem load_store_of_disjoint (m : ℕ → α) {p q n : ℕ} {xs : List α}
    (h : q + n ≤ p ∨ p + xs.length ≤ q) : load (store m p xs) q n = load m q n := by
  apply load_congr
  intro i hi
  rcases h with h | h
  · exact store_apply_of_lt (by omega)
  · exact store_apply_of_ge (by omega)

/-- Single cells written one after the other. -/
def write (m : ℕ → α) (ws : List (ℕ × α)) : ℕ → α :=
  ws.foldl (fun m w => Function.update m w.1 w.2) m

theorem write_append (m : ℕ → α) (ws vs : List (ℕ × α)) :
    write m (ws ++ vs) = write (write m ws) vs := List.foldl_append

/-- The writes of a run of cells from address `p` on. -/
def runFrom (p : ℕ) (xs : List α) : List (ℕ × α) := (xs.zipIdx p).map Prod.swap

theorem write_runFrom (m : ℕ → α) (p : ℕ) (xs : List α) : write m (runFrom p xs) = store m p xs := by
  induction xs generalizing m p with
  | nil => exact (store_nil m p).symm
  | cons x xs ih =>
    rw [store_cons, ← ih]
    rfl

end CppExamples.Memory
