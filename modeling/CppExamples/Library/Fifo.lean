import CppExamples.Library.Machine

/-! # The FIFO queue as a machine

The abstract purpose of a byte buffer: what was enqueued and not yet dequeued,
in order.  `run_conserves` is the conservation law of every machine whose steps
only append to and take from a content list; the queue satisfies it, and so does
whatever simulates the queue.
-/
namespace CppExamples.Fifo
open Machine
variable {α σ ι : Type*}

inductive Op (α : Type*) where
  | enqueue (xs : List α)
  | dequeue (n : ℕ)

def Op.added : Op α → List α
  | .enqueue xs => xs
  | .dequeue _ => []

def step (q : List α) : Op α → Option (List α × List α)
  | .enqueue xs => some (q ++ xs, [])
  | .dequeue n => some (q.drop n, q.take n)

/-- If every step's output followed by the new content is the old content
followed by what the step adds, the same holds of runs. -/
theorem run_conserves {step : σ → ι → Option (σ × List α)} {content : σ → List α}
    {added : ι → List α}
    (hstep : ∀ s i s' o, step s i = some (s', o) → o ++ content s' = content s ++ added i)
    {s t : σ} {is : List ι} {os : List (List α)} (hr : run step s is = some (t, os)) :
    os.flatten ++ content t = content s ++ is.flatMap added := by
  induction is generalizing s os with
  | nil =>
    simp only [run_nil, Option.some.injEq, Prod.mk.injEq] at hr
    obtain ⟨rfl,rfl⟩ := hr
    simp
  | cons i is ih =>
    obtain ⟨s',o,os',hi,hrest,rfl⟩ := run_cons_eq_some hr
    calc (o :: os').flatten ++ content t = o ++ (os'.flatten ++ content t) := by simp
      _ = o ++ content s' ++ is.flatMap added := by rw [ih hrest, List.append_assoc]
      _ = content s ++ (i :: is).flatMap added := by
        rw [hstep s i s' o hi, List.flatMap_cons, List.append_assoc]

theorem step_conserves (q : List α) (op : Op α) (q' out : List α) (h : step q op = some (q', out)) :
    out ++ q' = q ++ op.added := by
  cases op with
  | enqueue xs =>
    obtain ⟨rfl,rfl⟩ := Prod.mk.inj (Option.some.inj h)
    rfl
  | dequeue n =>
    obtain ⟨rfl,rfl⟩ := Prod.mk.inj (Option.some.inj h)
    simp [Op.added]

end CppExamples.Fifo
