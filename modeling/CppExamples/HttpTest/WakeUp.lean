import CppExamples.HttpTest.PendingList

/-! # Submitting channel operations from other threads

Any number of threads hand channel operations to one loop thread.  The atomic
steps are the locked sections, the write of a wake-up byte that follows the
section of a foreign thread, the read of one byte by `handleWakeup`, and the turns
of the loop in `event_loop_run` between them.  Two logs record the operations in
the order in which their sections took the lock and in the order in which the loop
thread applied them.
-/
namespace CppExamples.HttpTest
open PendingList
variable {τ χ : Type*} [DecidableEq τ]

/-- A thread is between two calls, or has left the locked section of one and is
about to write the wake-up byte. -/
inductive Submitter where
  | idle
  | mustWake
deriving DecidableEq

inductive LoopPlace where
  /-- before `event_loop_run` -/
  | setup
  /-- the loop test has passed and the next step is to block in `dispatch` -/
  | top
  /-- callbacks of one round are called; the flag says that the event of the
  wake-up channel was reported and is still to be handled -/
  | dispatching (wakeReady : Bool)
deriving DecidableEq

/-- The loop thread goes on at a place, at once or after a call of
`event_loop_handle_pending_channel`. -/
inductive LoopPc where
  | at (place : LoopPlace)
  | handling (back : LoopPlace)
deriving DecidableEq

structure World (τ χ : Type*) where
  list : PendingList χ
  wakeBytes : ℕ
  submitters : τ → Submitter
  loop : LoopPc
  submitted : List (ChannelOp × χ)
  applied : List (ChannelOp × χ)
  /-- the assertion failed, or the loop over the pending elements did not end -/
  failed : Bool

inductive Act (τ χ : Type*) where
  | submit (thread : τ) (type : ChannelOp) (channel : χ)
  | wakeup (thread : τ)
  | submitInLoop (type : ChannelOp) (channel : χ)
  | handlePending
  | run
  | dispatch (wakeReady : Bool)
  | handleWakeup
  | dispatchReturn

namespace World

def initial : World τ χ := ⟨.empty,0,fun _ => .idle,.at .setup,[],[],false⟩

def logApplied (log : List (ChannelOp × χ)) (type : ChannelOp) (channel : χ) :
    List (ChannelOp × χ) := log ++ [(type, channel)]

/-- The state after a locked section that submits an operation. -/
def submit (w : World τ χ) (type : ChannelOp) (channel : χ) : World τ χ :=
  match w.list.eventLoopDoChannelEvent type channel with
  | some list => { w with list := list, submitted := w.submitted ++ [(type, channel)] }
  | none => { w with failed := true }

/-- One atomic step; none when the thread it belongs to is not at that point. -/
def step (w : World τ χ) : Act τ χ → Option (World τ χ)
  | .submit thread type channel =>
    match w.submitters thread with
    | .idle => some { w.submit type channel with
        submitters := Function.update w.submitters thread .mustWake }
    | .mustWake => none
  | .wakeup thread =>
    match w.submitters thread with
    | .idle => none
    | .mustWake => some { w with
        wakeBytes := w.wakeBytes + 1
        submitters := Function.update w.submitters thread .idle }
  | .submitInLoop type channel =>
    match w.loop with
    | .at .setup => some { w.submit type channel with loop := .handling .setup }
    | .at (.dispatching wakeReady) =>
      some { w.submit type channel with loop := .handling (.dispatching wakeReady) }
    | .at .top => none
    | .handling _ => none
  | .handlePending =>
    match w.loop with
    | .at _ => none
    | .handling back =>
      match w.list.eventLoopHandlePendingChannel logApplied w.applied with
      | some (list, applied) => some { w with list := list, applied := applied, loop := .at back }
      | none => some { w with failed := true }
  | .run =>
    match w.loop with
    | .at .setup => some { w with loop := .at .top }
    | _ => none
  | .dispatch wakeReady =>
    match w.loop with
    | .at .top =>
      if wakeReady = true → 0 < w.wakeBytes then
        some { w with loop := .at (.dispatching wakeReady) }
      else none
    | _ => none
  | .handleWakeup =>
    match w.loop with
    | .at (.dispatching true) =>
      some { w with wakeBytes := w.wakeBytes - 1, loop := .at (.dispatching false) }
    | _ => none
  | .dispatchReturn =>
    match w.loop with
    | .at (.dispatching false) => some { w with loop := .handling .top }
    | _ => none

def Reachable (w : World τ χ) : Prop :=
  Relation.ReflTransGen (fun u v => ∃ a, step u a = some v) initial w

/-- The byte that ends the next `dispatch` is in the socket pair or on its way. -/
def WakeComing (w : World τ χ) : Prop := 0 < w.wakeBytes ∨ ∃ t, w.submitters t = .mustWake

/-- Every place at which the loop thread waits for others sees the operations that
wait for it. -/
structure Invariant (w : World τ χ) (addrs : List ℕ) (waiting : List (ChannelOp × χ)) : Prop where
  running : w.failed = false
  holds : w.list.Holds addrs waiting
  order : w.submitted = w.applied ++ waiting
  wake : w.loop = .at .top ∨ w.loop = .at .setup → waiting ≠ [] → w.WakeComing
  ready : w.loop = .at (.dispatching true) ∨ w.loop = .handling (.dispatching true) →
    0 < w.wakeBytes

omit [DecidableEq τ] in
theorem invariant_initial : (initial : World τ χ).Invariant [] [] :=
  ⟨rfl,holds_empty,rfl,fun _ h => absurd rfl h,by simp [initial]⟩

omit [DecidableEq τ] in
theorem submit_eq {w : World τ χ} {addrs : List ℕ} {waiting : List (ChannelOp × χ)}
    (h : w.list.Holds addrs waiting) (type : ChannelOp) (channel : χ) :
    w.submit type channel = { w with
      list := w.list.eventLoopChannelBufferNolock type channel
      submitted := w.submitted ++ [(type, channel)] } := by
  simp only [submit, h.doChannelEvent]

omit [DecidableEq τ] in
theorem foldl_logApplied (log entries : List (ChannelOp × χ)) :
    entries.foldl (fun m e => logApplied m e.1 e.2) log = log ++ entries := by
  induction entries generalizing log with
  | nil => simp
  | cons e entries ih => rw [List.foldl_cons, ih, logApplied, List.append_assoc, List.singleton_append]

theorem invariant_step {w w' : World τ χ} {a : Act τ χ} {addrs : List ℕ}
    {waiting : List (ChannelOp × χ)} (h : w.Invariant addrs waiting) (hs : w.step a = some w') :
    ∃ addrs' waiting', w'.Invariant addrs' waiting' := by
  obtain ⟨hrun,hholds,horder,hwake,hready⟩ := h
  cases a with
  | submit thread type channel =>
    cases hpc : w.submitters thread with
    | mustWake => simp [step, hpc] at hs
    | idle =>
      simp only [step, hpc, submit_eq hholds, Option.some.injEq] at hs
      subst hs
      -- whatever waits now, this thread is about to write
      exact ⟨_,_,hrun,hholds.buffer type channel,by simp [horder],
        fun _ _ => .inr ⟨thread,Function.update_self ..⟩,hready⟩
  | wakeup thread =>
    cases hpc : w.submitters thread with
    | idle => simp [step, hpc] at hs
    | mustWake =>
      simp only [step, hpc, Option.some.injEq] at hs
      subst hs
      exact ⟨addrs,waiting,hrun,hholds,horder,fun _ _ => .inl (Nat.succ_pos _),
        fun _ => Nat.succ_pos _⟩
  | submitInLoop type channel =>
    rcases hpc : w.loop with (_ | _ | wakeReady) | back
    · simp only [step, hpc, submit_eq hholds, Option.some.injEq] at hs
      subst hs
      exact ⟨_,_,hrun,hholds.buffer type channel,by simp [horder],by simp,by simp⟩
    · simp [step, hpc] at hs
    · simp only [step, hpc, submit_eq hholds, Option.some.injEq] at hs
      subst hs
      refine ⟨_,_,hrun,hholds.buffer type channel,by simp [horder],by simp,fun hloop => ?_⟩
      exact hready (.inl (by simpa [hpc] using hloop))
    · simp [step, hpc] at hs
  | handlePending =>
    cases hpc : w.loop with
    | «at» place => simp [step, hpc] at hs
    | handling back =>
      obtain ⟨list,hhandle,hempty⟩ := hholds.handlePending logApplied w.applied
      rw [foldl_logApplied] at hhandle
      simp only [step, hpc, hhandle, Option.some.injEq] at hs
      subst hs
      refine ⟨[],[],hrun,hempty,by simp [horder],fun _ hne => absurd rfl hne,fun hloop => ?_⟩
      exact hready (.inr (by simpa [hpc] using hloop))
  | run =>
    rcases hpc : w.loop with (_ | _ | wakeReady) | back
    · simp only [step, hpc, Option.some.injEq] at hs
      subst hs
      exact ⟨addrs,waiting,hrun,hholds,horder,fun _ => hwake (.inr hpc),by simp⟩
    all_goals simp [step, hpc] at hs
  | dispatch wakeReady =>
    rcases hpc : w.loop with (_ | _ | _) | back
    · simp [step, hpc] at hs
    · simp only [step, hpc, Option.ite_none_right_eq_some, Option.some.injEq] at hs
      obtain ⟨hbytes,rfl⟩ := hs
      exact ⟨addrs,waiting,hrun,hholds,horder,by simp,fun hloop => hbytes (by simpa using hloop)⟩
    all_goals simp [step, hpc] at hs
  | handleWakeup =>
    rcases hpc : w.loop with (_ | _ | _ | _) | back
    all_goals simp only [step, hpc, reduceCtorEq, Option.some.injEq] at hs
    subst hs
    exact ⟨addrs,waiting,hrun,hholds,horder,by simp,by simp⟩
  | dispatchReturn =>
    rcases hpc : w.loop with (_ | _ | _ | _) | back
    all_goals simp only [step, hpc, reduceCtorEq, Option.some.injEq] at hs
    subst hs
    exact ⟨addrs,waiting,hrun,hholds,horder,by simp,by simp⟩

theorem Reachable.invariant {w : World τ χ} (h : w.Reachable) :
    ∃ addrs waiting, w.Invariant addrs waiting := by
  induction h with
  | refl => exact ⟨[],[],invariant_initial⟩
  | tail _ hs ih =>
    obtain ⟨addrs,waiting,hinv⟩ := ih
    obtain ⟨a,ha⟩ := hs
    exact invariant_step hinv ha

/-- In every reachable state no assertion has failed, what was submitted is what was
applied followed by what the pending list holds, and a loop thread about to block
with a non-empty list is about to be woken. -/
theorem pending_exactlyOnce {w : World τ χ} (h : w.Reachable) :
    w.failed = false ∧ w.applied <+: w.submitted ∧
      (∃ addrs waiting, w.list.Holds addrs waiting ∧ w.submitted = w.applied ++ waiting) ∧
      (w.loop = .at .top → w.list.pendingHead ≠ 0 →
        0 < w.wakeBytes ∨ ∃ t, w.submitters t = .mustWake) := by
  obtain ⟨addrs,waiting,hinv⟩ := h.invariant
  refine ⟨hinv.running,⟨waiting,hinv.order.symm⟩,⟨addrs,waiting,hinv.holds,hinv.order⟩,?_⟩
  intro htop hhead
  refine hinv.wake (.inl htop) fun hnil => ?_
  exact hhead (hinv.holds.eq_nil_iff.mpr hnil)

/-- A foreign thread has submitted and is about to write its byte. -/
theorem pending_exactlyOnce_sample :
    ∃ w : World Bool ℕ, w.loop = .at .top ∧ w.list.pendingHead ≠ 0 ∧ w.failed = false ∧
      w.applied <+: w.submitted ∧
      (∃ addrs waiting, w.list.Holds addrs waiting ∧ w.submitted = w.applied ++ waiting) ∧
      (w.loop = .at .top → w.list.pendingHead ≠ 0 →
        0 < w.wakeBytes ∨ ∃ t, w.submitters t = .mustWake) :=
  ⟨_,rfl,by decide,pending_exactlyOnce
    (.tail (.tail .refl ⟨.run,rfl⟩) ⟨.submit true .add 5,rfl⟩)⟩

end World
end CppExamples.HttpTest
