import CppExamples.Library.Progress
import CppExamples.HttpTest.WakeUp

/-! # No submitted operation is left behind

Every wake-up byte pays for one more round of the loop, and every submitting thread for a
byte.  When neither the loop thread nor a submitting one can go on, the loop is blocked
in `dispatch` and all that was submitted has been applied.
-/
namespace CppExamples.HttpTest
open PendingList Progress
variable {τ χ : Type*} [DecidableEq τ]

/-- The steps of the threads themselves.  A `dispatch` that reports other events than the
wake-up byte, or times out, comes from outside, as the calls that submit do. -/
def Act.ofThreads : Act τ χ → Bool
  | .submit _ _ _ | .submitInLoop _ _ | .dispatch false => false
  | _ => true

def Act.gain : Act τ χ → ℕ
  | .submit _ _ _ => 5
  | .submitInLoop _ _ => 1
  | .dispatch false => 2
  | _ => 0

def Submitter.weight : Submitter → ℕ
  | .idle => 0
  | .mustWake => 5

def LoopPlace.weight : LoopPlace → ℕ
  | .setup => 2
  | .top => 1
  | .dispatching true => 0
  | .dispatching false => 3

def LoopPc.weight : LoopPc → ℕ
  | .at place => place.weight
  | .handling back => back.weight + 1

@[simp] theorem weight_mustWake : Submitter.mustWake.weight = 5 := rfl
@[simp] theorem weight_idle : Submitter.idle.weight = 0 := rfl

namespace World
variable {w w' : World τ χ}

/-- What is still to be done before the loop blocks for good. -/
def work [Fintype τ] (w : World τ χ) : ℕ :=
  ∑ t, (w.submitters t).weight + 4 * w.wakeBytes + w.loop.weight

omit [DecidableEq τ] in
theorem submit_keeps (w : World τ χ) (type : ChannelOp) (channel : χ) :
    (w.submit type channel).submitters = w.submitters ∧
      (w.submit type channel).wakeBytes = w.wakeBytes ∧ (w.submit type channel).loop = w.loop := by
  unfold submit
  split <;> exact ⟨rfl,rfl,rfl⟩

section Work
variable [Fintype τ]

omit [DecidableEq τ] in
theorem work_submitInLoop {type : ChannelOp} {channel : χ} {place : LoopPlace}
    (hpc : w.loop = .at place) :
    ({ w.submit type channel with loop := .handling place } : World τ χ).work = w.work + 1 := by
  obtain ⟨hsubmitters,hbytes,-⟩ := submit_keeps w type channel
  simp only [work, hsubmitters, hbytes, hpc, LoopPc.weight]
  omega

theorem work_step (h : w.Reachable) {a : Act τ χ} (hs : w.step a = some w') :
    w'.work + a.ofThreads.toNat ≤ w.work + a.gain := by
  cases a with
  | submit thread type channel =>
    cases hpc : w.submitters thread with
    | mustWake => simp [step, hpc] at hs
    | idle =>
      simp only [step, hpc, Option.some.injEq] at hs
      subst hs
      obtain ⟨-,hbytes,hloop⟩ := submit_keeps w type channel
      have hmove := sum_update Submitter.weight w.submitters thread .mustWake
      rw [hpc, weight_idle, weight_mustWake] at hmove
      simp only [work, hbytes, hloop, Act.ofThreads, Act.gain, Bool.toNat_false]
      omega
  | wakeup thread =>
    cases hpc : w.submitters thread with
    | idle => simp [step, hpc] at hs
    | mustWake =>
      simp only [step, hpc, Option.some.injEq] at hs
      subst hs
      have hmove := sum_update Submitter.weight w.submitters thread .idle
      rw [hpc, weight_idle, weight_mustWake] at hmove
      simp only [work, Act.ofThreads, Act.gain, Bool.toNat_true]
      omega
  | submitInLoop type channel =>
    rcases hpc : w.loop with (_ | _ | wakeReady) | back
    · simp only [step, hpc, Option.some.injEq] at hs
      subst hs
      exact (work_submitInLoop hpc).le
    · simp [step, hpc] at hs
    · simp only [step, hpc, Option.some.injEq] at hs
      subst hs
      exact (work_submitInLoop hpc).le
    · simp [step, hpc] at hs
  | handlePending =>
    cases hpc : w.loop with
    | «at» place => simp [step, hpc] at hs
    | handling back =>
      obtain ⟨addrs,waiting,hinv⟩ := h.invariant
      obtain ⟨list,hhandle,-⟩ := hinv.holds.handlePending logApplied w.applied
      simp only [step, hpc, hhandle, Option.some.injEq] at hs
      subst hs
      simp only [work, hpc, LoopPc.weight, Act.ofThreads, Act.gain, Bool.toNat_true]
      omega
  | run =>
    rcases hpc : w.loop with (_ | _ | wakeReady) | back
    · simp only [step, hpc, Option.some.injEq] at hs
      subst hs
      simp [work, hpc, LoopPc.weight, LoopPlace.weight, Act.ofThreads, Act.gain]
    all_goals simp [step, hpc] at hs
  | dispatch wakeReady =>
    rcases hpc : w.loop with (_ | _ | _) | back
    · simp [step, hpc] at hs
    · simp only [step, hpc, Option.ite_none_right_eq_some, Option.some.injEq] at hs
      obtain ⟨-,rfl⟩ := hs
      cases wakeReady <;>
        simp [work, hpc, LoopPc.weight, LoopPlace.weight, Act.ofThreads, Act.gain]
    all_goals simp [step, hpc] at hs
  | handleWakeup =>
    rcases hpc : w.loop with (_ | _ | _ | _) | back
    all_goals simp only [step, hpc, reduceCtorEq, Option.some.injEq] at hs
    subst hs
    obtain ⟨addrs,waiting,hinv⟩ := h.invariant
    have hbyte : 0 < w.wakeBytes := hinv.ready (.inl hpc)
    simp only [work, hpc, LoopPc.weight, LoopPlace.weight, Act.ofThreads, Act.gain,
      Bool.toNat_true]
    omega
  | dispatchReturn =>
    rcases hpc : w.loop with (_ | _ | _ | _) | back
    all_goals simp only [step, hpc, reduceCtorEq, Option.some.injEq] at hs
    subst hs
    simp [work, hpc, LoopPc.weight, LoopPlace.weight, Act.ofThreads, Act.gain]

/-- In every run from the start the threads take two steps for the entry into the loop,
and at most five for every operation that another thread submits, one for every one that a
callback submits and two for every round that the loop makes for other reasons. -/
theorem threadSteps_le {acts : List (Act τ χ)} (hrun : acts.foldlM step initial = some w) :
    acts.countP Act.ofThreads + w.work ≤ 2 + (acts.map Act.gain).sum := by
  have hstart : (initial : World τ χ).work = 2 := by
    simp [work, initial, LoopPc.weight, LoopPlace.weight]
  have hpaid := countP_le (fun _ _ _ h hs => Relation.ReflTransGen.tail h ⟨_,hs⟩)
    (fun _ _ _ h hs => work_step h hs) Relation.ReflTransGen.refl hrun
  rwa [hstart] at hpaid

/-- One thread submits an operation, and the loop takes it over. -/
theorem threadSteps_le_sample :
    ∃ w : World Bool ℕ, [Act.submit true .add 5,.run,.wakeup true,.dispatch true,.handleWakeup,
        .dispatchReturn,.handlePending].foldlM step initial = some w ∧
      [Act.submit true .add 5,.run,.wakeup true,.dispatch true,.handleWakeup,
        .dispatchReturn,.handlePending].countP Act.ofThreads + w.work ≤
      2 + ([Act.submit true .add 5,.run,.wakeup true,.dispatch true,.handleWakeup,
        .dispatchReturn,.handlePending].map Act.gain).sum :=
  ⟨_,rfl,threadSteps_le rfl⟩

end Work

/-- The loop is blocked in `dispatch`, nobody is about to wake it, and nothing waits. -/
structure Settled (w : World τ χ) : Prop where
  loop : w.loop = .at .top
  wakeBytes : w.wakeBytes = 0
  submitters : ∀ t, w.submitters t = .idle
  pending : w.list.pendingHead = 0
  applied : w.applied = w.submitted

theorem atRest_loop (h : w.Reachable) (hrest : AtRest step Act.ofThreads w) : w.loop = .at .top := by
  rcases hpc : w.loop with (_ | _ | wakeReady) | back
  · have hnone : w.step .run = none := hrest _ rfl
    simp [step, hpc] at hnone
  · rfl
  · cases wakeReady with
    | true =>
      have hnone : w.step .handleWakeup = none := hrest _ rfl
      simp [step, hpc] at hnone
    | false =>
      have hnone : w.step .dispatchReturn = none := hrest _ rfl
      simp [step, hpc] at hnone
  · have hnone : w.step .handlePending = none := hrest _ rfl
    obtain ⟨addrs,waiting,hinv⟩ := h.invariant
    obtain ⟨list,hhandle,-⟩ := hinv.holds.handlePending logApplied w.applied
    simp [step, hpc, hhandle] at hnone

/-- Where no thread can go on, every submitted operation has been applied. -/
theorem atRest_settled (h : w.Reachable) (hrest : AtRest step Act.ofThreads w) : w.Settled := by
  have hloop := atRest_loop h hrest
  have hsubmitters : ∀ t, w.submitters t = .idle := by
    intro t
    cases hpc : w.submitters t with
    | idle => rfl
    | mustWake =>
      have hnone : w.step (.wakeup t) = none := hrest _ rfl
      simp [step, hpc] at hnone
  have hbytes : w.wakeBytes = 0 := by
    have hnone : w.step (.dispatch true) = none := hrest _ rfl
    simpa [step, hloop] using hnone
  obtain ⟨addrs,waiting,hinv⟩ := h.invariant
  have hnothing : waiting = [] := by
    by_contra hne
    rcases hinv.wake (.inl hloop) hne with hbyte | ⟨t,ht⟩
    · omega
    · cases (hsubmitters t).symm.trans ht
  subst hnothing
  exact ⟨hloop,hbytes,hsubmitters,hinv.holds.eq_nil_iff.mpr rfl,by simpa using hinv.order.symm⟩

/-- From every reachable state the threads' own steps lead to one in which none of them can
go on, and wherever a run gets to such a state the loop is blocked with nothing pending and
every operation submitted so far has been applied, in the order of the submissions. -/
theorem settles [Fintype τ] (h : w.Reachable) :
    (∃ (acts : List (Act τ χ)) (v : World τ χ), (∀ a ∈ acts, a.ofThreads = true) ∧
      acts.foldlM step w = some v ∧ AtRest step Act.ofThreads v) ∧
    ∀ (acts : List (Act τ χ)) (v : World τ χ), acts.foldlM step w = some v →
      AtRest step Act.ofThreads v → v.Settled := by
  have hinv : ∀ (u : World τ χ) (a : Act τ χ) (v : World τ χ), u.Reachable →
      u.step a = some v → v.Reachable := fun _ _ _ hu hs => hu.tail ⟨_,hs⟩
  have hlower : ∀ (u : World τ χ) (a : Act τ χ) (v : World τ χ), u.Reachable →
      a.ofThreads = true → u.step a = some v → v.work < u.work := by
    intro u a v hu hown hs
    have hpaid := work_step hu hs
    have hgain : a.gain = 0 := by
      cases a with
      | submit | submitInLoop => cases hown
      | dispatch wakeReady =>
        cases wakeReady with
        | false => cases hown
        | true => rfl
      | wakeup | handlePending | run | handleWakeup | dispatchReturn => rfl
    rw [hown, Bool.toNat_true, hgain] at hpaid
    omega
  obtain ⟨acts,v,hown,hrun,-,hrest⟩ := leads_to_rest hinv hlower w h
  exact ⟨⟨acts,v,hown,hrun,hrest⟩,fun acts v hrun => atRest_settled (foldlM_invariant hinv h hrun)⟩

/-- A foreign thread has submitted an operation and not yet written its byte. -/
theorem settles_sample :
    ∃ w : World Bool ℕ, w.list.pendingHead ≠ 0 ∧
    (∃ (acts : List (Act Bool ℕ)) (v : World Bool ℕ), (∀ a ∈ acts, a.ofThreads = true) ∧
      acts.foldlM step w = some v ∧ AtRest step Act.ofThreads v) ∧
    ∀ (acts : List (Act Bool ℕ)) (v : World Bool ℕ), acts.foldlM step w = some v →
      AtRest step Act.ofThreads v → v.Settled :=
  ⟨_,by decide,settles (.tail (.tail .refl ⟨.run,rfl⟩) ⟨.submit true .add 5,rfl⟩)⟩

end World
end CppExamples.HttpTest
