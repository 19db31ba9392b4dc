import CppExamples.HttpTest.ChannelMap
import CppExamples.HttpTest.EpollLoop
import CppExamples.Library.Machine

/-! # Descriptors without a channel

Adding, removing and updating look at the range of a descriptor and at its entry, and
each of them leaves something out: a removal does not look at the entry, and an update
does not look at the range.
-/
namespace CppExamples.HttpTest
open PendingList Machine
variable {δ : Type*}

/-- A call of one of the three handlers. -/
structure MapCall where
  type : ChannelOp
  fd : ℤ
  channel : Channel
  realloc : Bool

def mapStep (dispatcher : Dispatcher δ) (s : LoopState δ) (call : MapCall) :
    Option (LoopState δ × Option ℤ) :=
  match call.type with
  | .add =>
    (eventLoopHandlePendingAdd dispatcher s call.fd call.channel call.realloc).map
      fun r => (r.1, some r.2)
  | .remove =>
    (eventLoopHandlePendingRemove dispatcher s call.fd call.channel).map fun r => (r.1, some r.2)
  | .update => eventLoopHandlePendingUpdate dispatcher s call.fd call.channel

/-- The loop over the pending elements makes the calls with the descriptor of the channel. -/
theorem handleChannelOp_eq (dispatcher : Dispatcher δ) (realloc : ℤ → Bool) (s : LoopState δ)
    (type : ChannelOp) (channel : Channel) :
    handleChannelOp dispatcher realloc (some s) type channel =
      (mapStep dispatcher s ⟨type,channel.fd,channel,realloc channel.fd⟩).map Prod.fst := by
  cases type with
  | add => simp [handleChannelOp, mapStep, Function.comp_def]
  | remove => simp [handleChannelOp, mapStep, Function.comp_def]
  | update => rfl

/-- The call asks to remove or to update a descriptor without a channel; a removal names
the descriptor of the channel that it is given. -/
structure MapCall.OnUnregistered (call : MapCall) (s : LoopState δ) : Prop where
  notAdd : call.type ≠ .add
  nonneg : 0 ≤ call.fd
  asserted : call.type = .remove → call.fd = call.channel.fd
  free : s.map.lookup call.fd.toNat = none

/-- The call returns -1, the map and the dispatcher's data are as before, and nothing is
read outside the map or through a null pointer. -/
def RejectsUnregistered (dispatcher : Dispatcher δ) (s : LoopState δ) (call : MapCall) : Prop :=
  call.OnUnregistered s → mapStep dispatcher s call = some (s, some (-1))

/-- The case is the one that the call looks at: a removal at the range of the descriptor,
an update at its entry. -/
def ChecksCase (s : LoopState δ) (call : MapCall) : Prop :=
  call.OnUnregistered s →
    (call.type = .remove → s.map.nentries ≤ call.fd.toNat) ∧
      (call.type = .update → call.fd.toNat < s.map.nentries)

section Handlers
variable (dispatcher : Dispatcher δ) {s : LoopState δ} {channel : Channel} {fd : ℕ}

theorem entries_of_lookup {map : ChannelMap} (hfree : map.lookup fd = none) (hin : fd < map.nentries) :
    map.entries fd = none := by
  simpa [ChannelMap.lookup, hin] using hfree

theorem handlePendingRemove_iff (hfd : channel.fd = fd) (hfree : s.map.lookup fd = none) :
    eventLoopHandlePendingRemove dispatcher s fd channel = some (s, -1) ↔ s.map.nentries ≤ fd := by
  have hpos : ¬ (fd : ℤ) < 0 := by omega
  rcases le_or_gt s.map.nentries fd with hout | hin
  · simp [eventLoopHandlePendingRemove, hfd, hpos, hout]
  · have hnull := entries_of_lookup hfree hin
    simp [eventLoopHandlePendingRemove, hfd, hpos, not_le.mpr hin, hnull]

theorem handlePendingUpdate_iff (channel : Channel) (hfree : s.map.lookup fd = none) :
    eventLoopHandlePendingUpdate dispatcher s fd channel = some (s, some (-1)) ↔
      fd < s.map.nentries := by
  have hpos : ¬ (fd : ℤ) < 0 := by omega
  rcases le_or_gt s.map.nentries fd with hout | hin
  · simp [eventLoopHandlePendingUpdate, hpos, hout, not_lt.mpr hout]
  · have hnull := entries_of_lookup hfree hin
    simp [eventLoopHandlePendingUpdate, hpos, not_le.mpr hin, hnull, hin]

end Handlers

theorem rejectsUnregistered_iff (dispatcher : Dispatcher δ) (s : LoopState δ) (call : MapCall) :
    ChecksCase s call ↔ RejectsUnregistered dispatcher s call := by
  refine imp_congr_right ?_
  rintro ⟨hnotAdd,hnonneg,hasserted,hfree⟩
  obtain ⟨fd,hfd⟩ := Int.eq_ofNat_of_zero_le hnonneg
  rw [hfd, Int.toNat_natCast] at hfree
  rw [mapStep, hfd, Int.toNat_natCast]
  cases htype : call.type with
  | add => exact absurd htype hnotAdd
  | remove =>
    have hchannel : call.channel.fd = fd := (hasserted htype).symm.trans hfd
    rw [← handlePendingRemove_iff dispatcher hchannel hfree]
    simp
  | update =>
    rw [← handlePendingUpdate_iff dispatcher call.channel hfree]
    simp

/-- In every run from the empty map, with any dispatcher, the calls on descriptors without
a channel are refused without effect just when every such removal is of a descriptor
beyond the map and every such update of one within it. -/
theorem run_rejectsUnregistered_iff (dispatcher : Dispatcher δ) (data : δ) (calls : List MapCall) :
    Admits (mapStep dispatcher) ChecksCase ⟨mapInit,data⟩ calls ↔
      ∀ before call after s os, calls = before ++ call :: after →
        run (mapStep dispatcher) ⟨mapInit,data⟩ before = some (s, os) →
          RejectsUnregistered dispatcher s call := by
  have hiff : ∀ (s : LoopState δ) (call : MapCall), True → True →
      (ChecksCase s call ↔ RejectsUnregistered dispatcher s call) :=
    fun s call _ _ => rejectsUnregistered_iff dispatcher s call
  have hlegal : Admits (mapStep dispatcher) (fun _ _ => True) ⟨mapInit,data⟩ calls :=
    admits_of_forall (fun _ _ => trivial) _ calls
  rw [admits_congr (fun _ _ _ _ _ _ _ => trivial) hiff trivial hlegal, admits_iff_forall]

/-- A connection is added to an epoll loop; then a removal of a descriptor without a
channel follows a null pointer, and an update beyond the map reads what is not in it. -/
theorem handlers_miss_unregistered : ∃ s os,
    run (mapStep epollDispatcher)
      ⟨mapInit,EpollData.opened ⟨fun _ => none,fun _ => none⟩ 5 (.connection 0)⟩
      [⟨.add,5,channelNew 5 eventRead none none (.tcpConnection 0),true⟩] = some (s, os) ∧
    s.map.nentries = 32 ∧
    ¬ RejectsUnregistered epollDispatcher s
      ⟨.remove,3,channelNew 3 eventRead none none (.tcpConnection 1),true⟩ ∧
    ¬ RejectsUnregistered epollDispatcher s
      ⟨.update,40,channelNew 40 eventRead none none (.tcpConnection 1),true⟩ := by
  refine ⟨_,_,rfl,by decide,?_,?_⟩
  · intro hrejects
    cases hrejects ⟨by decide,by decide,by decide,by decide⟩
  · intro hrejects
    cases hrejects ⟨by decide,by decide,by decide,by decide⟩

end CppExamples.HttpTest
