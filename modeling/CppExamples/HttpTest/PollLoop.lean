import CppExamples.HttpTest.ChannelMap
import CppExamples.Library.Slots
import CppExamples.Library.Machine

/-! # The channel map and the poll set

The poll dispatcher keeps its descriptors in a table of `INIT_POLL_SIZE` slots that is
searched from the front.  Beside the loop's map and this table a state records, for
every descriptor, the channel as it was at the last operation that added or updated it.
-/
namespace CppExamples.HttpTest
open PendingList Machine Slots

def initPollSize : ℕ := 1024

def pollRdNorm : BitVec 16 := 0x040#16
def pollWrNorm : BitVec 16 := 0x100#16

structure PollFd where
  fd : ℤ
  events : BitVec 16
  revents : BitVec 16
deriving DecidableEq

/-- What `poll_add`, `poll_del`, `poll_update` and `poll_dispatch` use of it. -/
structure PollData where
  eventSet : List PollFd

/-- `poll_init`, with what `malloc` left in the slots. -/
def pollInit (block : ℕ → PollFd) : PollData :=
  ⟨(List.range initPollSize).map fun i => { block i with fd := -1 }⟩

def pollEvents (channel1 : Channel) : BitVec 16 :=
  (if channel1.events &&& eventRead ≠ 0 then pollRdNorm else 0) |||
    (if channel1.events &&& eventWrite ≠ 0 then pollWrNorm else 0)

/-- The check behind the loop is for an index that the loop cannot reach. -/
def pollAdd (data : PollData) (channel1 : Channel) : Option (PollData × ℤ) :=
  some (⟨modifyFirst (fun slot => slot.fd < 0)
    (fun slot => { slot with fd := channel1.fd, events := pollEvents channel1 }) data.eventSet⟩, 0)

def pollDel (data : PollData) (channel1 : Channel) : Option (PollData × ℤ) :=
  some (⟨modifyFirst (fun slot => slot.fd = channel1.fd) (fun slot => { slot with fd := -1 })
    data.eventSet⟩, 0)

def pollUpdate (data : PollData) (channel1 : Channel) : Option (PollData × ℤ) :=
  some (⟨modifyFirst (fun slot => slot.fd = channel1.fd)
    (fun slot => { slot with events := pollEvents channel1 }) data.eventSet⟩, 0)

def pollDispatcher : Dispatcher PollData := ⟨pollAdd,pollDel,pollUpdate⟩

def ChannelMap.registered (map : ChannelMap) : Finset ℕ :=
  (Finset.range map.nentries).filter fun fd => map.entries fd ≠ none

/-- One element of the pending list, with the outcome of growing the map for it. -/
structure PendingOp where
  type : ChannelOp
  channel : Channel
  realloc : Bool

structure PollLoop where
  state : LoopState PollData
  latest : ℕ → Option Channel

namespace PollLoop

/-- A channel that has just been added or updated. -/
def note (w : PollLoop) (state : LoopState PollData) (fd : ℤ) (channel : Option Channel) : PollLoop :=
  ⟨state,Function.update w.latest fd.toNat channel⟩

/-- The handler of one pending element; the operation is given back. -/
def step (w : PollLoop) (op : PendingOp) : Option (PollLoop × PendingOp) :=
  match op.type with
  | .add =>
    (eventLoopHandlePendingAdd pollDispatcher w.state op.channel.fd op.channel op.realloc).map
      fun r => (if r.2 = 1 then w.note r.1 op.channel.fd (some op.channel)
        else ⟨r.1,w.latest⟩, op)
  | .remove =>
    (eventLoopHandlePendingRemove pollDispatcher w.state op.channel.fd op.channel).map
      fun r => (w.note r.1 op.channel.fd none, op)
  | .update =>
    (eventLoopHandlePendingUpdate pollDispatcher w.state op.channel.fd op.channel).map
      fun r => (w.note r.1 op.channel.fd (some op.channel), op)

def empty (block : ℕ → PollFd) : PollLoop := ⟨⟨mapInit,pollInit block⟩,fun _ => none⟩

/-- The operation with which `event_loop_init_with_name` adds its wake-up channel. -/
def wakeupOp (wakeFd : ℕ) : PendingOp :=
  ⟨.add,channelNew wakeFd eventRead (some .handleWakeup) none (.eventLoop 0),true⟩

/-- Updates and removals name registered channels, and no more channels are registered
than there are slots. -/
structure Allowed (w : PollLoop) (op : PendingOp) : Prop where
  registered : op.type ≠ .add →
    0 ≤ op.channel.fd ∧ w.state.map.lookup op.channel.fd.toNat ≠ none
  room : ∀ w' o, w.step op = some (w', o) → w'.state.map.registered.card ≤ initPollSize
  /-- The map for the descriptor has a size that is an `int`. -/
  sized : op.type = .add → op.channel.fd < 2 ^ 27

/-- The map and the table agree. -/
structure Agrees (w : PollLoop) : Prop where
  registered : ∀ fd : ℕ, w.state.map.lookup fd ≠ none ↔
    ∃! i : ℕ, ∃ slot, w.state.data.eventSet[i]? = some slot ∧ slot.fd = fd
  slots : ∀ slot ∈ w.state.data.eventSet, slot.fd = -1 ∨
    ∃ (fd : ℕ) (channel : Channel), slot.fd = fd ∧ w.state.map.lookup fd ≠ none ∧
      w.latest fd = some channel ∧ slot.events = pollEvents channel

end PollLoop

def PollFd.entry (slot : PollFd) : Option (ℕ × BitVec 16) :=
  if slot.fd < 0 then none else some (slot.fd.toNat, slot.events)

theorem PollFd.entry_eq_none {slot : PollFd} : slot.entry = none ↔ slot.fd < 0 := by
  simp [entry]

theorem PollFd.entry_eq_some {slot : PollFd} {fd : ℕ} :
    slot.fd = fd ↔ ∃ events, slot.entry = some (fd, events) := by
  simp only [entry, Option.ite_none_left_eq_some, Option.some.injEq, Prod.mk.injEq]
  constructor
  · intro h
    exact ⟨slot.events,by omega,by omega,rfl⟩
  · rintro ⟨events,h,hfd,-⟩
    omega

namespace PollLoop
variable {w : PollLoop}

structure Invariant (w : PollLoop) : Prop where
  size : w.state.data.eventSet.length = initPollSize
  table : Holds PollFd.entry w.state.data.eventSet fun fd => (w.latest fd).map pollEvents
  entries : ∀ fd, w.state.map.lookup fd ≠ none ↔ w.latest fd ≠ none
  descriptor : ∀ fd channel, w.state.map.lookup fd = some channel → channel.fd = fd
  free : ∀ slot ∈ w.state.data.eventSet, slot.fd < 0 → slot.fd = -1

theorem Invariant.agrees (h : w.Invariant) : w.Agrees := by
  constructor
  · intro fd
    have hunique := h.table.unique (k := fd)
    rw [ne_eq, Option.map_eq_none_iff, ← ne_eq, ← h.entries] at hunique
    rw [hunique]
    refine existsUnique_congr fun i => ?_
    simp only [Option.bind_eq_some_iff, PollFd.entry_eq_some]
    exact ⟨fun ⟨v,slot,hi,he⟩ => ⟨slot,hi,v,he⟩,fun ⟨slot,hi,v,he⟩ => ⟨v,slot,hi,he⟩⟩
  · intro slot hslot
    by_cases hfd : slot.fd < 0
    · exact Or.inl (h.free slot hslot hfd)
    · have hentry : slot.entry = some (slot.fd.toNat, slot.events) := if_neg hfd
      have hlatest := (h.table.mem _ _).mp (List.mem_filterMap.mpr ⟨slot,hslot,hentry⟩)
      obtain ⟨channel,hchannel,hevents⟩ := Option.map_eq_some_iff.mp hlatest
      exact Or.inr ⟨slot.fd.toNat,channel,by omega,
        (h.entries _).mpr (by simp [hchannel]),hchannel,hevents.symm⟩

theorem mem_registered (map : ChannelMap) (fd : ℕ) : fd ∈ map.registered ↔ map.lookup fd ≠ none := by
  by_cases hlt : fd < map.nentries <;> simp [ChannelMap.registered, ChannelMap.lookup, hlt]

theorem pollInit_length (block : ℕ → PollFd) : (pollInit block).eventSet.length = initPollSize := by
  rw [pollInit, List.length_map, List.length_range]

theorem pollInit_fd (block : ℕ → PollFd) : ∀ slot ∈ (pollInit block).eventSet, slot.fd = -1 := by
  intro slot hslot
  simp only [pollInit, List.mem_map] at hslot
  obtain ⟨i,hi⟩ := hslot
  rw [← hi.2]

theorem invariant_empty (block : ℕ → PollFd) : (empty block).Invariant := by
  have hdata : (empty block).state.data = pollInit block := rfl
  have hlookup : ∀ fd, (empty block).state.map.lookup fd = none := by
    intro fd
    simp [empty, ChannelMap.lookup, mapInit]
  constructor
  · rw [hdata, pollInit_length]
  · rw [hdata]
    refine holds_empty fun slot hslot => ?_
    rw [PollFd.entry_eq_none, pollInit_fd block slot hslot]
    decide
  · intro fd
    rw [hlookup]
    simp [empty]
  · intro fd channel hlook
    rw [hlookup] at hlook
    cases hlook
  · rw [hdata]
    exact fun slot hslot _ => pollInit_fd block slot hslot

theorem Invariant.change {fd : ℕ} {e note : Option Channel} {state : LoopState PollData}
    (h : w.Invariant) (hlookup : ∀ x, state.map.lookup x = if x = fd then e else w.state.map.lookup x)
    (hentry : e ≠ none ↔ note ≠ none) (hfd : ∀ channel, e = some channel → channel.fd = fd)
    (hsize : state.data.eventSet.length = initPollSize)
    (htable : Holds PollFd.entry state.data.eventSet
      (Function.update (fun x => (w.latest x).map pollEvents) fd (note.map pollEvents)))
    (hfree : ∀ slot ∈ state.data.eventSet, slot.fd < 0 → slot.fd = -1) :
    (⟨state,Function.update w.latest fd note⟩ : PollLoop).Invariant := by
  refine ⟨hsize,?_,?_,?_,hfree⟩
  · convert htable using 1
    funext x
    by_cases hx : x = fd
    · subst hx
      simp
    · simp [hx]
  · intro x
    simp only [hlookup]
    by_cases hx : x = fd
    · subst hx
      simpa using hentry
    · simpa [hx] using h.entries x
  · intro x channel hchannel
    simp only [hlookup] at hchannel
    by_cases hx : x = fd
    · subst hx
      exact hfd channel (by simpa using hchannel)
    · exact h.descriptor x channel (by simpa [hx] using hchannel)

theorem Invariant.step_add {channel : Channel} {realloc : Bool} (h : w.Invariant)
    (hop : w.Allowed ⟨.add,channel,realloc⟩) :
    ∃ w', w.step ⟨.add,channel,realloc⟩ = some (w', ⟨.add,channel,realloc⟩) ∧ w'.Invariant ∧
      (0 ≤ channel.fd → w.state.map.lookup channel.fd.toNat ≠ none → w' = w) := by
  by_cases hneg : channel.fd < 0
  · exact ⟨w,by simp [step, eventLoopHandlePendingAdd, hneg],h,fun hpos => absurd hpos (by omega)⟩
  obtain ⟨fd,hfd⟩ := Int.eq_ofNat_of_zero_le (not_lt.mp hneg)
  have hnat : channel.fd.toNat = fd := by omega
  have hsmall : fd < 2 ^ 27 := by
    have := hop.sized rfl
    simp only at this
    omega
  rcases handlePendingAdd_cases pollDispatcher w.state channel realloc fd hfd hsmall with
    ⟨-,hnone,hadd⟩ | ⟨hsome,hadd⟩ | ⟨hnone,map',hlookup,hadd⟩
  · exact ⟨w,by simp [step, hadd],h,fun _ hlook => absurd (hnat ▸ hnone) hlook⟩
  · exact ⟨w,by simp [step, hadd],h,fun _ _ => rfl⟩
  obtain ⟨data,hdata⟩ : ∃ data, pollAdd w.state.data channel = some (data, 0) := ⟨_,rfl⟩
  have hstep : w.step ⟨.add,channel,realloc⟩ =
      some (⟨⟨map',data⟩,Function.update w.latest fd (some channel)⟩, ⟨.add,channel,realloc⟩) := by
    rw [show pollDispatcher.add = pollAdd from rfl, hdata] at hadd
    simp [step, hadd, note, hnat]
  refine ⟨_,hstep,?_,fun _ hlook => absurd (hnat ▸ hnone) hlook⟩
  have hroom : (w.state.data.eventSet.filterMap PollFd.entry).length <
      w.state.data.eventSet.length := by
    have hcard : w.state.map.registered.card = _ := h.table.card fun x => by
      rw [mem_registered, h.entries, ne_eq, ne_eq, Option.map_eq_none_iff]
    have hinsert : map'.registered = insert fd w.state.map.registered := by
      ext x
      rw [mem_registered, Finset.mem_insert, mem_registered, hlookup]
      by_cases hx : x = fd <;> simp [hx]
    have hafter : map'.registered.card ≤ initPollSize := hop.room _ _ hstep
    have hnot : fd ∉ w.state.map.registered := by simpa [mem_registered] using hnone
    rw [hinsert, Finset.card_insert_of_notMem hnot] at hafter
    rw [h.size]
    omega
  have hlatest : w.latest fd = none := by
    by_contra hne
    exact (h.entries fd).mpr hne hnone
  obtain rfl : _ = data := congrArg Prod.fst (Option.some.inj hdata)
  refine h.change hlookup (by simp) ?_ ?_ ?_ ?_
  · intro c hc
    cases hc
    exact hfd
  · rw [modifyFirst_length, h.size]
  · refine h.table.add (by simp [hlatest]) hroom ?_ ?_
    · intro slot
      rw [PollFd.entry_eq_none, decide_eq_true_iff]
    · intro slot
      simp [PollFd.entry, hfd]
  · refine forall_modifyFirst h.free ?_
    intro slot hslot hslotfd
    simp only at hslotfd
    omega

theorem Allowed.entry {op : PendingOp} (hop : w.Allowed op) (htype : op.type ≠ .add) :
    ∃ (fd : ℕ) (channel : Channel), op.channel.fd = fd ∧ op.channel.fd.toNat = fd ∧
      fd < w.state.map.nentries ∧ w.state.map.entries fd = some channel ∧
      w.state.map.lookup fd = some channel := by
  obtain ⟨hpos,hlook⟩ := hop.registered htype
  obtain ⟨channel,hchannel⟩ := Option.ne_none_iff_exists'.mp hlook
  have hlt : op.channel.fd.toNat < w.state.map.nentries := by
    by_contra hge
    simp [ChannelMap.lookup, hge] at hlook
  have hentry : w.state.map.entries op.channel.fd.toNat = some channel := by
    simpa [ChannelMap.lookup, hlt] using hchannel
  exact ⟨_,channel,by omega,rfl,hlt,hentry,hchannel⟩

theorem Invariant.step_remove {channel : Channel} {realloc : Bool} (h : w.Invariant)
    (hop : w.Allowed ⟨.remove,channel,realloc⟩) :
    ∃ w', w.step ⟨.remove,channel,realloc⟩ = some (w', ⟨.remove,channel,realloc⟩) ∧
      w'.Invariant := by
  obtain ⟨fd,channel2,hfd,hnat,hlt,hentry,hlook⟩ := hop.entry (by simp)
  have hpos : ¬ (fd : ℤ) < 0 := by omega
  have hin : ¬ w.state.map.nentries ≤ fd := by omega
  have hfd2 := h.descriptor fd channel2 hlook
  obtain ⟨data,hdata⟩ : ∃ data, pollDel w.state.data channel2 = some (data, 0) := ⟨_,rfl⟩
  have hstep : w.step ⟨.remove,channel,realloc⟩ =
      some (⟨{ w.state.setEntry fd none with data := data },Function.update w.latest fd none⟩,
        ⟨.remove,channel,realloc⟩) := by
    have hremove : eventLoopHandlePendingRemove pollDispatcher w.state channel.fd channel =
        some ({ w.state.setEntry fd none with data := data }, 1) := by
      simp [eventLoopHandlePendingRemove, show channel.fd = fd from hfd, hpos, hin, hentry,
        pollDispatcher, hdata]
    simp [step, hremove, note, hnat]
  refine ⟨_,hstep,?_⟩
  obtain rfl : _ = data := congrArg Prod.fst (Option.some.inj hdata)
  refine h.change (w.state.lookup_setEntry hlt none) (by simp) (by simp) ?_ ?_ ?_
  · rw [modifyFirst_length, h.size]
  · refine h.table.remove ?_ ?_
    · intro slot
      rw [decide_eq_true_iff, hfd2, PollFd.entry_eq_some]
    · intro slot
      exact PollFd.entry_eq_none.mpr (show (-1 : ℤ) < 0 by decide)
  · exact forall_modifyFirst h.free fun slot _ _ => rfl

theorem Invariant.step_update {channel : Channel} {realloc : Bool} (h : w.Invariant)
    (hop : w.Allowed ⟨.update,channel,realloc⟩) :
    ∃ w', w.step ⟨.update,channel,realloc⟩ = some (w', ⟨.update,channel,realloc⟩) ∧
      w'.Invariant := by
  obtain ⟨fd,old,hfd,hnat,hlt,hentry,hold⟩ := hop.entry (by simp)
  have hpos : ¬ (fd : ℤ) < 0 := by omega
  have hin : ¬ w.state.map.nentries ≤ fd := by omega
  obtain ⟨data,hdata⟩ : ∃ data, pollUpdate w.state.data channel = some (data, 0) := ⟨_,rfl⟩
  have hstep : w.step ⟨.update,channel,realloc⟩ =
      some (⟨{ w.state with data := data },Function.update w.latest fd (some channel)⟩,
        ⟨.update,channel,realloc⟩) := by
    have hupdate : eventLoopHandlePendingUpdate pollDispatcher w.state channel.fd channel =
        some ({ w.state with data := data }, none) := by
      simp [eventLoopHandlePendingUpdate, show channel.fd = fd from hfd, hpos, hin, hentry,
        pollDispatcher, hdata]
    simp [step, hupdate, note, hnat]
  refine ⟨_,hstep,?_⟩
  obtain rfl : _ = data := congrArg Prod.fst (Option.some.inj hdata)
  have hlatest : w.latest fd ≠ none := (h.entries fd).mp (by simp [hold])
  refine h.change (e := some old) ?_ (by simp) ?_ ?_ ?_ ?_
  · intro x
    by_cases hx : x = fd
    · subst hx
      simpa using hold
    · simp [hx]
  · intro c hc
    exact h.descriptor fd c (hold.trans hc)
  · rw [modifyFirst_length, h.size]
  · refine h.table.update (by simpa using hlatest) ?_ ?_
    · intro slot
      rw [decide_eq_true_iff, hfd, PollFd.entry_eq_some]
    · intro slot hslot
      rw [decide_eq_true_iff, hfd] at hslot
      simp [PollFd.entry, hslot]
  · exact forall_modifyFirst h.free fun slot hslot => h.free slot hslot

theorem Invariant.step {op : PendingOp} (h : w.Invariant) (hop : w.Allowed op) :
    ∃ w', w.step op = some (w', op) ∧ w'.Invariant ∧
      (op.type = .add → 0 ≤ op.channel.fd → w.state.map.lookup op.channel.fd.toNat ≠ none →
        w' = w) := by
  obtain ⟨type,channel,realloc⟩ := op
  cases type with
  | add =>
    obtain ⟨w',hstep,hinv,hsame⟩ := h.step_add hop
    exact ⟨w',hstep,hinv,fun _ => hsame⟩
  | remove =>
    obtain ⟨w',hstep,hinv⟩ := h.step_remove hop
    exact ⟨w',hstep,hinv,fun htype => by cases htype⟩
  | update =>
    obtain ⟨w',hstep,hinv⟩ := h.step_update hop
    exact ⟨w',hstep,hinv,fun htype => by cases htype⟩

theorem step_output {w' : PollLoop} {op o : PendingOp} (h : w.step op = some (w', o)) : o = op := by
  unfold step at h
  split at h
  all_goals
    obtain ⟨r,-,he⟩ := Option.map_eq_some_iff.mp h
    exact (Prod.mk.inj he).2.symm

/-- From the initial loop every run of such operations goes through, the map and the
table agree after each of them, and adding a registered descriptor changes nothing. -/
theorem run_agrees {wakeFd : ℕ} (block : ℕ → PollFd) {ops : List PendingOp}
    (hok : Admits step Allowed (empty block) (wakeupOp wakeFd :: ops)) :
    ∃ t os, run step (empty block) (wakeupOp wakeFd :: ops) = some (t, os) ∧
      ∀ before op after, wakeupOp wakeFd :: ops = before ++ op :: after →
        ∃ u os' v, run step (empty block) before = some (u, os') ∧
          u.step op = some (v, op) ∧ v.Agrees ∧
          (op.type = .add → 0 ≤ op.channel.fd →
            u.state.map.lookup op.channel.fd.toNat ≠ none → v = u) := by
  have hstep : ∀ (u : PollLoop) (op : PendingOp), u.Invariant → u.Allowed op →
      ∃ v o, u.step op = some (v, o) ∧ v.Invariant ∧ (o.type = .add → 0 ≤ o.channel.fd →
        u.state.map.lookup o.channel.fd.toNat ≠ none → v = u) := by
    intro u op hu hop
    obtain ⟨v,hv,hinv,hsame⟩ := hu.step hop
    exact ⟨v,op,hv,hinv,hsame⟩
  obtain ⟨t,os,hrun,-,hsteps⟩ := run_total hstep (invariant_empty block) hok
  refine ⟨t,os,hrun,?_⟩
  intro before op after he
  obtain ⟨u,os',v,o,hu,hv,hinv,hpost⟩ := hsteps before op after he
  obtain rfl := step_output hv
  exact ⟨u,os',v,hu,hv,hinv.agrees,hpost⟩

theorem registered_card_le (map : ChannelMap) : map.registered.card ≤ map.nentries :=
  (Finset.card_filter_le _ _).trans (Finset.card_range _).le

theorem room_of_nentries {op : PendingOp}
    (h : (w.step op).map (fun r => r.1.state.map.nentries) = some 32) :
    ∀ w' o, w.step op = some (w', o) → w'.state.map.registered.card ≤ initPollSize := by
  intro w' o hstep
  rw [hstep, Option.map_some, Option.some.injEq] at h
  have hcard := registered_card_le w'.state.map
  rw [h] at hcard
  exact hcard.trans (by decide)

def connectionOps : List PendingOp :=
  [⟨.add,channelNew 5 eventRead (some .handleRead) (some .handleWrite) (.tcpConnection 0),true⟩,
    ⟨.remove,channelNew 5 eventRead (some .handleRead) (some .handleWrite) (.tcpConnection 0),true⟩]

theorem run_agrees_connection :
    ∃ t os, run step (empty fun _ => ⟨0,0,0⟩) (wakeupOp 4 :: connectionOps) = some (t, os) ∧
      ∀ before op after, wakeupOp 4 :: connectionOps = before ++ op :: after →
        ∃ u os' v, run step (empty fun _ => ⟨0,0,0⟩) before = some (u, os') ∧
          u.step op = some (v, op) ∧ v.Agrees ∧
          (op.type = .add → 0 ≤ op.channel.fd →
            u.state.map.lookup op.channel.fd.toNat ≠ none → v = u) := by
  refine run_agrees _ ⟨?_,?_⟩
  · exact ⟨by simp [wakeupOp],room_of_nentries rfl,by simp [wakeupOp, channelNew]⟩
  · intro r hr
    obtain rfl := Option.some.inj hr
    refine ⟨⟨by simp,room_of_nentries rfl,by simp [channelNew]⟩,?_⟩
    intro r hr
    obtain rfl := Option.some.inj hr
    refine ⟨⟨fun _ => ⟨by decide,?_⟩,room_of_nentries rfl,by simp⟩,fun _ _ => trivial⟩
    exact fun h => by cases h

/-- A connection with a descriptor for which the map has a size that is no `int`. -/
def hugeOp (fd : ℕ) : PendingOp :=
  ⟨.add,channelNew fd eventRead (some .handleRead) (some .handleWrite) (.tcpConnection 0),true⟩

/-- The size in bytes that the empty map is given for a slot, where products wrap around. -/
def wrappedSize (slot : ℕ) : ℤ := (BitVec.ofNat 32 (doubleEntries 31 slot 32 * sizeofPointer)).toInt

/-- From descriptor 2^27 on the size overflows.  Where it wraps around it is negative, and from
2^28 on it is 0, with which `realloc` frees the map. -/
theorem run_overflows :
    (run step (empty fun _ => ⟨0,0,0⟩) [wakeupOp 4,hugeOp (2 ^ 27)] = none ∧
      wrappedSize (2 ^ 27) = -2 ^ 31) ∧
    run step (empty fun _ => ⟨0,0,0⟩) [wakeupOp 4,hugeOp (2 ^ 28)] = none ∧
      wrappedSize (2 ^ 28) = 0 :=
  ⟨⟨rfl,by decide +kernel⟩,rfl,by decide +kernel⟩

end PollLoop

end CppExamples.HttpTest
