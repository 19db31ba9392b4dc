import CppExamples.HttpTest.PollLoop
import CppExamples.HttpTest.MapSpace
import CppExamples.HttpTest.Unregistered

/-! # What the poll dispatcher reports

Behind its search each operation of the poll dispatcher compares the index with the size
of the table, for an error that says that no slot was found.  The search ends at the size
and the test asks for more, so no error is ever reported: a channel that finds the table
full is dropped silently.
-/
namespace CppExamples.HttpTest
open PendingList Machine Slots

/-- `i > INIT_POLL_SIZE` for the index with which the search ends. -/
def beyondTable (p : PollFd → Bool) (data : PollData) : Bool :=
  decide (initPollSize < data.eventSet.findIdx p)

/-- The test for "too many clients, just abort it". -/
def pollAddReports (data : PollData) (_ : Channel) : Bool := beyondTable (fun slot => slot.fd < 0) data

def pollDelReports (data : PollData) (channel1 : Channel) : Bool :=
  beyondTable (fun slot => slot.fd = channel1.fd) data

def pollUpdateReports (data : PollData) (channel1 : Channel) : Bool :=
  beyondTable (fun slot => slot.fd = channel1.fd) data

def HasSlot (data : PollData) (fd : ℤ) : Prop := ∃ slot ∈ data.eventSet, slot.fd = fd

/-- The channel is in the table with its events, or the refusal is reported. -/
def AddAccounted (data : PollData) (channel1 : Channel) : Prop :=
  (∃ data', pollAdd data channel1 = some (data', 0) ∧
    ∃ slot ∈ data'.eventSet, slot.fd = channel1.fd ∧ slot.events = pollEvents channel1) ∨
  pollAddReports data channel1 = true

/-- An operation on a descriptor without a slot reports its error. -/
def MissReported (data : PollData) (channel1 : Channel) : Prop :=
  ¬ HasSlot data channel1.fd →
    pollDelReports data channel1 = true ∧ pollUpdateReports data channel1 = true

section Reports
variable {data : PollData}

theorem beyondTable_eq_false (hsize : data.eventSet.length = initPollSize) (p : PollFd → Bool) :
    beyondTable p data = false := by
  have hle : data.eventSet.findIdx p ≤ data.eventSet.length := List.findIdx_le_length
  rw [hsize] at hle
  exact decide_eq_false (not_lt.mpr hle)

theorem addAccounted_iff (hsize : data.eventSet.length = initPollSize) (channel1 : Channel) :
    AddAccounted data channel1 ↔ ∃ slot ∈ data.eventSet,
      slot.fd < 0 ∨ slot.fd = channel1.fd ∧ slot.events = pollEvents channel1 := by
  simp only [AddAccounted, pollAddReports, beyondTable_eq_false hsize, pollAdd, Option.some.injEq,
    Prod.mk.injEq, and_true, exists_eq_left', Bool.false_eq_true, or_false]
  rcases modifyFirst_split (fun slot : PollFd => decide (slot.fd < 0))
    (fun slot => { slot with fd := channel1.fd, events := pollEvents channel1 }) data.eventSet with
    ⟨hnone,he⟩ | ⟨l₁,a,l₂,hsplit,ha,he⟩
  · rw [he]
    refine exists_congr fun slot => and_congr_right fun hslot => ?_
    have hused : ¬ slot.fd < 0 := of_decide_eq_false (hnone slot hslot)
    rw [or_iff_right hused]
  · rw [he, hsplit]
    refine iff_of_true ⟨_,List.mem_append_right _ List.mem_cons_self,rfl,rfl⟩ ?_
    exact ⟨a,List.mem_append_right _ List.mem_cons_self,.inl (of_decide_eq_true ha)⟩

theorem missReported_iff (hsize : data.eventSet.length = initPollSize) (channel1 : Channel) :
    MissReported data channel1 ↔ HasSlot data channel1.fd := by
  simp [MissReported, pollDelReports, pollUpdateReports, beyondTable_eq_false hsize]

end Reports

inductive PollReport where
  | tooManyClients (channel1 : Channel)
  | deleteError (channel1 : Channel)
  | updatedError (channel1 : Channel)

/-- The table, and the errors that have been reported. -/
structure PollLog where
  poll : PollData
  reports : List PollReport

def reported (operation : PollData → Channel → Option (PollData × ℤ))
    (reports : PollData → Channel → Bool) (report : Channel → PollReport) (log : PollLog)
    (channel1 : Channel) : Option (PollLog × ℤ) :=
  (operation log.poll channel1).map fun r =>
    (⟨r.1,if reports log.poll channel1 then log.reports ++ [report channel1] else log.reports⟩, r.2)

def reportingDispatcher : Dispatcher PollLog where
  add := reported pollAdd pollAddReports .tooManyClients
  del := reported pollDel pollDelReports .deleteError
  update := reported pollUpdate pollUpdateReports .updatedError

/-- The handler of one pending element. -/
def reportingStep (s : LoopState PollLog) (op : PendingOp) : Option (LoopState PollLog × Option ℤ) :=
  mapStep reportingDispatcher s ⟨op.type,op.channel.fd,op.channel,op.realloc⟩

def reportingInit (block : ℕ → PollFd) : LoopState PollLog := ⟨mapInit,⟨pollInit block,[]⟩⟩

/-- Each channel in the map is polled, or was reported as refused. -/
def Accounted (s : LoopState PollLog) : Prop :=
  ∀ (fd : ℕ) (channel : Channel), s.map.lookup fd = some channel →
    HasSlot s.data.poll fd ∨ .tooManyClients channel ∈ s.data.reports

/-- A channel is registered only while less than `INIT_POLL_SIZE` are. -/
def Unfilled (s : LoopState PollLog) (op : PendingOp) : Prop :=
  op.type = .add → 0 ≤ op.channel.fd → AddsChannel s op.channel.fd.toNat op.realloc →
    s.map.registered.card < initPollSize

/-- The slots are those of the channels in the map, and nothing was reported. -/
structure Polled (s : LoopState PollLog) : Prop where
  size : s.data.poll.eventSet.length = initPollSize
  table : ∃ m, Holds PollFd.entry s.data.poll.eventSet m ∧
    ∀ fd, s.map.lookup fd ≠ none ↔ m fd ≠ none
  descriptor : ∀ fd channel, s.map.lookup fd = some channel → channel.fd = fd
  silent : s.data.reports = []

variable {s s' : LoopState PollLog} {op : PendingOp} {out : Option ℤ} {fd : ℕ} {channel : Channel}

theorem hasSlot_iff {m : ℕ → Option (BitVec 16)} {data : PollData}
    (h : Holds PollFd.entry data.eventSet m) (fd : ℕ) : HasSlot data fd ↔ m fd ≠ none := by
  rw [← h.key_mem]
  simp only [HasSlot, List.mem_map, List.mem_filterMap, PollFd.entry_eq_some]
  constructor
  · rintro ⟨slot,hslot,events,he⟩
    exact ⟨(fd, events),⟨slot,hslot,he⟩,rfl⟩
  · rintro ⟨⟨_,events⟩,⟨slot,hslot,he⟩,rfl⟩
    exact ⟨slot,hslot,events,he⟩

theorem Polled.hasSlot (h : Polled s) (fd : ℕ) : HasSlot s.data.poll fd ↔ s.map.lookup fd ≠ none := by
  obtain ⟨m,hm,hkeys⟩ := h.table
  rw [hasSlot_iff hm, hkeys]

theorem Polled.accounted (h : Polled s) : Accounted s := by
  intro fd channel hlook
  exact .inl ((h.hasSlot fd).mpr (by simp [hlook]))

theorem polled_init (block : ℕ → PollFd) : Polled (reportingInit block) := by
  have hlookup : ∀ fd, (reportingInit block).map.lookup fd = none := by
    intro fd
    simp [reportingInit, ChannelMap.lookup, mapInit]
  refine ⟨PollLoop.pollInit_length block,⟨fun _ => none,holds_empty fun slot hslot => ?_,?_⟩,?_,rfl⟩
  · rw [PollFd.entry_eq_none, PollLoop.pollInit_fd block slot hslot]
    decide
  · exact fun fd => by simp [hlookup]
  · intro fd channel hlook
    rw [hlookup] at hlook
    cases hlook

theorem reported_eq {log : PollLog} (hsize : log.poll.eventSet.length = initPollSize)
    (operation : PollData → Channel → Option (PollData × ℤ)) (p : Channel → PollFd → Bool)
    (report : Channel → PollReport) (channel1 : Channel) :
    reported operation (fun data channel1 => beyondTable (p channel1) data) report log channel1 =
      (operation log.poll channel1).map fun r => (⟨r.1,log.reports⟩, r.2) := by
  simp [reported, beyondTable_eq_false hsize]

theorem Polled.change {map' : ChannelMap} {eventSet : List PollFd} {m : ℕ → Option (BitVec 16)}
    {e : Option Channel} {v : Option (BitVec 16)} (h : Polled s)
    (hm : ∀ fd, s.map.lookup fd ≠ none ↔ m fd ≠ none)
    (hlookup : ∀ x, map'.lookup x = if x = fd then e else s.map.lookup x)
    (hfd : ∀ c, e = some c → c.fd = fd) (hsize : eventSet.length = initPollSize)
    (htable : Holds PollFd.entry eventSet (Function.update m fd v)) (hv : e ≠ none ↔ v ≠ none) :
    Polled ⟨map',⟨⟨eventSet⟩,s.data.reports⟩⟩ := by
  refine ⟨hsize,⟨_,htable,?_⟩,?_,h.silent⟩
  · intro x
    simp only [hlookup]
    by_cases hx : x = fd
    · subst hx
      simpa using hv
    · simpa [hx] using hm x
  · intro x c hc
    simp only [hlookup] at hc
    by_cases hx : x = fd
    · subst hx
      exact hfd c (by simpa using hc)
    · exact h.descriptor x c (by simpa [hx] using hc)

theorem reportingStep_add (hsize : s.data.poll.eventSet.length = initPollSize) (htype : op.type = .add)
    (hfd : op.channel.fd = fd) :
    (¬ AddsChannel s fd op.realloc ∧ ∀ s' out, reportingStep s op = some (s', out) → s' = s) ∨
    AddsChannel s fd op.realloc ∧ ∃ map' : ChannelMap,
      (∀ x, map'.lookup x = if x = fd then some op.channel else s.map.lookup x) ∧
      reportingStep s op = some (⟨map',⟨⟨modifyFirst (fun slot => slot.fd < 0)
        (fun slot => { slot with fd := op.channel.fd, events := pollEvents op.channel })
        s.data.poll.eventSet⟩,s.data.reports⟩⟩, some 1) := by
  have hadd : reportingDispatcher.add s.data op.channel = some (⟨⟨modifyFirst (fun slot => slot.fd < 0)
      (fun slot => { slot with fd := op.channel.fd, events := pollEvents op.channel })
      s.data.poll.eventSet⟩,s.data.reports⟩, 0) :=
    reported_eq hsize pollAdd (fun _ slot => slot.fd < 0) .tooManyClients op.channel
  simp only [reportingStep, mapStep, htype, hfd]
  rcases handlePendingAdd_outcomes reportingDispatcher s fd op.channel op.realloc with
    ⟨hno,hrun⟩ | ⟨hreg,map',hlookup,hrun⟩
  · refine .inl ⟨hno,fun s' out hs => ?_⟩
    obtain ⟨r,hr,he⟩ := Option.map_eq_some_iff.mp hs
    obtain ⟨rfl,-⟩ := Prod.mk.inj he
    exact hrun r hr
  · refine .inr ⟨hreg,map',hlookup,?_⟩
    rw [hrun, hadd, ← hfd]
    rfl

theorem Polled.card {m : ℕ → Option (BitVec 16)} (hm : Holds PollFd.entry s.data.poll.eventSet m)
    (hkeys : ∀ fd, s.map.lookup fd ≠ none ↔ m fd ≠ none) :
    s.map.registered.card = (s.data.poll.eventSet.filterMap PollFd.entry).length :=
  hm.card fun x => by rw [PollLoop.mem_registered, hkeys]

theorem Polled.step_add (h : Polled s) (htype : op.type = .add) (hok : Unfilled s op)
    (hs : reportingStep s op = some (s', out)) : Polled s' := by
  by_cases hneg : op.channel.fd < 0
  · simp only [reportingStep, mapStep, htype, eventLoopHandlePendingAdd, if_pos hneg, Option.map_some,
      Option.some.injEq, Prod.mk.injEq] at hs
    exact hs.1 ▸ h
  obtain ⟨fd,hfd⟩ := Int.eq_ofNat_of_zero_le (not_lt.mp hneg)
  rcases reportingStep_add h.size htype hfd with ⟨-,hsame⟩ | ⟨hreg,map',hlookup,hrun⟩
  · exact hsame s' out hs ▸ h
  · obtain ⟨rfl,-⟩ := Prod.mk.inj (Option.some.inj (hrun.symm.trans hs))
    obtain ⟨m,hm,hkeys⟩ := h.table
    have hcard : s.map.registered.card < initPollSize := by
      refine hok htype (not_lt.mp hneg) ?_
      rwa [hfd, Int.toNat_natCast]
    have hfree : m fd = none := by
      by_contra hne
      exact (hkeys fd).mpr hne hreg.1
    refine h.change (v := some (pollEvents op.channel)) hkeys hlookup ?_ ?_
      (hm.add hfree ?_ ?_ ?_) (by simp)
    · rintro c hc
      exact Option.some.inj hc ▸ hfd
    · rw [modifyFirst_length, h.size]
    · rw [← Polled.card hm hkeys, h.size]
      exact hcard
    · intro slot
      rw [PollFd.entry_eq_none, decide_eq_true_iff]
    · intro slot
      simp [PollFd.entry, hfd]

theorem modifyFirst_full {l : List PollFd} (hfull : ¬ (l.filterMap PollFd.entry).length < l.length)
    (f : PollFd → PollFd) : modifyFirst (fun slot => slot.fd < 0) f l = l := by
  rcases modifyFirst_split (fun slot : PollFd => decide (slot.fd < 0)) f l with
    ⟨-,he⟩ | ⟨l₁,a,l₂,rfl,ha,-⟩
  · exact he
  · have hle := List.length_filterMap_le PollFd.entry (l₁ ++ a :: l₂)
    have hall := List.filterMap_length_eq_length.mp (le_antisymm hle (not_lt.mp hfull)) a
      (List.mem_append_right _ List.mem_cons_self)
    rw [PollFd.entry_eq_none.mpr (of_decide_eq_true ha)] at hall
    cases hall

/-- A full table would leave a channel that is registered neither polled nor reported. -/
theorem Polled.unfilled (h : Polled s)
    (hclaim : ∀ s' out, reportingStep s op = some (s', out) → Accounted s') : Unfilled s op := by
  intro htype hpos hreg
  obtain ⟨fd,hfd⟩ := Int.eq_ofNat_of_zero_le hpos
  rw [hfd, Int.toNat_natCast] at hreg
  obtain ⟨-,map',hlookup,hrun⟩ :=
    (reportingStep_add h.size htype hfd).resolve_left fun hno => hno.1 hreg
  obtain ⟨m,hm,hkeys⟩ := h.table
  by_contra hfull
  rw [Polled.card hm hkeys, ← h.size] at hfull
  have hslot : HasSlot s.data.poll fd := by
    rcases hclaim _ _ hrun fd op.channel (by simp [hlookup]) with hslot | hreport
    · rwa [HasSlot, modifyFirst_full hfull] at hslot
    · rw [h.silent] at hreport
      cases hreport
  exact (h.hasSlot fd).mp hslot hreg.1

theorem Polled.step_remove (h : Polled s) (htype : op.type = .remove)
    (hs : reportingStep s op = some (s', out)) : Polled s' := by
  have hdel : ∀ channel2, reportingDispatcher.del s.data channel2 = some (⟨⟨modifyFirst
      (fun slot => slot.fd = channel2.fd) (fun slot => { slot with fd := -1 })
      s.data.poll.eventSet⟩,s.data.reports⟩, 0) := fun channel2 =>
    reported_eq h.size pollDel (fun channel1 slot => slot.fd = channel1.fd) .deleteError channel2
  simp only [reportingStep, mapStep, htype] at hs
  obtain ⟨r,hr,he⟩ := Option.map_eq_some_iff.mp hs
  obtain ⟨rfl,-⟩ := Prod.mk.inj he
  unfold eventLoopHandlePendingRemove at hr
  split_ifs at hr with hfd hneg hout
  · obtain rfl := Option.some.inj hr
    exact h
  · obtain rfl := Option.some.inj hr
    exact h
  · obtain ⟨channel2,hentry,hr⟩ := Option.bind_eq_some_iff.mp hr
    rw [hdel channel2] at hr
    obtain rfl := Option.some.inj hr
    obtain ⟨m,hm,hkeys⟩ := h.table
    have hlt : op.channel.fd.toNat < s.map.nentries := by omega
    have hlook : s.map.lookup op.channel.fd.toNat = some channel2 := by
      rw [ChannelMap.lookup, if_pos hlt, hentry]
    have hfd2 := h.descriptor _ channel2 hlook
    refine h.change (v := none) hkeys (s.lookup_setEntry hlt none) (by simp) ?_ (hm.remove ?_ ?_) (by simp)
    · rw [modifyFirst_length, h.size]
    · intro slot
      rw [decide_eq_true_iff, hfd2, PollFd.entry_eq_some]
    · intro slot
      exact PollFd.entry_eq_none.mpr (show (-1 : ℤ) < 0 by decide)

theorem Polled.step_update (h : Polled s) (htype : op.type = .update)
    (hs : reportingStep s op = some (s', out)) : Polled s' := by
  have hupdate : reportingDispatcher.update s.data op.channel = some (⟨⟨modifyFirst
      (fun slot => slot.fd = op.channel.fd)
      (fun slot => { slot with events := pollEvents op.channel }) s.data.poll.eventSet⟩,s.data.reports⟩, 0) :=
    reported_eq h.size pollUpdate (fun channel1 slot => slot.fd = channel1.fd) .updatedError op.channel
  simp only [reportingStep, mapStep, htype] at hs
  unfold eventLoopHandlePendingUpdate at hs
  split_ifs at hs with hneg hout hnull
  · obtain ⟨rfl,-⟩ := Prod.mk.inj (Option.some.inj hs)
    exact h
  · obtain ⟨rfl,-⟩ := Prod.mk.inj (Option.some.inj hs)
    exact h
  · rw [hupdate] at hs
    obtain ⟨rfl,-⟩ := Prod.mk.inj (Option.some.inj hs)
    obtain ⟨fd,hfd⟩ := Int.eq_ofNat_of_zero_le (not_lt.mp hneg)
    rw [hfd, Int.toNat_natCast] at hnull
    obtain ⟨m,hm,hkeys⟩ := h.table
    have hlt : fd < s.map.nentries := by omega
    have hlook : s.map.lookup fd ≠ none := by rwa [ChannelMap.lookup, if_pos hlt]
    refine h.change (e := s.map.lookup fd) (v := some (pollEvents op.channel)) hkeys ?_
      (h.descriptor fd) ?_ (hm.update ((hkeys fd).mp hlook) ?_ ?_) (by simpa using hlook)
    · intro x
      split
      next hx => rw [hx]
      next => rfl
    · rw [modifyFirst_length, h.size]
    · intro slot
      rw [decide_eq_true_iff, hfd, PollFd.entry_eq_some]
    · intro slot hslot
      rw [decide_eq_true_iff, hfd] at hslot
      simp [PollFd.entry, hslot]

theorem Polled.step (h : Polled s) (hok : Unfilled s op) (hs : reportingStep s op = some (s', out)) :
    Polled s' := by
  cases htype : op.type with
  | add => exact h.step_add htype hok hs
  | remove => exact h.step_remove htype hs
  | update => exact h.step_update htype hs

theorem run_accounted_iff (block : ℕ → PollFd) (ops : List PendingOp) :
    Admits reportingStep Unfilled (reportingInit block) ops ↔ ∀ before after t os, ops = before ++ after →
      run reportingStep (reportingInit block) before = some (t, os) → Accounted t := by
  have hkeep : ∀ s op, Polled s → Unfilled s op →
      True ∧ ∀ s' out, reportingStep s op = some (s', out) → Polled s' :=
    fun s op h hok => ⟨trivial,fun s' out hs => h.step hok hs⟩
  have hback : ∀ s op, Polled s → True → (∀ s' out, reportingStep s op = some (s', out) → Accounted s') →
      Unfilled s op := fun s op h _ hclaim => h.unfilled hclaim
  rw [admits_iff_claim (fun _ h => h.accounted) hkeep hback (polled_init block) ops]
  simp

/-- An addition is accounted for just where there is a free slot, or one with the channel's
descriptor and events; a descriptor without a slot is never reported; and in a run each
registered channel is polled or reported just when none is registered beside
`INIT_POLL_SIZE` others. -/
theorem poll_accounted_iff (data : PollData) (channel1 : Channel)
    (hsize : data.eventSet.length = initPollSize) (block : ℕ → PollFd) (ops : List PendingOp) :
    (AddAccounted data channel1 ↔ ∃ slot ∈ data.eventSet,
      slot.fd < 0 ∨ slot.fd = channel1.fd ∧ slot.events = pollEvents channel1) ∧
    (MissReported data channel1 ↔ HasSlot data channel1.fd) ∧
    (Admits reportingStep Unfilled (reportingInit block) ops ↔
      ∀ before after t os, ops = before ++ after →
        run reportingStep (reportingInit block) before = some (t, os) → Accounted t) :=
  ⟨addAccounted_iff hsize channel1,missReported_iff hsize channel1,run_accounted_iff block ops⟩

def readingChannel (fd : ℤ) : Channel :=
  channelNew fd eventRead (some .handleRead) (some .handleWrite) (.tcpConnection 0)

def lastFree : PollData := ⟨List.replicate (initPollSize - 1) ⟨7,0,0⟩ ++ [⟨-1,0,0⟩]⟩

def readingOps : List PendingOp :=
  [⟨.add,readingChannel 5,true⟩,⟨.add,readingChannel 6,true⟩,⟨.remove,readingChannel 5,true⟩]

theorem unfilled_of_nentries (h : s.map.nentries < initPollSize) : Unfilled s op :=
  fun _ _ _ => (PollLoop.registered_card_le s.map).trans_lt h

theorem poll_accounted_free :
    AddAccounted lastFree (readingChannel 5) ∧ ¬ MissReported lastFree (readingChannel 5) ∧
      ∀ before after t os, readingOps = before ++ after →
        run reportingStep (reportingInit fun _ => ⟨0,0,0⟩) before = some (t, os) → Accounted t := by
  have hsize : lastFree.eventSet.length = initPollSize := by
    rw [lastFree, List.length_append, List.length_replicate]
    rfl
  obtain ⟨hadd,hmiss,hrun⟩ :=
    poll_accounted_iff lastFree (readingChannel 5) hsize (fun _ => ⟨0,0,0⟩) readingOps
  refine ⟨hadd.mpr ⟨⟨-1,0,0⟩,List.mem_append_right _ List.mem_cons_self,.inl (by decide)⟩,?_,hrun.mp ⟨?_,?_⟩⟩
  · rw [hmiss]
    rintro ⟨slot,hslot,hfd⟩
    rcases List.mem_append.mp hslot with hused | hfree
    · obtain rfl := List.eq_of_mem_replicate hused
      exact absurd hfd (by decide)
    · obtain rfl := List.mem_singleton.mp hfree
      exact absurd hfd (by decide)
  · exact unfilled_of_nentries (by decide)
  · intro r hr
    obtain rfl := Option.some.inj hr
    refine ⟨unfilled_of_nentries (by decide),fun r hr => ?_⟩
    obtain rfl := Option.some.inj hr
    exact ⟨unfilled_of_nentries (by decide),fun _ _ => trivial⟩

/-- A full table has no slot for another channel, and an empty one none to remove or to
update; no error is reported. -/
theorem poll_dropped :
    ¬ AddAccounted ⟨List.replicate initPollSize ⟨7,0,0⟩⟩ (readingChannel 5) ∧
      ¬ MissReported ⟨List.replicate initPollSize ⟨-1,0,0⟩⟩ (readingChannel 5) := by
  rw [addAccounted_iff List.length_replicate, missReported_iff List.length_replicate]
  constructor
  · rintro ⟨slot,hslot,hfd⟩
    obtain rfl := List.eq_of_mem_replicate hslot
    exact absurd hfd (by decide)
  · rintro ⟨slot,hslot,hfd⟩
    obtain rfl := List.eq_of_mem_replicate hslot
    exact absurd hfd (by decide)

end CppExamples.HttpTest
