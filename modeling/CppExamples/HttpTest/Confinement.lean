import CppExamples.HttpTest.Establishing

/-! # Connections stay with their loop

The acceptor hands the connections to the loops of the pool in turn.  The channel of a
connection is pending or registered in the loop it was handed to and in no other, so that
one thread reads from it, whatever the threads do in between.
-/
namespace CppExamples.HttpTest
open PendingList Machine
variable {δ : Type*}

def loopOf (threadNumber addr : ℕ) : ℕ := if 0 < threadNumber then addr % threadNumber + 1 else 0

/-- Where `position` stands once this many connections have been handed out. -/
def positionAfter (threadNumber handed : ℕ) : ℕ :=
  if 0 < threadNumber then handed % threadNumber else 0

theorem succ_mod (a n : ℕ) (hn : 0 < n) : (a + 1) % n = if n ≤ a % n + 1 then 0 else a % n + 1 := by
  have hlt := Nat.mod_lt a hn
  rw [← Nat.mod_add_mod]
  split
  next hend =>
    obtain hall : a % n + 1 = n := by omega
    rw [hall, Nat.mod_self]
  next hnext => exact Nat.mod_eq_of_lt (not_le.mp hnext)

theorem threadPoolGetLoop_eq (threadNumber handed : ℕ) :
    threadPoolGetLoop threadNumber (positionAfter threadNumber handed) =
      (loopOf threadNumber handed,positionAfter threadNumber (handed + 1)) := by
  by_cases hn : 0 < threadNumber
  · simp only [threadPoolGetLoop, positionAfter, loopOf, if_pos hn, succ_mod handed threadNumber hn]
  · simp only [threadPoolGetLoop, positionAfter, loopOf, if_neg hn]

namespace Establishing
variable {w w' : Establishing δ} {dispatcher : Dispatcher δ} {server threadNum : ℕ}

/-- A channel that a loop knows, if it is that of a connection, is that of one of its own. -/
def OwnChannel (w : Establishing δ) (loop : ℕ) (channel : Channel) : Prop :=
  channel.eventReadCallback = some .handleRead → ∃ addr c,
    channel.data = .tcpConnection addr ∧ w.connections addr = some c ∧ c.eventLoop = loop

structure Confined (threadNum : ℕ) (w : Establishing δ) : Prop where
  loops : ∀ loop, (w.loops loop).All (w.OwnChannel loop)
  made : ∀ addr, w.connections addr ≠ none ↔ addr < w.allocated
  channel : ∀ addr c, w.connections addr = some c → c.channel.data = .tcpConnection addr
  assigned : ∀ addr c, w.connections addr = some c → c.eventLoop = loopOf threadNum addr
  position : w.position = positionAfter threadNum w.allocated

theorem confined_initial {start : ℕ → LoopState δ}
    (hstart : ∀ loop fd channel, (start loop).map.lookup fd = some channel →
      channel.eventReadCallback ≠ some .handleRead) : (initial start).Confined threadNum where
  loops loop := ⟨⟨[],[],holds_empty,by simp⟩,fun fd channel hlook hread =>
    absurd hread (hstart loop fd channel hlook)⟩
  made addr := by simp [initial]
  channel addr c hc := by cases hc
  assigned addr c hc := by cases hc
  position := by simp [initial, positionAfter]

theorem OwnChannel.imp {loop : ℕ} {channel : Channel} (h : w.OwnChannel loop channel)
    (hkeep : ∀ addr c, w.connections addr = some c →
      ∃ c', w'.connections addr = some c' ∧ c'.eventLoop = c.eventLoop) : w'.OwnChannel loop channel := by
  intro hread
  obtain ⟨addr,c,hdata,hc,hloop⟩ := h hread
  obtain ⟨c',hc',hsame⟩ := hkeep addr c hc
  exact ⟨addr,c',hdata,hc',hsame.trans hloop⟩

theorem Confined.setLoop (h : w.Confined threadNum) {loop : ℕ} {l : ThreadLoop δ}
    (hl : l.All (w.OwnChannel loop)) : (w.setLoop loop l).Confined threadNum where
  loops i := by
    by_cases hi : i = loop
    · subst hi
      have hnew : (w.setLoop i l).loops i = l := Function.update_self ..
      rw [hnew]
      exact hl.mono fun _ hown => hown
    · have hold : (w.setLoop loop l).loops i = w.loops i := Function.update_of_ne hi ..
      rw [hold]
      exact (h.loops i).mono fun _ hown => hown
  made := h.made
  channel := h.channel
  assigned := h.assigned
  position := h.position

theorem Confined.move (h : w.Confined threadNum) (acceptor : Acceptor) :
    ({ w with acceptor := acceptor } : Establishing δ).Confined threadNum :=
  ⟨h.loops,h.made,h.channel,h.assigned,h.position⟩

theorem Confined.setConnection (h : w.Confined threadNum) {addr : ℕ} {c : Established}
    (hc : w.connections addr = some c) (c' : Established) (hloop : c'.eventLoop = c.eventLoop)
    (hchannel : c'.channel = c.channel) (acceptor : Acceptor) :
    (w.setConnection addr c' acceptor).Confined threadNum := by
  have hold : ∀ x d, (w.setConnection addr c' acceptor).connections x = some d →
      ∃ d', w.connections x = some d' ∧ d.eventLoop = d'.eventLoop ∧ d.channel = d'.channel := by
    intro x d hd
    by_cases hx : x = addr
    · subst hx
      obtain rfl : c' = d := by simpa [Establishing.setConnection] using hd
      exact ⟨c,hc,hloop,hchannel⟩
    · exact ⟨d,by simpa [Establishing.setConnection, hx] using hd,rfl,rfl⟩
  refine ⟨fun loop => (h.loops loop).mono fun channel hown => hown.imp ?_,?_,?_,?_,h.position⟩
  · intro x d hd
    by_cases hx : x = addr
    · subst hx
      obtain rfl := Option.some.inj (hc.symm.trans hd)
      exact ⟨c',Function.update_self ..,hloop⟩
    · exact ⟨d,by simpa [Establishing.setConnection, hx] using hd,rfl⟩
  · intro x
    by_cases hx : x = addr
    · subst hx
      simp [Establishing.setConnection, ← h.made x, hc]
    · simpa [Establishing.setConnection, hx] using h.made x
  · intro x d hd
    obtain ⟨d',hd',-,hsame⟩ := hold x d hd
    rw [hsame]
    exact h.channel x d' hd'
  · intro x d hd
    obtain ⟨d',hd',hsame,-⟩ := hold x d hd
    rw [hsame]
    exact h.assigned x d' hd'

theorem Confined.accept (h : w.Confined threadNum) {connectedFd : ℤ} {o : Option MessageCall}
    (hs : w.step (httpServerNew server threadNum) dispatcher (.accept connectedFd) =
      some (w', o)) : w'.Confined threadNum ∧ o = none := by
  cases hpc : w.acceptor with
  | idle =>
    simp only [step, hpc, httpServerNew, h.position, threadPoolGetLoop_eq, Option.some.injEq,
      Prod.mk.injEq] at hs
    obtain ⟨rfl,rfl⟩ := hs
    have hfresh : w.connections w.allocated = none := by
      by_contra hsome
      exact lt_irrefl _ ((h.made w.allocated).mp hsome)
    refine ⟨⟨fun loop => (h.loops loop).mono fun channel hown => hown.imp ?_,?_,?_,?_,rfl⟩,rfl⟩
    · intro x d hd
      have hx : x ≠ w.allocated := by
        rintro rfl
        cases hfresh.symm.trans hd
      exact ⟨d,by simpa [Establishing.setConnection, hx] using hd,rfl⟩
    · intro x
      by_cases hx : x = w.allocated
      · simp [Establishing.setConnection, hx]
      · have hmade := h.made x
        simp only [Establishing.setConnection, Function.update_of_ne hx, hmade]
        omega
    all_goals
      intro x d hd
      by_cases hx : x = w.allocated
      · subst hx
        simp only [Establishing.setConnection, Function.update_self, Option.some.injEq] at hd
        subst hd
        rfl
      · have hd' : w.connections x = some d := by simpa [Establishing.setConnection, hx] using hd
        first
          | exact h.channel x d hd'
          | exact h.assigned x d hd'
  | constructed | completed | posted | returned => simp [step, hpc] at hs

theorem Confined.connectionCompleted (h : w.Confined threadNum) {o : Option MessageCall}
    (hs : w.step (httpServerNew server threadNum) dispatcher .connectionCompleted =
      some (w', o)) : w'.Confined threadNum ∧ o = none := by
  cases hpc : w.acceptor with
  | constructed addr =>
    simp only [step, hpc, Option.map_eq_some_iff, Prod.mk.injEq] at hs
    obtain ⟨c,hc,rfl,rfl⟩ := hs
    exact ⟨h.setConnection hc { c with httpRequest := some httpRequestNew } rfl rfl _,rfl⟩
  | idle | completed | posted | returned => simp [step, hpc] at hs

theorem Confined.addChannel (h : w.Confined threadNum) {o : Option MessageCall}
    (hs : w.step (httpServerNew server threadNum) dispatcher .addChannel = some (w', o)) :
    w'.Confined threadNum ∧ o = none := by
  cases hpc : w.acceptor with
  | completed addr =>
    simp only [step, hpc, Option.bind_eq_some_iff, Option.map_eq_some_iff, Prod.mk.injEq] at hs
    obtain ⟨c,hc,l,hpost,rfl,rfl⟩ := hs
    have hown : w.OwnChannel c.eventLoop c.channel := fun _ => ⟨addr,c,h.channel addr c hc,hc,rfl⟩
    exact ⟨(h.setLoop ((h.loops c.eventLoop).post hown hpost)).move _,rfl⟩
  | idle | constructed | posted | returned => simp [step, hpc] at hs

theorem Confined.wakeup (h : w.Confined threadNum) {o : Option MessageCall} {realloc : ℤ → Bool}
    (hs : w.step (httpServerNew server threadNum) dispatcher (.wakeup realloc) = some (w', o)) :
    w'.Confined threadNum ∧ o = none := by
  cases hpc : w.acceptor with
  | posted addr =>
    simp only [step, hpc, Option.bind_eq_some_iff] at hs
    obtain ⟨c,-,hs⟩ := hs
    split at hs
    · obtain ⟨l,hhandle,he⟩ := Option.map_eq_some_iff.mp hs
      obtain ⟨rfl,rfl⟩ := Prod.mk.inj he
      exact ⟨(h.setLoop ((h.loops 0).handlePending hhandle)).move _,rfl⟩
    · obtain ⟨rfl,rfl⟩ := Prod.mk.inj (Option.some.inj hs)
      exact ⟨h.move _,rfl⟩
  | idle | constructed | completed | returned => simp [step, hpc] at hs

theorem Confined.setData (h : w.Confined threadNum) {o : Option MessageCall}
    (hs : w.step (httpServerNew server threadNum) dispatcher .setData = some (w', o)) :
    w'.Confined threadNum ∧ o = none := by
  cases hpc : w.acceptor with
  | returned addr =>
    simp only [step, hpc, Option.map_eq_some_iff] at hs
    obtain ⟨c,hc,he⟩ := hs
    split at he
    · obtain ⟨rfl,rfl⟩ := Prod.mk.inj he
      exact ⟨h.setConnection hc { c with data := some server } rfl rfl _,rfl⟩
    · obtain ⟨rfl,rfl⟩ := Prod.mk.inj he
      exact ⟨h.move _,rfl⟩
  | idle | constructed | completed | posted => simp [step, hpc] at hs

/-- A read event stays in its loop, and so does the message that it starts. -/
theorem Confined.readEvent (h : w.Confined threadNum) {o : Option MessageCall} {loop fd : ℕ}
    {received : Bool} {onRead : Option Bool} {realloc : ℤ → Bool}
    (hs : Establishing.readEvent dispatcher w loop fd received onRead realloc = some (w', o)) :
    w'.Confined threadNum ∧ ∀ m, o = some m → loop = loopOf threadNum m.addr := by
  simp only [Establishing.readEvent] at hs
  split at hs
  · obtain ⟨rfl,rfl⟩ := Prod.mk.inj (Option.some.inj hs)
    exact ⟨h,by simp⟩
  rename_i hlt
  obtain ⟨channel,hentry,hs⟩ := Option.bind_eq_some_iff.mp hs
  have hlook : (w.loops loop).state.map.lookup fd = some channel := by
    simp [ChannelMap.lookup, not_le.mp hlt, hentry]
  have hown := (h.loops loop).registered fd channel hlook
  split_ifs at hs with hfd hread hreceived
  · obtain ⟨addr,c,hdata,hc,hloop⟩ := hown hread
    simp only [hdata, hc, Option.map_some, Option.some.injEq, Prod.mk.injEq] at hs
    obtain ⟨rfl,rfl⟩ := hs
    refine ⟨h.setLoop ((h.loops loop).toggle (fun events => hown) onRead),fun m hm => ?_⟩
    obtain rfl := Option.some.inj hm
    exact hloop.symm.trans (h.assigned addr c hc)
  · obtain ⟨l,hhandle,he⟩ := Option.map_eq_some_iff.mp hs
    obtain ⟨rfl,rfl⟩ := Prod.mk.inj he
    obtain ⟨l₁,hpost,hpending⟩ := Option.bind_eq_some_iff.mp hhandle
    exact ⟨h.setLoop (((h.loops loop).post hown hpost).handlePending hpending),by simp⟩
  · obtain ⟨rfl,rfl⟩ := Prod.mk.inj (Option.some.inj hs)
    exact ⟨h,by simp⟩

def readLoop : EstablishAct → Option ℕ
  | .readEvent loop _ _ _ _ => some loop
  | _ => none

theorem Confined.step (h : w.Confined threadNum) {act : EstablishAct} {o : Option MessageCall}
    (hs : w.step (httpServerNew server threadNum) dispatcher act = some (w', o)) :
    w'.Confined threadNum ∧ ∀ m, o = some m → readLoop act = some (loopOf threadNum m.addr) := by
  have hsilent : w'.Confined threadNum ∧ o = none →
      w'.Confined threadNum ∧ ∀ m, o = some m → readLoop act = some (loopOf threadNum m.addr) := by
    rintro ⟨hinv,rfl⟩
    exact ⟨hinv,by simp⟩
  cases act with
  | accept connectedFd => exact hsilent (h.accept hs)
  | connectionCompleted => exact hsilent (h.connectionCompleted hs)
  | addChannel => exact hsilent (h.addChannel hs)
  | wakeup realloc => exact hsilent (h.wakeup hs)
  | setData => exact hsilent (h.setData hs)
  | handlePending loop realloc =>
    obtain ⟨-,hs⟩ := Option.ite_none_right_eq_some.mp hs
    obtain ⟨l,hhandle,he⟩ := Option.map_eq_some_iff.mp hs
    obtain ⟨rfl,rfl⟩ := Prod.mk.inj he
    exact hsilent ⟨h.setLoop ((h.loops loop).handlePending hhandle),rfl⟩
  | readEvent loop fd received onRead realloc =>
    obtain ⟨-,hs⟩ := Option.ite_none_right_eq_some.mp hs
    obtain ⟨hinv,hm⟩ := h.readEvent hs
    exact ⟨hinv,fun m ho => congrArg some (hm m ho)⟩

/-- In every interleaving, each message is handled by the thread of the loop that its
connection was handed to, and no other: connection number `n` belongs to loop `n % threadNum + 1`,
or to the main loop when there are no threads. -/
theorem message_ownLoop {start : ℕ → LoopState δ} {acts : List EstablishAct}
    {os : List (Option MessageCall)}
    (hstart : ∀ loop fd channel, (start loop).map.lookup fd = some channel →
      channel.eventReadCallback ≠ some .handleRead)
    (hrun : run (step (httpServerNew server threadNum) dispatcher) (initial start) acts =
      some (w, os)) :
    ∀ before act after, acts = before ++ act :: after → ∃ u os' v o,
      run (Establishing.step (httpServerNew server threadNum) dispatcher) (initial start) before =
        some (u, os') ∧
      u.step (httpServerNew server threadNum) dispatcher act = some (v, o) ∧
      ∀ m, o = some m → readLoop act = some (loopOf threadNum m.addr) := by
  intro before act after he
  obtain ⟨u,os',v,o,hu,hinv,hstep⟩ := run_keeps_steps (Confined threadNum) (confined_initial hstart) hrun
    (fun _ _ _ _ h hs => (h.step hs).1) he
  exact ⟨u,os',v,o,hu,hstep,(hinv.step hstep).2⟩

/-- The steps in which the acceptor hands a connection over. -/
def handOver (connectedFd : ℤ) : List EstablishAct :=
  [.accept connectedFd,.connectionCompleted,.addChannel,.wakeup fun _ => true,.setData]

/-- The threads read while the acceptor is in the middle of a third connection. -/
def readsBetween : List EstablishAct :=
  [.handlePending 2 fun _ => true,.accept 7,.readEvent 2 6 true none fun _ => true,
    .connectionCompleted,.addChannel,.handlePending 1 fun _ => true,
    .readEvent 1 7 true none fun _ => true,.readEvent 1 5 true none fun _ => true]

def sharedActs : List EstablishAct := handOver 5 ++ handOver 6 ++ readsBetween

theorem message_ownLoop_early :
    ∃ w os, run (step (httpServerNew 1 2) pollDispatcher) (initial pollLoops) sharedActs =
        some (w, os) ∧
      (∀ before act after, sharedActs = before ++ act :: after → ∃ u os' v o,
        run (step (httpServerNew 1 2) pollDispatcher) (initial pollLoops) before =
          some (u, os') ∧
        u.step (httpServerNew 1 2) pollDispatcher act = some (v, o) ∧
        ∀ m, o = some m → readLoop act = some (loopOf 2 m.addr)) ∧
      os.reduceOption.map MessageCall.addr = [1,2,0] :=
  ⟨_,_,rfl,message_ownLoop pollLoops_unread rfl,rfl⟩

def handedTo (w : Establishing δ) (loop : ℕ) : Finset ℕ :=
  (Finset.range w.allocated).filter fun addr =>
    (w.connections addr).any fun c => c.eventLoop = loop

theorem Confined.handedTo_eq (h : w.Confined threadNum) (loop : ℕ) :
    w.handedTo loop = (Finset.range w.allocated).filter fun addr => loopOf threadNum addr = loop := by
  refine Finset.filter_congr fun addr haddr => ?_
  obtain ⟨c,hc⟩ := Option.ne_none_iff_exists'.mp ((h.made addr).mpr (Finset.mem_range.mp haddr))
  simp [hc, h.assigned addr c hc]

/-- In every interleaving each loop of the pool has been handed the same number of the
connections accepted so far, or one more if it is among the first in turn. -/
theorem connections_shared {start : ℕ → LoopState δ} {acts : List EstablishAct}
    {os : List (Option MessageCall)}
    (hstart : ∀ loop fd channel, (start loop).map.lookup fd = some channel →
      channel.eventReadCallback ≠ some .handleRead)
    (hrun : run (step (httpServerNew server threadNum) dispatcher) (initial start) acts =
      some (w, os)) (turn : ℕ) (hturn : turn < threadNum) :
    (w.handedTo (turn + 1)).card =
      w.allocated / threadNum + if turn < w.allocated % threadNum then 1 else 0 := by
  have hpos : 0 < threadNum := Nat.zero_lt_of_lt hturn
  have hconfined : w.Confined threadNum :=
    run_keeps (Confined threadNum) (confined_initial hstart) hrun fun _ _ _ _ h hs => (h.step hs).1
  have hcount := Nat.count_modEq_card w.allocated hpos turn
  rw [Nat.mod_eq_of_lt hturn] at hcount
  rw [hconfined.handedTo_eq, ← hcount, Nat.count_eq_card_filter_range]
  congr 1
  refine Finset.filter_congr fun addr _ => ?_
  simp only [loopOf, if_pos hpos, Nat.ModEq, Nat.mod_eq_of_lt hturn]
  omega

theorem connections_shared_early :
    ∃ w os, run (step (httpServerNew 1 2) pollDispatcher) (initial pollLoops) sharedActs =
        some (w, os) ∧ (w.handedTo 1).card = 2 ∧ (w.handedTo 2).card = 1 := by
  obtain ⟨w,os,hrun,hcount⟩ : ∃ w os, run (step (httpServerNew 1 2) pollDispatcher)
      (initial pollLoops) sharedActs = some (w, os) ∧ w.allocated = 3 := ⟨_,_,rfl,rfl⟩
  have hfirst := connections_shared pollLoops_unread hrun 0 (by decide)
  have hsecond := connections_shared pollLoops_unread hrun 1 (by decide)
  rw [hcount] at hfirst hsecond
  exact ⟨w,os,hrun,hfirst,hsecond⟩

end Establishing
end CppExamples.HttpTest
