import CppExamples.HttpTest.OutputStream
import CppExamples.HttpTest.Establishing

/-! # Write interest and the loop of the connection

A connection's channel is switched by calls that ask an event loop for an update.  Which
object is asked is what the channel's `data` points to: `tcp_connection_new` puts the
connection there, and the call takes it for an event loop.  A call that names the loop is
posted on its pending list; one that names another object reaches no loop.
-/
namespace CppExamples.HttpTest
open PendingList Machine
variable {δ : Type*}

/-- A connection's output and the loop behind `tcpConnection->eventLoop`. -/
structure LoopConnection (δ : Type*) where
  outgoing : Outgoing
  loop : ThreadLoop δ

/-- A send or a write event of the connection, or a turn of the loop over its pending list. -/
inductive InterestAct where
  | output (event : OutputEvent)
  | handlePending (realloc : ℤ → Bool)

/-- What the dispatcher has registered for the descriptor of a channel is its events. -/
def epollRegistered (data : EpollData) (channel : Channel) : Prop :=
  0 ≤ channel.fd ∧ data.interest channel.fd.toNat = some (epollEvents channel)

/-- When the loop has handled its pending list, with one of the given outcomes of `realloc`,
the channel's events are registered. -/
def Registers (dispatcher : Dispatcher δ) (registered : δ → Channel → Prop)
    (outcomes : Set (ℤ → Bool)) (loop : ThreadLoop δ) (channel : Channel) : Prop :=
  ∀ realloc ∈ outcomes, ∃ l, loop.handlePending dispatcher realloc = some l ∧
    registered l.state.data channel

namespace LoopConnection

def channel (w : LoopConnection δ) : Channel := w.outgoing.connection.channel

/-- `event_loop_update_channel_event` up to the end of the locked section. -/
def deliver (eventLoop : ℕ) (l : ThreadLoop δ) (u : UpdateCall) : Option (ThreadLoop δ) :=
  if u.target = .eventLoop eventLoop then l.post .update u.channel else some l

def step (dispatcher : Dispatcher δ) (w : LoopConnection δ) :
    InterestAct → Option (LoopConnection δ × Unit)
  | .output event =>
    (outputStep w.outgoing event).bind fun r =>
      ((r.1.updates.drop w.outgoing.updates.length).foldlM
        (deliver r.1.connection.eventLoop) w.loop).map fun loop => (⟨r.1,loop⟩, ())
  | .handlePending realloc =>
    (w.loop.handlePending dispatcher realloc).map fun loop => (⟨w.outgoing,loop⟩, ())

def start (addr : ℕ) (connectedFd : ℤ) (eventLoop : ℕ) (block : ℕ → Byte) (loop : ThreadLoop δ) :
    LoopConnection δ :=
  ⟨Outgoing.new (tcpConnectionNew addr connectedFd eventLoop block),loop⟩

/-- Every update call of the channel names the loop of the connection, and the loop will have
its events registered. -/
structure Informed (dispatcher : Dispatcher δ) (registered : δ → Channel → Prop)
    (outcomes : Set (ℤ → Bool)) (w : LoopConnection δ) : Prop where
  targets : ∀ u ∈ w.outgoing.updates, u.target = .eventLoop w.outgoing.connection.eventLoop
  registers : Registers dispatcher registered outcomes w.loop w.channel

/-- `write()` returns -1 or takes no more than it is given, and sizes are those of an `int`. -/
def Possible (outcomes : Set (ℤ → Bool)) (w : LoopConnection δ) : InterestAct → Prop
  | .output (.sendData _ size result _) => size ≤ intMax ∧ result.count ≤ size
  | .output (.sendBuffer buffer _ result _) =>
    buffer.readableSize ≤ intMax ∧ result.count ≤ buffer.readableSize
  | .output (.handleWrite result) => result.count ≤ w.outgoing.output.readableSize
  | .handlePending realloc => realloc ∈ outcomes

def TakesAll : InterestAct → Prop
  | .output (.sendData _ size result _) => result = .wrote size
  | .output (.sendBuffer buffer _ result _) => result = .wrote buffer.readableSize
  | .output (.handleWrite _) => True
  | .handlePending _ => True

/-- Nothing has been left to the output buffer yet. -/
structure Settled (dispatcher : Dispatcher δ) (registered : δ → Channel → Prop)
    (outcomes : Set (ℤ → Bool)) (w : LoopConnection δ) : Prop where
  untouched : w.outgoing.updates = []
  direct : w.outgoing.direct = true
  data : ∃ addr, w.channel.data = .tcpConnection addr
  pending : ∃ addrs entries, w.loop.pending.Holds addrs entries
  registers : Registers dispatcher registered outcomes w.loop w.channel

end LoopConnection

theorem Outgoing.direct_iff (s : Outgoing) :
    s.direct = true ↔ s.writeEnabled = false ∧ s.output.readableSize = 0 := by
  rw [Outgoing.direct, Bool.and_eq_true, Bool.not_eq_true', beq_iff_eq]

theorem queueRest_enables {s s' : Outgoing} {data : ℤ → Byte} {nwrited nleft : BitVec 64}
    {realloc : Option (ℕ → Byte)} (hoff : s.writeEnabled = false) (hleft : nleft ≠ 0#64)
    (h : s.queueRest data nwrited nleft false realloc = some s') :
    ∃ u, s'.updates = s.updates ++ [u] ∧ u.target = s.connection.channel.data := by
  have hpos : 0#64 < nleft := by
    rw [BitVec.lt_def]
    exact Nat.pos_of_ne_zero fun h0 => hleft (BitVec.eq_of_toNat_eq h0)
  simp only [Outgoing.queueRest, Bool.not_false, Bool.true_and, hpos, decide_true, ↓reduceIte] at h
  split_ifs at h with hsize
  obtain ⟨output,-,rfl⟩ := Option.map_eq_some_iff.mp h
  rw [if_neg]
  · exact ⟨_,rfl,rfl⟩
  · exact Bool.not_eq_true _ ▸ hoff

theorem directWrite_left {size : ℕ} {result : WriteResult} (hsize : size ≤ intMax)
    (hcount : result.count ≤ size) (hrest : result ≠ .wrote size) :
    ∃ nwrited nleft, directWrite size result = (nwrited, nleft, false) ∧ nleft ≠ 0#64 := by
  cases result with
  | wrote n =>
    have hn : n ≤ size := hcount
    refine ⟨_,_,directWrite_wrote hn hsize,fun hzero => ?_⟩
    have hne : n ≠ size := fun he => hrest (he ▸ rfl)
    have hnat := congrArg BitVec.toNat hzero
    unfold intMax at hsize
    rw [BitVec.toNat_ofNat, BitVec.toNat_ofNat] at hnat
    omega
  | failed errno =>
    -- `nwrited` is unsigned, so that -1 counts as written
    have hnonneg : 0#64 ≤ BitVec.ofInt 64 (WriteResult.failed errno).value := Nat.zero_le _
    have hwrite : directWrite size (.failed errno) =
        (BitVec.ofInt 64 (-1), BitVec.ofNat 64 size - BitVec.ofInt 64 (-1), false) := by
      unfold directWrite
      exact if_pos hnonneg
    refine ⟨_,_,hwrite,fun hzero => ?_⟩
    have hnat := congrArg BitVec.toNat hzero
    unfold intMax at hsize
    rw [BitVec.toNat_sub, BitVec.toNat_ofNat, BitVec.toNat_ofNat] at hnat
    simp at hnat
    omega

section Send
variable {s : Outgoing} {size : ℕ} {result : WriteResult} {realloc : Option (ℕ → Byte)}

theorem sendData_takesAll (hdirect : s.direct = true) (hsize : size ≤ intMax) (data : ℤ → Byte)
    (realloc : Option (ℕ → Byte)) :
    tcpConnectionSendData s data size (.wrote size) realloc =
      some (s.take (bytesAt data 0 size), BitVec.ofNat 64 size) := by
  rw [tcpConnectionSendData, if_pos hdirect, directWrite_wrote le_rfl hsize, Nat.sub_self]
  rfl

theorem sendData_enables (hdirect : s.direct = true) (hsize : size ≤ intMax)
    (hcount : result.count ≤ size) (hrest : result ≠ .wrote size) {data : ℤ → Byte}
    {r : Outgoing × BitVec 64} (h : tcpConnectionSendData s data size result realloc = some r) :
    ∃ u, r.1.updates = s.updates ++ [u] ∧ u.target = s.connection.channel.data := by
  obtain ⟨nwrited,nleft,hwrite,hleft⟩ := directWrite_left hsize hcount hrest
  rw [tcpConnectionSendData, if_pos hdirect, hwrite] at h
  obtain ⟨s',hqueue,rfl⟩ := Option.map_eq_some_iff.mp h
  have hoff : (s.take (bytesAt data 0 result.count)).writeEnabled = false :=
    (s.direct_iff.mp hdirect).1
  obtain ⟨u,hu,htarget⟩ := queueRest_enables hoff hleft hqueue
  exact ⟨u,hu,htarget⟩

theorem handleWrite_empty (hcount : result.count ≤ 0) : handleWrite s result = s := by
  cases result with
  | wrote n =>
    obtain rfl : n = 0 := Nat.le_zero.mp hcount
    rfl
  | failed errno => rfl

end Send

section Pending
variable {dispatcher : Dispatcher δ} {registered : δ → Channel → Prop} {outcomes : Set (ℤ → Bool)}
  {l l' : ThreadLoop δ} {channel : Channel} {realloc : ℤ → Bool}

theorem handlePending_empties {addrs : List ℕ} {entries : List (ChannelOp × Channel)}
    (hpending : l.pending.Holds addrs entries) (h : l.handlePending dispatcher realloc = some l') :
    l'.pending.Holds [] [] := by
  obtain ⟨pending,hhandle,hempty⟩ :=
    hpending.handlePending (handleChannelOp dispatcher realloc) (some l.state)
  rw [ThreadLoop.handlePending, hhandle] at h
  obtain ⟨state,-,rfl⟩ := Option.map_eq_some_iff.mp h
  exact hempty

theorem handlePending_nil (dispatcher : Dispatcher δ) (h : l.pending.Holds [] [])
    (realloc : ℤ → Bool) : ∃ pending, l.handlePending dispatcher realloc = some ⟨pending,l.state⟩ := by
  obtain ⟨pending,hpending,-⟩ := h.handlePending (handleChannelOp dispatcher realloc) (some l.state)
  refine ⟨pending,?_⟩
  rw [ThreadLoop.handlePending, hpending]
  rfl

theorem registers_of_registered (hpending : l.pending.Holds [] [])
    (hregistered : registered l.state.data channel) :
    Registers dispatcher registered outcomes l channel := by
  intro realloc _
  obtain ⟨pending,hhandle⟩ := handlePending_nil dispatcher hpending realloc
  exact ⟨_,hhandle,hregistered⟩

end Pending

namespace LoopConnection
variable {w : LoopConnection δ} {dispatcher : Dispatcher δ} {registered : δ → Channel → Prop}
  {outcomes : Set (ℤ → Bool)}

theorem Settled.informed (h : w.Settled dispatcher registered outcomes) :
    w.Informed dispatcher registered outcomes :=
  ⟨by simp [h.untouched],h.registers⟩

/-- An update call of the connection's channel names no loop. -/
theorem not_informed {u : UpdateCall} (hu : u ∈ w.outgoing.updates) {addr : ℕ}
    (htarget : u.target = .tcpConnection addr) : ¬ w.Informed dispatcher registered outcomes := by
  intro h
  have hloop := h.targets u hu
  rw [htarget] at hloop
  cases hloop

theorem settled_start {addr eventLoop : ℕ} {connectedFd : ℤ} {block : ℕ → Byte} {loop : ThreadLoop δ}
    {addrs : List ℕ} {entries : List (ChannelOp × Channel)}
    (hpending : loop.pending.Holds addrs entries)
    (hadded : Registers dispatcher registered outcomes loop (connectionChannel connectedFd addr)) :
    (start addr connectedFd eventLoop block loop).Settled dispatcher registered outcomes where
  untouched := rfl
  direct := by
    have hoff : (eventRead &&& eventWrite : BitVec 32) = 0 := by decide
    rw [Outgoing.direct_iff]
    exact ⟨decide_eq_false (not_not.mpr hoff),rfl⟩
  data := ⟨addr,rfl⟩
  pending := ⟨addrs,entries,hpending⟩
  registers := hadded

theorem step_output {event : OutputEvent} {bytes out : List Byte}
    (h : outputStep w.outgoing event = some (w.outgoing.take bytes, out)) :
    LoopConnection.step dispatcher w (.output event) =
      some (⟨w.outgoing.take bytes,w.loop⟩, ()) := by
  simp [LoopConnection.step, h, Outgoing.take]

theorem Settled.take (h : w.Settled dispatcher registered outcomes) (bytes : List Byte) :
    (⟨w.outgoing.take bytes,w.loop⟩ : LoopConnection δ).Settled dispatcher registered outcomes :=
  ⟨h.untouched,h.direct,h.data,h.pending,h.registers⟩

theorem take_nil (s : Outgoing) : s.take [] = s := by
  simp [Outgoing.take]

theorem Settled.step (h : w.Settled dispatcher registered outcomes) (act : InterestAct)
    (hpossible : w.Possible outcomes act) (htakes : TakesAll act) :
    ∃ w', LoopConnection.step dispatcher w act = some (w', ()) ∧
      w'.Settled dispatcher registered outcomes := by
  cases act with
  | output event =>
    cases event with
    | sendData data size result realloc =>
      obtain rfl : result = .wrote size := htakes
      have houtput : outputStep w.outgoing (.sendData data size (.wrote size) realloc) =
          some (w.outgoing.take (bytesAt data 0 size), bytesAt data 0 size) := by
        rw [outputStep, sendData_takesAll h.direct hpossible.1]
        rfl
      exact ⟨_,step_output houtput,h.take _⟩
    | sendBuffer buffer outside result realloc =>
      obtain rfl : result = .wrote buffer.readableSize := htakes
      have houtput : outputStep w.outgoing
          (.sendBuffer buffer outside (.wrote buffer.readableSize) realloc) =
            some (w.outgoing.take (bytesAt (buffer.around outside) 0 buffer.readableSize),
              buffer.readable) := by
        rw [outputStep, tcpConnectionSendBuffer, sendData_takesAll h.direct hpossible.1]
        rfl
      exact ⟨_,step_output houtput,h.take _⟩
    | handleWrite result =>
      have hcount : result.count ≤ 0 := hpossible.trans_eq (w.outgoing.direct_iff.mp h.direct).2
      have houtput : outputStep w.outgoing (.handleWrite result) = some (w.outgoing.take [], []) := by
        rw [outputStep, handleWrite_empty hcount, take_nil]
        rfl
      exact ⟨_,step_output houtput,h.take _⟩
  | handlePending realloc =>
    obtain ⟨addrs,entries,hpending⟩ := h.pending
    obtain ⟨l,hhandle,hregistered⟩ := h.registers realloc hpossible
    have hempty := handlePending_empties hpending hhandle
    refine ⟨⟨w.outgoing,l⟩,?_,⟨h.untouched,h.direct,h.data,⟨[],[],hempty⟩,
      registers_of_registered hempty hregistered⟩⟩
    rw [LoopConnection.step, hhandle]
    rfl

theorem step_outgoing {w' : LoopConnection δ} {event : OutputEvent} {o : Unit}
    (h : LoopConnection.step dispatcher w (.output event) = some (w', o)) :
    ∃ out, outputStep w.outgoing event = some (w'.outgoing, out) := by
  obtain ⟨⟨outgoing,out⟩,houtput,hloop⟩ := Option.bind_eq_some_iff.mp h
  obtain ⟨loop,-,he⟩ := Option.map_eq_some_iff.mp hloop
  obtain ⟨rfl,-⟩ := Prod.mk.inj he
  exact ⟨out,houtput⟩

theorem Settled.not_informed_send (h : w.Settled dispatcher registered outcomes)
    {w' : LoopConnection δ} {data : ℤ → Byte} {size : ℕ} {result : WriteResult}
    {realloc : Option (ℕ → Byte)} {r : Outgoing × BitVec 64} (hsize : size ≤ intMax)
    (hcount : result.count ≤ size) (hrest : result ≠ .wrote size)
    (hsend : tcpConnectionSendData w.outgoing data size result realloc = some r)
    (hnext : r.1 = w'.outgoing) : ¬ w'.Informed dispatcher registered outcomes := by
  obtain ⟨addr,hdata⟩ := h.data
  obtain ⟨u,hu,htarget⟩ := sendData_enables h.direct hsize hcount hrest hsend
  have hlast : u ∈ w'.outgoing.updates := by
    rw [← hnext, hu]
    exact List.mem_append_right _ (List.mem_singleton_self u)
  exact not_informed hlast (htarget.trans hdata)

theorem Settled.takesAll (h : w.Settled dispatcher registered outcomes) {act : InterestAct}
    (hpossible : w.Possible outcomes act) (hdefined : LoopConnection.step dispatcher w act ≠ none)
    (hnext : ∀ w' o, LoopConnection.step dispatcher w act = some (w', o) →
      w'.Informed dispatcher registered outcomes) : TakesAll act := by
  obtain ⟨⟨w',o⟩,hstep⟩ := Option.ne_none_iff_exists'.mp hdefined
  have hinformed := hnext w' o hstep
  cases act with
  | output event =>
    obtain ⟨out,houtput⟩ := step_outgoing hstep
    cases event with
    | sendData data size result realloc =>
      by_contra hrest
      obtain ⟨r,hsend,he⟩ := Option.map_eq_some_iff.mp houtput
      have hw' := (Prod.mk.inj he).1
      exact h.not_informed_send hpossible.1 hpossible.2 hrest hsend hw' hinformed
    | sendBuffer buffer outside result realloc =>
      by_contra hrest
      obtain ⟨r,hbuffer,he⟩ := Option.map_eq_some_iff.mp houtput
      obtain ⟨q,hsend,hr⟩ := Option.bind_eq_some_iff.mp hbuffer
      obtain rfl := Option.some.inj hr
      have hw' := (Prod.mk.inj he).1
      exact h.not_informed_send hpossible.1 hpossible.2 hrest hsend hw' hinformed
    | handleWrite result => trivial
  | handlePending realloc => trivial

end LoopConnection

open LoopConnection

/-- Write interest reaches the loop of a connection exactly in the runs in which the socket
takes at once all that is sent, so that the write event is never switched.  The loop may
have anything pending at the start, the new channel among it. -/
theorem writeInterest_iff (dispatcher : Dispatcher δ) {registered : δ → Channel → Prop}
    {outcomes : Set (ℤ → Bool)} (addr eventLoop : ℕ) (connectedFd : ℤ) (block : ℕ → Byte)
    {loop : ThreadLoop δ} {addrs : List ℕ} {entries : List (ChannelOp × Channel)}
    (hpending : loop.pending.Holds addrs entries)
    (hadded : Registers dispatcher registered outcomes loop (connectionChannel connectedFd addr))
    (acts : List InterestAct) :
    Admits (step dispatcher) (fun w act => w.Possible outcomes act ∧ TakesAll act)
        (start addr connectedFd eventLoop block loop) acts ↔
      ∀ before after w os, acts = before ++ after →
        run (step dispatcher) (start addr connectedFd eventLoop block loop) before = some (w, os) →
        w.Informed dispatcher registered outcomes ∧
          ∀ act rest, after = act :: rest →
            w.Possible outcomes act ∧ step dispatcher w act ≠ none := by
  have hkeep : ∀ (w : LoopConnection δ) (act : InterestAct),
      w.Settled dispatcher registered outcomes → w.Possible outcomes act ∧ TakesAll act →
        (w.Possible outcomes act ∧ step dispatcher w act ≠ none) ∧
          ∀ w' o, step dispatcher w act = some (w', o) →
            w'.Settled dispatcher registered outcomes := by
    rintro w act h ⟨hpossible,htakes⟩
    obtain ⟨w',hstep,hsettled⟩ := h.step act hpossible htakes
    refine ⟨⟨hpossible,by simp [hstep]⟩,fun v o hv => ?_⟩
    rw [hstep] at hv
    obtain ⟨rfl,-⟩ := Prod.mk.inj (Option.some.inj hv)
    exact hsettled
  have hback : ∀ (w : LoopConnection δ) (act : InterestAct),
      w.Settled dispatcher registered outcomes →
        w.Possible outcomes act ∧ step dispatcher w act ≠ none →
        (∀ w' o, step dispatcher w act = some (w', o) →
          w'.Informed dispatcher registered outcomes) →
          w.Possible outcomes act ∧ TakesAll act :=
    fun w act h hlegal hnext => ⟨hlegal.1,h.takesAll hlegal.1 hlegal.2 hnext⟩
  exact admits_iff_claim (fun _ => Settled.informed) hkeep hback (settled_start hpending hadded) acts

def addedLoop : Option (ThreadLoop EpollData) :=
  ThreadLoop.post
    { pending := .empty
      state := ⟨mapInit,EpollData.opened ⟨fun _ => none,fun _ => none⟩ 5 (.connection 0)⟩ }
    .add (connectionChannel 5 0)

theorem addedLoop_registers : ∃ l addrs entries, addedLoop = some l ∧
    l.pending.Holds addrs entries ∧
    Registers epollDispatcher epollRegistered {fun _ => true} l (connectionChannel 5 0) := by
  refine ⟨_,_,_,rfl,holds_empty.buffer .add (connectionChannel 5 0),?_⟩
  intro realloc hrealloc
  rw [Set.mem_singleton_iff.mp hrealloc]
  exact ⟨_,rfl,by decide,rfl⟩

/-- A send of one byte that the socket takes. -/
theorem writeInterest_sent : ∃ l, addedLoop = some l ∧
    ∃ w os, run (step epollDispatcher) (start 0 5 0 (fun _ => 0) l)
        [.output (.sendData (fun _ => 65) 1 (.wrote 1) none)] = some (w, os) ∧
      w.Informed epollDispatcher epollRegistered {fun _ => true} := by
  obtain ⟨l,addrs,entries,hl,hpending,hadded⟩ := addedLoop_registers
  have hpossible : (start 0 5 0 (fun _ => 0) l).Possible {fun _ => true}
      (.output (.sendData (fun _ => 65) 1 (.wrote 1) none)) := ⟨by decide,by decide⟩
  obtain ⟨w,hstep,-⟩ := (settled_start hpending hadded).step _ hpossible rfl
  have hrun := run_cons [] hstep
  have hreached := (writeInterest_iff epollDispatcher 0 0 5 (fun _ => 0) hpending hadded
    [.output (.sendData (fun _ => 65) 1 (.wrote 1) none)]).mp ⟨⟨hpossible,rfl⟩,fun _ _ => trivial⟩
  exact ⟨l,hl,w,[()],hrun,(hreached _ [] w [()] rfl hrun).1⟩

/-- A send of two bytes of which the socket takes one: the update is asked of the connection,
and the loop comes to watch for reads only. -/
theorem writeInterest_lost : ∃ l, addedLoop = some l ∧
    ∃ w os, run (step epollDispatcher) (start 0 5 0 (fun _ => 0) l)
        [.output (.sendData (fun _ => 65) 2 (.wrote 1) none)] = some (w, os) ∧
      w.outgoing.updates.map UpdateCall.target = [.tcpConnection 0] ∧
      (w.loop.handlePending epollDispatcher fun _ => true).map
        (fun l => (l.state.data.interest 5, epollEvents w.channel)) =
          some (some epollIn, epollIn ||| epollOut) ∧
      ¬ w.Informed epollDispatcher epollRegistered {fun _ => true} := by
  refine ⟨_,rfl,_,_,rfl,rfl,rfl,?_⟩
  exact not_informed (List.mem_singleton_self _) rfl

end CppExamples.HttpTest
