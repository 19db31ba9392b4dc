import CppExamples.HttpTest.PollLoop
import CppExamples.HttpTest.EpollLoop

/-! # One round of an event loop

`poll_dispatch` and `epoll_dispatch` hand what the kernel reports to
`channel_event_activate`, whose callbacks run in the loop's own thread: a connection that
ends is taken out of the map at once, and one that is accepted may be added to it.  A
round stops when a null entry of the map is followed, or a callback does not come back.
-/
namespace CppExamples.HttpTest
open PendingList Slots
variable {δ : Type*}

/-- What the kernel finds on a descriptor. -/
structure Conditions where
  readable : Bool
  writable : Bool
  err : Bool
  hup : Bool

/-- `EVENT_READ` and `EVENT_WRITE`, as an event is activated for them. -/
inductive EventKind where
  | read | write
deriving DecidableEq

/-- What `accept` gives for a connection, and where its `tcp_connection` is. -/
structure Connection where
  connectedFd : ℤ
  addr : ℕ

/-- What the callbacks of one descriptor meet: whether `buffer_socket_read` returns more
than 0, what becomes of the write event, the connection that is accepted and whether it
is for this loop, and the connections other threads have posted for it by then. -/
structure Outcome where
  received : Bool
  onRead : Option Bool
  onWrite : Option Bool
  accepted : Connection
  here : Bool
  posted : List Connection
  realloc : ℤ → Bool

/-- What stops a round: `hung` is a callback that waits for the mutex of an event loop where
there is none. -/
inductive Fault where
  | nullChannel
  | fatal
  | hung
deriving DecidableEq

/-- A dispatcher on what it and the kernel keep. -/
structure Backend (δ : Type*) where
  dispatcher : Dispatcher δ
  openFiles : δ → ℕ → Option File
  opened : δ → ℕ → File → δ

/-- The poll set beside the open descriptors; the kernel has nothing else for `poll`. -/
structure PollKernel where
  data : PollData
  openFiles : ℕ → Option File

def PollKernel.apply (f : PollData → Channel → Option (PollData × ℤ)) (kernel : PollKernel)
    (channel1 : Channel) : Option (PollKernel × ℤ) :=
  (f kernel.data channel1).map fun q => ({ kernel with data := q.1 }, q.2)

def pollBackend : Backend PollKernel where
  dispatcher := ⟨PollKernel.apply pollAdd,PollKernel.apply pollDel,PollKernel.apply pollUpdate⟩
  openFiles := PollKernel.openFiles
  opened kernel fd file :=
    { kernel with openFiles := Function.update kernel.openFiles fd (some file) }

def epollBackend : Backend EpollData where
  dispatcher := epollDispatcher
  openFiles := EpollData.openFiles
  opened := EpollData.opened

/-- The loop during a round, with the updates asked for and the callbacks invoked. -/
structure Round (δ : Type*) where
  state : LoopState δ
  updates : List UpdateCall
  invoked : List (ℕ × EventKind)

namespace Round

/-- `event_loop_do_channel_event` in the loop thread, for an element that is not behind others. -/
def handle (backend : Backend δ) (realloc : ℤ → Bool) (r : Round δ) (type : ChannelOp)
    (channel : Channel) : Except Fault (Round δ) :=
  match handleChannelOp backend.dispatcher realloc (some r.state) type channel with
  | some state => .ok { r with state := state }
  | none => .error .fatal

/-- `accept` returns a descriptor that is free, or -1. -/
def accept (backend : Backend δ) (r : Round δ) (connection : Connection) : Round δ × ℤ :=
  let fd := connection.connectedFd.toNat
  if 0 ≤ connection.connectedFd ∧ backend.openFiles r.state.data fd = none then
    ({ r with state :=
        { r.state with data := backend.opened r.state.data fd (.connection connection.addr) } },
      connection.connectedFd)
  else (r, -1)

def establish (backend : Backend δ) (realloc : ℤ → Bool) (r : Round δ) (connection : Connection) :
    Except Fault (Round δ) :=
  let a := r.accept backend connection
  a.1.handle backend realloc .add (connectionChannel a.2 connection.addr)

def toggle (r : Round δ) (channel : Channel) : Option Bool → Except Fault (Round δ)
  | none => .ok r
  | some enable =>
    let c := if enable then channelWriteEventEnable channel else channelWriteEventDisable channel
    if c.2.returns then
      .ok { r with
        state := r.state.setEntry channel.fd.toNat (some c.1)
        updates := r.updates ++ [c.2] }
    else .error .hung

/-- `handle_read`, `handleWakeup` and `handle_connection_established`. -/
def readCallback (backend : Backend δ) (o : Outcome) (channel : Channel) (r : Round δ) :
    ReadCallback → Except Fault (Round δ)
  | .handleRead =>
    if o.received then r.toggle channel o.onRead
    else do
      -- the elements in front of the removal are handled with it
      let r ← o.posted.foldlM (establish backend o.realloc) r
      r.handle backend o.realloc .remove channel
  | .handleWakeup => .ok r
  | .handleConnectionEstablished =>
    if o.here then (o.posted ++ [o.accepted]).foldlM (establish backend o.realloc) r
    else .ok (r.accept backend o.accepted).1

def log (r : Round δ) (fd : ℕ) (kind : EventKind) : Round δ :=
  { r with invoked := r.invoked ++ [(fd, kind)] }

def channelEventActivate (backend : Backend δ) (o : Outcome) (r : Round δ) (fd : ℕ)
    (kind : EventKind) : Except Fault (Round δ) :=
  if r.state.map.nentries ≤ fd then .ok r
  else
    match r.state.map.entries fd with
    | none => .error .nullChannel
    | some channel =>
      if channel.fd ≠ fd then .error .fatal
      else
        match kind with
        | .read =>
          match channel.eventReadCallback with
          | none => .ok r
          | some callback => readCallback backend o channel (r.log fd kind) callback
        | .write =>
          match channel.eventWriteCallback with
          | none => .ok r
          | some .handleWrite => (r.log fd kind).toggle channel o.onWrite

def activateReported (backend : Backend δ) (o : Outcome) (readable writable : Bool) (r : Round δ)
    (fd : ℕ) : Except Fault (Round δ) := do
  let r ← if readable then r.channelEventActivate backend o fd .read else .ok r
  if writable then r.channelEventActivate backend o fd .write else .ok r

end Round

section Poll

def pollErr : BitVec 16 := 0x008#16
def pollHup : BitVec 16 := 0x010#16

def Conditions.pollBits (c : Conditions) : BitVec 16 :=
  (if c.readable then pollRdNorm else 0) ||| (if c.writable then pollWrNorm else 0) |||
    (if c.err then pollErr else 0) ||| (if c.hup then pollHup else 0)

def pollRevents (reports : ℕ → Conditions) (fd : ℤ) : BitVec 16 :=
  if fd < 0 then 0 else (reports fd.toNat).pollBits

/-- `poll`; it returns how many slots have something to report. -/
def pollWait (reports : ℕ → Conditions) (data : PollData) : PollData × ℕ :=
  let eventSet := data.eventSet.map fun slot => { slot with revents := pollRevents reports slot.fd }
  (⟨eventSet⟩, eventSet.countP fun slot => slot.revents ≠ 0)

/-- The loop of `poll_dispatch` with `k` turns left; its last turn reads behind the array. -/
def pollScan (outcomes : ℕ → Outcome) : ℕ → ℕ → ℕ → Round PollKernel →
    Except Fault (Round PollKernel)
  | 0, _, _, r => .ok r
  | k + 1, i, readyNumber, r =>
    match r.state.data.data.eventSet[i]? with
    | none => .error .fatal
    | some pollfd =>
      if pollfd.fd < 0 then pollScan outcomes k (i + 1) readyNumber r
      else if 0 < pollfd.revents.toInt then do
        let r ← r.activateReported pollBackend (outcomes pollfd.fd.toNat)
          (pollfd.revents &&& pollRdNorm ≠ 0) (pollfd.revents &&& pollWrNorm ≠ 0) pollfd.fd.toNat
        if readyNumber ≤ 1 then .ok r else pollScan outcomes k (i + 1) (readyNumber - 1) r
      else pollScan outcomes k (i + 1) readyNumber r

def pollDispatch (reports : ℕ → Conditions) (outcomes : ℕ → Outcome) (s : LoopState PollKernel) :
    Except Fault (Round PollKernel) :=
  let p := pollWait reports s.data.data
  let r : Round PollKernel := ⟨{ s with data := { s.data with data := p.1 } },[],[]⟩
  if p.2 = 0 then .ok r else pollScan outcomes (initPollSize + 1) 0 p.2 r

end Poll

section Epoll

def maxEvents : ℕ := 128

def epollEvent (reports : ℕ → Conditions) (outcomes : ℕ → Outcome) (r : Round EpollData) (fd : ℕ) :
    Except Fault (Round EpollData) :=
  let c := reports fd
  if c.err || c.hup then .ok { r with state := { r.state with data := r.state.data.close fd } }
  else r.activateReported epollBackend (outcomes fd) c.readable c.writable fd

/-- `epoll_dispatch`, with the descriptors that have something to report in the order of
the kernel's ready list; `epoll_wait` returns the first of them. -/
def epollDispatch (reports : ℕ → Conditions) (outcomes : ℕ → Outcome) (order : List ℕ)
    (s : LoopState EpollData) : Except Fault (Round EpollData) :=
  (order.take maxEvents).foldlM (epollEvent reports outcomes) ⟨s,[],[]⟩

end Epoll

end CppExamples.HttpTest
