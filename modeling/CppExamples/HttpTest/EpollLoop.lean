import CppExamples.HttpTest.ChannelMap

/-! # An event loop with the epoll dispatcher

The kernel keeps which descriptors are open, and for what, and which of them the
epoll instance watches; a closed descriptor is watched no more.  One step of the
loop accepts a connection for it, handles one reported event or handles the
pending list.  What the kernel reports and returns is part of the step.
-/
namespace CppExamples.HttpTest
open PendingList

/-- What an open descriptor refers to; a connection has the address of its `tcp_connection`. -/
inductive File where
  | wakeup
  | listening
  | connection (addr : ℕ)
deriving DecidableEq

structure EpollData where
  openFiles : ℕ → Option File
  interest : ℕ → Option (BitVec 32)

def epollIn : BitVec 32 := 0x001#32
def epollOut : BitVec 32 := 0x004#32

/-- The event mask that `epoll_add`, `epoll_del` and `epoll_update` compute. -/
def epollEvents (channel1 : Channel) : BitVec 32 :=
  (if channel1.events &&& eventRead ≠ 0 then epollIn else 0) |||
    (if channel1.events &&& eventWrite ≠ 0 then epollOut else 0)

/-- `EPOLL_CTL_ADD` fails for a descriptor that is closed or already watched. -/
def epollAdd (data : EpollData) (channel1 : Channel) : Option (EpollData × ℤ) :=
  let fd := channel1.fd.toNat
  if 0 ≤ channel1.fd ∧ data.openFiles fd ≠ none ∧ data.interest fd = none then
    some ({ data with interest := Function.update data.interest fd (epollEvents channel1) }, 0)
  else none

/-- `EPOLL_CTL_DEL` fails for a descriptor that is not watched. -/
def epollDel (data : EpollData) (channel1 : Channel) : Option (EpollData × ℤ) :=
  let fd := channel1.fd.toNat
  if 0 ≤ channel1.fd ∧ data.interest fd ≠ none then
    some ({ data with interest := Function.update data.interest fd none }, 0)
  else none

def epollUpdate (data : EpollData) (channel1 : Channel) : Option (EpollData × ℤ) :=
  let fd := channel1.fd.toNat
  if 0 ≤ channel1.fd ∧ data.interest fd ≠ none then
    some ({ data with interest := Function.update data.interest fd (epollEvents channel1) }, 0)
  else none

def epollDispatcher : Dispatcher EpollData := ⟨epollAdd,epollDel,epollUpdate⟩

def EpollData.close (data : EpollData) (fd : ℕ) : EpollData where
  openFiles := Function.update data.openFiles fd none
  interest := Function.update data.interest fd none

def EpollData.opened (data : EpollData) (fd : ℕ) (file : File) : EpollData :=
  { data with openFiles := Function.update data.openFiles fd (some file) }

@[simp] theorem EpollData.opened_openFiles (data : EpollData) (fd x : ℕ) (file : File) :
    (data.opened fd file).openFiles x = if x = fd then some file else data.openFiles x :=
  Function.update_apply ..

@[simp] theorem EpollData.opened_interest (data : EpollData) (fd : ℕ) (file : File) :
    (data.opened fd file).interest = data.interest := rfl

/-- An event loop; `state` is none once the process is gone.  `updates` lists the
calls by which channels asked some event loop to update them. -/
structure EpollLoop where
  pending : PendingList Channel
  state : Option (LoopState EpollData)
  accepted : ℕ
  updates : List UpdateCall

def connectionChannel (fd : ℤ) (addr : ℕ) : Channel :=
  channelNew fd eventRead (some .handleRead) (some .handleWrite) (.tcpConnection addr)

/-- One entry of the array that `epoll_wait` fills, with what happens in its
callbacks: `received` says that `buffer_socket_read` returns more than 0, the
other two what becomes of the write event. -/
structure EpollEvent where
  fd : ℕ
  err : Bool
  hup : Bool
  readable : Bool
  writable : Bool
  received : Bool
  onRead : Option Bool
  onWrite : Option Bool

inductive LoopStep where
  | accept (connectedFd : ℤ)
  | event (e : EpollEvent) (realloc : ℤ → Bool)
  | handlePending (realloc : ℤ → Bool)

namespace EpollLoop

def handlePending (w : EpollLoop) (realloc : ℤ → Bool) : EpollLoop :=
  match w.pending.eventLoopHandlePendingChannel (handleChannelOp epollDispatcher realloc) w.state with
  | some (pending, state) => { w with pending := pending, state := state }
  | none => { w with state := none }

def doChannelEvent (w : EpollLoop) (type : ChannelOp) (channel : Channel) (realloc : ℤ → Bool) :
    EpollLoop :=
  match w.pending.eventLoopDoChannelEvent type channel with
  | some pending => { w with pending := pending }.handlePending realloc
  | none => { w with state := none }

def toggle (w : EpollLoop) (channel : Channel) : Option Bool → EpollLoop
  | none => w
  | some enable =>
    let r := if enable then channelWriteEventEnable channel else channelWriteEventDisable channel
    { w with
      state := w.state.map fun s => s.setEntry channel.fd.toNat (some r.1)
      updates := w.updates ++ [r.2] }

/-- `handle_connection_closed`; the callback of the application closes nothing. -/
def handleConnectionClosed (w : EpollLoop) (channel : Channel) (realloc : ℤ → Bool) : EpollLoop :=
  w.doChannelEvent .remove channel realloc

/-- `handle_read`; a wake-up byte or a new connection changes no channel of this loop. -/
def readCallback (e : EpollEvent) (realloc : ℤ → Bool) (channel : Channel) (w : EpollLoop) : EpollLoop :=
  if channel.eventReadCallback = some .handleRead then
    if e.received then w.toggle channel e.onRead else w.handleConnectionClosed channel realloc
  else w

def writeCallback (e : EpollEvent) (channel : Channel) (w : EpollLoop) : EpollLoop :=
  if channel.eventWriteCallback = some .handleWrite then w.toggle channel e.onWrite else w

/-- `channel_event_activate` for one kind of event. -/
def channelEventActivate (w : EpollLoop) (fd : ℕ) (callback : Channel → EpollLoop → EpollLoop) :
    EpollLoop :=
  match w.state with
  | none => w
  | some s =>
    if s.map.nentries ≤ fd then w
    else
      match s.map.entries fd with
      | none => { w with state := none }
      | some channel => if channel.fd = fd then callback channel w else { w with state := none }

def dispatchEvent (w : EpollLoop) (e : EpollEvent) (realloc : ℤ → Bool) : EpollLoop :=
  if e.err || e.hup then
    { w with state := w.state.map fun s => { s with data := s.data.close e.fd } }
  else
    let w := if e.readable then w.channelEventActivate e.fd (readCallback e realloc) else w
    if e.writable then w.channelEventActivate e.fd (writeCallback e) else w

/-- `handle_connection_established` up to the locked section that posts the new
channel; `accept` returned -1 or a free descriptor. -/
def accept (w : EpollLoop) (connectedFd : ℤ) : EpollLoop :=
  match w.pending.eventLoopDoChannelEvent .add (connectionChannel connectedFd w.accepted) with
  | none => { w with state := none }
  | some pending =>
    { w with
      pending := pending
      accepted := w.accepted + 1
      state := w.state.map fun s =>
        if connectedFd < 0 then s
        else { s with data := s.data.opened connectedFd.toNat (.connection w.accepted) } }

/-- None when the kernel cannot report or return this. -/
def step (w : EpollLoop) (label : LoopStep) : Option (EpollLoop × Unit) :=
  w.state.bind fun s =>
    match label with
    | .accept connectedFd =>
      if connectedFd = -1 ∨ (0 ≤ connectedFd ∧ s.data.openFiles connectedFd.toNat = none) then
        some (w.accept connectedFd, ())
      else none
    | .event e realloc =>
      if s.data.interest e.fd ≠ none then some (w.dispatchEvent e realloc, ()) else none
    | .handlePending realloc => some (w.handlePending realloc, ())

/-- The loop as `event_loop_init_with_name` leaves it, its wake-up channel on `wakeFd`. -/
def initial (wakeFd : ℕ) : EpollLoop where
  pending := .empty
  state := (eventLoopHandlePendingAdd epollDispatcher
    { map := mapInit
      data := EpollData.opened ⟨fun _ => none,fun _ => none⟩ wakeFd .wakeup }
    wakeFd (channelNew wakeFd eventRead (some .handleWakeup) none (.eventLoop 0)) true).map Prod.fst
  accepted := 0
  updates := []

end EpollLoop
end CppExamples.HttpTest
