import Mathlib

/-! # `struct channel`

Pointers to callbacks and to what they are called with are named by what they
point to.  Enabling or disabling the write event casts `data` to an event loop and
posts an update there; the posted call is part of the result.
-/
namespace CppExamples.HttpTest

/-- The callbacks that the framework registers for readable descriptors. -/
inductive ReadCallback where
  | handleRead | handleWakeup | handleConnectionEstablished
  deriving DecidableEq

inductive WriteCallback where
  | handleWrite
  deriving DecidableEq

/-- What the `void *data` of a channel points to. -/
inductive CallbackData where
  | eventLoop (addr : ℕ)
  | tcpServer (addr : ℕ)
  | tcpConnection (addr : ℕ)
  deriving DecidableEq

def eventRead : BitVec 32 := 0x02#32
def eventWrite : BitVec 32 := 0x04#32

structure Channel where
  fd : ℤ
  events : BitVec 32
  eventReadCallback : Option ReadCallback
  eventWriteCallback : Option WriteCallback
  data : CallbackData
  deriving DecidableEq

def channelNew (fd : ℤ) (events : BitVec 32) (eventReadCallback : Option ReadCallback)
    (eventWriteCallback : Option WriteCallback) (data : CallbackData) : Channel :=
  ⟨fd,events,eventReadCallback,eventWriteCallback,data⟩

/-- `event_loop_update_channel_event(target, fd, channel)`. -/
structure UpdateCall where
  target : CallbackData
  fd : ℤ
  channel : Channel
  deriving DecidableEq

/-- Whether the call comes back.  It locks the mutex in `target` and asserts that the loop
there is not handling its pending list; of a connection these words are a callback and the
output buffer, and they let no call through. -/
def UpdateCall.returns (call : UpdateCall) : Bool :=
  match call.target with
  | .eventLoop _ => true
  | .tcpServer _ => false
  | .tcpConnection _ => false

def channelWriteEventIsEnabled (channel : Channel) : Bool := channel.events &&& eventWrite ≠ 0

def channelWriteEventEnable (channel : Channel) : Channel × UpdateCall :=
  let channel := { channel with events := channel.events ||| eventWrite }
  (channel, ⟨channel.data,channel.fd,channel⟩)

def channelWriteEventDisable (channel : Channel) : Channel × UpdateCall :=
  let channel := { channel with events := channel.events &&& ~~~eventWrite }
  (channel, ⟨channel.data,channel.fd,channel⟩)

@[simp] theorem isEnabled_enable (channel : Channel) :
    channelWriteEventIsEnabled (channelWriteEventEnable channel).1 = true := by
  have hbit : ((channel.events ||| eventWrite) &&& eventWrite).getLsbD 2 = true := by
    simp [eventWrite]
  apply decide_eq_true
  intro h
  rw [show (channel.events ||| eventWrite) &&& eventWrite = 0 from h] at hbit
  cases hbit

@[simp] theorem isEnabled_disable (channel : Channel) :
    channelWriteEventIsEnabled (channelWriteEventDisable channel).1 = false := by
  have h : channel.events &&& ~~~eventWrite &&& eventWrite = 0 := by
    rw [BitVec.and_assoc, BitVec.not_and_self]
    exact BitVec.and_zero
  simp [channelWriteEventIsEnabled, channelWriteEventDisable, h]

end CppExamples.HttpTest
