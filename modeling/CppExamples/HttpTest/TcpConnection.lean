import CppExamples.HttpTest.Buffer
import CppExamples.HttpTest.Channel

/-! # The sending side of `struct tcp_connection`

What `write()` returns is an input.  A state carries, beside the connection, the
bytes its socket took so far and the update calls its channel posted.  A call that does
not come back from the last of these is given the state in which it stays.
`size_t` counters are 64-bit words: a comparison with 0 is unsigned, and a
pointer advanced by a word moves by that word read as a signed offset.
-/
namespace CppExamples.HttpTest
open Memory

inductive Errno where
  | wouldBlock | pipe | connReset | other
  deriving DecidableEq

/-- The outcome of one `write()`: a count, or -1 and `errno`. -/
inductive WriteResult where
  | wrote (n : ℕ)
  | failed (errno : Errno)
  deriving DecidableEq

namespace WriteResult

def value : WriteResult → ℤ
  | wrote n => n
  | failed _ => -1

def count : WriteResult → ℕ
  | wrote n => n
  | failed _ => 0

def isFatal : WriteResult → Bool
  | failed .pipe => true
  | failed .connReset => true
  | _ => false

end WriteResult

structure TcpConnection where
  addr : ℕ
  eventLoop : ℕ
  channel : Channel
  inputBuffer : Buffer
  outputBuffer : Buffer

/-- `tcp_connection_new` up to the completion callback; `block` is what `malloc`
left in the two buffers. -/
def tcpConnectionNew (addr : ℕ) (connectedFd : ℤ) (eventLoop : ℕ) (block : ℕ → Byte) :
    TcpConnection where
  addr := addr
  eventLoop := eventLoop
  channel := channelNew connectedFd eventRead (some .handleRead) (some .handleWrite)
    (.tcpConnection addr)
  inputBuffer := bufferNew block
  outputBuffer := bufferNew block

/-- A connection with the bytes its socket took and the updates it posted. -/
structure Outgoing where
  connection : TcpConnection
  written : List Byte
  updates : List UpdateCall

def Outgoing.new (connection : TcpConnection) : Outgoing := ⟨connection,[],[]⟩

def Outgoing.output (s : Outgoing) : Buffer := s.connection.outputBuffer
def Outgoing.writeEnabled (s : Outgoing) : Bool := channelWriteEventIsEnabled s.connection.channel

/-- The thread is in an update call that does not return. -/
def Outgoing.stuck (s : Outgoing) : Bool := s.updates.any fun call => !call.returns

def Outgoing.setInput (s : Outgoing) (buffer : Buffer) : Outgoing :=
  { s with connection := { s.connection with inputBuffer := buffer } }

def Outgoing.setOutput (s : Outgoing) (buffer : Buffer) : Outgoing :=
  { s with connection := { s.connection with outputBuffer := buffer } }

def Outgoing.setChannel (s : Outgoing) (r : Channel × UpdateCall) : Outgoing :=
  { s with connection := { s.connection with channel := r.1 }, updates := s.updates ++ [r.2] }

def Outgoing.take (s : Outgoing) (bytes : List Byte) : Outgoing :=
  { s with written := s.written ++ bytes }

/-- The `n` bytes from `offset` on, around the pointer `data`. -/
def bytesAt (data : ℤ → Byte) (offset : ℤ) (n : ℕ) : List Byte :=
  (List.range n).map fun i : ℕ => data (offset + i)

/-- The branch of `tcp_connection_send_data` behind the direct `write()`: the new
`nwrited`, `nleft` and `fault`. -/
def directWrite (size : ℕ) (result : WriteResult) : BitVec 64 × BitVec 64 × Bool :=
  let nwrited := BitVec.ofInt 64 result.value
  if 0#64 ≤ nwrited then (nwrited, BitVec.ofNat 64 size - nwrited, false)
  else (0#64, BitVec.ofNat 64 size, result.isFatal)

/-- Nothing is buffered and the write event is off, so the socket is tried first. -/
def Outgoing.direct (s : Outgoing) : Bool := !s.writeEnabled && s.output.readableSize == 0

/-- The end of `tcp_connection_send_data`: what is left goes to the output buffer.
`nleft` becomes the `int size` of `buffer_append`. -/
def Outgoing.queueRest (s : Outgoing) (data : ℤ → Byte) (nwrited nleft : BitVec 64) (fault : Bool)
    (realloc : Option (ℕ → Byte)) : Option Outgoing :=
  if !fault && decide (0#64 < nleft) then
    if nleft.toNat ≤ intMax then
      (bufferAppend s.output (some (bytesAt data nwrited.toInt nleft.toNat)) realloc).map fun output =>
        let s := s.setOutput output
        if s.writeEnabled then s else s.setChannel (channelWriteEventEnable s.connection.channel)
    else none
  else some s

def tcpConnectionSendData (s : Outgoing) (data : ℤ → Byte) (size : ℕ) (result : WriteResult)
    (realloc : Option (ℕ → Byte)) : Option (Outgoing × BitVec 64) :=
  if s.direct then
    let (nwrited, nleft, fault) := directWrite size result
    let s := s.take (bytesAt data 0 result.count)
    (s.queueRest data nwrited nleft fault realloc).map fun s => (s, nwrited)
  else
    (s.queueRest data 0#64 (BitVec.ofNat 64 size) false realloc).map fun s => (s, 0#64)

/-- The memory around `buffer->data + buffer->readIndex`; `outside` stands before
the block. -/
def Buffer.around (buffer : Buffer) (outside : ℤ → Byte) : ℤ → Byte := fun i =>
  if 0 ≤ buffer.readIndex + i then buffer.data (buffer.readIndex + i).toNat
  else outside (buffer.readIndex + i)

def tcpConnectionSendBuffer (s : Outgoing) (buffer : Buffer) (outside : ℤ → Byte)
    (result : WriteResult) (realloc : Option (ℕ → Byte)) : Option (Outgoing × Buffer × BitVec 64) := do
  let size := buffer.readableSize
  let (s, sent) ← tcpConnectionSendData s (buffer.around outside) size result realloc
  return (s, { buffer with readIndex := buffer.readIndex + size }, sent)

/-- `handle_write`; the completion callback only logs. -/
def handleWrite (s : Outgoing) (result : WriteResult) : Outgoing :=
  let nwrited := result.value
  if 0 < nwrited then
    let output := s.output
    let s := s.take (load output.data output.readIndex result.count)
    let s := s.setOutput { output with readIndex := output.readIndex + result.count }
    if s.output.readableSize = 0 then s.setChannel (channelWriteEventDisable s.connection.channel)
    else s
  else s

end CppExamples.HttpTest
