import CppExamples.HttpTest.HttpServer
import CppExamples.HttpTest.HttpParsing
import CppExamples.HttpTest.OutputStream

/-! # A connection of the server

As long as its thread goes on a connection has nothing buffered: what a send has to
queue switches the write event on, and that call does not return.  So a callback that
returns has had its response taken whole, and a shutdown finds the output empty.
-/
namespace CppExamples.HttpTest
open Memory Machine Search

/-- A connection that can be sent on: nothing is buffered, the write event is off, and its
thread is not in an update call. -/
structure Outgoing.Idle (s : Outgoing) : Prop where
  valid : s.output.Valid
  direct : s.direct = true
  goesOn : s.stuck = false
  ownData : ∃ addr, s.connection.channel.data = .tcpConnection addr

theorem Outgoing.Idle.readable_nil {s : Outgoing} (h : s.Idle) : s.output.readable = [] := by
  have hdirect := h.direct
  rw [Outgoing.direct, Bool.and_eq_true, beq_iff_eq] at hdirect
  exact readable_eq_nil_iff.mpr hdirect.2

theorem Outgoing.Idle.take {s : Outgoing} (h : s.Idle) (bytes : List Byte) : (s.take bytes).Idle :=
  ⟨h.valid,h.direct,h.goesOn,h.ownData⟩

theorem Outgoing.Idle.setInput {s : Outgoing} (h : s.Idle) (input : Buffer) : (s.setInput input).Idle :=
  ⟨h.valid,h.direct,h.goesOn,h.ownData⟩

theorem Outgoing.Idle.handleWrite {s : Outgoing} (h : s.Idle) {result : WriteResult}
    (hn : result.count ≤ s.output.readableSize) : handleWrite s result = s := by
  have hzero : s.output.readableSize = 0 := readable_eq_nil_iff.mp h.readable_nil
  cases result with
  | wrote n =>
    have hn0 : n = 0 := Nat.le_zero.mp (hzero ▸ hn)
    rw [hn0]
    rfl
  | failed errno => rfl

/-- A direct `write()` leaves nothing to be queued just when it takes the data whole. -/
theorem directWrite_rest {size : ℕ} {result : WriteResult} (hs : size ≤ intMax)
    (hn : result.count ≤ size) :
    (directWrite size result).2.2 = false ∧
      (0#64 < (directWrite size result).2.1 ↔ result ≠ .wrote size) := by
  cases result with
  | wrote n =>
    have hle : n ≤ size := hn
    rw [directWrite_wrote hle hs]
    unfold intMax at hs
    simp only [BitVec.lt_def, BitVec.toNat_ofNat, WriteResult.wrote.injEq, ne_eq, true_and]
    omega
  | failed errno =>
    have he : directWrite size (.failed errno) =
        (BitVec.ofInt 64 (-1), BitVec.ofNat 64 size - BitVec.ofInt 64 (-1), false) := by
      unfold directWrite
      exact if_pos (Nat.zero_le _)
    have hone : (BitVec.ofInt 64 (-1)).toNat = 2 ^ 64 - 1 := by decide
    rw [he]
    unfold intMax at hs
    simp only [BitVec.lt_def, BitVec.toNat_sub, BitVec.toNat_ofNat, hone, ne_eq, reduceCtorEq,
      not_false_iff, iff_true, true_and]
    omega

theorem Outgoing.Idle.queueRest_stuck {s s' : Outgoing} (h : s.Idle) {data : ℤ → Byte}
    {nwrited nleft : BitVec 64} {realloc : Option (ℕ → Byte)} (hpos : 0#64 < nleft)
    (hqueue : s.queueRest data nwrited nleft false realloc = some s') : s'.stuck = true := by
  have hoff : s.writeEnabled = false := by
    have hdirect := h.direct
    rw [Outgoing.direct, Bool.and_eq_true, Bool.not_eq_true'] at hdirect
    exact hdirect.1
  obtain ⟨addr,haddr⟩ := h.ownData
  simp only [Outgoing.queueRest, Bool.not_false, Bool.true_and, hpos, decide_true, if_true] at hqueue
  split at hqueue
  · obtain ⟨b,-,rfl⟩ := Option.map_eq_some_iff.mp hqueue
    have hoff' : (s.setOutput b).writeEnabled = false := hoff
    rw [hoff']
    simp [Outgoing.stuck, Outgoing.setChannel, Outgoing.setOutput, channelWriteEventEnable, haddr,
      UpdateCall.returns]
  · cases hqueue

section Sends
variable {s : Outgoing} {data : ℤ → Byte} {size : ℕ} {result : WriteResult}
  {realloc : Option (ℕ → Byte)}

theorem Outgoing.Idle.sendData_whole (h : s.Idle) (data : ℤ → Byte) (hs : size ≤ intMax)
    (realloc : Option (ℕ → Byte)) :
    ∃ sent, tcpConnectionSendData s data size (.wrote size) realloc =
      some (s.take (bytesAt data 0 size), sent) := by
  refine ⟨BitVec.ofNat 64 size,?_⟩
  simp [tcpConnectionSendData, h.direct, directWrite_wrote le_rfl hs, Outgoing.queueRest,
    WriteResult.count]

theorem Outgoing.Idle.sendData_part (h : s.Idle) (hs : size ≤ intMax) (hn : result.count ≤ size)
    (hpart : result ≠ .wrote size) {s' : Outgoing} {sent : BitVec 64}
    (hsend : tcpConnectionSendData s data size result realloc = some (s', sent)) :
    s'.stuck = true := by
  obtain ⟨hfault,hrest⟩ := directWrite_rest hs hn
  simp only [tcpConnectionSendData, h.direct, if_true, hfault, Option.map_eq_some_iff,
    Prod.mk.injEq] at hsend
  obtain ⟨s₁,hqueue,rfl,-⟩ := hsend
  exact (h.take _).queueRest_stuck (hrest.mpr hpart) hqueue

end Sends

theorem holding_readable (bytes : List Byte) : (holding bytes).readable = bytes := by
  apply List.ext_getElem
  · simp [holding, Buffer.readableSize]
  · intro i _ hi
    simp [Buffer.readable, holding, load, hi]

theorem holding_readableSize (bytes : List Byte) : (holding bytes).readableSize = bytes.length := by
  rw [← Buffer.readable_length, holding_readable]

/-- The direct `write()` of the response takes it whole, and its length is an `int`. -/
def TakesWhole (httpServer : HttpServer) (httpRequest : HttpRequest) (outcome : SendOutcome) : Prop :=
  ∀ bytes, (httpServer.response httpRequest).encoded = some bytes →
    bytes.length ≤ intMax ∧ outcome.result = .wrote bytes.length

namespace Answering
variable {a a' : Answering} {bytes : List Byte} {outcome : SendOutcome}

theorem sendBuffer_whole (h : a.outgoing.Idle) (hs : bytes.length ≤ intMax)
    (hwhole : outcome.result = .wrote bytes.length) :
    a.sendBuffer bytes outcome =
      some { a with outgoing := a.outgoing.take bytes, sent := a.sent ++ [bytes] } := by
  obtain ⟨sent,hsend⟩ := h.sendData_whole ((holding bytes).around outcome.outside) hs outcome.realloc
  have hall := bytesAt_around (holding bytes) outcome.outside
  rw [holding_readable, holding_readableSize] at hall
  rw [hall] at hsend
  simp [sendBuffer, hwhole, WriteResult.count, hs, tcpConnectionSendBuffer, holding_readableSize, hsend]

/-- A send comes back just when its response is taken whole. -/
theorem sendBuffer_cases (h : a.outgoing.Idle) (hsend : a.sendBuffer bytes outcome = some a') :
    (a'.outgoing.stuck = true ∧ a'.shutdowns = a.shutdowns ∧ outcome.result ≠ .wrote bytes.length) ∨
      (bytes.length ≤ intMax ∧ outcome.result = .wrote bytes.length ∧
        a' = { a with outgoing := a.outgoing.take bytes, sent := a.sent ++ [bytes] }) := by
  obtain ⟨⟨hn,hs⟩,hmap⟩ := Option.ite_none_right_eq_some.mp hsend
  by_cases hwhole : outcome.result = .wrote bytes.length
  · rw [sendBuffer_whole h hs hwhole] at hsend
    exact .inr ⟨hs,hwhole,(Option.some.inj hsend).symm⟩
  · obtain ⟨⟨s,rest,sent⟩,hbuffer,rfl⟩ := Option.map_eq_some_iff.mp hmap
    simp only [tcpConnectionSendBuffer, holding_readableSize, Option.bind_eq_bind,
      Option.bind_eq_some_iff, Option.pure_def, Option.some.injEq, Prod.mk.injEq] at hbuffer
    obtain ⟨⟨s₁,sent₁⟩,hdata,rfl,-,-⟩ := hbuffer
    exact .inl ⟨h.sendData_part hs hn hwhole hdata,rfl,hwhole⟩

/-- The connection behind an answer that was taken whole. -/
def answered (outgoing : Outgoing) (bytes : List Byte) (close : Bool) : Answering :=
  let a : Answering := ⟨outgoing.take bytes,[bytes],[]⟩
  if close then a.shutdown else a

end Answering
open Answering

section Answers
variable {difference : CharDifference} {leftover : Leftover} {httpServer : HttpServer} {turns : ℕ}
  {refusal answer : SendOutcome} {outgoing : Outgoing} {input input' : Buffer}
  {httpRequest r r₁ : HttpRequest} {a : Answering} {bytes : List Byte} {ok : ℤ}

theorem httpOnMessage_parsed (h : outgoing.Idle)
    (hparse : parseHttpRequest leftover turns input httpRequest = some (.returned ok input' r₁)) :
    httpOnMessage difference leftover httpServer turns refusal answer outgoing input httpRequest =
      httpAnswer difference httpServer r₁ (start (outgoing.setInput input')) answer := by
  obtain ⟨rfl,hdone⟩ := parse_returns_done hparse
  have hgoesOn : (start (outgoing.setInput input')).outgoing.stuck = false := h.goesOn
  simp [httpOnMessage, hparse, hdone, hgoesOn]

theorem httpAnswer_whole (h : outgoing.Idle) (henc : (httpServer.response r₁).encoded = some bytes)
    (hs : bytes.length ≤ intMax) (hwhole : answer.result = .wrote bytes.length) :
    httpAnswer difference httpServer r₁ (start outgoing) answer =
      some ((httpRequestCloseConnection difference r₁).elim .crashed fun close =>
        .returned (answered outgoing bytes close) (httpRequestReset r₁)) := by
  have hgoesOn : (outgoing.take bytes).stuck = false := h.goesOn
  have hsend : (start outgoing).sendBuffer bytes answer = some ⟨outgoing.take bytes,[bytes],[]⟩ :=
    sendBuffer_whole (a := start outgoing) h hs hwhole
  cases hclose : httpRequestCloseConnection difference r₁ <;>
    simp [httpAnswer, henc, hsend, hgoesOn, hclose, answered]

theorem httpAnswer_cases (h : outgoing.Idle) {result : MessageResult}
    (hanswer : httpAnswer difference httpServer r₁ (start outgoing) answer = some result) :
    ((httpServer.response r₁).encoded = none ∧ result = .crashed) ∨
      ∃ bytes, (httpServer.response r₁).encoded = some bytes ∧
        ((∃ a, answer.result ≠ .wrote bytes.length ∧ a.outgoing.stuck = true ∧ a.shutdowns = [] ∧
            result = .hung a r₁) ∨
          (bytes.length ≤ intMax ∧ answer.result = .wrote bytes.length ∧
            result = (httpRequestCloseConnection difference r₁).elim .crashed fun close =>
              .returned (answered outgoing bytes close) (httpRequestReset r₁))) := by
  cases henc : (httpServer.response r₁).encoded with
  | none =>
    simp only [httpAnswer, henc, Option.some.injEq] at hanswer
    exact .inl ⟨rfl,hanswer.symm⟩
  | some bytes =>
    refine .inr ⟨bytes,rfl,?_⟩
    have hmap := hanswer
    simp only [httpAnswer, henc] at hmap
    obtain ⟨a,hsend,hresult⟩ := Option.map_eq_some_iff.mp hmap
    have hidle : (start outgoing).outgoing.Idle := h
    rcases sendBuffer_cases hidle hsend with ⟨hstuck,hnone,hpart⟩ | ⟨hs,hwhole,-⟩
    · rw [if_pos hstuck] at hresult
      exact .inl ⟨a,hpart,hstuck,hnone,hresult.symm⟩
    · rw [httpAnswer_whole h henc hs hwhole] at hanswer
      exact .inr ⟨hs,hwhole,(Option.some.inj hanswer).symm⟩

/-- A callback that returns has parsed a whole request, has had its answer taken whole, and
has reset the request. -/
theorem httpOnMessage_returned (h : outgoing.Idle)
    (hreturned : httpOnMessage difference leftover httpServer turns refusal answer outgoing input
      httpRequest = some (.returned a r)) :
    ∃ input' r₁ bytes close,
      parseHttpRequest leftover turns input httpRequest = some (.returned 1 input' r₁) ∧
      (httpServer.response r₁).encoded = some bytes ∧ bytes.length ≤ intMax ∧
      answer.result = .wrote bytes.length ∧
      httpRequestCloseConnection difference r₁ = some close ∧
      a = answered (outgoing.setInput input') bytes close ∧ r = httpRequestReset r₁ := by
  obtain ⟨result,hparse,-⟩ := Option.bind_eq_some_iff.mp hreturned
  cases result with
  | crashed => simp [httpOnMessage, hparse] at hreturned
  | returned ok input' r₁ =>
    obtain ⟨rfl,-⟩ := parse_returns_done hparse
    rw [httpOnMessage_parsed h hparse] at hreturned
    rcases httpAnswer_cases (h.setInput input') hreturned with
      ⟨-,hno⟩ | ⟨bytes,henc,⟨_,-,-,-,hno⟩ | ⟨hs,hwhole,hresult⟩⟩
    · cases hno
    · cases hno
    · cases hclose : httpRequestCloseConnection difference r₁ with
      | none =>
        rw [hclose] at hresult
        cases hresult
      | some close =>
        rw [hclose] at hresult
        obtain ⟨rfl,rfl⟩ := MessageResult.returned.inj hresult
        exact ⟨input',r₁,bytes,close,hparse,henc,hs,hwhole,hclose,rfl,rfl⟩

theorem httpOnMessage_hung (h : outgoing.Idle)
    (hhung : httpOnMessage difference leftover httpServer turns refusal answer outgoing input
      httpRequest = some (.hung a r)) :
    ∃ input', parseHttpRequest leftover turns input httpRequest = some (.returned 1 input' r) ∧
      a.shutdowns = [] := by
  obtain ⟨result,hparse,-⟩ := Option.bind_eq_some_iff.mp hhung
  cases result with
  | crashed => simp [httpOnMessage, hparse] at hhung
  | returned ok input' r₁ =>
    obtain ⟨rfl,-⟩ := parse_returns_done hparse
    rw [httpOnMessage_parsed h hparse] at hhung
    rcases httpAnswer_cases (h.setInput input') hhung with
      ⟨-,hno⟩ | ⟨bytes,-,⟨a',-,-,hnone,hresult⟩ | ⟨-,-,hresult⟩⟩
    · cases hno
    · obtain ⟨rfl,rfl⟩ := MessageResult.hung.inj hresult
      exact ⟨input',hparse,hnone⟩
    · cases hclose : httpRequestCloseConnection difference r₁ <;> rw [hclose] at hresult <;>
        cases hresult

end Answers

/-- A connection of the server; `ended` once its channel has been removed, or its thread
stays in a call. -/
structure HttpConnection where
  outgoing : Outgoing
  httpRequest : HttpRequest
  ended : Bool

inductive ConnectionEvent where
  | read (readv : Option (List Byte)) (realloc : Option (ℕ → Byte)) (leftover : Leftover)
      (turns : ℕ) (refusal answer : SendOutcome)
  | write (result : WriteResult)

namespace HttpConnection

/-- `handle_read` with `http_onMessage` as its callback, and `handle_write`. -/
def step (difference : CharDifference) (httpServer : HttpServer) (c : HttpConnection)
    (event : ConnectionEvent) : Option (HttpConnection × List Shutdown) :=
  if c.ended then none
  else
    match event with
    | .read readv realloc leftover turns refusal answer =>
      (bufferSocketRead c.outgoing.connection.inputBuffer readv realloc).bind fun r =>
        if 0 < r.2 then
          match httpOnMessage difference leftover httpServer turns refusal answer c.outgoing r.1
            c.httpRequest with
          | some (.returned a httpRequest) => some (⟨a.outgoing,httpRequest,false⟩, a.shutdowns)
          | some (.hung a httpRequest) => some (⟨a.outgoing,httpRequest,true⟩, a.shutdowns)
          | some .crashed => none
          | none => none
        else some (⟨c.outgoing.setInput r.1,c.httpRequest,true⟩, [])
    | .write result =>
      if result.count ≤ c.outgoing.output.readableSize then
        let outgoing := handleWrite c.outgoing result
        some (⟨outgoing,c.httpRequest,outgoing.stuck⟩, [])
      else none

/-- A new connection; its completion callback makes the request. -/
def new (addr : ℕ) (connectedFd : ℤ) (eventLoop : ℕ) (block : ℕ → Byte) : HttpConnection :=
  ⟨.new (tcpConnectionNew addr connectedFd eventLoop block),httpRequestNew,false⟩

/-- What stands at a shutdown: nothing is buffered, and the socket has taken what was
buffered before and all that the callback sent. -/
def Flushed (c : HttpConnection) (d : Shutdown) : Prop :=
  d.outgoing.output.readable = [] ∧
    d.outgoing.written = c.outgoing.written ++ c.outgoing.output.readable ++ d.sent

variable {difference : CharDifference} {httpServer : HttpServer} {c c' : HttpConnection}
  {event : ConnectionEvent} {shutdowns : List Shutdown}

theorem new_idle (addr : ℕ) (connectedFd : ℤ) (eventLoop : ℕ) (block : ℕ → Byte) :
    (new addr connectedFd eventLoop block).outgoing.Idle where
  valid := ⟨le_rfl,Nat.zero_le _⟩
  direct := by
    have hoff : channelWriteEventIsEnabled (new addr connectedFd eventLoop block).outgoing.connection.channel =
        false := show decide ((0x02#32 &&& 0x04#32 : BitVec 32) ≠ 0) = false by decide
    rw [Outgoing.direct, Outgoing.writeEnabled, hoff]
    rfl
  goesOn := rfl
  ownData := ⟨addr,rfl⟩

/-- Between its events a connection that goes on has nothing buffered, and every shutdown
finds the response handed to the socket. -/
theorem step_idle (h : c.ended = false → c.outgoing.Idle)
    (hstep : c.step difference httpServer event = some (c', shutdowns)) :
    (c'.ended = false → c'.outgoing.Idle) ∧ ∀ d ∈ shutdowns, c.Flushed d := by
  unfold step at hstep
  split at hstep
  · cases hstep
  rename_i halive
  replace h := h (Bool.not_eq_true _ ▸ halive)
  cases event with
  | read readv realloc leftover turns refusal answer =>
    obtain ⟨⟨input,count⟩,-,hread⟩ := Option.bind_eq_some_iff.mp hstep
    dsimp only at hread
    split at hread
    · split at hread
      · rename_i a r hreturned
        obtain ⟨rfl,rfl⟩ := Prod.mk.inj (Option.some.inj hread)
        obtain ⟨input',r₁,bytes,close,-,-,-,-,-,rfl,-⟩ := httpOnMessage_returned h hreturned
        have hidle : (answered (c.outgoing.setInput input') bytes close).outgoing.Idle := by
          cases close <;> exact (h.setInput input').take bytes
        refine ⟨fun _ => hidle,?_⟩
        intro d hd
        cases close with
        | false => cases hd
        | true =>
          obtain rfl := List.mem_singleton.mp hd
          refine ⟨((h.setInput input').take bytes).readable_nil,?_⟩
          rw [h.readable_nil, List.append_nil]
          simp [Outgoing.take, Outgoing.setInput]
      · rename_i a r hhung
        obtain ⟨rfl,rfl⟩ := Prod.mk.inj (Option.some.inj hread)
        obtain ⟨-,-,hnone⟩ := httpOnMessage_hung h hhung
        exact ⟨fun hno => absurd hno Bool.noConfusion,by simp [hnone]⟩
      · cases hread
      · cases hread
    · obtain ⟨rfl,rfl⟩ := Prod.mk.inj (Option.some.inj hread)
      exact ⟨fun hno => absurd hno Bool.noConfusion,by simp⟩
  | write result =>
    obtain ⟨hn,hwrite⟩ := Option.ite_none_right_eq_some.mp hstep
    obtain ⟨rfl,rfl⟩ := Prod.mk.inj (Option.some.inj hwrite)
    exact ⟨fun _ => (h.handleWrite hn).symm ▸ h,by simp⟩

theorem run_idle {addr : ℕ} {connectedFd : ℤ} {eventLoop : ℕ} {block : ℕ → Byte}
    {events : List ConnectionEvent} {os : List (List Shutdown)}
    (hrun : run (step difference httpServer) (new addr connectedFd eventLoop block) events =
      some (c, os)) (halive : c.ended = false) : c.outgoing.Idle :=
  run_keeps (fun c => c.ended = false → c.outgoing.Idle) (fun _ => new_idle addr connectedFd eventLoop block)
    hrun (fun _ _ _ _ h hs => (step_idle h hs).1) halive

end HttpConnection

end CppExamples.HttpTest
