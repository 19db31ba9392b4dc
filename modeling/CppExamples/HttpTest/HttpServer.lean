import CppExamples.HttpTest.HttpRequest
import CppExamples.HttpTest.HttpResponse
import CppExamples.HttpTest.ChannelMap
import CppExamples.HttpTest.TcpConnection

/-! # `http_onMessage`

The message callback sends on its connection and shuts the write side down.  A send that
has to switch the write event on does not come back, and what stands behind it in the
callback does not happen.  The response buffer is taken as the bytes encoded into it.
-/
namespace CppExamples.HttpTest

/-- What a send meets: the result of `write()` if it is called, that of growing the
output buffer, and the memory before the data. -/
structure SendOutcome where
  result : WriteResult
  realloc : Option (ℕ → Byte)
  outside : ℤ → Byte

/-- A call of `shutdown`, with the bytes the callback has passed to send before it. -/
structure Shutdown where
  sent : List Byte
  outgoing : Outgoing

/-- The connection in a callback, the messages passed to send and the shutdowns. -/
structure Answering where
  outgoing : Outgoing
  sent : List (List Byte)
  shutdowns : List Shutdown

def holding (bytes : List Byte) : Buffer := ⟨fun i => bytes.getD i 0,0,bytes.length,initBufferSize⟩

namespace Answering

def start (outgoing : Outgoing) : Answering := ⟨outgoing,[],[]⟩

/-- `write()` takes no more than it is given. -/
def sendData (a : Answering) (data : List Byte) (outcome : SendOutcome) : Option Answering :=
  if outcome.result.count ≤ data.length then
    (tcpConnectionSendData a.outgoing ((holding data).around outcome.outside) data.length
      outcome.result outcome.realloc).map fun r =>
        { a with outgoing := r.1, sent := a.sent ++ [data] }
  else none

/-- A buffer holds at most `INT_MAX` bytes. -/
def sendBuffer (a : Answering) (bytes : List Byte) (outcome : SendOutcome) : Option Answering :=
  if outcome.result.count ≤ bytes.length ∧ bytes.length ≤ intMax then
    (tcpConnectionSendBuffer a.outgoing (holding bytes) outcome.outside outcome.result
      outcome.realloc).map fun r => { a with outgoing := r.1, sent := a.sent ++ [bytes] }
  else none

def shutdown (a : Answering) : Answering :=
  { a with shutdowns := a.shutdowns ++ [⟨a.sent.flatten,a.outgoing⟩] }

end Answering

/-- What a call comes to: it returns, it stays in a send, or it goes wrong. -/
inductive MessageResult where
  | returned (answering : Answering) (httpRequest : HttpRequest)
  | hung (answering : Answering) (httpRequest : HttpRequest)
  | crashed

structure HttpServer where
  requestCallback : Option (HttpRequest → HttpResponse → HttpResponse)

def HttpServer.response (httpServer : HttpServer) (httpRequest : HttpRequest) : HttpResponse :=
  match httpServer.requestCallback with
  | none => httpResponseNew
  | some callback => callback httpRequest httpResponseNew

def errorResponse : List Byte := ascii "HTTP/1.1 400 Bad Request\r\n\r\n"

/-- The path of a refused request; the size of the error answer is that of the pointer
to it. -/
def httpRefuse (a : Answering) (outcome : SendOutcome) : Option Answering :=
  (a.sendData (errorResponse.take sizeofPointer) outcome).map fun a =>
    if a.outgoing.stuck then a else a.shutdown

def httpAnswer (difference : CharDifference) (httpServer : HttpServer) (httpRequest : HttpRequest)
    (a : Answering) (outcome : SendOutcome) : Option MessageResult :=
  match (httpServer.response httpRequest).encoded with
  | none => some .crashed
  | some bytes => (a.sendBuffer bytes outcome).map fun a =>
      if a.outgoing.stuck then .hung a httpRequest
      else
        match httpRequestCloseConnection difference httpRequest with
        | none => .crashed
        | some close =>
          .returned (if close then a.shutdown else a) (httpRequestReset httpRequest)

/-- `refusal` and `answer` are what the two sends meet. -/
def httpOnMessage (difference : CharDifference) (leftover : Leftover) (httpServer : HttpServer)
    (turns : ℕ) (refusal answer : SendOutcome) (outgoing : Outgoing) (input : Buffer)
    (httpRequest : HttpRequest) : Option MessageResult :=
  (parseHttpRequest leftover turns input httpRequest).bind fun
    | .crashed => some .crashed
    | .returned ok input httpRequest =>
      let a := Answering.start (outgoing.setInput input)
      (if ok = 0 then httpRefuse a refusal else some a).bind fun a =>
        if a.outgoing.stuck then some (.hung a httpRequest)
        else if httpRequest.currentState = .done then
          httpAnswer difference httpServer httpRequest a answer
        else some (.returned a httpRequest)

end CppExamples.HttpTest
