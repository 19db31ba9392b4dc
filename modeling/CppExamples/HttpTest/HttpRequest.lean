import CppExamples.HttpTest.CString
import CppExamples.Library.Search

/-! # Requests and their parser

Without result are a failed assertion, a null pointer that is read and a write
behind the array of headers.  A field of the request line is the memory at its
block: `malloc(size + 1)` gives `size + 1` cells, the text fills the first `size`,
and the terminator goes one cell too far.  The loop of `parse_http_request` takes a
bound on its turns.
-/
namespace CppExamples.HttpTest
open Memory Search

inductive HttpRequestState where
  | status
  | headers
  | body
  | done
deriving DecidableEq

structure HttpRequest where
  version : Option (ℕ → Byte)
  method : Option (ℕ → Byte)
  url : Option (ℕ → Byte)
  currentState : HttpRequestState
  requestHeaders : List (List Byte × List Byte)

def initRequestHeaderSize : ℕ := 128

/-- The array is sized by `sizeof(struct http_request)`, 48 bytes, and holds keys
and values of 16 bytes a pair. -/
def requestHeaderCapacity : ℕ := 48 * initRequestHeaderSize / 16

def httpRequestNew : HttpRequest := ⟨none,none,none,.status,[]⟩

def httpRequestReset (httpRequest : HttpRequest) : HttpRequest :=
  { httpRequest with
    method := none
    currentState := .status
    version := none
    url := none
    requestHeaders := [] }

def httpRequestAddHeader (httpRequest : HttpRequest) (key value : List Byte) : Option HttpRequest :=
  if httpRequest.requestHeaders.length < requestHeaderCapacity then
    some { httpRequest with requestHeaders := httpRequest.requestHeaders ++ [(key, value)] }
  else none

def httpRequestGetHeader (difference : CharDifference) (httpRequest : HttpRequest)
    (key : List Byte) : Option (List Byte) :=
  (httpRequest.requestHeaders.find? fun header =>
    strncmp difference header.1 key key.length = 0).map Prod.snd

def http10 : List Byte := ascii "HTTP/1.0"
def keepAlive : List Byte := ascii "Keep-Alive"
def close : List Byte := ascii "close"

/-- The test of the version, with the short circuit at a null pointer. -/
def versionIsHttp10 (difference : CharDifference) (httpRequest : HttpRequest) : Bool :=
  match httpRequest.version with
  | none => false
  | some version =>
    strncmp difference (cString (load version 0 http10.length)) http10 http10.length = 0

def httpRequestCloseConnection (difference : CharDifference) (httpRequest : HttpRequest) :
    Option Bool :=
  let connection := httpRequestGetHeader difference httpRequest (ascii "Connection")
  if connection.any fun c => strncmp difference c close close.length = 0 then some true
  else if versionIsHttp10 difference httpRequest then
    -- the header is compared whether it was found or not
    connection.map fun c => strncmp difference c keepAlive keepAlive.length = 1
  else some false

/-- What `malloc` left in the blocks of the request line. -/
structure Leftover where
  method : ℕ → Byte
  url : ℕ → Byte
  version : ℕ → Byte

def fieldBlock (leftover : ℕ → Byte) (text : List Byte) : ℕ → Byte :=
  Function.update (strncpy leftover text) (text.length + 1) 0

/-- `process_status_line` on the characters between `start` and `end`. -/
def processStatusLine (leftover : Leftover) (line : List Byte) (httpRequest : HttpRequest) :
    Option (ℕ × HttpRequest) :=
  (find [32] line).bind fun methodSize =>
    let start := line.drop (methodSize + 1)
    (find [32] start).map fun urlSize =>
      (line.length, { httpRequest with
        method := some (fieldBlock leftover.method (line.take methodSize))
        url := some (fieldBlock leftover.url (start.take urlSize))
        version := some (fieldBlock leftover.version (start.drop (urlSize + 1))) })

/-- One turn of the loop: how far `readIndex` moves, and the request. -/
def parseTurn (leftover : Leftover) (unread : List Byte) (httpRequest : HttpRequest) :
    Option (ℕ × HttpRequest) :=
  match httpRequest.currentState with
  | .status =>
    match find crlf unread with
    | none => some (0, httpRequest)
    | some size =>
      (processStatusLine leftover (unread.take size) httpRequest).map fun r =>
        if r.1 ≠ 0 then (r.1 + 2, { r.2 with currentState := .headers }) else (0, r.2)
  | .headers =>
    match find crlf unread with
    | none => some (0, httpRequest)
    | some size =>
      let line := unread.take size
      match find (ascii ": ") line with
      | some colon =>
        let key := cString (line.take colon)
        let value := cString (line.drop (colon + 2))
        (httpRequestAddHeader httpRequest key value).map fun r => (size + 2, r)
      | none => some (2, { httpRequest with currentState := .done })
  | .body => some (0, httpRequest)
  | .done => some (0, httpRequest)

/-- What a call comes to: it returns `ok` or goes wrong. -/
inductive ParseResult where
  | returned (ok : ℤ) (input : Buffer) (httpRequest : HttpRequest)
  | crashed

def parseHttpRequest (leftover : Leftover) : ℕ → Buffer → HttpRequest → Option ParseResult
  | 0, _, _ => none
  | turns + 1, input, httpRequest =>
    if httpRequest.currentState = .done then some (.returned 1 input httpRequest)
    else
      match parseTurn leftover input.readable httpRequest with
      | none => some .crashed
      | some (size, r) =>
        parseHttpRequest leftover turns { input with readIndex := input.readIndex + size } r

end CppExamples.HttpTest
