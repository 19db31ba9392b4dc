import CppExamples.HttpTest.HttpConnection

/-! # Announcing a close and closing

The encoder announces a close when `keep_connected` is set, or when the texts of the
response spell the announcement themselves; `http_onMessage` shuts the write side
down when the request asks for it.  The two agree exactly where these two conditions
happen to.  What is shut down has its response behind it: a callback that comes as far has
had it taken whole.
-/
namespace CppExamples.HttpTest
open Memory Search Machine Answering

def headOf (bytes : List Byte) : List (List Byte) := (lines 13 10 bytes).takeWhile (· ≠ [])

def closeLine : List Byte := ascii "Connection: close"

def AnnouncesClose (bytes : List Byte) : Prop := closeLine ∈ headOf bytes

/-- The lines that the fields of a response are written as, before the blank line. -/
def HttpResponse.fieldLines (httpResponse : HttpResponse) : List (List Byte) :=
  lines 13 10 (cString httpResponse.statusText ++ appended httpResponse.statusMessage) ++
    (if httpResponse.keepConnected ≠ 0 then [closeLine]
      else lines 13 10 (cString (snprintf 32 (ascii "Content-Length: " ++
        decimal (appended httpResponse.body).length ++ ascii "\r\n")) ++
          ascii "Connection: Keep-Alive")) ++
    httpResponse.responseHeaders.flatMap fun header =>
      lines 13 10 (appended header.1 ++ ascii ": " ++ appended header.2)

/-- `keep_connected` is set, or the texts of the response contain the line; a blank
line in front of it hides it. -/
def HttpResponse.SaysClose (httpResponse : HttpResponse) : Prop :=
  closeLine ∈ httpResponse.fieldLines.takeWhile (· ≠ [])

def connectionHeader (httpRequest : HttpRequest) : Option (List Byte) :=
  (httpRequest.requestHeaders.find? fun header => ascii "Connection" <+: header.1).map Prod.snd

def IsHttp10 (httpRequest : HttpRequest) : Prop :=
  ∃ version, httpRequest.version = some version ∧
    http10 <+: cString (load version 0 http10.length)

/-- The Connection header begins with `close`, or the version is HTTP/1.0 and the
comparison of the header with `Keep-Alive` returns 1 of all values. -/
def AsksClose (difference : CharDifference) (httpRequest : HttpRequest) : Prop :=
  ∃ connection, connectionHeader httpRequest = some connection ∧
    (close <+: connection ∨ (IsHttp10 httpRequest ∧
      strncmp difference connection keepAlive keepAlive.length = 1))

theorem lines_crlf (a b : List Byte) : lines 13 10 (a ++ (crlf ++ b)) = lines 13 10 a ++ lines 13 10 b :=
  lines_append (by decide) a b

theorem takeWhile_blank {α : Type*} (p : α → Bool) {a : α} (l m : List α) (ha : p a = false) :
    (l ++ a :: m).takeWhile p = l.takeWhile p := by
  induction l with
  | nil => simp [ha]
  | cons b l ih =>
    cases hb : p b <;> simp [hb, ih]

theorem lines_headers (headers : List (Option (List Byte) × Option (List Byte))) (rest : List Byte) :
    lines 13 10 ((headers.flatMap HttpResponse.headerTexts).flatMap appended ++ rest) =
      headers.flatMap (fun header => lines 13 10 (appended header.1 ++ ascii ": " ++ appended header.2)) ++
        lines 13 10 rest := by
  induction headers with
  | nil => rfl
  | cons header headers ih =>
    have hcolon : cString (ascii ": ") = ascii ": " := by decide
    have hcrlf : cString crlf = crlf := by decide
    rw [List.flatMap_cons, List.flatMap_append, List.flatMap_cons, List.append_assoc, List.append_assoc,
      ← ih, ← lines_crlf]
    simp [HttpResponse.headerTexts, appended, hcolon, hcrlf]

theorem lines_encoded {httpResponse : HttpResponse} {bytes : List Byte}
    (h : httpResponse.encoded = some bytes) :
    lines 13 10 bytes = httpResponse.fieldLines ++ [] :: lines 13 10 (appended httpResponse.body) := by
  obtain ⟨texts,htexts,rfl⟩ := Option.map_eq_some_iff.mp h
  obtain ⟨connection,hconn,rfl⟩ := Option.map_eq_some_iff.mp htexts
  have hcrlf : cString crlf = crlf := by decide
  have hblank : lines 13 10 (crlf ++ appended httpResponse.body) =
      [] :: lines 13 10 (appended httpResponse.body) := lines_crlf [] _
  obtain ⟨line,hline,hlines⟩ : ∃ line, connection.flatMap appended = line ++ crlf ∧
      lines 13 10 line = if httpResponse.keepConnected ≠ 0 then [closeLine]
        else lines 13 10 (cString (snprintf 32 (ascii "Content-Length: " ++
          decimal (appended httpResponse.body).length ++ ascii "\r\n")) ++
            ascii "Connection: Keep-Alive") := by
    unfold HttpResponse.connectionTexts at hconn
    split at hconn
    · rename_i hkeep
      obtain rfl := Option.some.inj hconn
      exact ⟨closeLine,by decide,by rw [if_pos hkeep]; decide⟩
    · rename_i hkeep
      obtain ⟨body,hbody,rfl⟩ := Option.map_eq_some_iff.mp hconn
      have hkeepAlive : cString (ascii "Connection: Keep-Alive\r\n") =
          ascii "Connection: Keep-Alive" ++ crlf := by decide
      refine ⟨_,?_,(if_neg hkeep).symm⟩
      simp [appended, hbody, hkeepAlive]
  calc lines 13 10 _
      = lines 13 10 ((cString httpResponse.statusText ++ appended httpResponse.statusMessage) ++
          (crlf ++ (line ++ (crlf ++ ((httpResponse.responseHeaders.flatMap
            HttpResponse.headerTexts).flatMap appended ++
              (crlf ++ appended httpResponse.body)))))) := by
        simp [List.flatMap_append, hline, appended, hcrlf]
    _ = httpResponse.fieldLines ++ [] :: lines 13 10 (appended httpResponse.body) := by
        rw [lines_crlf, lines_crlf, lines_headers, hblank, hlines]
        simp only [HttpResponse.fieldLines, List.append_assoc]

theorem announcesClose_iff {httpResponse : HttpResponse} {bytes : List Byte}
    (h : httpResponse.encoded = some bytes) : AnnouncesClose bytes ↔ httpResponse.SaysClose := by
  rw [AnnouncesClose, headOf, lines_encoded h, takeWhile_blank _ _ _ (by simp)]
  rfl

theorem getHeader_connection (difference : CharDifference) (httpRequest : HttpRequest) :
    httpRequestGetHeader difference httpRequest (ascii "Connection") =
      connectionHeader httpRequest := by
  have hiff : (fun header : List Byte × List Byte =>
      decide (strncmp difference header.1 (ascii "Connection") (ascii "Connection").length = 0)) =
      fun header => decide (ascii "Connection" <+: header.1) := by
    funext header
    exact decide_eq_decide.mpr (strncmp_eq_zero_iff difference (by decide))
  rw [httpRequestGetHeader, hiff]
  rfl

theorem versionIsHttp10_iff (difference : CharDifference) (httpRequest : HttpRequest) :
    versionIsHttp10 difference httpRequest = true ↔ IsHttp10 httpRequest := by
  cases hv : httpRequest.version with
  | none => simp [versionIsHttp10, IsHttp10, hv]
  | some version =>
    simp only [versionIsHttp10, IsHttp10, hv, decide_eq_true_eq, Option.some.injEq, exists_eq_left']
    exact strncmp_eq_zero_iff difference (by decide)

/-- When the close decision is made, and which. -/
theorem closeConnection_spec (difference : CharDifference) (httpRequest : HttpRequest) :
    (IsHttp10 httpRequest ∧ connectionHeader httpRequest = none ∧
        httpRequestCloseConnection difference httpRequest = none) ∨
      ∃ b, (IsHttp10 httpRequest → connectionHeader httpRequest ≠ none) ∧
        httpRequestCloseConnection difference httpRequest = some b ∧
        (b = true ↔ AsksClose difference httpRequest) := by
  simp only [httpRequestCloseConnection, getHeader_connection]
  have hversion := versionIsHttp10_iff difference httpRequest
  cases hconn : connectionHeader httpRequest with
  | none =>
    cases h10 : versionIsHttp10 difference httpRequest with
    | true => exact .inl ⟨hversion.mp h10,rfl,by simp⟩
    | false =>
      have hnot : ¬ IsHttp10 httpRequest := fun h => by simp [hversion.mpr h] at h10
      exact .inr ⟨false,fun h => absurd h hnot,by simp,by simp [AsksClose, hconn]⟩
  | some connection =>
    refine .inr ?_
    have hclose := strncmp_eq_zero_iff difference (s := connection) (t := close) (by decide)
    by_cases hc : close <+: connection
    · exact ⟨true,by simp,by simp [hclose.mpr hc],by simp [AsksClose, hconn, hc]⟩
    · have hne : strncmp difference connection close close.length ≠ 0 := fun h => hc (hclose.mp h)
      cases h10 : versionIsHttp10 difference httpRequest with
      | true =>
        refine ⟨decide (strncmp difference connection keepAlive keepAlive.length = 1),by simp,
          by simp [hne],?_⟩
        simp [AsksClose, hconn, hc, hversion.mp h10]
      | false =>
        have hnot : ¬ IsHttp10 httpRequest := fun h => by simp [hversion.mpr h] at h10
        exact ⟨false,by simp,by simp [hne],by simp [AsksClose, hconn, hc, hnot]⟩

theorem encoded_isSome_iff (httpResponse : HttpResponse) :
    (∃ bytes, httpResponse.encoded = some bytes) ↔
      httpResponse.keepConnected ≠ 0 ∨ httpResponse.body ≠ none := by
  by_cases hkeep : httpResponse.keepConnected = 0
  · cases hbody : httpResponse.body <;>
      simp [HttpResponse.encoded, HttpResponse.texts, HttpResponse.connectionTexts, hkeep, hbody]
  · simp [HttpResponse.encoded, HttpResponse.texts, HttpResponse.connectionTexts, hkeep]

section Agreement
variable {difference : CharDifference} {leftover : Leftover} {httpServer : HttpServer} {turns : ℕ}
  {refusal answer : SendOutcome} {outgoing : Outgoing} {input input' : Buffer}
  {httpRequest r : HttpRequest} {ok : ℤ}

/-- A complete request gets an answer whose announcement agrees with the shutdown. -/
def ClosesAsAnnounced (difference : CharDifference) (leftover : Leftover) (httpServer : HttpServer)
    (turns : ℕ) (refusal answer : SendOutcome) (outgoing : Outgoing) (input : Buffer)
    (httpRequest : HttpRequest) : Prop :=
  ∃ bytes a r, httpOnMessage difference leftover httpServer turns refusal answer outgoing input
      httpRequest = some (.returned a r) ∧ a.sent = [bytes] ∧
    (AnnouncesClose bytes ↔ a.shutdowns ≠ [])

theorem answered_sent (outgoing : Outgoing) (bytes : List Byte) (close : Bool) :
    (answered outgoing bytes close).sent = [bytes] := by
  cases close <;> rfl

theorem answered_shutdowns (outgoing : Outgoing) (bytes : List Byte) (close : Bool) :
    (answered outgoing bytes close).shutdowns ≠ [] ↔ close = true := by
  cases close <;> simp [answered, Answering.shutdown]

theorem closesAsAnnounced_iff (h : outgoing.Idle)
    (hparse : parseHttpRequest leftover turns input httpRequest = some (.returned ok input' r)) :
    ClosesAsAnnounced difference leftover httpServer turns refusal answer outgoing input httpRequest ↔
      ((httpServer.response r).keepConnected ≠ 0 ∨ (httpServer.response r).body ≠ none) ∧
        TakesWhole httpServer r answer ∧ (IsHttp10 r → connectionHeader r ≠ none) ∧
        ((httpServer.response r).SaysClose ↔ AsksClose difference r) := by
  obtain ⟨rfl,-⟩ := parse_returns_done hparse
  rw [← encoded_isSome_iff]
  constructor
  · rintro ⟨bytes,a,r',hret,hsent,hagree⟩
    obtain ⟨input₁,r₁,bytes',close,hparse',henc,hs,hwhole,hclose,rfl,-⟩ := httpOnMessage_returned h hret
    obtain ⟨-,-,rfl⟩ := ParseResult.returned.inj (Option.some.inj (hparse.symm.trans hparse'))
    rcases closeConnection_spec difference r with ⟨-,-,hnone⟩ | ⟨b,hheader,hb,hasks⟩
    · rw [hnone] at hclose
      cases hclose
    · obtain rfl : b = close := Option.some.inj (hb.symm.trans hclose)
      rw [answered_sent, List.cons.injEq] at hsent
      obtain ⟨rfl,-⟩ := hsent
      refine ⟨⟨bytes',henc⟩,?_,hheader,?_⟩
      · intro other hother
        obtain rfl := Option.some.inj (henc.symm.trans hother)
        exact ⟨hs,hwhole⟩
      · rw [← announcesClose_iff henc, hagree, answered_shutdowns, ← hasks]
  · rintro ⟨⟨bytes,henc⟩,hwhole,hheader,hagree⟩
    obtain ⟨hs,hwrote⟩ := hwhole bytes henc
    rcases closeConnection_spec difference r with ⟨h10,hnone,-⟩ | ⟨b,-,hb,hasks⟩
    · exact absurd hnone (hheader h10)
    · have hrun : httpOnMessage difference leftover httpServer turns refusal answer outgoing input
          httpRequest = some (.returned (answered (outgoing.setInput input') bytes b)
            (httpRequestReset r)) := by
        rw [httpOnMessage_parsed h hparse, httpAnswer_whole (h.setInput input') henc hs hwrote, hb]
        rfl
      refine ⟨bytes,_,_,hrun,answered_sent _ _ _,?_⟩
      rw [announcesClose_iff henc, hagree, answered_shutdowns, ← hasks]

end Agreement

namespace HttpConnection
variable {difference : CharDifference} {httpServer : HttpServer}

end HttpConnection

namespace HttpConnection
variable {difference : CharDifference} {httpServer : HttpServer}

end HttpConnection

def byteDifference : CharDifference where
  value a b := a.toNat - b.toNat
  pos a b h := by
    have := UInt8.lt_iff_toNat_lt.mp h
    omega
  neg a b h := by
    have := UInt8.lt_iff_toNat_lt.mp h
    omega

/-- A server whose callback finds nothing, as `onRequest` for an unknown path. -/
def notFoundServer : HttpServer where
  requestCallback := some fun _ httpResponse => { httpResponse with
    statusCode := 404
    statusMessage := some (ascii "Not Found")
    keepConnected := 1 }

def okServer : HttpServer where
  requestCallback := some fun _ httpResponse => { httpResponse with
    statusCode := 200
    statusMessage := some (ascii "OK")
    body := some (ascii "hello") }

def plainGet : List Byte := ascii "GET / HTTP/1.1\r\n\r\n"

def closingGet : List Byte := ascii "GET / HTTP/1.1\r\nConnection: close\r\n\r\n"

def taking (count : ℕ) : SendOutcome := ⟨.wrote count,some fun _ => 0,fun _ => 0⟩

def requestRead (request : List Byte) (answer : SendOutcome) : ConnectionEvent :=
  .read (some request) none sampleLeftover 4 (taking 0) answer

namespace HttpConnection

-- the socket takes one byte of the response, or none, and the thread stays in the send
example : [taking 1,⟨.failed .wouldBlock,some fun _ => 0,fun _ => 0⟩].map (fun answer =>
    ((new 0 5 0 fun _ => 0).step byteDifference okServer (requestRead closingGet answer)).map
      fun r => (r.1.ended, r.2.length)) = [some (true, 0),some (true, 0)] := by decide

end HttpConnection

end CppExamples.HttpTest
