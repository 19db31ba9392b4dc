import CppExamples.HttpTest.HeaderSection
import CppExamples.HttpTest.Pipelining

/-! # Malformed request lines

A call of `http_onMessage` goes wrong at an assertion of `process_status_line`, at a
null pointer that is read for the answer, or behind the array of headers.  What the
peer has sent decides which: a request line with less than two spaces fails the
assertion, and the parser has no other result than 1, so nothing is ever refused.
-/
namespace CppExamples.HttpTest
open Search Machine Answering

/-- The call comes to an assertion of `process_status_line` that fails. -/
def FailsAssertion (leftover : Leftover) (input : Buffer) (r : HttpRequest) : Prop :=
  ∃ input' r' line rest, Turns leftover input r input' r' ∧ r'.currentState = .status ∧
    completeLines input'.readable = line :: rest ∧ processStatusLine leftover line r' = none

/-- The answer to the complete request takes the length of a null pointer, or compares
with one behind its send. -/
def ReadsNull (difference : CharDifference) (leftover : Leftover) (httpServer : HttpServer)
    (answer : SendOutcome) (outgoing : Outgoing) (input : Buffer) (r : HttpRequest) : Prop :=
  ∃ turns ok input' r', parseHttpRequest leftover turns input r = some (.returned ok input' r') ∧
    r'.currentState = .done ∧
    httpAnswer difference httpServer r' (start (outgoing.setInput input')) answer = some .crashed

section Failures
variable {difference : CharDifference} {leftover : Leftover} {httpServer : HttpServer}
  {refusal answer : SendOutcome} {outgoing : Outgoing} {input : Buffer} {r : HttpRequest}

theorem parseTurn_eq_none_iff {unread : List Byte} : parseTurn leftover unread r = none ↔
    (r.currentState = .status ∧ ∃ line rest, completeLines unread = line :: rest ∧
      processStatusLine leftover line r = none) ∨
    (r.currentState = .headers ∧ ∃ line rest, completeLines unread = line :: rest ∧
      HasColon line ∧ requestHeaderCapacity ≤ r.requestHeaders.length) := by
  cases hs : r.currentState with
  | status =>
    cases hlines : completeLines unread with
    | nil => simp [parseTurn_noLine (.inl hs) hlines]
    | cons line rest =>
      rcases lt_or_ge (line.count 32) 2 with hbad | hspaces
      · have hnone : processStatusLine leftover line r = none :=
          processStatusLine_eq_none_iff.mpr hbad
        simp [parseTurn_badLine hs hlines hbad, hnone]
      · obtain ⟨size,r',hturn,-⟩ := @parseTurn_requestLine leftover _ _ _ _ hs hlines hspaces
        have hsome : processStatusLine leftover line r ≠ none :=
          fun hnone => not_lt.mpr hspaces (processStatusLine_eq_none_iff.mp hnone)
        simp [hturn, hsome]
  | headers =>
    cases hlines : completeLines unread with
    | nil => simp [parseTurn_noLine (.inr hs) hlines]
    | cons line rest =>
      by_cases hcolon : HasColon line
      · rcases lt_or_ge r.requestHeaders.length requestHeaderCapacity with hroom | hfull
        · obtain ⟨size,r',hturn,-⟩ := @parseTurn_headerLine leftover _ _ _ _ hs hlines hcolon hroom
          simp [hturn, hroom]
        · simp [parseTurn_full hs hlines hcolon hfull, hcolon, hfull]
      · simp [parseTurn_lastLine hs hlines hcolon, hcolon]
  | body => simp [parseTurn, hs]
  | done => simp [parseTurn, hs]

theorem parse_crashed_iff : (∃ n, parseHttpRequest leftover n input r = some .crashed) ↔
    ∃ input' r', Turns leftover input r input' r' ∧ r'.currentState ≠ .done ∧
      parseTurn leftover input'.readable r' = none := by
  constructor
  · rintro ⟨n,h⟩
    induction n generalizing input r with
    | zero => cases h
    | succ n ih =>
      by_cases hrun : r.currentState = .done
      · simp [parseHttpRequest, hrun] at h
      · cases hturn : parseTurn leftover input.readable r with
        | none => exact ⟨input,r,.refl input r,hrun,hturn⟩
        | some q =>
          rw [parse_turn hrun hturn] at h
          obtain ⟨input',r',hturns,hlast⟩ := ih h
          exact ⟨input',r',.turn hrun hturn hturns,hlast⟩
  · rintro ⟨input',r',hturns,hrun',hnone⟩
    induction hturns with
    | refl input r => exact ⟨1,by simp only [parseHttpRequest, if_neg hrun', hnone]⟩
    | turn hrun hturn hrest ih =>
      obtain ⟨n,hn⟩ := ih hrun' hnone
      exact ⟨n + 1,(parse_turn hrun hturn).trans hn⟩

/-- The ways in which a call goes wrong. -/
theorem httpOnMessage_crashed_iff (hs : outgoing.Idle) :
    (∃ turns, httpOnMessage difference leftover httpServer turns refusal answer outgoing input r =
        some .crashed) ↔
      FailsAssertion leftover input r ∨ Overruns leftover input r ∨
        ReadsNull difference leftover httpServer answer outgoing input r := by
  constructor
  · rintro ⟨turns,h⟩
    obtain ⟨result,hparse,-⟩ := Option.bind_eq_some_iff.mp h
    cases result with
    | crashed =>
      obtain ⟨input',r',hturns,-,hnone⟩ := parse_crashed_iff.mp ⟨turns,hparse⟩
      rcases parseTurn_eq_none_iff.mp hnone with ⟨hs,line,rest,hlast⟩ | ⟨hs,line,rest,hlast⟩
      · exact .inl ⟨input',r',line,rest,hturns,hs,hlast⟩
      · exact .inr (.inl ⟨input',r',line,rest,hturns,hs,hlast⟩)
    | returned ok input' r' =>
      rw [httpOnMessage_parsed hs hparse] at h
      exact .inr (.inr ⟨turns,ok,input',r',hparse,(parse_returns_done hparse).2,h⟩)
  · rintro (⟨input',r',line,rest,hturns,hs,hlast⟩ | ⟨input',r',line,rest,hturns,hs,hlast⟩ |
      ⟨turns,ok,input',r',hparse,-,hanswer⟩)
    · obtain ⟨n,hn⟩ := parse_crashed_iff.mpr ⟨input',r',hturns,by simp [hs],
        parseTurn_eq_none_iff.mpr (.inl ⟨hs,line,rest,hlast⟩)⟩
      exact ⟨n,by simp [httpOnMessage, hn]⟩
    · obtain ⟨n,hn⟩ := parse_crashed_iff.mpr ⟨input',r',hturns,by simp [hs],
        parseTurn_eq_none_iff.mpr (.inr ⟨hs,line,rest,hlast⟩)⟩
      exact ⟨n,by simp [httpOnMessage, hn]⟩
    · exact ⟨turns,(httpOnMessage_parsed hs hparse).trans hanswer⟩

theorem httpAnswer_crashed_iff (hs : outgoing.Idle) :
    httpAnswer difference httpServer r (start outgoing) answer = some .crashed ↔
      ¬ ((httpServer.response r).keepConnected ≠ 0 ∨ (httpServer.response r).body ≠ none) ∨
        (TakesWhole httpServer r answer ∧ IsHttp10 r ∧ connectionHeader r = none) := by
  rw [← encoded_isSome_iff]
  constructor
  · intro h
    rcases httpAnswer_cases hs h with ⟨hnone,-⟩ | ⟨bytes,henc,⟨_,-,-,-,hno⟩ | ⟨hsize,hwrote,hclose⟩⟩
    · exact .inl fun ⟨bytes,hsome⟩ => by cases hnone.symm.trans hsome
    · cases hno
    · refine .inr ⟨?_,?_⟩
      · intro other hother
        obtain rfl := Option.some.inj (henc.symm.trans hother)
        exact ⟨hsize,hwrote⟩
      · rcases closeConnection_spec difference r with ⟨h10,hnone,-⟩ | ⟨b,-,hb,-⟩
        · exact ⟨h10,hnone⟩
        · rw [hb] at hclose
          cases hclose
  · intro h
    cases henc : (httpServer.response r).encoded with
    | none => simp only [httpAnswer, henc]
    | some bytes =>
      rcases h with hno | ⟨hwhole,h10,hheader⟩
      · exact absurd ⟨bytes,henc⟩ hno
      · obtain ⟨hsize,hwrote⟩ := hwhole bytes henc
        rcases closeConnection_spec difference r with ⟨-,-,hnone⟩ | ⟨_,hno,-⟩
        · rw [httpAnswer_whole hs henc hsize hwrote, hnone]
          rfl
        · exact absurd hheader (hno h10)

theorem parseTurn_status {unread : List Byte} {size : ℕ} {r' : HttpRequest}
    (h : parseTurn leftover unread r = some (size, r')) (hs' : r'.currentState = .status) :
    size = 0 ∧ r' = r := by
  rcases parseTurn_cases h with hstays | ⟨-,hheaders,-⟩ | ⟨-,hheaders,-⟩ | ⟨-,rfl⟩
  · exact hstays
  · cases hheaders.symm.trans hs'
  · cases hheaders.symm.trans hs'
  · cases hs'

theorem Turns.status {input' : Buffer} {r' : HttpRequest} (h : Turns leftover input r input' r')
    (hs : r'.currentState = .status) : input'.readable = input.readable ∧ r' = r := by
  induction h with
  | refl => exact ⟨rfl,rfl⟩
  | turn hrun hturn hrest ih =>
    obtain ⟨hread,rfl⟩ := ih hs
    obtain ⟨rfl,rfl⟩ := parseTurn_status hturn hs
    exact ⟨by simpa using hread,rfl⟩

theorem failsAssertion_iff (hs : r.currentState = .status) : FailsAssertion leftover input r ↔
    ∃ line rest, completeLines input.readable = line :: rest ∧ line.count 32 < 2 := by
  constructor
  · rintro ⟨input',r',line,rest,hturns,hs',hlines,hnone⟩
    obtain ⟨hread,-⟩ := hturns.status hs'
    exact ⟨line,rest,hread ▸ hlines,processStatusLine_eq_none_iff.mp hnone⟩
  · rintro ⟨line,rest,hlines,hbad⟩
    exact ⟨input,r,line,rest,.refl input r,hs,hlines,processStatusLine_eq_none_iff.mpr hbad⟩

/-- The bytes begin with a request: its request line, its headers and a line that is no
header. -/
def Begins (text : RequestText) (unread : List Byte) : Prop :=
  ∃ last trailing, ¬ HasColon last ∧ ¬ crlf <:+: last ∧ unread = text.requestLine ++ (crlf ++
    (joinLines (text.headers.map headerLine) ++ (last ++ (crlf ++ trailing))))

theorem parse_returned_iff {r' : HttpRequest} :
    (∃ n ok input', parseHttpRequest leftover n input httpRequestNew =
        some (.returned ok input' r')) ↔
      ∃ text, Begins text input.readable ∧ text.headers.length ≤ requestHeaderCapacity ∧
        r' = text.parsed leftover := by
  constructor
  · rintro ⟨n,ok,input',hret⟩
    cases hlines : completeLines input.readable with
    | nil =>
      have hnoLine := find_eq_none_iff.mp (find_of_completeLines_nil hlines)
      cases (parse_stuck leftover (.inl rfl) hnoLine n).symm.trans hret
    | cons line rest =>
      obtain ⟨tail,htail,hline,-⟩ := exists_tail hlines
      rcases lt_or_ge (line.count 32) 2 with hbad | hspaces
      · obtain ⟨m,hm⟩ := parse_crashed_iff.mpr ⟨input,httpRequestNew,.refl input httpRequestNew,
          by decide,@parseTurn_badLine leftover _ _ _ _ rfl hlines hbad⟩
        cases parse_unique hret hm
      · obtain ⟨headers,rest,hok,rfl,hrest⟩ := exists_headers tail
        obtain ⟨text,rfl,rfl⟩ := exists_requestText hspaces hline headers hok
        rcases le_or_gt text.headers.length requestHeaderCapacity with hroom | hmany
        · rcases hrest with hstuck | ⟨last,trailing,hcolon,hlast,rfl⟩
          · obtain ⟨input₁,hread₁,hparse⟩ := parse_headerSection leftover htail hroom
            have hnone := parse_stuck leftover (r := text.headed leftover) (.inr rfl)
              (hread₁.symm ▸ hstuck) n
            have hmore := parse_mono hret (text.headers.length + 1)
            rw [← Nat.add_assoc, hparse, hnone] at hmore
            cases hmore
          · obtain ⟨m,input₁,hparse,-⟩ :=
              parse_lastLine leftover trailing htail hroom hcolon hlast
            obtain ⟨-,-,rfl⟩ := ParseResult.returned.inj (parse_unique hret hparse)
            exact ⟨text,⟨last,trailing,hcolon,hlast,htail⟩,hroom,rfl⟩
        · obtain ⟨m,hm⟩ := parse_overrun leftover htail hmany
          cases parse_unique hret hm
  · rintro ⟨text,⟨last,trailing,hcolon,hlast,hread⟩,hroom,rfl⟩
    obtain ⟨n,input',hret,-⟩ := parse_lastLine leftover trailing hread hroom hcolon hlast
    exact ⟨n,1,input',hret⟩

theorem overruns_of_begins {text : RequestText} (h : Begins text input.readable)
    (hmany : requestHeaderCapacity < text.headers.length) : Overruns leftover input httpRequestNew := by
  obtain ⟨last,trailing,-,-,hread⟩ := h
  have hlines : completeLines input.readable = text.requestLine ::
      (text.headers.map headerLine ++ completeLines (last ++ (crlf ++ trailing))) := by
    have hall := @completeLines_joinLines (text.requestLine :: text.headers.map headerLine)
      (fun l hl => text.lines_noCrlf l (by
        rcases List.mem_cons.mp hl with rfl | hl
        · exact List.mem_cons_self
        · exact List.mem_cons_of_mem _ (List.mem_append_left _ hl))) (last ++ (crlf ++ trailing))
    rw [joinLines_cons, List.append_assoc, List.append_assoc] at hall
    rw [hread, hall, List.cons_append]
  have hspaces : 2 ≤ text.requestLine.count 32 := by
    simp only [RequestText.requestLine, List.count_append, List.count_cons_self]
    omega
  have hcolons : ∀ line ∈ text.headers.map headerLine, HasColon line := by
    intro line hin
    obtain ⟨header,-,rfl⟩ := List.mem_map.mp hin
    exact ⟨header.1,header.2,rfl⟩
  by_contra hinside
  have hfits := (not_overruns_iff Reached.new.sound).mp hinside
  simp only [HeaderLinesFit, show httpRequestNew.currentState = .status from rfl, hlines] at hfits
  have hroom := hfits hspaces
  rw [List.takeWhile_append_of_pos (fun line hin => decide_eq_true (hcolons line hin)),
    List.length_append, List.length_map] at hroom
  omega

end Failures

/-- A call is not fatal, keeps to the array of headers, and refuses a first line with less
than two spaces. -/
structure RejectsMalformed (difference : CharDifference) (leftover : Leftover)
    (httpServer : HttpServer) (answer : SendOutcome) (outgoing : Outgoing) (input : Buffer)
    (r : HttpRequest) : Prop where
  noAssertion : ¬ FailsAssertion leftover input r
  noNull : ¬ ReadsNull difference leftover httpServer answer outgoing input r
  inside : ¬ Overruns leftover input r
  refused : ∀ line rest, completeLines input.readable = line :: rest → line.count 32 < 2 →
    ∃ turns input' r', parseHttpRequest leftover turns input r = some (.returned 0 input' r')

/-- The first line, if there is one, has two spaces; the headers fit their array; and a
request at the beginning has a response that can be encoded and, where the socket takes
that whole, a version that is not compared with a missing header. -/
structure Harmless (leftover : Leftover) (httpServer : HttpServer) (answer : SendOutcome)
    (unread : List Byte) : Prop where
  spaces : ∀ line rest, completeLines unread = line :: rest → 2 ≤ line.count 32
  fits : HeaderLinesFit httpRequestNew unread
  response : ∀ text, Begins text unread →
    (httpServer.response (text.parsed leftover)).keepConnected ≠ 0 ∨
      (httpServer.response (text.parsed leftover)).body ≠ none
  connection : ∀ text, Begins text unread → TakesWhole httpServer (text.parsed leftover) answer →
    IsHttp10 (text.parsed leftover) → connectionHeader (text.parsed leftover) ≠ none

theorem rejectsMalformed_iff (difference : CharDifference) (leftover : Leftover)
    (httpServer : HttpServer) (answer : SendOutcome) {outgoing : Outgoing} (hs : outgoing.Idle)
    (input : Buffer) :
    RejectsMalformed difference leftover httpServer answer outgoing input httpRequestNew ↔
      Harmless leftover httpServer answer input.readable := by
  have hassert := @failsAssertion_iff leftover input httpRequestNew rfl
  have hfits := @not_overruns_iff leftover input httpRequestNew Reached.new.sound
  constructor
  · rintro ⟨hnoAssertion,hnoNull,hinside,-⟩
    have hanswer : ∀ text, Begins text input.readable → ¬ (¬
        ((httpServer.response (text.parsed leftover)).keepConnected ≠ 0 ∨
          (httpServer.response (text.parsed leftover)).body ≠ none) ∨
        (TakesWhole httpServer (text.parsed leftover) answer ∧ IsHttp10 (text.parsed leftover) ∧
          connectionHeader (text.parsed leftover) = none)) := by
      intro text hbegins hbad
      have hroom : text.headers.length ≤ requestHeaderCapacity := by
        by_contra hmany
        exact hinside (overruns_of_begins hbegins (not_le.mp hmany))
      obtain ⟨n,ok,input',hret⟩ := parse_returned_iff.mpr ⟨text,hbegins,hroom,rfl⟩
      exact hnoNull ⟨n,ok,input',_,hret,rfl,(httpAnswer_crashed_iff (hs.setInput input')).mpr hbad⟩
    refine ⟨?_,hfits.mp hinside,?_,?_⟩
    · intro line rest hlines
      by_contra hbad
      exact hnoAssertion (hassert.mpr ⟨line,rest,hlines,not_le.mp hbad⟩)
    · intro text hbegins
      by_contra hbad
      exact hanswer text hbegins (.inl hbad)
    · intro text hbegins hwhole h10 hnone
      exact hanswer text hbegins (.inr ⟨hwhole,h10,hnone⟩)
  · rintro ⟨hspaces,hroom,hresponse,hconnection⟩
    refine ⟨?_,?_,hfits.mpr hroom,?_⟩
    · intro hfails
      obtain ⟨line,rest,hlines,hbad⟩ := hassert.mp hfails
      exact not_le.mpr hbad (hspaces line rest hlines)
    · rintro ⟨n,ok,input',r',hret,-,hcrashed⟩
      obtain ⟨text,hbegins,-,rfl⟩ := parse_returned_iff.mp ⟨n,ok,input',hret⟩
      rcases (httpAnswer_crashed_iff (hs.setInput input')).mp hcrashed with hbad | ⟨hwhole,h10,hnone⟩
      · exact hbad (hresponse text hbegins)
      · exact hconnection text hbegins hwhole h10 hnone
    · intro line rest hlines hbad
      exact absurd (hspaces line rest hlines) (not_le.mpr hbad)

namespace HttpConnection
variable {difference : CharDifference} {httpServer : HttpServer}

/-- The request of a connection is one that calls meet, and a new one as long as the
connection goes on. -/
structure Fresh (c : HttpConnection) : Prop where
  reached : Reached c.httpRequest
  new : c.ended = false → c.httpRequest = httpRequestNew
  idle : c.ended = false → c.outgoing.Idle

theorem fresh_new (addr : ℕ) (connectedFd : ℤ) (eventLoop : ℕ) (block : ℕ → Byte) :
    (new addr connectedFd eventLoop block).Fresh :=
  ⟨.new,fun _ => rfl,fun _ => new_idle addr connectedFd eventLoop block⟩

theorem step_fresh {c c' : HttpConnection} {event : ConnectionEvent} {shutdowns : List Shutdown}
    (h : c.Fresh) (hstep : c.step difference httpServer event = some (c', shutdowns)) : c'.Fresh := by
  have hidle := (step_idle h.idle hstep).1
  unfold step at hstep
  split at hstep
  · cases hstep
  rename_i halive
  have hs := h.idle (Bool.not_eq_true _ ▸ halive)
  have hnew := h.new (Bool.not_eq_true _ ▸ halive)
  cases event with
  | read readv realloc leftover turns refusal answer =>
    obtain ⟨⟨input,count⟩,-,hread⟩ := Option.bind_eq_some_iff.mp hstep
    dsimp only at hread
    split at hread
    · split at hread
      · rename_i a r hreturned
        obtain ⟨rfl,-⟩ := Prod.mk.inj (Option.some.inj hread)
        obtain ⟨_,r₁,_,_,-,-,-,-,-,-,rfl⟩ := httpOnMessage_returned hs hreturned
        exact ⟨.new,fun _ => rfl,hidle⟩
      · rename_i a r hhung
        obtain ⟨rfl,-⟩ := Prod.mk.inj (Option.some.inj hread)
        obtain ⟨_,hparse,-⟩ := httpOnMessage_hung hs hhung
        exact ⟨reached_of_returned h.reached hparse,fun hno => absurd hno Bool.noConfusion,hidle⟩
      · cases hread
      · cases hread
    · obtain ⟨rfl,-⟩ := Prod.mk.inj (Option.some.inj hread)
      exact ⟨h.reached,fun _ => hnew,hidle⟩
  | write result =>
    obtain ⟨-,hwrite⟩ := Option.ite_none_right_eq_some.mp hstep
    obtain ⟨rfl,-⟩ := Prod.mk.inj (Option.some.inj hwrite)
    exact ⟨h.reached,fun _ => hnew,hidle⟩

theorem run_fresh {addr : ℕ} {connectedFd : ℤ} {eventLoop : ℕ} {block : ℕ → Byte}
    {events : List ConnectionEvent} {c : HttpConnection} {os : List (List Shutdown)}
    (hrun : run (step difference httpServer) (new addr connectedFd eventLoop block) events =
      some (c, os)) : c.Fresh :=
  run_keeps Fresh (fresh_new addr connectedFd eventLoop block) hrun fun _ _ _ _ h hs => step_fresh h hs

/-- After any run of a connection that goes on, the call on what arrives next is not fatal
and refuses a malformed first line just when the unread bytes are harmless. -/
theorem run_rejectsMalformed (addr : ℕ) (connectedFd : ℤ) (eventLoop : ℕ) (block : ℕ → Byte)
    {events : List ConnectionEvent} {c : HttpConnection} {os : List (List Shutdown)}
    (hrun : run (step difference httpServer) (new addr connectedFd eventLoop block) events =
      some (c, os)) (halive : c.ended = false) :
    ∀ received realloc input count leftover answer,
      bufferSocketRead c.outgoing.connection.inputBuffer (some received) realloc =
        some (input, count) →
      (RejectsMalformed difference leftover httpServer answer c.outgoing input c.httpRequest ↔
        Harmless leftover httpServer answer input.readable) := by
  intro received realloc input count leftover answer _
  rw [(run_fresh hrun).new halive]
  exact rejectsMalformed_iff difference leftover httpServer answer (run_idle hrun halive) input

theorem run_rejectsMalformed_second :
    ∃ c os, run (step byteDifference okServer) (new 0 5 0 fun _ => 0)
        [requestRead plainGet (taking 67)] = some (c, os) ∧ c.ended = false ∧
      ∀ received realloc input count leftover answer,
        bufferSocketRead c.outgoing.connection.inputBuffer (some received) realloc =
          some (input, count) →
        (RejectsMalformed byteDifference leftover okServer answer c.outgoing input c.httpRequest ↔
          Harmless leftover okServer answer input.readable) := by
  obtain ⟨c,os,hrun,halive⟩ : ∃ c os, run (step byteDifference okServer) (new 0 5 0 fun _ => 0)
      [requestRead plainGet (taking 67)] = some (c, os) ∧ c.ended = false := ⟨_,_,rfl,rfl⟩
  exact ⟨c,os,hrun,halive,run_rejectsMalformed 0 5 0 (fun _ => 0) hrun halive⟩

end HttpConnection

/-- A single word, an empty line, and HTTP/1.0 without a header: the first two fail the
assertion and are not refused, the third compares with a null pointer. -/
theorem onMessage_fatal :
    (∀ received ∈ [ascii "GET\r\n", ascii "\r\n"], ∃ input count,
      bufferSocketRead (bufferNew fun _ => 0) (some received) none = some (input, count) ∧
      httpOnMessage byteDifference sampleLeftover okServer 1 (taking 0) (taking 67)
        (HttpConnection.new 0 5 0 fun _ => 0).outgoing input httpRequestNew = some .crashed ∧
      FailsAssertion sampleLeftover input httpRequestNew ∧
      ¬ RejectsMalformed byteDifference sampleLeftover okServer (taking 67)
        (HttpConnection.new 0 5 0 fun _ => 0).outgoing input httpRequestNew) ∧
    ∃ input count, bufferSocketRead (bufferNew fun _ => 0)
        (some (ascii "GET / HTTP/1.0\r\n\r\n")) none = some (input, count) ∧
      ReadsNull byteDifference sampleLeftover okServer (taking 67)
        (HttpConnection.new 0 5 0 fun _ => 0).outgoing input httpRequestNew := by
  have hfatal : ∀ input : Buffer, (∃ line rest, completeLines input.readable = line :: rest ∧
      line.count 32 < 2) → FailsAssertion sampleLeftover input httpRequestNew ∧
        ¬ RejectsMalformed byteDifference sampleLeftover okServer (taking 67)
          (HttpConnection.new 0 5 0 fun _ => 0).outgoing input httpRequestNew := by
    intro input h
    have hfails := (@failsAssertion_iff sampleLeftover input httpRequestNew rfl).mpr h
    exact ⟨hfails,fun hrejects => hrejects.noAssertion hfails⟩
  constructor
  · intro received hin
    simp only [List.mem_cons, List.not_mem_nil, or_false] at hin
    rcases hin with rfl | rfl
    · exact ⟨_,_,rfl,rfl,hfatal _ ⟨ascii "GET",[],by decide,by decide⟩⟩
    · exact ⟨_,_,rfl,rfl,hfatal _ ⟨[],[],by decide,by decide⟩⟩
  · exact ⟨_,_,rfl,4,_,_,_,rfl,rfl,rfl⟩

end CppExamples.HttpTest
