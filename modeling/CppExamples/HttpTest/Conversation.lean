import CppExamples.HttpTest.Pipelining

/-! # Whole conversations

From the bytes that arrive to the bytes that are sent, a connection whose client sends
whole requests, and whose socket takes each response whole, is a queue of requests: every
read answers the oldest one that waits, how ever many arrive with it.
-/
namespace CppExamples.HttpTest
open Memory Machine Search Answering

theorem find_length_le {needle l : List Byte} {i : ℕ} (hne : needle ≠ []) (h : find needle l = some i) :
    i + needle.length ≤ l.length := by
  have hle := (find_spec h).length_le
  have hpos := List.length_pos_of_ne_nil hne
  rw [List.length_drop] at hle
  omega

theorem parseTurn_le {leftover : Leftover} {unread : List Byte} {r r' : HttpRequest} {size : ℕ}
    (h : parseTurn leftover unread r = some (size, r')) : size ≤ unread.length := by
  unfold parseTurn at h
  cases hstate : r.currentState with
  | body | done =>
    simp only [hstate, Option.some.injEq, Prod.mk.injEq] at h
    omega
  | status =>
    simp only [hstate] at h
    cases hfind : find crlf unread with
    | none =>
      simp only [hfind, Option.some.injEq, Prod.mk.injEq] at h
      omega
    | some line =>
      have hle : line + 2 ≤ unread.length := find_length_le (by decide) hfind
      simp only [hfind, Option.map_eq_some_iff] at h
      obtain ⟨q,hq,he⟩ := h
      have hsize : q.1 = line := by
        simp only [processStatusLine, Option.bind_eq_some_iff, Option.map_eq_some_iff] at hq
        obtain ⟨methodSize,-,urlSize,-,rfl⟩ := hq
        simp only [List.length_take]
        omega
      split at he <;> obtain ⟨rfl,-⟩ := Prod.mk.inj he <;> omega
  | headers =>
    simp only [hstate] at h
    cases hfind : find crlf unread with
    | none =>
      simp only [hfind, Option.some.injEq, Prod.mk.injEq] at h
      omega
    | some line =>
      have hle : line + 2 ≤ unread.length := find_length_le (by decide) hfind
      simp only [hfind] at h
      split at h
      next colon _ =>
        obtain ⟨q,-,he⟩ := Option.map_eq_some_iff.mp h
        obtain ⟨rfl,-⟩ := Prod.mk.inj he
        exact hle
      next =>
        obtain ⟨rfl,-⟩ := Prod.mk.inj (Option.some.inj h)
        omega

theorem advance_valid {input : Buffer} {size : ℕ} (hv : input.Valid) (h : size ≤ input.readable.length) :
    (input.advance size).Valid := by
  have hle := hv.read_le
  rw [Buffer.readable_length, Buffer.readableSize] at h
  refine ⟨?_,hv.write_le⟩
  change input.readIndex + size ≤ input.writeIndex
  omega

theorem parse_valid {leftover : Leftover} {turns : ℕ} {input input' : Buffer} {r r' : HttpRequest}
    {ok : ℤ} (hv : input.Valid)
    (h : parseHttpRequest leftover turns input r = some (.returned ok input' r')) : input'.Valid := by
  induction turns generalizing input r with
  | zero => cases h
  | succ turns ih =>
    by_cases hdone : r.currentState = .done
    · simp only [parseHttpRequest, if_pos hdone, Option.some.injEq, ParseResult.returned.injEq] at h
      exact h.2.1 ▸ hv
    · cases hturn : parseTurn leftover input.readable r with
      | none => simp [parseHttpRequest, hdone, hturn] at h
      | some q =>
        rw [parse_turn hdone hturn] at h
        exact ih (advance_valid hv (parseTurn_le hturn)) h

theorem parse_request_within (leftover : Leftover) {text : RequestText} {input : Buffer}
    (trailing : List Byte) (hv : input.Valid) (hread : input.readable = text.bytes ++ trailing)
    (hroom : text.headers.length ≤ requestHeaderCapacity) {turns : ℕ}
    (hturns : text.headers.length + 3 ≤ turns) :
    ∃ input', parseHttpRequest leftover turns input httpRequestNew =
        some (.returned 1 input' (text.parsed leftover)) ∧
      input'.Valid ∧ input'.readable = trailing := by
  have hblank : input.readable = text.requestLine ++ (crlf ++
      (joinLines (text.headers.map headerLine) ++ (crlf ++ trailing))) := by
    rw [hread, text.bytes_eq]
    simp
  obtain ⟨input₁,hread₁,hparse⟩ := parse_headerSection leftover hblank hroom
  obtain ⟨k,rfl⟩ := Nat.exists_eq_add_of_le hturns
  have hturn : parseTurn leftover input₁.readable (text.headed leftover) =
      some (2, text.parsed leftover) := by
    have hfind := @find_crlf [] trailing (by decide)
    simp only [List.nil_append] at hfind
    simp [hread₁, parseTurn, RequestText.headed, RequestText.started, RequestText.parsed, hfind,
      find, ascii]
  have hresult : parseHttpRequest leftover (text.headers.length + 3 + k) input httpRequestNew =
      some (.returned 1 (input₁.advance 2) (text.parsed leftover)) := by
    rw [show text.headers.length + 3 + k = (k + 1 + 1) + text.headers.length + 1 by omega, hparse,
      parse_turn (by simp [RequestText.headed, RequestText.started]) hturn]
    simp [parseHttpRequest, RequestText.parsed]
  refine ⟨input₁.advance 2,hresult,parse_valid hv hresult,?_⟩
  rw [advance_readable, hread₁]
  rfl

/-- Whole requests that one read brings, and what the event meets. -/
structure Arrival where
  texts : List RequestText
  realloc : Option (ℕ → Byte)
  leftover : Leftover
  turns : ℕ
  refusal : SendOutcome
  outcome : SendOutcome

def Arrival.bytes (a : Arrival) : List Byte := a.texts.flatMap RequestText.bytes

inductive ServiceEvent where
  | arrival (a : Arrival)
  | writable (result : WriteResult)

def ServiceEvent.event : ServiceEvent → ConnectionEvent
  | .arrival a => .read (some a.bytes) a.realloc a.leftover a.turns a.refusal a.outcome
  | .writable result => .write result

def ServiceEvent.arrival? : ServiceEvent → Option Arrival
  | .arrival a => some a
  | .writable _ => none

def answer (httpServer : HttpServer) (leftover : Leftover) (text : RequestText) : List Byte :=
  (httpServer.response (text.parsed leftover)).encoded.getD []

/-- What the connection is for: the requests that wait for their answers, and the answers
given so far. -/
structure Service where
  queue : List RequestText
  stream : List Byte

def Service.step (httpServer : HttpServer) (s : Service) :
    ServiceEvent → Option (Service × List Shutdown)
  | .arrival a =>
    match s.queue ++ a.texts with
    | [] => none
    | text :: queue => some (⟨queue,s.stream ++ answer httpServer a.leftover text⟩, [])
  | .writable _ => some (s, [])

/-- The requests whose connection is kept, whatever `malloc` leaves in their blocks. -/
def Kept (difference : CharDifference) (httpServer : HttpServer) (text : RequestText) : Prop :=
  ∀ leftover, Answerable leftover httpServer text ∧ ¬ AsksClose difference (text.parsed leftover)

namespace HttpConnection
variable (difference : CharDifference) (httpServer : HttpServer)

def serviceStep (c : HttpConnection) (e : ServiceEvent) : Option (HttpConnection × List Shutdown) :=
  c.step difference httpServer e.event

def sends (c : HttpConnection) (a : Arrival) : List Byte :=
  match (bufferSocketRead c.outgoing.connection.inputBuffer (some a.bytes) a.realloc).bind fun r =>
      parseHttpRequest a.leftover a.turns r.1 c.httpRequest with
  | some (.returned _ _ r) => (httpServer.response r).encoded.getD []
  | some .crashed => []
  | none => []

/-- Something arrives and all of it can be answered; it fits the input buffer, and the socket
takes the response whole. -/
structure Accepts (c : HttpConnection) (a : Arrival) : Prop where
  some_text : a.texts ≠ []
  kept : ∀ text ∈ a.texts, Kept difference httpServer text
  receives : c.outgoing.connection.inputBuffer.Receives a.bytes a.realloc
  turns : requestHeaderCapacity + 3 ≤ a.turns
  size : (c.sends httpServer a).length ≤ intMax
  whole : a.outcome.result = .wrote (c.sends httpServer a).length

def ServiceAllowed (c : HttpConnection) : ServiceEvent → Prop
  | .arrival a => c.Accepts difference httpServer a
  | .writable result => result.count ≤ c.outgoing.output.readableSize

/-- The connection stands for the service: the waiting requests are unread, and the answers
are what the socket took. -/
structure Serves (c : HttpConnection) (s : Service) : Prop where
  idle : c.outgoing.Idle
  written : c.outgoing.written = s.stream
  valid : c.outgoing.connection.inputBuffer.Valid
  unread : c.outgoing.connection.inputBuffer.readable = s.queue.flatMap RequestText.bytes
  kept : ∀ text ∈ s.queue, Kept difference httpServer text
  httpRequest : c.httpRequest = httpRequestNew
  alive : c.ended = false

end HttpConnection

theorem onMessage_kept {difference : CharDifference} {httpServer : HttpServer} {leftover : Leftover}
    {refusal outcome : SendOutcome} {outgoing : Outgoing} {text : RequestText} {input input' : Buffer}
    {turns : ℕ} (hs : outgoing.Idle) (hkept : Kept difference httpServer text)
    (hparse : parseHttpRequest leftover turns input httpRequestNew =
      some (.returned 1 input' (text.parsed leftover)))
    (hsize : (answer httpServer leftover text).length ≤ intMax)
    (hwhole : outcome.result = .wrote (answer httpServer leftover text).length) :
    httpOnMessage difference leftover httpServer turns refusal outcome outgoing input httpRequestNew =
      some (.returned (answered (outgoing.setInput input') (answer httpServer leftover text) false)
        httpRequestNew) := by
  obtain ⟨hanswerable,hclose⟩ := hkept leftover
  obtain ⟨bytes,henc⟩ := (encoded_isSome_iff _).mpr hanswerable.response
  have hanswer : answer httpServer leftover text = bytes := by rw [answer, henc, Option.getD_some]
  rw [hanswer] at hsize hwhole ⊢
  rcases closeConnection_spec difference (text.parsed leftover) with ⟨h10,hnone,-⟩ | ⟨b,-,hb,hasks⟩
  · exact absurd hnone (hanswerable.connection h10)
  · have hstays : b = false := by
      cases b
      · rfl
      · exact absurd (hasks.mp rfl) hclose
    rw [httpOnMessage_parsed hs hparse, httpAnswer_whole (hs.setInput input') henc hsize hwhole, hb, hstays]
    rfl

namespace HttpConnection
variable {difference : CharDifference} {httpServer : HttpServer} {c : HttpConnection} {s : Service}

/-- A read answers the oldest waiting request. -/
theorem Serves.arrival (h : c.Serves difference httpServer s) {a : Arrival}
    (hok : c.Accepts difference httpServer a) :
    ∃ c' s' o, c.serviceStep difference httpServer (.arrival a) = some (c', o) ∧
      s.step httpServer (.arrival a) = some (s', o) ∧ c'.Serves difference httpServer s' := by
  obtain ⟨hsome,hkept,hreceives,hturns,hsize,hwhole⟩ := hok
  obtain ⟨b,hread,hb,hbytes⟩ := bufferSocketRead_spec h.valid hreceives
  obtain ⟨text,queue,hqueue⟩ : ∃ text queue, s.queue ++ a.texts = text :: queue :=
    List.exists_cons_of_ne_nil fun hnil => hsome (List.append_eq_nil_iff.mp hnil).2
  have hall : ∀ other ∈ text :: queue, Kept difference httpServer other := by
    rw [← hqueue]
    exact List.forall_mem_append.mpr ⟨h.kept,hkept⟩
  have hunread : b.readable = text.bytes ++ queue.flatMap RequestText.bytes := by
    rw [hbytes, h.unread, Arrival.bytes, ← List.flatMap_append, hqueue, List.flatMap_cons]
  have hheaders := (hall text List.mem_cons_self a.leftover).1.headers
  obtain ⟨input,hparse,hinput,hrest⟩ := parse_request_within a.leftover _ hb hunread hheaders
    (le_trans (Nat.add_le_add_right hheaders 3) hturns)
  have hsends : c.sends httpServer a = answer httpServer a.leftover text := by
    rw [sends, hread, Option.bind_some, h.httpRequest, hparse]
    rfl
  rw [hsends] at hsize hwhole
  have hmessage := @onMessage_kept difference httpServer a.leftover a.refusal a.outcome _ text b input
    a.turns h.idle (hall text List.mem_cons_self) hparse hsize hwhole
  have hpos : (0 : ℤ) < a.bytes.length := by
    obtain ⟨first,more,hfirst⟩ := List.exists_cons_of_ne_nil hsome
    have hne := List.length_pos_of_ne_nil (bytes_ne_nil first)
    rw [Arrival.bytes, hfirst, List.flatMap_cons, List.length_append]
    omega
  let outgoing := (c.outgoing.setInput input).take (answer httpServer a.leftover text)
  refine ⟨⟨outgoing,httpRequestNew,false⟩,⟨queue,s.stream ++ answer httpServer a.leftover text⟩,
    [],?_,?_,?_⟩
  · simp only [serviceStep, ServiceEvent.event, step, h.alive, Bool.false_eq_true, if_false, hread,
      Option.bind_some, if_pos hpos, h.httpRequest, hmessage]
    rfl
  · simp only [Service.step, hqueue]
  · refine ⟨(h.idle.setInput input).take _,?_,hinput,hrest,?_,rfl,rfl⟩
    · exact congrArg (· ++ answer httpServer a.leftover text) h.written
    · exact fun other hother => hall other (List.mem_cons_of_mem _ hother)

theorem Serves.writable (h : c.Serves difference httpServer s) {result : WriteResult}
    (hok : result.count ≤ c.outgoing.output.readableSize) :
    ∃ c' s' o, c.serviceStep difference httpServer (.writable result) = some (c', o) ∧
      s.step httpServer (.writable result) = some (s', o) ∧ c'.Serves difference httpServer s' := by
  have hnothing := h.idle.handleWrite hok
  refine ⟨c,s,[],?_,rfl,h⟩
  simp only [serviceStep, ServiceEvent.event, step, h.alive, Bool.false_eq_true, if_false, if_pos hok,
    hnothing, h.idle.goesOn]
  rw [← h.alive]

theorem serves_new (addr : ℕ) (connectedFd : ℤ) (eventLoop : ℕ) (block : ℕ → Byte) :
    (new addr connectedFd eventLoop block).Serves difference httpServer ⟨[],[]⟩ where
  idle := new_idle addr connectedFd eventLoop block
  written := rfl
  valid := ⟨le_rfl,Nat.zero_le _⟩
  unread := rfl
  kept text htext := by cases htext
  httpRequest := rfl
  alive := rfl

end HttpConnection

/-- As many requests are answered as reads were made, the oldest first. -/
theorem serviceRun {httpServer : HttpServer} {s t : Service} {events : List ServiceEvent}
    {os : List (List Shutdown)} (hrun : run (Service.step httpServer) s events = some (t, os)) :
    let arrivals := events.filterMap ServiceEvent.arrival?
    let requests := s.queue ++ arrivals.flatMap Arrival.texts
    t.queue = requests.drop arrivals.length ∧
      t.stream = s.stream ++
        (List.zipWith (fun a text => answer httpServer a.leftover text) arrivals requests).flatten ∧
      os.flatten = [] := by
  induction events generalizing s os with
  | nil =>
    obtain ⟨rfl,rfl⟩ := Prod.mk.inj (Option.some.inj hrun)
    simp
  | cons e events ih =>
    obtain ⟨u,o,os',hstep,hrest,rfl⟩ := run_cons_eq_some hrun
    obtain ⟨hqueue,hstream,hos⟩ := ih hrest
    cases e with
    | writable result =>
      obtain ⟨rfl,rfl⟩ := Prod.mk.inj (Option.some.inj hstep)
      exact ⟨hqueue,hstream,hos⟩
    | arrival a =>
      simp only [Service.step] at hstep
      split at hstep
      next => cases hstep
      next text queue hfirst =>
        obtain ⟨rfl,rfl⟩ := Prod.mk.inj (Option.some.inj hstep)
        have hrequests : ∀ later, s.queue ++ (a.texts ++ later) = text :: (queue ++ later) := by
          intro later
          rw [← List.append_assoc, hfirst, List.cons_append]
        simp only [List.filterMap_cons, ServiceEvent.arrival?, List.flatMap_cons, hrequests,
          List.length_cons, List.drop_succ_cons, List.zipWith_cons_cons, List.flatten_cons,
          List.nil_append]
        exact ⟨hqueue,by rw [hstream, List.append_assoc],hos⟩

theorem sampleRequest_kept : Kept byteDifference okServer sampleRequest := by
  intro leftover
  have hconnection : connectionHeader (sampleRequest.parsed leftover) = none := by
    change ([storedHeader (ascii "Host",ascii "a")].find? fun header =>
      ascii "Connection" <+: header.1).map Prod.snd = none
    decide
  have hversion : ¬ IsHttp10 (sampleRequest.parsed leftover) := by
    rintro ⟨version,hsome,hstarts⟩
    obtain rfl := Option.some.inj hsome
    exact absurd (show http10 <+: ascii "HTTP/1.1" from hstarts) (by decide)
  refine ⟨⟨by decide,.inr (Option.some_ne_none (ascii "hello")),fun h10 => absurd h10 hversion⟩,?_⟩
  rintro ⟨connection,hsome,-⟩
  rw [hconnection] at hsome
  cases hsome

def sampleArrival (count : ℕ) : Arrival :=
  ⟨List.replicate count sampleRequest,some fun _ => 0,sampleLeftover,requestHeaderCapacity + 3,
    taking 0,taking 67⟩

end CppExamples.HttpTest
