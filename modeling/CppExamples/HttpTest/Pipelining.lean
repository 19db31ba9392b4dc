import CppExamples.HttpTest.HttpClosing

/-! # Several requests in one buffer

A call of `http_onMessage` parses and answers one request and returns; the bytes behind it
stay in the input buffer until more arrive.
-/
namespace CppExamples.HttpTest
open Memory Search Machine Answering

/-- A call sends one response to each of the requests, in their order, has them taken by
the socket, and leaves no complete request in the buffer. -/
def AnswersAll (difference : CharDifference) (leftover : Leftover) (httpServer : HttpServer)
    (refusal answer : SendOutcome) (outgoing : Outgoing) (input : Buffer) (texts : List RequestText) :
    Prop :=
  ∃ turns a r,
    httpOnMessage difference leftover httpServer turns refusal answer outgoing input httpRequestNew =
      some (.returned a r) ∧
    List.Forall₂ (fun text bytes => ∃ leftover,
      (httpServer.response (RequestText.parsed text leftover)).encoded = some bytes) texts a.sent ∧
    a.outgoing.written = outgoing.written ++ a.sent.flatten ∧
    ¬ ∃ text trailing, a.outgoing.connection.inputBuffer.readable = RequestText.bytes text ++ trailing

/-- A request that is parsed and answered: its headers fit their array, the response has a
body or is not kept, and the version is not compared with a missing header. -/
structure Answerable (leftover : Leftover) (httpServer : HttpServer) (text : RequestText) : Prop where
  headers : text.headers.length ≤ requestHeaderCapacity
  response : (httpServer.response (text.parsed leftover)).keepConnected ≠ 0 ∨
    (httpServer.response (text.parsed leftover)).body ≠ none
  connection : IsHttp10 (text.parsed leftover) → connectionHeader (text.parsed leftover) ≠ none

theorem bytes_ne_nil (text : RequestText) : text.bytes ≠ [] := by
  rw [text.bytes_eq]
  simp [RequestText.requestLine]

variable {difference : CharDifference} {leftover : Leftover} {httpServer : HttpServer}
  {refusal answer : SendOutcome} {outgoing : Outgoing} {text : RequestText} {input : Buffer}

theorem onMessage_answers (hs : outgoing.Idle) (h : Answerable leftover httpServer text)
    (hwhole : TakesWhole httpServer (text.parsed leftover) answer)
    (hclose : ¬ AsksClose difference (text.parsed leftover)) (trailing : List Byte)
    (hread : input.readable = text.bytes ++ trailing) :
    ∃ turns input' bytes,
      httpOnMessage difference leftover httpServer turns refusal answer outgoing input httpRequestNew =
        some (.returned (answered (outgoing.setInput input') bytes false) httpRequestNew) ∧
      (httpServer.response (text.parsed leftover)).encoded = some bytes ∧
      input'.readable = trailing := by
  obtain ⟨turns,input',hparse,hrest⟩ := parse_request leftover trailing hread h.headers
  obtain ⟨bytes,henc⟩ := (encoded_isSome_iff _).mpr h.response
  obtain ⟨hsize,hwrote⟩ := hwhole bytes henc
  rcases closeConnection_spec difference (text.parsed leftover) with ⟨h10,hnone,-⟩ | ⟨b,-,hb,hasks⟩
  · exact absurd hnone (h.connection h10)
  · have hkept : b = false := by
      cases b
      · rfl
      · exact absurd (hasks.mp rfl) hclose
    refine ⟨turns,input',bytes,?_,henc,hrest⟩
    rw [httpOnMessage_parsed hs hparse, httpAnswer_whole (hs.setInput input') henc hsize hwrote, hb, hkept]
    rfl

theorem answerable_of_returned {turns : ℕ} {a : Answering} {r : HttpRequest} (hs : outgoing.Idle)
    (hread : input.readable = text.bytes)
    (h : httpOnMessage difference leftover httpServer turns refusal answer outgoing input
      httpRequestNew = some (.returned a r)) :
    Answerable leftover httpServer text ∧ TakesWhole httpServer (text.parsed leftover) answer := by
  obtain ⟨_,r₁,bytes,close,hparse,henc,hsize,hwrote,hclose,-,-⟩ := httpOnMessage_returned hs h
  have hheaders : text.headers.length ≤ requestHeaderCapacity := by
    by_contra hmany
    obtain ⟨m,hm⟩ := parse_overfull leftover hread (not_le.mp hmany)
    cases parse_unique hm hparse
  obtain ⟨m,input₁,hm,-⟩ := parse_request leftover [] (by rw [hread, List.append_nil]) hheaders
  obtain ⟨-,-,rfl⟩ := ParseResult.returned.inj (parse_unique hm hparse)
  refine ⟨⟨hheaders,(encoded_isSome_iff _).mp ⟨bytes,henc⟩,?_⟩,?_⟩
  · intro h10 hnone
    rcases closeConnection_spec difference (text.parsed leftover) with ⟨-,-,hno⟩ | ⟨_,hheader,-⟩
    · cases hno.symm.trans hclose
    · exact hheader h10 hnone
  · intro other hother
    obtain rfl := Option.some.inj (henc.symm.trans hother)
    exact ⟨hsize,hwrote⟩

/-- Requests that stand behind each other in the buffer and do not ask to close are all
answered by one call exactly when there is one of them, it can be answered, and the socket
takes its response whole. -/
theorem answersAll_iff (hs : outgoing.Idle) {texts : List RequestText} (hne : texts ≠ [])
    (hread : input.readable = texts.flatMap RequestText.bytes)
    (hclose : ∀ text ∈ texts, ¬ AsksClose difference (text.parsed leftover)) :
    AnswersAll difference leftover httpServer refusal answer outgoing input texts ↔
      texts.length = 1 ∧ ∀ text ∈ texts, Answerable leftover httpServer text ∧
        TakesWhole httpServer (text.parsed leftover) answer := by
  constructor
  · rintro ⟨turns,a,r,hreturn,hanswers,-⟩
    obtain ⟨_,_,bytes,close,-,-,-,-,-,rfl,-⟩ := httpOnMessage_returned hs hreturn
    rw [answered_sent] at hanswers
    obtain ⟨text,rfl⟩ := List.length_eq_one_iff.mp hanswers.length_eq
    refine ⟨rfl,fun text' htext => ?_⟩
    obtain rfl := List.mem_singleton.mp htext
    exact answerable_of_returned hs (by rw [hread, List.flatMap_singleton]) hreturn
  · rintro ⟨hone,hanswerable⟩
    obtain ⟨text,rfl⟩ := List.length_eq_one_iff.mp hone
    have hmem : text ∈ [text] := List.mem_singleton_self text
    obtain ⟨hable,hwhole⟩ := hanswerable text hmem
    obtain ⟨turns,input',bytes,hreturn,henc,hrest⟩ := @onMessage_answers difference leftover
      httpServer refusal answer outgoing text input hs hable hwhole
      (hclose text hmem) [] (by rw [hread, List.flatMap_singleton, List.append_nil])
    refine ⟨turns,_,_,hreturn,.cons ⟨leftover,henc⟩ .nil,?_,?_⟩
    · simp [answered, Outgoing.take, Outgoing.setInput]
    · rintro ⟨text',trailing,he⟩
      have hnil : [] = text'.bytes ++ trailing := hrest.symm.trans he
      exact bytes_ne_nil text' (List.append_eq_nil_iff.mp hnil.symm).1

namespace HttpConnection

end HttpConnection

theorem sampleRequest_stays : ¬ AsksClose byteDifference (sampleRequest.parsed sampleLeftover) := by
  have hnone : connectionHeader (sampleRequest.parsed sampleLeftover) = none := by decide
  rintro ⟨connection,hsome,-⟩
  rw [hnone] at hsome
  cases hsome

namespace HttpConnection

end HttpConnection

end CppExamples.HttpTest
