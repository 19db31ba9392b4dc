import CppExamples.HttpTest.MalformedLines

/-! # The array of headers

`http_request_new` allocates the array once, and `http_request_add_header` counts up
without a look at its size.  The header lines that have arrived in front of the end of
the section decide whether a call writes behind it.
-/
namespace CppExamples.HttpTest
open Search Machine

namespace HttpConnection
variable (difference : CharDifference) (httpServer : HttpServer)

/-- The call that the event leads to adds every header inside the array. -/
def StoresHeaders (c : HttpConnection) : ConnectionEvent → Prop
  | .read readv realloc leftover _ _ _ => ∀ input count,
      bufferSocketRead c.outgoing.connection.inputBuffer readv realloc = some (input, count) →
        0 < count → ¬ Overruns leftover input c.httpRequest
  | .write _ => True

def HeadersFit (c : HttpConnection) : ConnectionEvent → Prop
  | .read readv realloc _ _ _ _ => ∀ input count,
      bufferSocketRead c.outgoing.connection.inputBuffer readv realloc = some (input, count) →
        0 < count → HeaderLinesFit c.httpRequest input.readable
  | .write _ => True

theorem storesHeaders_iff {c : HttpConnection} (h : Sound c.httpRequest) (event : ConnectionEvent) :
    c.HeadersFit event ↔ c.StoresHeaders event := by
  cases event with
  | read readv realloc leftover turns refusal answer =>
    refine forall₂_congr fun input count => imp_congr_right fun _ => imp_congr_right fun _ => ?_
    exact (not_overruns_iff h).symm
  | write result => exact Iff.rfl

/-- In every run of a connection, with any requests one after the other, each call stores
the headers inside their array just when at each call the header lines at hand have room
there. -/
theorem run_storesHeaders_iff (addr : ℕ) (connectedFd : ℤ) (eventLoop : ℕ) (block : ℕ → Byte)
    (events : List ConnectionEvent) :
    Admits (step difference httpServer) HeadersFit (new addr connectedFd eventLoop block) events ↔
      ∀ before event after c os, events = before ++ event :: after →
        run (step difference httpServer) (new addr connectedFd eventLoop block) before = some (c, os) →
          c.StoresHeaders event := by
  have hiff : ∀ (c : HttpConnection) (event : ConnectionEvent), c.Fresh → True →
      (c.HeadersFit event ↔ c.StoresHeaders event) :=
    fun _ event h _ => storesHeaders_iff h.reached.sound event
  rw [admits_congr (fun _ _ _ _ h _ hstep => step_fresh h hstep) hiff
    (fresh_new addr connectedFd eventLoop block) (admits_of_forall (fun _ _ => trivial) _ _),
    admits_iff_forall]

end HttpConnection

def manyHeaders (count : ℕ) : List Byte :=
  joinLines (ascii "GET / HTTP/1.1" :: (List.replicate count (ascii "a: b") ++ [[]]))

theorem manyHeaders_length (count : ℕ) : (manyHeaders count).length = 6 * count + 18 := by
  simp [manyHeaders, joinLines, ascii, crlf]
  omega

theorem manyHeaders_fit_iff (count : ℕ) : HeaderLinesFit httpRequestNew (manyHeaders count) ↔
    count ≤ requestHeaderCapacity := by
  have hnoCrlf : ∀ l ∈ ascii "GET / HTTP/1.1" :: (List.replicate count (ascii "a: b") ++ [[]]),
      ¬ crlf <:+: l := by
    intro l hl
    rcases List.mem_cons.mp hl with rfl | hl
    · decide
    rcases List.mem_append.mp hl with hl | hl
    · obtain rfl := List.eq_of_mem_replicate hl
      decide
    · obtain rfl := List.mem_singleton.mp hl
      decide
  have hlines := completeLines_joinLines hnoCrlf []
  have hcolon : HasColon (ascii "a: b") := by decide
  have hblank : ¬ HasColon [] := by decide
  have hspaces : 2 ≤ (ascii "GET / HTTP/1.1").count 32 := by decide
  have htake : (List.replicate count (ascii "a: b") ++ [[]]).takeWhile HasColon =
      List.replicate count (ascii "a: b") := by
    rw [List.takeWhile_append_of_pos (by simp [hcolon])]
    simp [hblank]
  have hnil : completeLines [] = [] := completeLines_of_none rfl
  rw [List.append_nil, hnil, List.append_nil] at hlines
  rw [HeaderLinesFit, show httpRequestNew.currentState = .status from rfl, manyHeaders, hlines]
  simp only [htake, List.length_replicate, hspaces, forall_const]
  rw [show httpRequestNew.requestHeaders.length = 0 from rfl, Nat.zero_add]

/-- The header after those that have room is written behind the array. -/
theorem storesHeaders_overrun : ∃ input count,
    bufferSocketRead (bufferNew fun _ => 0) (some (manyHeaders 385)) none = some (input, count) ∧
      Overruns sampleLeftover input httpRequestNew ∧
      ¬ (HttpConnection.new 0 5 0 fun _ => 0).StoresHeaders
        (.read (some (manyHeaders 385)) none sampleLeftover 500 (taking 0) (taking 0)) := by
  have hv : (bufferNew fun _ => 0).Valid := ⟨le_rfl,Nat.zero_le _⟩
  have hfit : (manyHeaders 385).length ≤ (bufferNew fun _ => 0).writeableSize := by
    rw [manyHeaders_length]
    decide
  have hpos : (0 : ℤ) < (manyHeaders 385).length := by
    rw [manyHeaders_length]
    decide
  have hread := bufferSocketRead_of_le hv hfit none
  have hnothing : (bufferNew fun _ => 0).readable = [] := rfl
  have hmany : ¬ HeaderLinesFit httpRequestNew (manyHeaders 385) :=
    mt (manyHeaders_fit_iff 385).mp (by decide)
  have hoverruns : Overruns sampleLeftover ((bufferNew fun _ => 0).push (manyHeaders 385))
      httpRequestNew := by
    apply not_not.mp
    rw [not_overruns_iff Reached.new.sound, push_readable hv, hnothing, List.nil_append]
    exact hmany
  refine ⟨_,_,hread,hoverruns,?_⟩
  intro hstores
  exact hstores _ _ hread hpos hoverruns

end CppExamples.HttpTest
