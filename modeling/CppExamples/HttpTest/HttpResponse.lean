import CppExamples.HttpTest.CString
import CppExamples.HttpTest.BufferFifo

/-! # Responses and their encoding

The encoder appends one text after another to the output buffer; it has no result
when the length of a missing body is taken.  With room in the buffer the appended
bytes are the texts one behind the other.
-/
namespace CppExamples.HttpTest
open Buffer

structure HttpResponse where
  statusCode : ℤ
  statusMessage : Option (List Byte)
  body : Option (List Byte)
  responseHeaders : List (Option (List Byte) × Option (List Byte))
  keepConnected : ℤ

def httpResponseNew : HttpResponse := ⟨0,none,none,[],0⟩

/-- The digits that `%d` and `%zd` print. -/
def decimal (n : ℤ) : List Byte := ascii (toString n)

/-- The bytes that `buffer_append_string` appends; `none` is a null pointer. -/
def appended : Option (List Byte) → List Byte
  | none => []
  | some chars => cString chars

namespace HttpResponse

def statusText (httpResponse : HttpResponse) : List Byte :=
  snprintf 32 (ascii "HTTP/1.1 " ++ decimal httpResponse.statusCode ++ ascii " ")

def connectionTexts (httpResponse : HttpResponse) : Option (List (Option (List Byte))) :=
  if httpResponse.keepConnected ≠ 0 then some [some (ascii "Connection: close\r\n")]
  else
    httpResponse.body.map fun body =>
      [some (snprintf 32 (ascii "Content-Length: " ++ decimal (cString body).length ++ ascii "\r\n")),
        some (ascii "Connection: Keep-Alive\r\n")]

def headerTexts (header : Option (List Byte) × Option (List Byte)) : List (Option (List Byte)) :=
  [header.1, some (ascii ": "), header.2, some crlf]

/-- The arguments of the calls of `buffer_append_string`. -/
def texts (httpResponse : HttpResponse) : Option (List (Option (List Byte))) :=
  httpResponse.connectionTexts.map fun connection =>
    [some httpResponse.statusText, httpResponse.statusMessage, some crlf] ++ connection ++
      httpResponse.responseHeaders.flatMap headerTexts ++ [some crlf, httpResponse.body]

def encoded (httpResponse : HttpResponse) : Option (List Byte) :=
  httpResponse.texts.map fun texts => texts.flatMap appended

end HttpResponse

def httpResponseEncodeBuffer (httpResponse : HttpResponse) (output : Buffer)
    (realloc : Option (ℕ → Byte)) : Option Buffer :=
  httpResponse.texts.bind fun texts =>
    texts.foldlM (fun b text => bufferAppendString b text realloc) output

/-- Appends of these sizes to a block of `total` bytes, `used` of them readable: where one does
not fit, the block grows by it and its size stays an `int`. -/
def growsWithin : ℕ → ℕ → List ℕ → Bool
  | _, _, [] => true
  | total, used, size :: sizes =>
    if used + size ≤ total then growsWithin total (used + size) sizes
    else total + size ≤ intMax && growsWithin (total + size) (used + size) sizes

theorem growsWithin_fits {total used size : ℕ} {sizes : List ℕ} (h : used + size ≤ total) :
    growsWithin total used (size :: sizes) = growsWithin total (used + size) sizes := by
  rw [growsWithin, if_pos h]

theorem growsWithin_grows {total used size : ℕ} {sizes : List ℕ} (h : ¬ used + size ≤ total) :
    growsWithin total used (size :: sizes) = true ↔
      total + size ≤ intMax ∧ growsWithin (total + size) (used + size) sizes = true := by
  rw [growsWithin, if_neg h, Bool.and_eq_true, decide_eq_true_iff]

theorem room_iff_size {output : Buffer} (hv : output.Valid) {realloc : Option (ℕ → Byte)}
    (hmem : realloc.isSome) (size : ℕ) : output.Room size realloc ↔
      (output.readableSize + size ≤ output.totalSize ∨ output.totalSize + size ≤ intMax) := by
  have hr := hv.read_le
  have hw := hv.write_le
  unfold Buffer.Room frontSpareSize writeableSize readableSize
  rw [and_iff_left hmem]
  omega

/-- Texts whose sizes the block can take are appended one behind the other. -/
theorem appendTexts_spec {texts : List (Option (List Byte))} {output : Buffer}
    {realloc : Option (ℕ → Byte)} (hv : output.Valid) (hmem : realloc.isSome)
    (hsize : growsWithin output.totalSize output.readableSize
      (texts.map fun text => (appended text).length)) :
    ∃ b, texts.foldlM (fun b text => bufferAppendString b text realloc) output = some b ∧
      b.Valid ∧ b.readable = output.readable ++ texts.flatMap appended := by
  induction texts generalizing output with
  | nil => exact ⟨output,rfl,hv,by simp⟩
  | cons text texts ih =>
    rw [List.map_cons] at hsize
    cases text with
    | none =>
      have hnone : output.readableSize + (appended none).length ≤ output.totalSize :=
        (Nat.sub_le ..).trans hv.write_le
      rw [growsWithin_fits hnone] at hsize
      obtain ⟨b,hb,hbv,hread⟩ := ih hv hsize
      exact ⟨b,hb,hbv,by simpa [appended] using hread⟩
    | some chars =>
      have hroom : output.Room (cString chars).length realloc := by
        rw [room_iff_size hv hmem]
        by_cases hfit : output.readableSize + (cString chars).length ≤ output.totalSize
        · exact .inl hfit
        · exact .inr ((growsWithin_grows hfit).mp hsize).1
      obtain ⟨b₁,hb₁,hv₁,hread₁⟩ := bufferAppend_spec hv hroom
      have hlen := congrArg List.length hread₁
      rw [List.length_append, readable_length, readable_length] at hlen
      have hrest : growsWithin b₁.totalSize b₁.readableSize
          (texts.map fun text => (appended text).length) := by
        rw [bufferAppend_totalSize hv hb₁, hlen]
        split
        · rename_i hfit
          rwa [appended, growsWithin_fits hfit] at hsize
        · rename_i hfit
          exact ((growsWithin_grows hfit).mp hsize).2
      obtain ⟨b,hb,hbv,hread⟩ := ih hv₁ hrest
      refine ⟨b,?_,hbv,?_⟩
      · rw [List.foldlM_cons]
        simp only [bufferAppendString, hb₁]
        exact hb
      · rw [hread, hread₁, List.flatMap_cons, List.append_assoc]
        rfl

theorem growsWithin_of_appendTexts {texts : List (Option (List Byte))} {output b : Buffer}
    {realloc : Option (ℕ → Byte)} (hv : output.Valid) (hmem : realloc.isSome)
    (h : texts.foldlM (fun b text => bufferAppendString b text realloc) output = some b) :
    growsWithin output.totalSize output.readableSize
      (texts.map fun text => (appended text).length) := by
  induction texts generalizing output with
  | nil => rfl
  | cons text texts ih =>
    obtain ⟨b₁,hb₁,hrest⟩ := Option.bind_eq_some_iff.mp (List.foldlM_cons.symm.trans h)
    rw [List.map_cons]
    cases text with
    | none =>
      obtain rfl := Option.some.inj hb₁
      have hnone : output.readableSize + (appended none).length ≤ output.totalSize :=
        (Nat.sub_le ..).trans hv.write_le
      rw [growsWithin_fits hnone]
      exact ih hv hrest
    | some chars =>
      have hroom := room_of_bufferAppend hv hb₁
      obtain ⟨b₂,hb₂,hv₁,hread₁⟩ := bufferAppend_spec hv hroom
      obtain rfl := Option.some.inj (hb₁.symm.trans hb₂)
      have hlen := congrArg List.length hread₁
      rw [List.length_append, readable_length, readable_length] at hlen
      have hsize := ih hv₁ hrest
      rw [bufferAppend_totalSize hv hb₁, hlen] at hsize
      by_cases hfit : output.readableSize + (cString chars).length ≤ output.totalSize
      · rw [if_pos hfit] at hsize
        rwa [appended, growsWithin_fits hfit]
      · rw [if_neg hfit] at hsize
        exact (growsWithin_grows hfit).mpr
          ⟨((room_iff_size hv hmem _).mp hroom).resolve_left hfit,hsize⟩

namespace HttpResponse

def sizes (httpResponse : HttpResponse) : List ℕ :=
  (httpResponse.texts.getD []).map fun text => (appended text).length

end HttpResponse

/-- With memory to grow, the encoder has a result for every response whose texts the block can
take, and for no other. -/
theorem httpResponseEncodeBuffer_iff {httpResponse : HttpResponse} {output : Buffer}
    {realloc : Option (ℕ → Byte)} {bytes : List Byte} (hv : output.Valid) (hmem : realloc.isSome)
    (henc : httpResponse.encoded = some bytes) :
    (∃ b, httpResponseEncodeBuffer httpResponse output realloc = some b ∧
      b.readable = output.readable ++ bytes) ↔
      growsWithin output.totalSize output.readableSize httpResponse.sizes = true := by
  obtain ⟨texts,htexts,rfl⟩ := Option.map_eq_some_iff.mp henc
  rw [HttpResponse.sizes, httpResponseEncodeBuffer, htexts, Option.getD_some, Option.bind_some]
  constructor
  · rintro ⟨b,hb,-⟩
    exact growsWithin_of_appendTexts hv hmem hb
  · intro hsize
    obtain ⟨b,hb,-,hread⟩ := appendTexts_spec hv hmem hsize
    exact ⟨b,hb,hread⟩

end CppExamples.HttpTest
