import CppExamples.HttpTest.HttpClosing

/-! # Decoding encoded responses

A receiver cuts the bytes of a response at the first blank line, the head before it into
lines, and a header line at its first `: `.  When no text of the response contains the
two characters that end a line, the fields come back as they were given, with the body
behind them.
-/
namespace CppExamples.HttpTest
open Buffer Search

def headerField (line : List Byte) : Option (List Byte × List Byte) := cut (ascii ": ") line

/-- The first line of the head, the fields on its other lines, and what follows the
blank line. -/
def decodeResponse (bytes : List Byte) :
    Option (List Byte × List (List Byte × List Byte) × List Byte) :=
  (cut (crlf ++ crlf) bytes).bind fun r =>
    match lines 13 10 r.1 with
    | [] => none
    | first :: rest => (rest.mapM headerField).map fun fields => (first, fields, r.2)

def decimalValue (digits : List Byte) : ℕ := digits.foldl (fun n d => 10 * n + (d.toNat - 48)) 0

namespace HttpResponse

def statusLine (httpResponse : HttpResponse) : List Byte :=
  ascii "HTTP/1.1 " ++ decimal httpResponse.statusCode ++ ascii " " ++
    appended httpResponse.statusMessage

def contentLength (httpResponse : HttpResponse) : List Byte :=
  decimal (appended httpResponse.body).length

def connection (httpResponse : HttpResponse) : List Byte :=
  if httpResponse.keepConnected ≠ 0 then close else keepAlive

def headers (httpResponse : HttpResponse) : List (List Byte × List Byte) :=
  httpResponse.responseHeaders.map fun header => (appended header.1, appended header.2)

def fields (httpResponse : HttpResponse) : List (List Byte × List Byte) :=
  (if httpResponse.keepConnected ≠ 0 then []
    else [(ascii "Content-Length", httpResponse.contentLength)]) ++
    (ascii "Connection", httpResponse.connection) :: httpResponse.headers

/-- No text ends a line, and the names of the headers are their own. -/
structure Plain (httpResponse : HttpResponse) : Prop where
  statusCode : -2 ^ 31 ≤ httpResponse.statusCode ∧ httpResponse.statusCode < 2 ^ 31
  statusMessage : ¬ crlf <:+: appended httpResponse.statusMessage
  key : ∀ header ∈ httpResponse.headers, ¬ crlf <:+: header.1 ∧ ¬ ascii ": " <:+: header.1
  value : ∀ header ∈ httpResponse.headers, ¬ crlf <:+: header.2
  name : ∀ header ∈ httpResponse.headers,
    header.1 ≠ ascii "Content-Length" ∧ header.1 ≠ ascii "Connection"

end HttpResponse

theorem decimal_natCast (n : ℕ) :
    decimal n = (Nat.toDigits 10 n).map fun c => c.toNat.toUInt8 := by
  simp [decimal, ascii, Int.repr_eq_if]

theorem digit_toNat {c : Char} (h : c.isDigit) : 48 ≤ c.toNat ∧ c.toNat ≤ 57 := by
  simp only [Char.isDigit, Bool.and_eq_true, decide_eq_true_eq, UInt32.le_iff_toNat_le] at h
  exact h

theorem decimal_digit {n : ℕ} {d : Byte} (h : d ∈ decimal n) : 48 ≤ d.toNat ∧ d.toNat ≤ 57 := by
  rw [decimal_natCast] at h
  obtain ⟨c,hc,rfl⟩ := List.mem_map.mp h
  have hdigit := digit_toNat (Nat.isDigit_of_mem_toDigits (by decide) (by decide) hc)
  rw [Nat.toUInt8_eq, UInt8.toNat_ofNat']
  omega

theorem decimalValue_decimal (n : ℕ) : decimalValue (decimal n) = n := by
  have hfold : ∀ (cs : List Char) (start : ℕ), (∀ c ∈ cs, c.isDigit) →
      (cs.map fun c => c.toNat.toUInt8).foldl (fun m d => 10 * m + (d.toNat - 48)) start =
        Nat.ofDigitChars 10 cs start := by
    intro cs
    induction cs with
    | nil => intro start _; rfl
    | cons c cs ih =>
      intro start hcs
      obtain ⟨hc,hcs⟩ := List.forall_mem_cons.mp hcs
      have hdigit := digit_toNat hc
      have hbyte : c.toNat.toUInt8.toNat = c.toNat := by
        rw [Nat.toUInt8_eq, UInt8.toNat_ofNat']
        omega
      rw [List.map_cons, List.foldl_cons, ih _ hcs, Nat.ofDigitChars_cons, hbyte]
      rfl
  rw [decimalValue, decimal_natCast, hfold _ 0 fun c hc =>
    Nat.isDigit_of_mem_toDigits (by decide) (by decide) hc]
  exact Nat.ofDigitChars_ten_toDigits

theorem decimal_length {n k : ℕ} (hk : 0 < k) (h : n < 10 ^ k) : (decimal n).length ≤ k := by
  rw [decimal_natCast, List.length_map]
  exact Nat.toDigits_length 10 n k hk h

theorem decimal_neg {n : ℤ} (h : n < 0) : decimal n = 45 :: decimal (-n).toNat := by
  have hminus : ascii "-" = [45] := by decide
  have happend : ∀ s t : String, ascii (s ++ t) = ascii s ++ ascii t := by
    intro s t
    simp [ascii]
  rw [decimal, Int.toString_eq_repr, Int.repr_eq_if, if_neg (by omega), happend, hminus, decimal,
    Int.toString_eq_repr, Int.repr_eq_if, if_pos (Int.natCast_nonneg _), Int.toNat_natCast]
  rfl

theorem decimal_int {n : ℤ} (h : -2 ^ 31 ≤ n ∧ n < 2 ^ 31) :
    (decimal n).length ≤ 11 ∧ ∀ d ∈ decimal n, 45 ≤ d.toNat := by
  rcases lt_or_ge n 0 with hneg | hpos
  · rw [decimal_neg hneg]
    have hlen := decimal_length (n := (-n).toNat) (k := 10) (by decide) (by omega)
    refine ⟨by rw [List.length_cons]; omega,?_⟩
    intro d hd
    rcases List.mem_cons.mp hd with rfl | hd
    · decide
    · have := decimal_digit hd
      omega
  · obtain ⟨m,rfl⟩ := Int.eq_ofNat_of_zero_le hpos
    have hlen := decimal_length (n := m) (k := 10) (by decide) (by omega)
    refine ⟨by omega,?_⟩
    intro d hd
    have := decimal_digit hd
    omega

theorem snprintf_of_length {size : ℕ} {text : List Byte} (h : text.length < size) :
    snprintf size text = text :=
  List.take_of_length_le (by omega)

/-- The scratch of 32 characters takes the beginning of the status line. -/
theorem cString_statusText {httpResponse : HttpResponse}
    (h : -2 ^ 31 ≤ httpResponse.statusCode ∧ httpResponse.statusCode < 2 ^ 31) :
    cString httpResponse.statusText =
      ascii "HTTP/1.1 " ++ decimal httpResponse.statusCode ++ ascii " " := by
  obtain ⟨hlen,hchars⟩ := decimal_int h
  have hhttp : (ascii "HTTP/1.1 ").length = 9 ∧ 0 ∉ ascii "HTTP/1.1 " := ⟨rfl,by decide⟩
  have hblank : (ascii " ").length = 1 ∧ 0 ∉ ascii " " := ⟨rfl,by decide⟩
  have hdecimal : 0 ∉ decimal httpResponse.statusCode := fun hc =>
    absurd (hchars 0 hc) (by decide)
  rw [HttpResponse.statusText, snprintf_of_length (by simp only [List.length_append]; omega)]
  refine cString_of_notMem ?_
  simp only [List.mem_append, not_or]
  exact ⟨⟨hhttp.2,hdecimal⟩,hblank.2⟩

theorem cString_contentLength {n : ℕ} (h : n < 10 ^ 13) :
    cString (snprintf 32 (ascii "Content-Length: " ++ decimal n ++ ascii "\r\n")) =
      ascii "Content-Length: " ++ decimal n ++ crlf := by
  have hlen := decimal_length (by decide) h
  have hname : (ascii "Content-Length: ").length = 16 ∧ 0 ∉ ascii "Content-Length: " :=
    ⟨rfl,by decide⟩
  have hend : ascii "\r\n" = crlf ∧ crlf.length = 2 ∧ 0 ∉ crlf := ⟨rfl,rfl,by decide⟩
  have hdecimal : 0 ∉ decimal n := fun hc => absurd (decimal_digit hc).1 (by decide)
  rw [hend.1, snprintf_of_length (by simp only [List.length_append]; omega)]
  refine cString_of_notMem ?_
  simp only [List.mem_append, not_or]
  exact ⟨⟨hname.2,hdecimal⟩,hend.2.2⟩

theorem notMem_noCrlf {line : List Byte} (h : 13 ∉ line) : ¬ crlf <:+: line :=
  fun hin => h (hin.subset List.mem_cons_self)

theorem decimal_noCr {n : ℤ} (h : -2 ^ 31 ≤ n ∧ n < 2 ^ 31) : 13 ∉ decimal n :=
  fun hc => absurd ((decimal_int h).2 13 hc) (by decide)

theorem HttpResponse.Plain.statusLine_noCrlf {httpResponse : HttpResponse}
    (h : httpResponse.Plain) : ¬ crlf <:+: httpResponse.statusLine := by
  have hhttp : 13 ∉ ascii "HTTP/1.1 " := by decide
  have hblank : ascii " " = [32] := rfl
  have hfront : ¬ crlf <:+: ascii "HTTP/1.1 " ++ decimal httpResponse.statusCode := by
    refine notMem_noCrlf ?_
    rw [List.mem_append, not_or]
    exact ⟨hhttp,decimal_noCr h.statusCode⟩
  rw [HttpResponse.statusLine, hblank, List.append_assoc]
  exact noCrlf_append (by decide) (by decide) hfront h.statusMessage

theorem contentLength_noCr (httpResponse : HttpResponse) : 13 ∉ httpResponse.contentLength :=
  fun hc => absurd (decimal_digit hc).1 (by decide)

theorem connection_noCr (httpResponse : HttpResponse) : 13 ∉ httpResponse.connection := by
  unfold HttpResponse.connection
  split <;> decide

theorem HttpResponse.Plain.fields {httpResponse : HttpResponse} (h : httpResponse.Plain)
    {field : List Byte × List Byte} (hfield : field ∈ httpResponse.fields) :
    (¬ crlf <:+: field.1 ∧ ¬ ascii ": " <:+: field.1) ∧ ¬ crlf <:+: field.2 := by
  have hlength : ¬ crlf <:+: ascii "Content-Length" ∧ ¬ ascii ": " <:+: ascii "Content-Length" := by
    decide
  have hconnection : ¬ crlf <:+: ascii "Connection" ∧ ¬ ascii ": " <:+: ascii "Connection" := by
    decide
  simp only [HttpResponse.fields, List.mem_append, List.mem_cons] at hfield
  rcases hfield with hfield | rfl | hfield
  · split at hfield
    · simp at hfield
    · obtain rfl := List.mem_singleton.mp hfield
      exact ⟨hlength,notMem_noCrlf (contentLength_noCr httpResponse)⟩
  · exact ⟨hconnection,notMem_noCrlf (connection_noCr httpResponse)⟩
  · exact ⟨h.key field hfield,h.value field hfield⟩

theorem HttpResponse.Plain.fieldLines {httpResponse : HttpResponse} (h : httpResponse.Plain)
    (hbody : (appended httpResponse.body).length < 10 ^ 13) :
    httpResponse.fieldLines = httpResponse.statusLine :: httpResponse.fields.map headerLine := by
  have hstatus : lines 13 10 (cString httpResponse.statusText ++
      appended httpResponse.statusMessage) = [httpResponse.statusLine] := by
    rw [cString_statusText h.statusCode]
    exact lines_eq_singleton h.statusLine_noCrlf
  have hheaders : (httpResponse.responseHeaders.flatMap fun header =>
      lines 13 10 (appended header.1 ++ ascii ": " ++ appended header.2)) =
      httpResponse.headers.map headerLine := by
    rw [HttpResponse.headers, List.map_map, List.map_eq_flatMap]
    refine List.flatMap_congr ?_
    intro header hmem
    have hheader := List.mem_map_of_mem (f := fun header => (appended header.1, appended header.2)) hmem
    exact lines_eq_singleton (headerLine_noCrlf (h.key _ hheader).1 (h.value _ hheader))
  have hkeepAlive : lines 13 10 (ascii "Connection: Keep-Alive") =
      [headerLine (ascii "Connection", keepAlive)] := by decide
  have hclose : closeLine = headerLine (ascii "Connection", close) := by decide
  have hlength : lines 13 10 (cString (snprintf 32 (ascii "Content-Length: " ++
      decimal (appended httpResponse.body).length ++ ascii "\r\n")) ++
        ascii "Connection: Keep-Alive") =
      [headerLine (ascii "Content-Length", httpResponse.contentLength),
        headerLine (ascii "Connection", keepAlive)] := by
    have hname : ascii "Content-Length: " = ascii "Content-Length" ++ ascii ": " := by decide
    have hfield : ¬ crlf <:+: ascii "Content-Length" := by decide
    have hline : ¬ crlf <:+: headerLine (ascii "Content-Length", httpResponse.contentLength) :=
      headerLine_noCrlf hfield (notMem_noCrlf (contentLength_noCr httpResponse))
    rw [cString_contentLength hbody, List.append_assoc, lines_crlf, hkeepAlive, hname]
    exact congrArg (· ++ _) (lines_eq_singleton hline)
  rw [HttpResponse.fieldLines, hstatus, hlength, hheaders, hclose]
  simp only [HttpResponse.fields, HttpResponse.connection]
  split <;> simp

theorem headerField_headerLine {header : List Byte × List Byte} (h : ¬ ascii ": " <:+: header.1) :
    headerField (headerLine header) = some header := by
  have hcolon : ascii ": " = [58, 32] := rfl
  rw [hcolon] at h
  refine cut_append_of_find ?_
  simpa [hcolon] using find_pair (by decide) header.1 header.2 h

theorem mapM_headerField {headers : List (List Byte × List Byte)}
    (h : ∀ header ∈ headers, ¬ ascii ": " <:+: header.1) :
    (headers.map headerLine).mapM headerField = some headers := by
  induction headers with
  | nil => rfl
  | cons header headers ih =>
    obtain ⟨hhead,htail⟩ := List.forall_mem_cons.mp h
    simp [headerField_headerLine hhead, ih htail]

/-- A receiver gets back the status line, the fields and the body. -/
theorem decodeResponse_encoded {httpResponse : HttpResponse} {bytes : List Byte}
    (h : httpResponse.Plain) (hbody : (appended httpResponse.body).length < 10 ^ 13)
    (henc : httpResponse.encoded = some bytes) :
    decodeResponse bytes =
      some (httpResponse.statusLine, httpResponse.fields, appended httpResponse.body) := by
  let head := httpResponse.statusLine :: httpResponse.fields.map headerLine
  have hhead : ∀ line ∈ head, line ≠ [] ∧ ¬ crlf <:+: line := by
    intro line hline
    rcases List.mem_cons.mp hline with rfl | hline
    · exact ⟨by simp [HttpResponse.statusLine, ascii],h.statusLine_noCrlf⟩
    · obtain ⟨field,hfield,rfl⟩ := List.mem_map.mp hline
      obtain ⟨⟨hkey,-⟩,hvalue⟩ := h.fields hfield
      exact ⟨by simp [headerLine, ascii],headerLine_noCrlf hkey hvalue⟩
  have hbytes : bytes = crlf.intercalate head ++ (crlf ++ crlf) ++ appended httpResponse.body := by
    have hlines := lines_encoded henc
    rw [h.fieldLines hbody] at hlines
    have hjoin := intercalate_lines 13 10 bytes
    rw [hlines, intercalate_append (List.cons_ne_nil _ _) (List.cons_ne_nil _ _),
      List.intercalate_cons_of_ne_nil (lines_ne_nil _ _ _), intercalate_lines] at hjoin
    rw [← hjoin]
    simp [head, crlf]
  have hcut : cut (crlf ++ crlf) bytes = some (crlf.intercalate head, appended httpResponse.body) := by
    rw [hbytes]
    exact cut_blank (by decide) (List.cons_ne_nil _ _) hhead _
  have hlines : lines 13 10 (crlf.intercalate head) = head :=
    lines_intercalate (by decide) (List.cons_ne_nil _ _) fun line hline => (hhead line hline).2
  rw [decodeResponse, hcut, Option.bind_some, hlines]
  simp only [head]
  rw [mapM_headerField fun field hfield => (h.fields hfield).1.2, Option.map_some]

theorem size_le_of_growsWithin {total used : ℕ} {sizes : List ℕ} (hused : used ≤ total)
    (htotal : total ≤ intMax) (h : growsWithin total used sizes) : ∀ size ∈ sizes, size ≤ intMax := by
  induction sizes generalizing total used with
  | nil => exact List.forall_mem_nil _
  | cons size sizes ih =>
    refine List.forall_mem_cons.mpr ?_
    by_cases hfit : used + size ≤ total
    · rw [growsWithin_fits hfit] at h
      exact ⟨by omega,ih hfit htotal h⟩
    · obtain ⟨hmax,hrest⟩ := (growsWithin_grows hfit).mp h
      exact ⟨by omega,ih (by omega) hmax hrest⟩

theorem body_mem_sizes {httpResponse : HttpResponse} {bytes : List Byte}
    (henc : httpResponse.encoded = some bytes) :
    (appended httpResponse.body).length ∈ httpResponse.sizes := by
  obtain ⟨texts,htexts,-⟩ := Option.map_eq_some_iff.mp henc
  rw [HttpResponse.sizes, htexts, Option.getD_some]
  obtain ⟨connection,-,rfl⟩ := Option.map_eq_some_iff.mp htexts
  simp

theorem HttpResponse.Plain.filter_name {httpResponse : HttpResponse} (h : httpResponse.Plain) :
    httpResponse.fields.filter (fun field => field.1 = ascii "Connection") =
        [(ascii "Connection", httpResponse.connection)] ∧
      httpResponse.fields.filter (fun field => field.1 = ascii "Content-Length") =
        if httpResponse.keepConnected ≠ 0 then []
        else [(ascii "Content-Length", httpResponse.contentLength)] := by
  have hne : ascii "Content-Length" ≠ ascii "Connection" := by decide
  have hlength : httpResponse.headers.filter (fun field => field.1 = ascii "Content-Length") = [] :=
    List.filter_eq_nil_iff.mpr fun header hmem => by simpa using (h.name header hmem).1
  have hconnection : httpResponse.headers.filter (fun field => field.1 = ascii "Connection") = [] :=
    List.filter_eq_nil_iff.mpr fun header hmem => by simpa using (h.name header hmem).2
  constructor
  · rw [HttpResponse.fields, List.filter_append, List.filter_cons_of_pos (by simp), hconnection]
    split <;> simp [hne]
  · rw [HttpResponse.fields, List.filter_append, List.filter_cons_of_neg (by simpa using hne.symm),
      hlength]
    split <;> simp

/-- What the encoder appends is decoded to the status line, the announced length of the
body when the connection is kept, the announced connection and the given headers, with
the body behind them. -/
theorem encodeBuffer_decodes {httpResponse : HttpResponse} {body : List Byte} {output : Buffer}
    (hv : output.Valid) (htotal : output.totalSize ≤ intMax) (realloc : Option (ℕ → Byte))
    (h : httpResponse.Plain) (hbody : httpResponse.body = some body) (hmem : realloc.isSome)
    (hsize : growsWithin output.totalSize output.readableSize httpResponse.sizes) :
    ∃ b bytes, httpResponseEncodeBuffer httpResponse output realloc = some b ∧
      b.readable = output.readable ++ bytes ∧
      decodeResponse bytes = some
        (ascii "HTTP/1.1 " ++ decimal httpResponse.statusCode ++ ascii " " ++
            appended httpResponse.statusMessage,
          httpResponse.fields, cString body) ∧
      httpResponse.fields.filter (fun field => field.1 = ascii "Connection") =
        [(ascii "Connection", if httpResponse.keepConnected ≠ 0 then close else keepAlive)] ∧
      (httpResponse.keepConnected = 0 → ∃ value,
        httpResponse.fields.filter (fun field => field.1 = ascii "Content-Length") =
          [(ascii "Content-Length", value)] ∧
        decimalValue value = (cString body).length) := by
  obtain ⟨bytes,henc⟩ := (encoded_isSome_iff httpResponse).mpr (Or.inr (by simp [hbody]))
  have happended : appended httpResponse.body = cString body := by rw [hbody, appended]
  obtain ⟨b,hencode,hread⟩ := (httpResponseEncodeBuffer_iff hv hmem henc).mpr hsize
  have hused : output.readableSize ≤ output.totalSize := (Nat.sub_le ..).trans hv.write_le
  have hshort : (appended httpResponse.body).length < 10 ^ 13 := by
    have hint := size_le_of_growsWithin hused htotal hsize _ (body_mem_sizes henc)
    simp only [intMax] at hint
    omega
  refine ⟨b,bytes,hencode,hread,?_,h.filter_name.1,?_⟩
  · rw [decodeResponse_encoded h hshort henc, happended, HttpResponse.statusLine]
  · intro hkeep
    refine ⟨httpResponse.contentLength,?_,?_⟩
    · rw [h.filter_name.2, if_neg (not_not.mpr hkeep)]
    · rw [HttpResponse.contentLength, decimalValue_decimal, happended]

theorem bufferNew_valid (block : ℕ → Byte) : (bufferNew block).Valid :=
  ⟨Nat.zero_le _,Nat.zero_le _⟩

def keptResponse : HttpResponse :=
  ⟨200,some (ascii "OK"),some (ascii "abc"),[(some (ascii "X-A"), some [])],0⟩

theorem encodeBuffer_decodes_kept :
    ∃ b bytes, httpResponseEncodeBuffer keptResponse (bufferNew fun _ => 0) (some fun _ => 0) =
        some b ∧ b.readable = bytes ∧
      decodeResponse bytes = some (ascii "HTTP/1.1 200 OK",
        [(ascii "Content-Length", ascii "3"), (ascii "Connection", keepAlive),
          (ascii "X-A", [])], ascii "abc") := by
  have hplain : keptResponse.Plain := by
    refine ⟨by decide,by decide,?_,?_,?_⟩ <;>
    · intro header hmem
      obtain rfl := List.mem_singleton.mp hmem
      decide
  obtain ⟨b,bytes,hencode,hread,hdecode,-⟩ := encodeBuffer_decodes (bufferNew_valid fun _ => 0)
    (by decide) (some fun _ => 0) hplain rfl rfl (by decide)
  exact ⟨b,bytes,hencode,hread,hdecode⟩

theorem bufferAppend_overflow {buffer : Buffer} {bytes : List Byte} {realloc : Option (ℕ → Byte)}
    (hroom : buffer.frontSpareSize + buffer.writeableSize < bytes.length)
    (hsize : intMax < buffer.totalSize + bytes.length) :
    bufferAppend buffer (some bytes) realloc = none := by
  have hmake : makeRoom buffer bytes.length realloc = none := by
    unfold makeRoom
    rw [if_neg (by omega), if_neg (by omega), if_neg (by omega)]
  simp [bufferAppend, hmake]

def closingResponse (body : List Byte) : HttpResponse := ⟨200,some (ascii "OK"),some body,[],1⟩

def closingTexts : List (Option (List Byte)) :=
  [some (snprintf 32 (ascii "HTTP/1.1 " ++ decimal 200 ++ ascii " ")),some (ascii "OK"),some crlf,
    some (ascii "Connection: close\r\n"),some crlf]

theorem closingResponse_texts (body : List Byte) :
    (closingResponse body).texts = some (closingTexts ++ [some body]) := rfl

theorem closingResponse_plain (body : List Byte) : (closingResponse body).Plain where
  statusCode := ⟨by simp [closingResponse],by simp [closingResponse]⟩
  statusMessage := show ¬ crlf <:+: appended (some (ascii "OK")) by decide
  key := by simp [closingResponse, HttpResponse.headers]
  value := by simp [closingResponse, HttpResponse.headers]
  name := by simp [closingResponse, HttpResponse.headers]

theorem closingTexts_appended :
    ∃ data, closingTexts.foldlM (fun b text => bufferAppendString b text (some fun _ => 0))
      (bufferNew fun _ => 0) = some (⟨data,0,38,65536⟩ : Buffer) := ⟨_,rfl⟩

/-- A response of less than `INT_MAX` bytes for which the output buffer cannot grow, and
one whose status message ends the head. -/
theorem encodeBuffer_not_decoded :
    (∃ body bytes, (closingResponse body).Plain ∧
      (closingResponse body).encoded = some bytes ∧ bytes.length < intMax ∧
      httpResponseEncodeBuffer (closingResponse body) (bufferNew fun _ => 0) (some fun _ => 0) =
        none) ∧
    ∃ (httpResponse : HttpResponse) (bytes : List Byte),
      httpResponse.statusMessage = some (ascii "OK\r\n\r\n") ∧
      httpResponse.body = some (ascii "abc") ∧ httpResponse.responseHeaders = [] ∧
      httpResponse.encoded = some bytes ∧
      decodeResponse bytes ≠ some (httpResponse.statusLine, httpResponse.fields, ascii "abc") := by
  constructor
  · obtain ⟨body,hlen,hzero⟩ : ∃ body : List Byte, body.length = 2147483000 ∧ 0 ∉ body :=
      ⟨List.replicate 2147483000 97,List.length_replicate,fun h =>
        absurd (List.eq_of_mem_replicate h) (by decide)⟩
    have hbody : cString body = body := cString_of_notMem hzero
    have hfront : (closingTexts.flatMap appended).length = 38 := by decide
    obtain ⟨data,hhead⟩ := closingTexts_appended
    refine ⟨body,_,closingResponse_plain body,
      congrArg (Option.map _) (closingResponse_texts body),?_,?_⟩
    · simp only [List.flatMap_append, List.length_append, hfront, List.flatMap_singleton, appended,
        hbody, hlen, intMax]
      decide
    · rw [httpResponseEncodeBuffer, closingResponse_texts, Option.bind_some, List.foldlM_append,
        hhead]
      have hover : bufferAppend ⟨data,0,38,65536⟩ (some body) (some fun _ => 0) = none := by
        refine bufferAppend_overflow ?_ ?_ <;>
          simp only [frontSpareSize, writeableSize, hlen, intMax] <;> omega
      simp [bufferAppendString, hbody, hover]
  · exact ⟨⟨200,some (ascii "OK\r\n\r\n"),some (ascii "abc"),[],1⟩,_,rfl,rfl,rfl,rfl,by decide⟩

end CppExamples.HttpTest
