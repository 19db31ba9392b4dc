import CppExamples.HttpTest.HttpRequest
import CppExamples.HttpTest.BufferFifo

/-! # Parsing a request that arrives in pieces

A well-formed request is a request line, header lines and a blank line.  The parser
takes one line a turn.  Without a complete line a turn changes nothing, so the loop
does not end before the rest has arrived: on every proper prefix of a request it
runs forever, and only a request that arrives at once is parsed at all.
-/
namespace CppExamples.HttpTest
open Memory Search Buffer

/-- The parts of a well-formed request. -/
structure RequestText where
  method : List Byte
  url : List Byte
  version : List Byte
  headers : List (List Byte × List Byte)
  method_noSpace : 32 ∉ method
  url_noSpace : 32 ∉ url
  method_noCrlf : ¬ crlf <:+: method
  url_noCrlf : ¬ crlf <:+: url
  version_noCrlf : ¬ crlf <:+: version
  key_noColon : ∀ h ∈ headers, ¬ ascii ": " <:+: h.1
  key_noCrlf : ∀ h ∈ headers, ¬ crlf <:+: h.1
  value_noCrlf : ∀ h ∈ headers, ¬ crlf <:+: h.2

def headerLine (header : List Byte × List Byte) : List Byte := header.1 ++ ascii ": " ++ header.2

def joinLines (ls : List (List Byte)) : List Byte := ls.flatMap (· ++ crlf)

@[simp] theorem joinLines_nil : joinLines [] = [] := rfl
@[simp] theorem joinLines_cons (l : List Byte) (ls : List (List Byte)) :
    joinLines (l :: ls) = l ++ (crlf ++ joinLines ls) := by
  simp [joinLines]

namespace RequestText

def requestLine (text : RequestText) : List Byte := text.method ++ 32 :: (text.url ++ 32 :: text.version)

def lines (text : RequestText) : List (List Byte) :=
  text.requestLine :: (text.headers.map headerLine ++ [[]])

def bytes (text : RequestText) : List Byte := joinLines text.lines

end RequestText

/-- An occurrence of CRLF in a text with a letter other than CR and LF in it lies on
one side of that letter. -/
theorem noCrlf_append {a b : List Byte} {c : Byte} (hr : c ≠ 13) (hn : c ≠ 10)
    (ha : ¬ crlf <:+: a) (hb : ¬ crlf <:+: b) : ¬ crlf <:+: a ++ c :: b := by
  induction a with
  | nil =>
    intro h
    rcases List.infix_cons_iff.mp h with hpre | hin
    · exact hr (List.cons_prefix_cons.mp hpre).1.symm
    · exact hb hin
  | cons x a ih =>
    intro h
    have ha' : ¬ crlf <:+: a := fun hin => ha (hin.trans (List.suffix_cons x a).isInfix)
    rcases List.infix_cons_iff.mp h with hpre | hin
    · obtain ⟨hx,hpre⟩ := List.cons_prefix_cons.mp hpre
      cases a with
      | nil => exact hn (List.cons_prefix_cons.mp hpre).1.symm
      | cons y a =>
        obtain ⟨hy,_⟩ := List.cons_prefix_cons.mp hpre
        exact ha ⟨[],a,by simp [crlf, hx, hy]⟩
    · exact ih ha' hin

theorem RequestText.requestLine_noCrlf (text : RequestText) : ¬ crlf <:+: text.requestLine :=
  noCrlf_append (by decide) (by decide) text.method_noCrlf
    (noCrlf_append (by decide) (by decide) text.url_noCrlf text.version_noCrlf)

theorem headerLine_noCrlf {h : List Byte × List Byte} (hk : ¬ crlf <:+: h.1)
    (hv : ¬ crlf <:+: h.2) : ¬ crlf <:+: headerLine h := by
  have hsplit : headerLine h = h.1 ++ 58 :: ([] ++ 32 :: h.2) := by
    simp [headerLine, show ascii ": " = [58, 32] by decide]
  rw [hsplit]
  exact noCrlf_append (by decide) (by decide) hk
    (noCrlf_append (by decide) (by decide) (by decide) hv)

theorem RequestText.lines_noCrlf (text : RequestText) : ∀ l ∈ text.lines, ¬ crlf <:+: l := by
  intro l hl
  rcases List.mem_cons.mp hl with rfl | hl
  · exact text.requestLine_noCrlf
  · rcases List.mem_append.mp hl with hl | hl
    · obtain ⟨h,hh,rfl⟩ := List.mem_map.mp hl
      exact headerLine_noCrlf (text.key_noCrlf h hh) (text.value_noCrlf h hh)
    · obtain rfl := List.mem_singleton.mp hl
      decide

def Buffer.advance (input : Buffer) (n : ℕ) : Buffer := { input with readIndex := input.readIndex + n }

@[simp] theorem advance_readable (input : Buffer) (n : ℕ) :
    (input.advance n).readable = input.readable.drop n := by
  have hsize : (input.advance n).readableSize = input.readableSize - n := by
    simp only [Buffer.readableSize, Buffer.advance]
    omega
  rw [Buffer.readable, hsize, Buffer.readable]
  rcases Nat.le_total n input.readableSize with hle | hle
  · rw [drop_load _ _ hle]
    rfl
  · rw [List.drop_eq_nil_of_le (by simpa using hle), Nat.sub_eq_zero_of_le hle, load_zero]

theorem advance_advance (input : Buffer) (m n : ℕ) :
    (input.advance m).advance n = input.advance (m + n) := by
  simp [Buffer.advance, Nat.add_assoc]

theorem parse_mono {leftover : Leftover} {n : ℕ} {input : Buffer} {r : HttpRequest}
    {result : ParseResult} (h : parseHttpRequest leftover n input r = some result) (k : ℕ) :
    parseHttpRequest leftover (n + k) input r = some result := by
  induction n generalizing input r with
  | zero => cases h
  | succ n ih =>
    rw [Nat.succ_add]
    simp only [parseHttpRequest] at h ⊢
    split at h
    · rename_i hdone
      rw [if_pos hdone]
      exact h
    · rename_i hdone
      rw [if_neg hdone]
      cases hturn : parseTurn leftover input.readable r with
      | none =>
        rw [hturn] at h
        exact h
      | some q =>
        rw [hturn] at h
        exact ih h

theorem parse_unique {leftover : Leftover} {n m : ℕ} {input : Buffer} {r : HttpRequest}
    {result result' : ParseResult} (h : parseHttpRequest leftover n input r = some result)
    (h' : parseHttpRequest leftover m input r = some result') : result = result' := by
  have hmore := parse_mono h m
  rw [Nat.add_comm, parse_mono h' n] at hmore
  exact (Option.some.inj hmore).symm

theorem parse_returns_done {leftover : Leftover} {n : ℕ} {input input' : Buffer}
    {r r' : HttpRequest} {ok : ℤ}
    (h : parseHttpRequest leftover n input r = some (.returned ok input' r')) :
    ok = 1 ∧ r'.currentState = .done := by
  induction n generalizing input r with
  | zero => cases h
  | succ n ih =>
    simp only [parseHttpRequest] at h
    split at h
    · rename_i hdone
      cases h
      exact ⟨rfl,hdone⟩
    · cases hturn : parseTurn leftover input.readable r with
      | none =>
        rw [hturn] at h
        cases h
      | some q =>
        rw [hturn] at h
        exact ih h

theorem find_crlf {line : List Byte} (rest : List Byte) (h : ¬ crlf <:+: line) :
    find crlf (line ++ (crlf ++ rest)) = some line.length := by
  have := find_pair (show (13 : Byte) ≠ 10 by decide) line rest h
  simpa [crlf] using this

def RequestText.started (text : RequestText) (leftover : Leftover) (r : HttpRequest) : HttpRequest :=
  { r with
    method := some (fieldBlock leftover.method text.method)
    url := some (fieldBlock leftover.url text.url)
    version := some (fieldBlock leftover.version text.version)
    currentState := .headers }

theorem processStatusLine_eq (text : RequestText) (leftover : Leftover) (r : HttpRequest) :
    processStatusLine leftover text.requestLine r = some (text.requestLine.length,
      { text.started leftover r with currentState := r.currentState }) := by
  have hmethod : find [32] text.requestLine = some text.method.length :=
    find_single _ _ text.method_noSpace
  have hurl : find [32] (text.url ++ 32 :: text.version) = some text.url.length :=
    find_single _ _ text.url_noSpace
  have hdrop : text.requestLine.drop (text.method.length + 1) = text.url ++ 32 :: text.version := by
    simp [RequestText.requestLine]
  have htake : text.requestLine.take text.method.length = text.method := by
    simp [RequestText.requestLine]
  have hurl' : (text.url ++ 32 :: text.version).take text.url.length = text.url := by simp
  have hversion : (text.url ++ 32 :: text.version).drop (text.url.length + 1) = text.version := by
    simp
  simp only [processStatusLine, hmethod, Option.bind_some, hdrop, hurl, Option.map_some, htake,
    hurl', hversion, RequestText.started]

theorem parse_statusTurn (leftover : Leftover) {text : RequestText} {input : Buffer}
    {r : HttpRequest} {rest : List Byte} (n : ℕ) (hstate : r.currentState = .status)
    (hread : input.readable = text.requestLine ++ (crlf ++ rest)) :
    parseHttpRequest leftover (n + 1) input r =
      parseHttpRequest leftover n (input.advance (text.requestLine.length + 2))
        (text.started leftover r) := by
  have hfind := find_crlf rest text.requestLine_noCrlf
  have hpos : text.requestLine.length ≠ 0 := by simp [RequestText.requestLine]
  have hturn : parseTurn leftover input.readable r =
      some (text.requestLine.length + 2, text.started leftover r) := by
    rw [hread]
    have htake : (text.requestLine ++ (crlf ++ rest)).take text.requestLine.length =
        text.requestLine := by simp
    simp [parseTurn, hstate, hfind, htake, processStatusLine_eq, hpos, RequestText.started]
  simp only [parseHttpRequest, hstate, hturn, reduceCtorEq, if_false]
  rfl

theorem find_colon {h : List Byte × List Byte} (hk : ¬ ascii ": " <:+: h.1) :
    find (ascii ": ") (headerLine h) = some h.1.length := by
  have hcolon : ascii ": " = [58, 32] := by decide
  rw [hcolon] at hk
  have := find_pair (show (58 : Byte) ≠ 32 by decide) h.1 h.2 hk
  simpa [headerLine, hcolon] using this

def storedHeader (h : List Byte × List Byte) : List Byte × List Byte := (cString h.1, cString h.2)

theorem parseTurn_header {leftover : Leftover} {r : HttpRequest} {h : List Byte × List Byte}
    {rest : List Byte} (hstate : r.currentState = .headers) (hcolon : ¬ ascii ": " <:+: h.1)
    (hk : ¬ crlf <:+: h.1) (hv : ¬ crlf <:+: h.2) :
    parseTurn leftover (headerLine h ++ (crlf ++ rest)) r =
      (httpRequestAddHeader r (cString h.1) (cString h.2)).map fun r =>
        ((headerLine h).length + 2, r) := by
  have hfind := find_crlf rest (headerLine_noCrlf hk hv)
  have htake : (headerLine h ++ (crlf ++ rest)).take (headerLine h).length = headerLine h := by simp
  have hkey : (headerLine h).take h.1.length = h.1 := by simp [headerLine]
  have hvalue : (headerLine h).drop (h.1.length + 2) = h.2 := by
    simp [headerLine, show ascii ": " = [58, 32] by decide]
  simp [parseTurn, hstate, hfind, htake, find_colon hcolon, hkey, hvalue]

theorem parse_turn {leftover : Leftover} {n size : ℕ} {input : Buffer} {r r' : HttpRequest}
    (hstate : r.currentState ≠ .done) (h : parseTurn leftover input.readable r = some (size, r')) :
    parseHttpRequest leftover (n + 1) input r =
      parseHttpRequest leftover n (input.advance size) r' := by
  simp only [parseHttpRequest, if_neg hstate, h]
  rfl

theorem parse_headerTurns (leftover : Leftover) {hs : List (List Byte × List Byte)}
    {input : Buffer} {r : HttpRequest} {rest : List Byte} (n : ℕ) (hstate : r.currentState = .headers)
    (hread : input.readable = joinLines (hs.map headerLine) ++ rest)
    (hok : ∀ h ∈ hs, ¬ ascii ": " <:+: h.1 ∧ ¬ crlf <:+: h.1 ∧ ¬ crlf <:+: h.2)
    (hroom : r.requestHeaders.length + hs.length ≤ requestHeaderCapacity) :
    parseHttpRequest leftover (n + hs.length) input r =
      parseHttpRequest leftover n (input.advance (joinLines (hs.map headerLine)).length)
        { r with requestHeaders := r.requestHeaders ++ hs.map storedHeader } := by
  induction hs generalizing input r with
  | nil => simp [Buffer.advance]
  | cons h hs ih =>
    obtain ⟨hcolon,hk,hv⟩ := hok h List.mem_cons_self
    simp only [List.map_cons, joinLines_cons, List.append_assoc] at hread
    simp only [List.length_cons] at hroom
    have hturn : parseTurn leftover input.readable r = some ((headerLine h).length + 2,
        { r with requestHeaders := r.requestHeaders ++ [storedHeader h] }) := by
      have hlt : r.requestHeaders.length < requestHeaderCapacity := by omega
      rw [hread, parseTurn_header hstate hcolon hk hv]
      simp [httpRequestAddHeader, hlt, storedHeader]
    have hrest : (input.advance ((headerLine h).length + 2)).readable =
        joinLines (hs.map headerLine) ++ rest := by
      simp [hread, crlf, List.drop_append]
    have hlater := ih (r := { r with requestHeaders := r.requestHeaders ++ [storedHeader h] })
      hstate hrest (fun h' hh => hok h' (List.mem_cons_of_mem h hh))
      (by simp only [List.length_append, List.length_singleton]; omega)
    rw [List.length_cons, ← Nat.add_assoc, parse_turn (by simp [hstate]) hturn, hlater,
      advance_advance]
    congr 1
    · simp only [List.map_cons, joinLines_cons, List.length_append, crlf, List.length_cons,
        List.length_nil]
      congr 1
      omega
    · simp

theorem parse_tooManyHeaders (leftover : Leftover) {hs : List (List Byte × List Byte)}
    {input : Buffer} {r : HttpRequest} {rest : List Byte} (hstate : r.currentState = .headers)
    (hread : input.readable = joinLines (hs.map headerLine) ++ rest)
    (hok : ∀ h ∈ hs, ¬ ascii ": " <:+: h.1 ∧ ¬ crlf <:+: h.1 ∧ ¬ crlf <:+: h.2)
    (hfull : r.requestHeaders.length ≤ requestHeaderCapacity)
    (hmany : requestHeaderCapacity < r.requestHeaders.length + hs.length) :
    ∃ n, parseHttpRequest leftover n input r = some .crashed := by
  obtain ⟨before,h,after,rfl,hlen⟩ : ∃ before h after, hs = before ++ h :: after ∧
      r.requestHeaders.length + before.length = requestHeaderCapacity := by
    refine ⟨hs.take (requestHeaderCapacity - r.requestHeaders.length),
      hs.get ⟨requestHeaderCapacity - r.requestHeaders.length,by omega⟩,
      hs.drop (requestHeaderCapacity - r.requestHeaders.length + 1),?_,?_⟩
    · simp
    · rw [List.length_take]
      omega
  obtain ⟨hcolon,hk,hv⟩ := hok h (by simp)
  rw [List.map_append, List.map_cons] at hread
  have hread' : input.readable = joinLines (before.map headerLine) ++
      (headerLine h ++ (crlf ++ (joinLines (after.map headerLine) ++ rest))) := by
    simpa [joinLines] using hread
  have hturns := parse_headerTurns leftover 1 hstate hread'
    (fun h' hh => hok h' (List.mem_append_left _ hh)) hlen.le
  refine ⟨1 + before.length,hturns.trans ?_⟩
  set r₁ : HttpRequest := { r with requestHeaders := r.requestHeaders ++ before.map storedHeader }
    with hr₁
  have hstate₁ : r₁.currentState = .headers := hstate
  have hturn : parseTurn leftover
      (input.advance (joinLines (before.map headerLine)).length).readable r₁ = none := by
    rw [advance_readable, hread', List.drop_left, parseTurn_header hstate₁ hcolon hk hv]
    simp [httpRequestAddHeader, hr₁, hlen]
  simp only [parseHttpRequest, hstate₁, hturn, reduceCtorEq, if_false]

theorem parse_stuck (leftover : Leftover) {input : Buffer} {r : HttpRequest}
    (hstate : r.currentState = .status ∨ r.currentState = .headers)
    (hread : ¬ crlf <:+: input.readable) (n : ℕ) : parseHttpRequest leftover n input r = none := by
  have hfind := find_eq_none_iff.mpr hread
  have hturn : parseTurn leftover input.readable r = some (0, r) := by
    rcases hstate with hs | hs <;> simp [parseTurn, hs, hfind]
  have hdone : r.currentState ≠ .done := by
    rcases hstate with hs | hs <;> simp [hs]
  induction n with
  | zero => rfl
  | succ n ih =>
    rw [parse_turn hdone hturn]
    exact ih

/-- What a well-formed request is parsed to. -/
def RequestText.parsed (text : RequestText) (leftover : Leftover) : HttpRequest :=
  { text.started leftover httpRequestNew with
    currentState := .done
    requestHeaders := text.headers.map storedHeader }

theorem RequestText.headers_ok (text : RequestText) :
    ∀ h ∈ text.headers, ¬ ascii ": " <:+: h.1 ∧ ¬ crlf <:+: h.1 ∧ ¬ crlf <:+: h.2 :=
  fun h hh => ⟨text.key_noColon h hh,text.key_noCrlf h hh,text.value_noCrlf h hh⟩

theorem RequestText.bytes_eq (text : RequestText) : text.bytes =
    text.requestLine ++ (crlf ++ (joinLines (text.headers.map headerLine) ++ crlf)) := by
  simp [RequestText.bytes, RequestText.lines, joinLines]

/-- The request in front of the end of its header section. -/
def RequestText.headed (text : RequestText) (leftover : Leftover) : HttpRequest :=
  { text.started leftover httpRequestNew with requestHeaders := text.headers.map storedHeader }

theorem parse_headerSection (leftover : Leftover) {text : RequestText} {input : Buffer}
    {rest : List Byte} (hread : input.readable =
      text.requestLine ++ (crlf ++ (joinLines (text.headers.map headerLine) ++ rest)))
    (hroom : text.headers.length ≤ requestHeaderCapacity) :
    ∃ input₁ : Buffer, input₁.readable = rest ∧
      ∀ n, parseHttpRequest leftover (n + text.headers.length + 1) input httpRequestNew =
        parseHttpRequest leftover n input₁ (text.headed leftover) := by
  have hread₁ : (input.advance (text.requestLine.length + 2)).readable =
      joinLines (text.headers.map headerLine) ++ rest := by
    simp [hread, crlf, List.drop_append]
  refine ⟨(input.advance (text.requestLine.length + 2)).advance
    (joinLines (text.headers.map headerLine)).length,?_,?_⟩
  · rw [advance_readable, hread₁, List.drop_left]
  · intro n
    have hheaders := parse_headerTurns leftover (r := text.started leftover httpRequestNew) n rfl
      hread₁ text.headers_ok (by simpa [RequestText.started, httpRequestNew] using hroom)
    exact (parse_statusTurn leftover _ rfl hread).trans hheaders

theorem parse_lastLine (leftover : Leftover) {text : RequestText} {input : Buffer}
    {last : List Byte} (trailing : List Byte)
    (hread : input.readable = text.requestLine ++ (crlf ++
      (joinLines (text.headers.map headerLine) ++ (last ++ (crlf ++ trailing)))))
    (hroom : text.headers.length ≤ requestHeaderCapacity) (hcolon : ¬ ascii ": " <:+: last)
    (hlast : ¬ crlf <:+: last) :
    ∃ n input', parseHttpRequest leftover n input httpRequestNew =
        some (.returned 1 input' (text.parsed leftover)) ∧
      input'.readable = (last ++ (crlf ++ trailing)).drop 2 := by
  obtain ⟨input₁,hread₁,hparse⟩ := parse_headerSection leftover hread hroom
  have hturn : parseTurn leftover input₁.readable (text.headed leftover) =
      some (2, text.parsed leftover) := by
    have hfind := find_crlf trailing hlast
    have hnone := find_eq_none_iff.mpr hcolon
    have htake : (last ++ (crlf ++ trailing)).take last.length = last := by simp
    simp [hread₁, parseTurn, RequestText.headed, RequestText.started, RequestText.parsed, hfind,
      htake, hnone]
  refine ⟨2 + text.headers.length + 1,input₁.advance 2,?_,?_⟩
  · rw [hparse, parse_turn (by simp [RequestText.headed, RequestText.started]) hturn]
    simp [parseHttpRequest, RequestText.parsed]
  · rw [advance_readable, hread₁]

/-- A request with no more headers than the array holds is parsed to its parts, and
what follows it stays unread. -/
theorem parse_request (leftover : Leftover) {text : RequestText} {input : Buffer}
    (trailing : List Byte) (hread : input.readable = text.bytes ++ trailing)
    (hroom : text.headers.length ≤ requestHeaderCapacity) :
    ∃ n input', parseHttpRequest leftover n input httpRequestNew =
        some (.returned 1 input' (text.parsed leftover)) ∧ input'.readable = trailing := by
  rw [text.bytes_eq] at hread
  have hblank : input.readable = text.requestLine ++ (crlf ++
      (joinLines (text.headers.map headerLine) ++ ([] ++ (crlf ++ trailing)))) := by
    simpa using hread
  obtain ⟨n,input',hret,hrest⟩ := parse_lastLine leftover trailing hblank hroom (by decide) (by decide)
  exact ⟨n,input',hret,by simpa [crlf] using hrest⟩

theorem parse_overrun (leftover : Leftover) {text : RequestText} {input : Buffer}
    {rest : List Byte} (hread : input.readable =
      text.requestLine ++ (crlf ++ (joinLines (text.headers.map headerLine) ++ rest)))
    (hmany : requestHeaderCapacity < text.headers.length) :
    ∃ n, parseHttpRequest leftover n input httpRequestNew = some .crashed := by
  have hread₁ : (input.advance (text.requestLine.length + 2)).readable =
      joinLines (text.headers.map headerLine) ++ rest := by
    simp [hread, crlf, List.drop_append]
  obtain ⟨n,hn⟩ := parse_tooManyHeaders leftover (r := text.started leftover httpRequestNew) rfl
    hread₁ text.headers_ok (by simp [RequestText.started, httpRequestNew])
    (by simpa [RequestText.started, httpRequestNew] using hmany)
  exact ⟨n + 1,(parse_statusTurn leftover (r := httpRequestNew) n rfl hread).trans hn⟩

theorem prefix_lines {ls : List (List Byte)} {p : List Byte} (hls : ∀ l ∈ ls, ¬ crlf <:+: l)
    (hp : p <+: joinLines ls) (hne : p ≠ joinLines ls) :
    ∃ complete next later part, ls = complete ++ next :: later ∧ p = joinLines complete ++ part ∧
      ¬ crlf <:+: part := by
  induction ls generalizing p with
  | nil => exact absurd (List.prefix_nil.mp hp) hne
  | cons l ls ih =>
    have hl := hls l List.mem_cons_self
    have hwhole : joinLines (l :: ls) = (l ++ [13]) ++ (10 :: joinLines ls) := by simp [crlf]
    rcases le_or_gt p.length (l.length + 1) with hshort | hlong
    · have hpart : p <+: l ++ [13] := by
        rw [hwhole] at hp
        exact List.prefix_of_prefix_length_le hp (List.prefix_append _ _) (by simpa using hshort)
      refine ⟨[],l,ls,p,rfl,rfl,fun hin => ?_⟩
      exact infix_append_left (by decide) hl (hin.trans hpart.isInfix)
    · have hfirst : l ++ crlf <+: p := by
        rw [joinLines_cons, ← List.append_assoc] at hp
        exact List.prefix_of_prefix_length_le (List.prefix_append _ _) hp
          (by simp only [crlf, List.length_append, List.length_cons, List.length_nil]; omega)
      obtain ⟨p',rfl⟩ := hfirst
      rw [joinLines_cons, ← List.append_assoc] at hp hne
      have hp' : p' <+: joinLines ls := (List.prefix_append_right_inj _).mp hp
      obtain ⟨complete,next,later,part,rfl,rfl,hpart⟩ :=
        ih (fun l' hl' => hls l' (List.mem_cons_of_mem l hl')) hp' (fun he => hne (by rw [he]))
      exact ⟨l :: complete,next,later,part,rfl,by simp,hpart⟩

theorem headers_of_complete {headers : List (List Byte × List Byte)} {cs later : List (List Byte)}
    {next : List Byte} (h : headers.map headerLine ++ [[]] = cs ++ next :: later) :
    ∃ hs, hs <+: headers ∧ cs = hs.map headerLine := by
  have hlen := congrArg List.length h
  simp only [List.length_append, List.length_map, List.length_cons, List.length_nil] at hlen
  refine ⟨headers.take cs.length,List.take_prefix _ _,?_⟩
  have htake := congrArg (List.take cs.length) h
  rw [List.take_left, List.take_append_of_le_length (by rw [List.length_map]; omega)] at htake
  rw [List.map_take, htake]

/-- On a proper prefix of a request the call does not return. -/
theorem parse_prefix {leftover : Leftover} {text : RequestText} {input : Buffer}
    (hp : input.readable <+: text.bytes) (hne : input.readable ≠ text.bytes) (n : ℕ)
    (input' : Buffer) (r : HttpRequest) :
    parseHttpRequest leftover n input httpRequestNew ≠ some (.returned 1 input' r) := by
  intro hret
  obtain ⟨complete,next,later,part,hlines,hread,hpart⟩ := prefix_lines text.lines_noCrlf hp hne
  cases complete with
  | nil =>
    rw [parse_stuck leftover (.inl rfl) (by simpa [hread] using hpart) n] at hret
    cases hret
  | cons first cs =>
    obtain ⟨hfirst,hcs⟩ : text.requestLine = first ∧
        text.headers.map headerLine ++ [[]] = cs ++ next :: later := List.cons.inj hlines
    subst hfirst
    obtain ⟨hs,hsub,rfl⟩ := headers_of_complete hcs
    have hok : ∀ h ∈ hs, ¬ ascii ": " <:+: h.1 ∧ ¬ crlf <:+: h.1 ∧ ¬ crlf <:+: h.2 :=
      fun h hh => text.headers_ok h (hsub.subset hh)
    simp only [joinLines_cons, List.append_assoc] at hread
    have hread₁ : (input.advance (text.requestLine.length + 2)).readable =
        joinLines (hs.map headerLine) ++ part := by
      simp [hread, crlf, List.drop_append]
    rcases le_or_gt hs.length requestHeaderCapacity with hroom | hmany
    · have hstart := parse_statusTurn leftover (r := httpRequestNew) (n + hs.length) rfl hread
      have hheaders := parse_headerTurns leftover (r := text.started leftover httpRequestNew) n rfl
        hread₁ hok (by simpa [RequestText.started, httpRequestNew] using hroom)
      rw [parse_stuck leftover (.inr rfl) (by simpa [hread₁] using hpart) n] at hheaders
      rw [hheaders] at hstart
      have hmore := parse_mono hret (hs.length + 1)
      rw [← Nat.add_assoc, hstart] at hmore
      cases hmore
    · obtain ⟨m,hm⟩ := parse_tooManyHeaders leftover (r := text.started leftover httpRequestNew) rfl
        hread₁ hok (by simp [RequestText.started, httpRequestNew])
        (by simpa [RequestText.started, httpRequestNew] using hmany)
      have hcrash := (parse_statusTurn leftover (r := httpRequestNew) m rfl hread).trans hm
      cases parse_unique hret hcrash

/-- A call that returns, with as many turns as it takes. -/
def Returns (leftover : Leftover) (input : Buffer) (r : HttpRequest) (input' : Buffer)
    (r' : HttpRequest) : Prop :=
  ∃ n, parseHttpRequest leftover n input r = some (.returned 1 input' r')

/-- Each piece is appended to the input buffer and a call on it returns; only the
last one finds the request complete. -/
def Feeds (leftover : Leftover) (realloc : Option (ℕ → Byte)) :
    Buffer → HttpRequest → List (List Byte) → Buffer → HttpRequest → Prop
  | _, _, [], _, _ => False
  | input, r, [piece], input', r' =>
    ∃ b, bufferAppend input (some piece) realloc = some b ∧ Returns leftover b r input' r'
  | input, r, piece :: next :: pieces, input', r' =>
    ∃ b input₁ r₁, bufferAppend input (some piece) realloc = some b ∧
      Returns leftover b r input₁ r₁ ∧ r₁.currentState ≠ .done ∧
      Feeds leftover realloc input₁ r₁ (next :: pieces) input' r'

/-- The pieces are parsed to the end, and to the same request and the same unread
bytes as the whole. -/
def SegmentationInsensitive (leftover : Leftover) (block : ℕ → Byte) (realloc : Option (ℕ → Byte))
    (whole : List Byte) (pieces : List (List Byte)) : Prop :=
  ∃ input r input' r',
    Feeds leftover realloc (bufferNew block) httpRequestNew pieces input r ∧
    Feeds leftover realloc (bufferNew block) httpRequestNew [whole] input' r' ∧
    r.currentState = .done ∧ r = r' ∧ input.readable = input'.readable

theorem readable_of_append {block : ℕ → Byte} {bytes : List Byte} {realloc : Option (ℕ → Byte)}
    {b : Buffer} (h : bufferAppend (bufferNew block) (some bytes) realloc = some b) :
    b.readable = bytes ∧ (bufferNew block).Room bytes.length realloc := by
  obtain ⟨hv,hempty⟩ := bufferNew_represents block
  have hroom := room_of_bufferAppend hv h
  obtain ⟨b',hb',_,hread⟩ := bufferAppend_spec hv hroom
  obtain rfl : b' = b := Option.some.inj (hb'.symm.trans h)
  exact ⟨by rw [hread, hempty, List.nil_append],hroom⟩

theorem parse_overfull (leftover : Leftover) {text : RequestText} {input : Buffer}
    (hread : input.readable = text.bytes) (hmany : requestHeaderCapacity < text.headers.length) :
    ∃ n, parseHttpRequest leftover n input httpRequestNew = some .crashed :=
  parse_overrun leftover (hread.trans text.bytes_eq) hmany

theorem not_feeds_of_cut {leftover : Leftover} {block : ℕ → Byte}
    {realloc : Option (ℕ → Byte)} (text : RequestText) {piece next : List Byte}
    {pieces : List (List Byte)} {input : Buffer} {r : HttpRequest}
    (hcut : (piece :: next :: pieces).flatten = text.bytes) (hne : next ≠ []) :
    ¬ Feeds leftover realloc (bufferNew block) httpRequestNew (piece :: next :: pieces) input r := by
  rintro ⟨b,input₁,r₁,happ,⟨n,hn⟩,_⟩
  obtain ⟨hread,_⟩ := readable_of_append happ
  have hprefix : piece <+: text.bytes := ⟨(next :: pieces).flatten,hcut⟩
  have hproper : piece ≠ text.bytes := by
    intro he
    have hlen := congrArg List.length hcut
    rw [← he] at hlen
    simp only [List.flatten_cons, List.length_append] at hlen
    have := List.length_pos_of_ne_nil hne
    omega
  exact parse_prefix (hread ▸ hprefix) (hread ▸ hproper) n input₁ r₁ hn

/-- A well-formed request that arrives in pieces is parsed as if it had arrived at
once only when it does arrive at once; it must fit the input buffer and its headers
their array. -/
theorem parse_segmentation (leftover : Leftover) (block : ℕ → Byte) (realloc : Option (ℕ → Byte))
    (text : RequestText) {pieces : List (List Byte)} (hcut : pieces.flatten = text.bytes)
    (hne : ∀ p ∈ pieces, p ≠ []) :
    SegmentationInsensitive leftover block realloc text.bytes pieces ↔
      pieces.length = 1 ∧ text.headers.length ≤ requestHeaderCapacity ∧
        (bufferNew block).Room text.bytes.length realloc := by
  constructor
  · rintro ⟨input,r,_,_,hfeeds,_⟩
    match pieces, hfeeds with
    | [piece], ⟨b,happ,n,hn⟩ =>
      obtain rfl : piece = text.bytes := by simpa using hcut
      obtain ⟨hread,hroom⟩ := readable_of_append happ
      refine ⟨rfl,?_,hroom⟩
      by_contra hmany
      obtain ⟨m,hm⟩ := parse_overfull leftover hread (not_le.mp hmany)
      cases parse_unique hn hm
    | piece :: next :: later, hfeeds =>
      exact absurd hfeeds (not_feeds_of_cut text hcut (hne next (by simp)))
  · rintro ⟨hone,hcap,hroom⟩
    obtain ⟨piece,rfl⟩ := List.length_eq_one_iff.mp hone
    obtain rfl : piece = text.bytes := by simpa using hcut
    obtain ⟨hv,hempty⟩ := bufferNew_represents block
    obtain ⟨b,hb,_,hread⟩ := bufferAppend_spec hv hroom
    have hread' : b.readable = text.bytes ++ [] := by simp [hread, hempty]
    obtain ⟨n,input,hn,_⟩ := parse_request leftover [] hread' hcap
    have hfeeds : Feeds leftover realloc (bufferNew block) httpRequestNew [text.bytes] input
        (text.parsed leftover) := ⟨b,hb,n,hn⟩
    exact ⟨input,_,input,_,hfeeds,hfeeds,rfl,rfl,rfl⟩

def sampleRequest : RequestText where
  method := ascii "GET"
  url := ascii "/"
  version := ascii "HTTP/1.1"
  headers := [(ascii "Host", ascii "a")]
  method_noSpace := by decide
  url_noSpace := by decide
  method_noCrlf := by decide
  url_noCrlf := by decide
  version_noCrlf := by decide
  key_noColon := by decide
  key_noCrlf := by decide
  value_noCrlf := by decide

def sampleLeftover : Leftover := ⟨fun _ => 0,fun _ => 0,fun _ => 0⟩

theorem parse_segmentation_sample :
    SegmentationInsensitive sampleLeftover (fun _ => 0) none sampleRequest.bytes
        [sampleRequest.bytes] ↔
      [sampleRequest.bytes].length = 1 ∧ sampleRequest.headers.length ≤ requestHeaderCapacity ∧
        (bufferNew fun _ => 0).Room sampleRequest.bytes.length none :=
  parse_segmentation sampleLeftover (fun _ => 0) none sampleRequest (by decide) (by decide)

/-- The request line cut behind the method: the first call does not return. -/
theorem parse_twoPieces :
    (∃ b, bufferAppend (bufferNew fun _ => 0) (some (ascii "GET")) none = some b ∧
      ∀ n, parseHttpRequest sampleLeftover n b httpRequestNew = none) ∧
    ¬ SegmentationInsensitive sampleLeftover (fun _ => 0) none sampleRequest.bytes
      [ascii "GET", sampleRequest.bytes.drop 3] := by
  constructor
  · obtain ⟨hv,hempty⟩ := bufferNew_represents fun _ => 0
    have hroom : (bufferNew fun _ => 0).Room (ascii "GET").length none := .inl (by decide)
    obtain ⟨b,hb,_,hread⟩ := bufferAppend_spec hv hroom
    refine ⟨b,hb,parse_stuck sampleLeftover (.inl rfl) ?_⟩
    rw [hread, hempty]
    decide
  · rintro ⟨_,_,_,_,hfeeds,_⟩
    exact not_feeds_of_cut sampleRequest (by decide) (by decide) hfeeds

end CppExamples.HttpTest
