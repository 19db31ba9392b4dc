import CppExamples.HttpTest.HttpClosing

/-! # The turns of the parser, line by line

A turn in the state `status` or `headers` looks at the first complete line of the
unread bytes only.  What it comes to is said here for every line, well-formed or not:
too few spaces in a request line and a header without room in the array go wrong, and
a line without a colon and a space behind it ends the request.
-/
namespace CppExamples.HttpTest
open Search

def completeLines (unread : List Byte) : List (List Byte) := (lines 13 10 unread).dropLast

theorem completeLines_of_none {unread : List Byte} (h : find crlf unread = none) :
    completeLines unread = [] := by
  rw [completeLines, lines_eq_singleton (find_eq_none_iff.mp h), List.dropLast_singleton]

theorem completeLines_of_find {unread : List Byte} {size : ℕ} (h : find crlf unread = some size) :
    completeLines unread = unread.take size :: completeLines (unread.drop (size + 2)) := by
  rw [completeLines, lines_of_find (by decide) h,
    List.dropLast_cons_of_ne_nil (lines_ne_nil 13 10 _), completeLines]

theorem find_of_completeLines_nil {unread : List Byte} (h : completeLines unread = []) :
    find crlf unread = none := by
  cases hfind : find crlf unread with
  | none => rfl
  | some size =>
    rw [completeLines_of_find hfind] at h
    cases h

theorem find_of_completeLines_cons {unread line : List Byte} {rest : List (List Byte)}
    (h : completeLines unread = line :: rest) :
    ∃ size, find crlf unread = some size ∧ line = unread.take size ∧
      rest = completeLines (unread.drop (size + 2)) := by
  cases hfind : find crlf unread with
  | none =>
    rw [completeLines_of_none hfind] at h
    cases h
  | some size =>
    rw [completeLines_of_find hfind] at h
    obtain ⟨hline,hrest⟩ := List.cons.inj h
    exact ⟨size,rfl,hline.symm,hrest.symm⟩

theorem completeLines_joinLines {ls : List (List Byte)} (hls : ∀ l ∈ ls, ¬ crlf <:+: l)
    (rest : List Byte) : completeLines (joinLines ls ++ rest) = ls ++ completeLines rest := by
  induction ls with
  | nil => rfl
  | cons l ls ih =>
    have hfind := find_crlf (joinLines ls ++ rest) (hls l List.mem_cons_self)
    have hrest := ih fun m hm => hls m (List.mem_cons_of_mem l hm)
    have hdrop : (l ++ (crlf ++ (joinLines ls ++ rest))).drop (l.length + 2) = joinLines ls ++ rest := by
      rw [← List.append_assoc]
      exact List.drop_left' (by simp [crlf])
    rw [joinLines_cons, List.append_assoc, List.append_assoc, completeLines_of_find hfind, hdrop, hrest,
      List.take_left, List.cons_append]

/-- A line of the header section that is taken for a header. -/
def HasColon (line : List Byte) : Prop := ascii ": " <:+: line

instance : DecidablePred HasColon := fun line => inferInstanceAs (Decidable (ascii ": " <:+: line))

theorem find_colon_eq_none_iff {line : List Byte} : find (ascii ": ") line = none ↔ ¬ HasColon line :=
  find_eq_none_iff

theorem exists_header {line : List Byte} (h : HasColon line) :
    ∃ colon, find (ascii ": ") line = some colon := by
  cases hfind : find (ascii ": ") line with
  | none => exact absurd h (find_colon_eq_none_iff.mp hfind)
  | some colon => exact ⟨colon,rfl⟩

theorem exists_tail {unread line : List Byte} {rest : List (List Byte)}
    (h : completeLines unread = line :: rest) :
    ∃ tail, unread = line ++ (crlf ++ tail) ∧ ¬ crlf <:+: line ∧ completeLines tail = rest := by
  obtain ⟨size,hfind,rfl,rfl⟩ := find_of_completeLines_cons h
  have hsplit := eq_append_of_find hfind
  rw [List.append_assoc] at hsplit
  exact ⟨unread.drop (size + 2),hsplit,not_infix_take_of_find (by decide) hfind,rfl⟩

theorem exists_headerLine {line : List Byte} (h : HasColon line) (hline : ¬ crlf <:+: line) :
    ∃ header, headerLine header = line ∧ ¬ ascii ": " <:+: header.1 ∧ ¬ crlf <:+: header.1 ∧
      ¬ crlf <:+: header.2 := by
  obtain ⟨colon,hcolon⟩ := exists_header h
  have hsplit : headerLine (line.take colon, line.drop (colon + 2)) = line :=
    (eq_append_of_find hcolon).symm
  refine ⟨_,hsplit,not_infix_take_of_find (by decide) hcolon,?_,?_⟩
  · exact fun hin => hline (hin.trans (List.take_prefix _ _).isInfix)
  · exact fun hin => hline (hin.trans (List.drop_suffix _ _).isInfix)

/-- Any bytes are headers, as long as there are lines of them, and behind these a line
that is no header or no complete line. -/
theorem exists_headers (unread : List Byte) :
    ∃ (headers : List (List Byte × List Byte)) (rest : List Byte),
      (∀ h ∈ headers, ¬ ascii ": " <:+: h.1 ∧ ¬ crlf <:+: h.1 ∧ ¬ crlf <:+: h.2) ∧
      unread = joinLines (headers.map headerLine) ++ rest ∧
      (¬ crlf <:+: rest ∨ ∃ last trailing, ¬ HasColon last ∧ ¬ crlf <:+: last ∧
        rest = last ++ (crlf ++ trailing)) := by
  generalize hlines : completeLines unread = ls
  induction ls generalizing unread with
  | nil =>
    exact ⟨[],unread,by simp,rfl,.inl (find_eq_none_iff.mp (find_of_completeLines_nil hlines))⟩
  | cons line ls ih =>
    obtain ⟨tail,rfl,hline,hls⟩ := exists_tail hlines
    by_cases hcolon : HasColon line
    · obtain ⟨header,rfl,hheader⟩ := exists_headerLine hcolon hline
      obtain ⟨headers,rest,hok,rfl,hrest⟩ := ih tail hls
      exact ⟨header :: headers,rest,List.forall_mem_cons.mpr ⟨hheader,hok⟩,by simp,hrest⟩
    · exact ⟨[],_,by simp,rfl,.inr ⟨line,tail,hcolon,hline,rfl⟩⟩

theorem count_of_find {x : Byte} {line : List Byte} {i : ℕ} (h : find [x] line = some i) :
    line.count x = (line.drop (i + 1)).count x + 1 := by
  have hbefore : (line.take i).count x = 0 := by
    apply List.count_eq_zero.mpr
    intro hin
    obtain ⟨a,b,hab⟩ := List.append_of_mem hin
    exact not_infix_take_of_find (List.cons_ne_nil x []) h ⟨a,b,by rw [hab]; simp⟩
  have hsplit := congrArg (List.count x) (eq_append_of_find h)
  simp only [List.count_append, hbefore, List.count_singleton_self, List.length_singleton] at hsplit
  omega

theorem find_single_eq_none {x : Byte} {line : List Byte} (h : find [x] line = none) :
    line.count x = 0 := by
  apply List.count_eq_zero.mpr
  intro hin
  obtain ⟨a,b,hab⟩ := List.append_of_mem hin
  exact find_eq_none_iff.mp h ⟨a,b,by rw [hab]; simp⟩

theorem processStatusLine_eq_none_iff {leftover : Leftover} {line : List Byte} {r : HttpRequest} :
    processStatusLine leftover line r = none ↔ line.count 32 < 2 := by
  cases hmethod : find [32] line with
  | none => simp [processStatusLine, hmethod, find_single_eq_none hmethod]
  | some methodSize =>
    have hcount := count_of_find hmethod
    cases hurl : find [32] (line.drop (methodSize + 1)) with
    | none =>
      have hrest := find_single_eq_none hurl
      simp [processStatusLine, hmethod, hurl, hcount, hrest]
    | some urlSize =>
      have hrest := count_of_find hurl
      simp only [processStatusLine, hmethod, hurl, Option.bind_some, Option.map_some, reduceCtorEq,
        false_iff]
      omega

theorem exists_requestText {line : List Byte} (hspaces : 2 ≤ line.count 32)
    (hline : ¬ crlf <:+: line) (headers : List (List Byte × List Byte))
    (hheaders : ∀ h ∈ headers, ¬ ascii ": " <:+: h.1 ∧ ¬ crlf <:+: h.1 ∧ ¬ crlf <:+: h.2) :
    ∃ text : RequestText, text.requestLine = line ∧ text.headers = headers := by
  cases hmethod : find [32] line with
  | none =>
    have := find_single_eq_none hmethod
    omega
  | some methodSize =>
    have hcount := count_of_find hmethod
    cases hurl : find [32] (line.drop (methodSize + 1)) with
    | none =>
      have := find_single_eq_none hurl
      omega
    | some urlSize =>
      set start := line.drop (methodSize + 1) with hstart
      have hsplit : line = line.take methodSize ++ 32 :: start := by
        simpa using eq_append_of_find hmethod
      have hsplit' : start = start.take urlSize ++ 32 :: start.drop (urlSize + 1) := by
        simpa using eq_append_of_find hurl
      have hsub : ∀ {part : List Byte}, part <:+: start → ¬ crlf <:+: part := by
        intro part hpart hin
        exact hline (hin.trans (hpart.trans (List.drop_suffix _ _).isInfix))
      have hnoSpace : ∀ {l : List Byte} {i : ℕ}, find [32] l = some i → 32 ∉ l.take i := by
        intro l i hfind hin
        obtain ⟨a,b,hab⟩ := List.append_of_mem hin
        exact not_infix_take_of_find (List.cons_ne_nil _ []) hfind ⟨a,b,by rw [hab]; simp⟩
      refine ⟨⟨line.take methodSize,start.take urlSize,start.drop (urlSize + 1),headers,
        hnoSpace hmethod,hnoSpace hurl,?_,hsub (List.take_prefix _ _).isInfix,
        hsub (List.drop_suffix _ _).isInfix,fun h hh => (hheaders h hh).1,
        fun h hh => (hheaders h hh).2.1,fun h hh => (hheaders h hh).2.2⟩,?_,rfl⟩
      · exact fun hin => hline (hin.trans (List.take_prefix _ _).isInfix)
      · rw [RequestText.requestLine, ← hsplit', ← hsplit]

section Turns
variable {leftover : Leftover} {unread : List Byte} {r : HttpRequest}

theorem parseTurn_noLine (hstate : r.currentState = .status ∨ r.currentState = .headers)
    (h : completeLines unread = []) : parseTurn leftover unread r = some (0, r) := by
  have hfind := find_of_completeLines_nil h
  rcases hstate with hs | hs <;> simp [parseTurn, hs, hfind]

theorem parseTurn_badLine {line : List Byte} {rest : List (List Byte)}
    (hstate : r.currentState = .status) (h : completeLines unread = line :: rest)
    (hspaces : line.count 32 < 2) : parseTurn leftover unread r = none := by
  obtain ⟨size,hfind,rfl,-⟩ := find_of_completeLines_cons h
  simp [parseTurn, hstate, hfind, processStatusLine_eq_none_iff.mpr hspaces]

theorem parseTurn_requestLine {line : List Byte} {rest : List (List Byte)}
    (hstate : r.currentState = .status) (h : completeLines unread = line :: rest)
    (hspaces : 2 ≤ line.count 32) :
    ∃ size r', parseTurn leftover unread r = some (size, r') ∧ r'.currentState = .headers ∧
      r'.requestHeaders = r.requestHeaders ∧ completeLines (unread.drop size) = rest := by
  obtain ⟨size,hfind,hline,hrest⟩ := find_of_completeLines_cons h
  have hno : ¬ crlf <:+: line := by
    rw [hline]
    exact not_infix_take_of_find (by decide) hfind
  obtain ⟨text,htext,-⟩ := exists_requestText hspaces hno [] (by simp)
  have hpos : line.length ≠ 0 := by
    rintro hzero
    rw [List.length_eq_zero_iff.mp hzero] at hspaces
    simp at hspaces
  have hsize : line.length = size := by
    rw [hline]
    exact length_take_of_find (by decide) hfind
  have heq := processStatusLine_eq text leftover r
  rw [htext, hline] at heq
  rw [hline] at hpos hsize
  refine ⟨size + 2,text.started leftover r,?_,rfl,rfl,hrest.symm⟩
  simp only [parseTurn, hstate, hfind, heq, Option.map_some, hsize]
  rw [if_pos (hsize ▸ hpos)]
  rfl

theorem parseTurn_lastLine {line : List Byte} {rest : List (List Byte)}
    (hstate : r.currentState = .headers) (h : completeLines unread = line :: rest)
    (hcolon : ¬ HasColon line) :
    parseTurn leftover unread r = some (2, { r with currentState := .done }) := by
  obtain ⟨size,hfind,rfl,-⟩ := find_of_completeLines_cons h
  simp [parseTurn, hstate, hfind, find_colon_eq_none_iff.mpr hcolon]

theorem parseTurn_full {line : List Byte} {rest : List (List Byte)}
    (hstate : r.currentState = .headers) (h : completeLines unread = line :: rest)
    (hcolon : HasColon line) (hfull : requestHeaderCapacity ≤ r.requestHeaders.length) :
    parseTurn leftover unread r = none := by
  obtain ⟨size,hfind,rfl,-⟩ := find_of_completeLines_cons h
  obtain ⟨colon,hcolon'⟩ := exists_header hcolon
  simp [parseTurn, hstate, hfind, hcolon', httpRequestAddHeader, not_lt.mpr hfull]

theorem parseTurn_headerLine {line : List Byte} {rest : List (List Byte)}
    (hstate : r.currentState = .headers) (h : completeLines unread = line :: rest)
    (hcolon : HasColon line) (hroom : r.requestHeaders.length < requestHeaderCapacity) :
    ∃ size r', parseTurn leftover unread r = some (size, r') ∧ r'.currentState = .headers ∧
      r'.requestHeaders.length = r.requestHeaders.length + 1 ∧
      completeLines (unread.drop size) = rest := by
  obtain ⟨size,hfind,rfl,hrest⟩ := find_of_completeLines_cons h
  obtain ⟨colon,hcolon'⟩ := exists_header hcolon
  refine ⟨size + 2,{ r with requestHeaders := r.requestHeaders ++
    [(cString ((unread.take size).take colon), cString ((unread.take size).drop (colon + 2)))] },
    ?_,hstate,by simp,hrest.symm⟩
  simp [parseTurn, hstate, hfind, hcolon', httpRequestAddHeader, hroom]

/-- What a turn can do: nothing, take a request line, add a header, or end the request. -/
theorem parseTurn_cases {size : ℕ} {r' : HttpRequest}
    (h : parseTurn leftover unread r = some (size, r')) :
    (size = 0 ∧ r' = r) ∨
      (r.currentState = .status ∧ r'.currentState = .headers ∧
        r'.requestHeaders = r.requestHeaders) ∨
      (r.currentState = .headers ∧ r'.currentState = .headers ∧
        r.requestHeaders.length < requestHeaderCapacity ∧
        r'.requestHeaders.length = r.requestHeaders.length + 1) ∨
      (r.currentState = .headers ∧ r' = { r with currentState := .done }) := by
  cases hs : r.currentState with
  | status =>
    cases hlines : completeLines unread with
    | nil =>
      obtain ⟨rfl,rfl⟩ :=
        Prod.mk.inj (Option.some.inj ((parseTurn_noLine (.inl hs) hlines).symm.trans h))
      exact .inl ⟨rfl,rfl⟩
    | cons line rest =>
      rcases lt_or_ge (line.count 32) 2 with hbad | hspaces
      · cases (parseTurn_badLine hs hlines hbad).symm.trans h
      · obtain ⟨_,r₁,hturn,hstate,hkept,-⟩ := parseTurn_requestLine hs hlines hspaces
        obtain ⟨-,rfl⟩ := Prod.mk.inj (Option.some.inj (hturn.symm.trans h))
        exact .inr (.inl ⟨rfl,hstate,hkept⟩)
  | headers =>
    cases hlines : completeLines unread with
    | nil =>
      obtain ⟨rfl,rfl⟩ :=
        Prod.mk.inj (Option.some.inj ((parseTurn_noLine (.inr hs) hlines).symm.trans h))
      exact .inl ⟨rfl,rfl⟩
    | cons line rest =>
      by_cases hcolon : HasColon line
      · rcases lt_or_ge r.requestHeaders.length requestHeaderCapacity with hroom | hfull
        · obtain ⟨_,r₁,hturn,hstate,hlen,-⟩ := parseTurn_headerLine hs hlines hcolon hroom
          obtain ⟨-,rfl⟩ := Prod.mk.inj (Option.some.inj (hturn.symm.trans h))
          exact .inr (.inr (.inl ⟨rfl,hstate,hroom,hlen⟩))
        · cases (parseTurn_full hs hlines hcolon hfull).symm.trans h
      · obtain ⟨-,rfl⟩ :=
          Prod.mk.inj (Option.some.inj ((parseTurn_lastLine hs hlines hcolon).symm.trans h))
        exact .inr (.inr (.inr ⟨rfl,rfl⟩))
  | body | done =>
    simp only [parseTurn, hs, Option.some.injEq, Prod.mk.injEq] at h
    exact .inl ⟨h.1.symm,h.2.symm⟩

end Turns

theorem map_storedHeader {headers : List (List Byte × List Byte)}
    (h : ∀ header ∈ headers, 0 ∉ header.1 ∧ 0 ∉ header.2) : headers.map storedHeader = headers := by
  calc headers.map storedHeader = headers.map fun header => header := by
        apply List.map_congr_left
        intro header hin
        obtain ⟨hkey,hvalue⟩ := h header hin
        rw [storedHeader, cString_of_notMem hkey, cString_of_notMem hvalue]
    _ = headers := List.map_id' headers

/-- Parsing inverts printing: a request line with two spaces and up to 384 headers are
read back in order in front of whatever follows them. -/
theorem parse_printed (leftover : Leftover) {line : List Byte}
    {headers : List (List Byte × List Byte)} {input : Buffer} (trailing : List Byte)
    (hspaces : 2 ≤ line.count 32) (hline : ¬ crlf <:+: line) (hroom : headers.length ≤ 384)
    (hkeys : ∀ h ∈ headers, ¬ ascii ": " <:+: h.1 ∧ ¬ crlf <:+: h.1)
    (hvalues : ∀ h ∈ headers, ¬ crlf <:+: h.2) (hnul : ∀ h ∈ headers, 0 ∉ h.1 ∧ 0 ∉ h.2)
    (hread : input.readable =
      line ++ crlf ++ joinLines (headers.map headerLine) ++ crlf ++ trailing) :
    ∃ n input' r, parseHttpRequest leftover n input httpRequestNew =
        some (.returned 1 input' r) ∧ r.currentState = .done ∧ r.requestHeaders = headers ∧
      input'.readable = trailing := by
  obtain ⟨text,htext,hheaders⟩ := exists_requestText hspaces hline headers
    fun h hh => ⟨(hkeys h hh).1,(hkeys h hh).2,hvalues h hh⟩
  have hbytes : input.readable = text.bytes ++ trailing := by
    rw [hread, text.bytes_eq, htext, hheaders]
    simp only [List.append_assoc]
  have hfits : text.headers.length ≤ requestHeaderCapacity := hheaders ▸ hroom
  obtain ⟨n,input',hret,hrest⟩ := parse_request leftover trailing hbytes hfits
  refine ⟨n,input',text.parsed leftover,hret,rfl,?_,hrest⟩
  exact (congrArg (List.map storedHeader) hheaders).trans (map_storedHeader hnul)

/-- An empty header and a value with a colon in it, in front of the next request. -/
theorem parse_printed_sample :
    ∃ n input' r, parseHttpRequest sampleLeftover n
        (holding (ascii "GET / HTTP/1.1" ++ crlf ++
          joinLines ([([], []), (ascii "Host", ascii "a: b")].map headerLine) ++ crlf ++ ascii "GET"))
        httpRequestNew = some (.returned 1 input' r) ∧ r.currentState = .done ∧
      r.requestHeaders = [([], []), (ascii "Host", ascii "a: b")] ∧
      input'.readable = ascii "GET" :=
  parse_printed sampleLeftover (ascii "GET") (by decide) (by decide) (by decide) (by decide)
    (by decide) (by decide) (holding_readable _)

end CppExamples.HttpTest
