import CppExamples.HttpTest.RequestLines

/-! # When the loop of the parser ends, and where

The loop waits for a line that is not there by turning in place, so a call comes to
an end only when the bytes at hand lead it there: to a header line that is none, or to
a failed assertion.  Any line without a colon and a space ends the header section, not
only the blank one, and what is consumed there are two bytes of it.  A header without
room is written behind the array; what such a call does afterwards is left open.
-/
namespace CppExamples.HttpTest
open Search Buffer

/-- The requests that calls of the parser meet. -/
inductive Reached : HttpRequest → Prop where
  | new : Reached httpRequestNew
  | reset {r : HttpRequest} (h : Reached r) : Reached (httpRequestReset r)
  | turn {leftover : Leftover} {unread : List Byte} {size : ℕ} {r r' : HttpRequest} (h : Reached r)
    (hrun : r.currentState ≠ .done) (hturn : parseTurn leftover unread r = some (size, r')) :
    Reached r'

/-- The state `body` is never entered, a request line is awaited with no headers, and
the headers fit their array. -/
structure Sound (r : HttpRequest) : Prop where
  not_body : r.currentState ≠ .body
  fresh : r.currentState = .status → r.requestHeaders = []
  fits : r.requestHeaders.length ≤ requestHeaderCapacity

theorem Sound.turn {leftover : Leftover} {unread : List Byte} {size : ℕ} {r r' : HttpRequest}
    (h : Sound r) (hturn : parseTurn leftover unread r = some (size, r')) : Sound r' := by
  rcases parseTurn_cases hturn with ⟨-,rfl⟩ | ⟨-,hs',hkept⟩ | ⟨-,hs',hroom,hlen⟩ | ⟨-,rfl⟩
  · exact h
  · exact ⟨by simp [hs'],fun hno => by simp [hs'] at hno,hkept ▸ h.fits⟩
  · exact ⟨by simp [hs'],fun hno => by simp [hs'] at hno,by omega⟩
  · exact ⟨by simp,by simp,h.fits⟩

theorem Reached.sound {r : HttpRequest} (h : Reached r) : Sound r := by
  induction h with
  | new => exact ⟨by decide,fun _ => rfl,Nat.zero_le _⟩
  | reset h ih => exact ⟨by simp [httpRequestReset],fun _ => rfl,Nat.zero_le _⟩
  | turn h hrun hturn ih => exact ih.turn hturn

theorem reached_of_returned {leftover : Leftover} {n : ℕ} {input input' : Buffer} {r r' : HttpRequest}
    {ok : ℤ} (h : Reached r)
    (hparse : parseHttpRequest leftover n input r = some (.returned ok input' r')) : Reached r' := by
  induction n generalizing input r with
  | zero => cases hparse
  | succ n ih =>
    by_cases hdone : r.currentState = .done
    · simp only [parseHttpRequest, if_pos hdone, Option.some.injEq, ParseResult.returned.injEq] at hparse
      exact hparse.2.2 ▸ h
    · cases hturn : parseTurn leftover input.readable r with
      | none => simp [parseHttpRequest, hdone, hturn] at hparse
      | some q =>
        rw [parse_turn hdone hturn] at hparse
        exact ih (h.turn hdone hturn) hparse

/-- The turns of a call up to some point. -/
inductive Turns (leftover : Leftover) : Buffer → HttpRequest → Buffer → HttpRequest → Prop where
  | refl (input : Buffer) (r : HttpRequest) : Turns leftover input r input r
  | turn {input input' : Buffer} {r r₁ r' : HttpRequest} {size : ℕ} (hrun : r.currentState ≠ .done)
    (hturn : parseTurn leftover input.readable r = some (size, r₁))
    (hrest : Turns leftover (input.advance size) r₁ input' r') : Turns leftover input r input' r'

section Calls
variable {leftover : Leftover} {input : Buffer} {r : HttpRequest}

theorem Turns.stuck {input' : Buffer} {r' : HttpRequest}
    (hturn : parseTurn leftover input.readable r = some (0, r))
    (h : Turns leftover input r input' r') : input'.readable = input.readable ∧ r' = r := by
  induction h with
  | refl => exact ⟨rfl,rfl⟩
  | turn hrun hturn' hrest ih =>
    obtain ⟨rfl,rfl⟩ := Prod.mk.inj (Option.some.inj (hturn.symm.trans hturn'))
    obtain ⟨hread,hr⟩ := ih (by simpa using hturn)
    exact ⟨by simpa using hread,hr⟩

/-- The call adds a header behind the array. -/
def Overruns (leftover : Leftover) (input : Buffer) (r : HttpRequest) : Prop :=
  ∃ input' r' line rest, Turns leftover input r input' r' ∧ r'.currentState = .headers ∧
    completeLines input'.readable = line :: rest ∧ HasColon line ∧
    requestHeaderCapacity ≤ r'.requestHeaders.length

/-- The header lines that the call will read have room in the array: the complete lines
with a colon and a space behind it, up to the first that is none. -/
def HeaderLinesFit (r : HttpRequest) (unread : List Byte) : Prop :=
  match r.currentState, completeLines unread with
  | .status, first :: rest =>
    2 ≤ first.count 32 →
      r.requestHeaders.length + (rest.takeWhile HasColon).length ≤ requestHeaderCapacity
  | .headers, ls => r.requestHeaders.length + (ls.takeWhile HasColon).length ≤ requestHeaderCapacity
  | _, _ => True

theorem not_overruns_of_done (hstate : r.currentState = .done) : ¬ Overruns leftover input r := by
  rintro ⟨input',r',line,rest,_ | ⟨hrun,-,-⟩,hheaders,-⟩
  · cases hstate.symm.trans hheaders
  · exact hrun hstate

theorem not_overruns_of_stuck (hturn : parseTurn leftover input.readable r = some (0, r)) :
    ¬ Overruns leftover input r := by
  rintro ⟨input',r',line,rest,hturns,hheaders,hlines,hcolon,hfull⟩
  obtain ⟨hread,rfl⟩ := hturns.stuck hturn
  have hnone := @parseTurn_full leftover _ _ _ _ hheaders hlines hcolon hfull
  rw [hread, hturn] at hnone
  cases hnone

theorem not_overruns_of_status (hstate : r.currentState = .status)
    (hturn : parseTurn leftover input.readable r = none) : ¬ Overruns leftover input r := by
  rintro ⟨input',r',line,rest,_ | ⟨-,hturn',-⟩,hheaders,-⟩
  · cases hstate.symm.trans hheaders
  · cases hturn.symm.trans hturn'

theorem overruns_turn_iff {size : ℕ} {r₁ : HttpRequest} (hrun : r.currentState ≠ .done)
    (hturn : parseTurn leftover input.readable r = some (size, r₁)) :
    Overruns leftover input r ↔ Overruns leftover (input.advance size) r₁ := by
  constructor
  · rintro ⟨input',r',line,rest,hturns,hheaders,hlines,hcolon,hfull⟩
    cases hturns with
    | refl =>
      have hnone := @parseTurn_full leftover _ _ _ _ hheaders hlines hcolon hfull
      cases hnone.symm.trans hturn
    | turn _ hturn' hrest =>
      obtain ⟨rfl,rfl⟩ := Prod.mk.inj (Option.some.inj (hturn.symm.trans hturn'))
      exact ⟨input',r',line,rest,hrest,hheaders,hlines,hcolon,hfull⟩
  · rintro ⟨input',r',line,rest,hturns,hlast⟩
    exact ⟨input',r',line,rest,.turn hrun hturn hturns,hlast⟩

theorem overruns_headers_iff (hstate : r.currentState = .headers)
    (hfits : r.requestHeaders.length ≤ requestHeaderCapacity) :
    Overruns leftover input r ↔ requestHeaderCapacity <
      r.requestHeaders.length + ((completeLines input.readable).takeWhile HasColon).length := by
  have hrun : r.currentState ≠ .done := by simp [hstate]
  generalize hlines : completeLines input.readable = ls
  induction ls generalizing input r with
  | nil =>
    apply iff_of_false (not_overruns_of_stuck (parseTurn_noLine (.inr hstate) hlines))
    exact not_lt.mpr hfits
  | cons line rest ih =>
    by_cases hcolon : HasColon line
    · have htake : ((line :: rest).takeWhile HasColon).length = (rest.takeWhile HasColon).length + 1 := by
        simp [hcolon]
      rcases hfits.lt_or_eq with hroom | hfull
      · obtain ⟨size,r',hturn,hstate',hlen,hrest⟩ :=
          parseTurn_headerLine hstate hlines hcolon hroom
        have hnext : Overruns leftover (input.advance size) r' ↔
            requestHeaderCapacity < r'.requestHeaders.length + (rest.takeWhile HasColon).length :=
          ih hstate' (by omega) (by simp [hstate']) (by rw [advance_readable, hrest])
        rw [overruns_turn_iff hrun hturn, hnext, hlen, htake]
        omega
      · apply iff_of_true
        · exact ⟨input,r,line,rest,.refl input r,hstate,hlines,hcolon,hfull.ge⟩
        · rw [htake]
          omega
    · rw [overruns_turn_iff hrun (parseTurn_lastLine hstate hlines hcolon)]
      apply iff_of_false (not_overruns_of_done rfl)
      simpa [hcolon] using hfits

/-- One call of the parser stays inside the array just when the header lines at hand
have room there. -/
theorem not_overruns_iff (h : Sound r) :
    ¬ Overruns leftover input r ↔ HeaderLinesFit r input.readable := by
  cases hs : r.currentState with
  | status =>
    have hrun : r.currentState ≠ .done := by simp [hs]
    cases hlines : completeLines input.readable with
    | nil =>
      simp only [HeaderLinesFit, hs, hlines, iff_true]
      exact not_overruns_of_stuck (parseTurn_noLine (.inl hs) hlines)
    | cons line rest =>
      simp only [HeaderLinesFit, hs, hlines]
      rcases lt_or_ge (line.count 32) 2 with hbad | hspaces
      · apply iff_of_true (not_overruns_of_status hs (parseTurn_badLine hs hlines hbad))
        exact fun hno => absurd hno (not_le.mpr hbad)
      · obtain ⟨size,r',hturn,hstate,hkept,hrest⟩ :=
          @parseTurn_requestLine leftover _ _ _ _ hs hlines hspaces
        rw [overruns_turn_iff hrun hturn, overruns_headers_iff hstate (hkept ▸ h.fits), hkept,
          advance_readable, hrest, not_lt]
        simp [hspaces]
  | headers =>
    simp only [HeaderLinesFit, hs]
    rw [overruns_headers_iff hs h.fits, not_lt]
  | body => exact absurd hs h.not_body
  | done =>
    simp only [HeaderLinesFit, hs, iff_true]
    exact not_overruns_of_done hs

/-- A call that does not go on forever: it returns, or an assertion fails, and it has not
written behind the array of headers. -/
def Ends (leftover : Leftover) (input : Buffer) (r : HttpRequest) : Prop :=
  ¬ Overruns leftover input r ∧ ∃ n result, parseHttpRequest leftover n input r = some result

theorem ends_of_done (hstate : r.currentState = .done) : Ends leftover input r :=
  ⟨not_overruns_of_done hstate,1,_,if_pos hstate⟩

theorem ends_of_badLine (hstate : r.currentState = .status)
    (hturn : parseTurn leftover input.readable r = none) : Ends leftover input r := by
  refine ⟨not_overruns_of_status hstate hturn,1,.crashed,?_⟩
  have hrun : r.currentState ≠ .done := by simp [hstate]
  simp only [parseHttpRequest, if_neg hrun, hturn]

theorem ends_turn_iff {size : ℕ} {r' : HttpRequest} (hrun : r.currentState ≠ .done)
    (hturn : parseTurn leftover input.readable r = some (size, r')) :
    Ends leftover input r ↔ Ends leftover (input.advance size) r' := by
  refine and_congr (not_congr (overruns_turn_iff hrun hturn)) ⟨?_,?_⟩
  · rintro ⟨n,result,h⟩
    cases n with
    | zero => cases h
    | succ n =>
      rw [parse_turn hrun hturn] at h
      exact ⟨n,result,h⟩
  · rintro ⟨n,result,h⟩
    rw [← @parse_turn _ n _ _ _ _ hrun hturn] at h
    exact ⟨n + 1,result,h⟩

theorem not_ends (hstate : r.currentState = .status ∨ r.currentState = .headers)
    (h : completeLines input.readable = []) : ¬ Ends leftover input r := by
  rintro ⟨-,n,result,hresult⟩
  rw [parse_stuck leftover hstate (find_eq_none_iff.mp (find_of_completeLines_nil h)) n] at hresult
  cases hresult

/-- A line of the header section is no header, and the array has room for those before
it. -/
def HeadersEnd (count : ℕ) (ls : List (List Byte)) : Prop :=
  (∃ line ∈ ls, ¬ HasColon line) ∧ count + (ls.takeWhile HasColon).length ≤ requestHeaderCapacity

theorem takeWhile_colon {line : List Byte} (hcolon : HasColon line) (count : ℕ) (rest : List (List Byte)) :
    count + ((line :: rest).takeWhile HasColon).length =
      count + 1 + (rest.takeWhile HasColon).length := by
  simp only [List.takeWhile_cons, hcolon, decide_true, if_true, List.length_cons]
  omega

theorem ends_headers_iff (hstate : r.currentState = .headers)
    (hfits : r.requestHeaders.length ≤ requestHeaderCapacity) :
    Ends leftover input r ↔ HeadersEnd r.requestHeaders.length (completeLines input.readable) := by
  have hrun : r.currentState ≠ .done := by simp [hstate]
  generalize hlines : completeLines input.readable = ls
  induction ls generalizing input r with
  | nil =>
    apply iff_of_false (not_ends (.inr hstate) hlines)
    rintro ⟨⟨line,hin,-⟩,-⟩
    cases hin
  | cons line rest ih =>
    by_cases hcolon : HasColon line
    · rcases hfits.lt_or_eq with hroom | hfull
      · obtain ⟨size,r',hturn,hstate',hlen,hrest⟩ :=
          parseTurn_headerLine hstate hlines hcolon hroom
        have hnext : Ends leftover (input.advance size) r' ↔
            HeadersEnd r'.requestHeaders.length rest :=
          ih hstate' (by omega) (by simp [hstate']) (by rw [advance_readable, hrest])
        rw [ends_turn_iff hrun hturn, hnext, hlen, HeadersEnd, HeadersEnd, takeWhile_colon hcolon]
        simp only [List.exists_mem_cons_iff, hcolon, not_true, false_or]
      · have hover : Overruns leftover input r :=
          ⟨input,r,line,rest,.refl input r,hstate,hlines,hcolon,hfull.ge⟩
        apply iff_of_false fun hends => hends.1 hover
        rintro ⟨-,hroom⟩
        rw [takeWhile_colon hcolon] at hroom
        omega
    · apply iff_of_true
      · rw [ends_turn_iff hrun (parseTurn_lastLine hstate hlines hcolon)]
        exact ends_of_done rfl
      · exact ⟨⟨line,List.mem_cons_self,hcolon⟩,by simpa [hcolon] using hfits⟩

/-- The bytes at hand lead the loop to its end. -/
def LoopEnds (r : HttpRequest) (unread : List Byte) : Prop :=
  match r.currentState, completeLines unread with
  | .status, [] => False
  | .status, first :: rest => first.count 32 < 2 ∨ HeadersEnd r.requestHeaders.length rest
  | .headers, ls => HeadersEnd r.requestHeaders.length ls
  | .body, _ => False
  | .done, _ => True

theorem ends_iff (h : Sound r) : Ends leftover input r ↔ LoopEnds r input.readable := by
  cases hs : r.currentState with
  | status =>
    have hrun : r.currentState ≠ .done := by simp [hs]
    cases hlines : completeLines input.readable with
    | nil =>
      simp only [LoopEnds, hs, hlines, iff_false]
      exact not_ends (.inl hs) hlines
    | cons line rest =>
      simp only [LoopEnds, hs, hlines]
      rcases lt_or_ge (line.count 32) 2 with hbad | hspaces
      · exact iff_of_true (ends_of_badLine hs (parseTurn_badLine hs hlines hbad)) (.inl hbad)
      · obtain ⟨size,r',hturn,hstate,hkept,hrest⟩ :=
          @parseTurn_requestLine leftover _ _ _ _ hs hlines hspaces
        rw [ends_turn_iff hrun hturn, ends_headers_iff hstate (hkept ▸ h.fits), hkept,
          advance_readable, hrest]
        simp [not_lt.mpr hspaces]
  | headers =>
    simp only [LoopEnds, hs]
    exact ends_headers_iff hs h.fits
  | body => exact absurd hs h.not_body
  | done =>
    simp only [LoopEnds, hs, iff_true]
    exact ends_of_done hs

/-- For every content of the buffer and every request that calls meet, the call ends,
and without a complete line it returns with the request unfinished and the bytes kept,
just when the bytes at hand lead it to its end. -/
theorem parse_ends_iff (leftover : Leftover) (input : Buffer) {r : HttpRequest} (h : Reached r) :
    (Ends leftover input r ∧
      (¬ crlf <:+: input.readable → r.currentState ≠ .done → ∃ n ok input' r',
        parseHttpRequest leftover n input r = some (.returned ok input' r') ∧
        r'.currentState ≠ .done ∧ input'.readable = input.readable)) ↔
      LoopEnds r input.readable := by
  rw [← @ends_iff leftover _ _ h.sound]
  constructor
  · exact And.left
  · intro hends
    refine ⟨hends,?_⟩
    intro hnone hrun
    have hstate : r.currentState = .status ∨ r.currentState = .headers := by
      cases hs : r.currentState with
      | status => exact .inl rfl
      | headers => exact .inr rfl
      | body => exact absurd hs h.sound.not_body
      | done => exact absurd hs hrun
    exact absurd hends (not_ends hstate (completeLines_of_none (find_eq_none_iff.mpr hnone)))

/-- A call writes no header behind the array, and wherever in it the header section ends,
the two bytes consumed there are a CRLF. -/
structure EndsAtBlankLine (leftover : Leftover) (input : Buffer) (r : HttpRequest) : Prop where
  inside : ¬ Overruns leftover input r
  blank : ∀ input' r' size r'', Turns leftover input r input' r' → r'.currentState = .headers →
    parseTurn leftover input'.readable r' = some (size, r'') → r''.currentState = .done →
      size = 2 ∧ crlf <+: input'.readable

theorem endsAtBlankLine_of_done (hstate : r.currentState = .done) :
    EndsAtBlankLine leftover input r := by
  refine ⟨not_overruns_of_done hstate,?_⟩
  rintro input' r' size r'' (_ | ⟨hrun,-,-⟩) hheaders
  · cases hstate.symm.trans hheaders
  · exact absurd hstate hrun

theorem endsAtBlankLine_of_badLine (hstate : r.currentState = .status)
    (hturn : parseTurn leftover input.readable r = none) : EndsAtBlankLine leftover input r := by
  refine ⟨not_overruns_of_status hstate hturn,?_⟩
  rintro input' r' size r'' (_ | ⟨-,hturn',-⟩) - hlast
  · cases hturn.symm.trans hlast
  · cases hturn.symm.trans hturn'

theorem endsAtBlankLine_turn_iff {size : ℕ} {r₁ : HttpRequest} (hrun : r.currentState ≠ .done)
    (hturn : parseTurn leftover input.readable r = some (size, r₁)) :
    EndsAtBlankLine leftover input r ↔
      (r.currentState = .headers → r₁.currentState = .done → size = 2 ∧ crlf <+: input.readable) ∧
        EndsAtBlankLine leftover (input.advance size) r₁ := by
  constructor
  · rintro ⟨hinside,h⟩
    refine ⟨fun hheaders hdone => h input r size r₁ (.refl input r) hheaders hturn hdone,
      (overruns_turn_iff hrun hturn).not.mp hinside,?_⟩
    intro input' r' size' r'' hturns
    exact h input' r' size' r'' (.turn hrun hturn hturns)
  · rintro ⟨hfirst,hinside,hrest⟩
    refine ⟨(overruns_turn_iff hrun hturn).not.mpr hinside,?_⟩
    rintro input' r' size' r'' (_ | ⟨-,hturn',hturns⟩) hheaders hlast hdone
    · obtain ⟨rfl,rfl⟩ := Prod.mk.inj (Option.some.inj (hturn.symm.trans hlast))
      exact hfirst hheaders hdone
    · obtain ⟨rfl,rfl⟩ := Prod.mk.inj (Option.some.inj (hturn.symm.trans hturn'))
      exact hrest input' r' size' r'' hturns hheaders hlast hdone

theorem endsAtBlankLine_of_stuck (hrun : r.currentState ≠ .done)
    (hturn : parseTurn leftover input.readable r = some (0, r)) :
    EndsAtBlankLine leftover input r := by
  refine ⟨not_overruns_of_stuck hturn,?_⟩
  intro input' r' size r'' hturns _ hlast hdone
  obtain ⟨hread,rfl⟩ := hturns.stuck hturn
  rw [hread] at hlast
  obtain ⟨-,rfl⟩ := Prod.mk.inj (Option.some.inj (hturn.symm.trans hlast))
  exact absurd hdone hrun

/-- The array has room for the headers, and the first line without a colon and a space, if
there is one, is blank. -/
structure BlankEnd (count : ℕ) (ls : List (List Byte)) : Prop where
  room : count + (ls.takeWhile HasColon).length ≤ requestHeaderCapacity
  blank : ∀ line, (ls.dropWhile HasColon).head? = some line → line = []

theorem blankEnd_cons {count : ℕ} {line : List Byte} {rest : List (List Byte)}
    (hcolon : HasColon line) : BlankEnd count (line :: rest) ↔ BlankEnd (count + 1) rest := by
  have hdrop : (line :: rest).dropWhile HasColon = rest.dropWhile HasColon := by simp [hcolon]
  constructor
  · rintro ⟨hroom,hblank⟩
    exact ⟨takeWhile_colon hcolon count rest ▸ hroom,hdrop ▸ hblank⟩
  · rintro ⟨hroom,hblank⟩
    exact ⟨(takeWhile_colon hcolon count rest).symm ▸ hroom,hdrop.symm ▸ hblank⟩

theorem crlf_prefix_iff {unread line : List Byte} {rest : List (List Byte)}
    (h : completeLines unread = line :: rest) : crlf <+: unread ↔ line = [] := by
  obtain ⟨size,hfind,rfl,-⟩ := find_of_completeLines_cons h
  have hlen := length_take_of_find (by decide) hfind
  constructor
  · intro hprefix
    cases unread with
    | nil => simp
    | cons a l =>
      rw [find, if_pos hprefix] at hfind
      obtain rfl := Option.some.inj hfind
      rfl
  · intro hnil
    rw [hnil] at hlen
    obtain rfl : size = 0 := hlen.symm
    exact find_spec hfind

theorem endsAtBlankLine_headers_iff (hstate : r.currentState = .headers)
    (hfits : r.requestHeaders.length ≤ requestHeaderCapacity) :
    EndsAtBlankLine leftover input r ↔
      BlankEnd r.requestHeaders.length (completeLines input.readable) := by
  have hrun : r.currentState ≠ .done := by simp [hstate]
  generalize hlines : completeLines input.readable = ls
  induction ls generalizing input r with
  | nil =>
    apply iff_of_true (endsAtBlankLine_of_stuck hrun (parseTurn_noLine (.inr hstate) hlines))
    exact ⟨hfits,by simp⟩
  | cons line rest ih =>
    by_cases hcolon : HasColon line
    · rcases hfits.lt_or_eq with hroom | hfull
      · obtain ⟨size,r',hturn,hstate',hlen,hrest⟩ :=
          parseTurn_headerLine hstate hlines hcolon hroom
        have hnext : EndsAtBlankLine leftover (input.advance size) r' ↔
            BlankEnd r'.requestHeaders.length rest :=
          ih hstate' (by omega) (by simp [hstate']) (by rw [advance_readable, hrest])
        rw [endsAtBlankLine_turn_iff hrun hturn, hnext, hlen, blankEnd_cons hcolon]
        simp [hstate']
      · have hover : Overruns leftover input r :=
          ⟨input,r,line,rest,.refl input r,hstate,hlines,hcolon,hfull.ge⟩
        apply iff_of_false fun hends => hends.inside hover
        intro hblank
        have hroom := hblank.room
        rw [takeWhile_colon hcolon] at hroom
        omega
    · rw [endsAtBlankLine_turn_iff hrun (parseTurn_lastLine hstate hlines hcolon),
        crlf_prefix_iff hlines]
      have hafter : EndsAtBlankLine leftover (input.advance 2) { r with currentState := .done } :=
        endsAtBlankLine_of_done rfl
      have hfirst : BlankEnd r.requestHeaders.length (line :: rest) ↔ line = [] := by
        have hstays : (line :: rest).dropWhile HasColon = line :: rest := by simp [hcolon]
        constructor
        · exact fun hblank => hblank.blank line (by rw [hstays]; rfl)
        · intro hnil
          refine ⟨by simpa [hcolon] using hfits,fun first hfirst => ?_⟩
          rw [hstays] at hfirst
          exact (Option.some.inj hfirst).symm.trans hnil
      rw [hfirst]
      simp [hafter, hstate]

/-- The header section that the call will read ends at a blank line. -/
def SectionEndsBlank (r : HttpRequest) (unread : List Byte) : Prop :=
  match r.currentState, completeLines unread with
  | .status, first :: rest => 2 ≤ first.count 32 → BlankEnd r.requestHeaders.length rest
  | .headers, ls => BlankEnd r.requestHeaders.length ls
  | _, _ => True

/-- For every content of the buffer and every request that calls meet, the call keeps to
the array and leaves the header section only at a blank line just when the headers fit and
the first line there without a colon and a space is blank. -/
theorem endsAtBlankLine_iff (leftover : Leftover) (input : Buffer) {r : HttpRequest}
    (h : Reached r) :
    EndsAtBlankLine leftover input r ↔ SectionEndsBlank r input.readable := by
  obtain ⟨hbody,hfresh,hfits⟩ := h.sound
  cases hs : r.currentState with
  | status =>
    have hrun : r.currentState ≠ .done := by simp [hs]
    cases hlines : completeLines input.readable with
    | nil =>
      simp only [SectionEndsBlank, hs, hlines, iff_true]
      exact endsAtBlankLine_of_stuck hrun (parseTurn_noLine (.inl hs) hlines)
    | cons line rest =>
      simp only [SectionEndsBlank, hs, hlines]
      rcases lt_or_ge (line.count 32) 2 with hbad | hspaces
      · apply iff_of_true (endsAtBlankLine_of_badLine hs (parseTurn_badLine hs hlines hbad))
        exact fun hno => absurd hno (not_le.mpr hbad)
      · obtain ⟨size,r',hturn,hstate,hkept,hrest⟩ :=
          @parseTurn_requestLine leftover _ _ _ _ hs hlines hspaces
        rw [endsAtBlankLine_turn_iff hrun hturn,
          endsAtBlankLine_headers_iff hstate (hkept ▸ hfits), hkept, advance_readable, hrest]
        simp [hs, hspaces]
  | headers =>
    simp only [SectionEndsBlank, hs]
    exact endsAtBlankLine_headers_iff hs hfits
  | body => exact absurd hs hbody
  | done =>
    simp only [SectionEndsBlank, hs, iff_true]
    exact endsAtBlankLine_of_done hs

end Calls

theorem parse_ends_sample :
    (Ends sampleLeftover (holding (ascii "GET /")) httpRequestNew ∧
      (¬ crlf <:+: (holding (ascii "GET /")).readable →
        httpRequestNew.currentState ≠ .done → ∃ n ok input' r',
        parseHttpRequest sampleLeftover n (holding (ascii "GET /")) httpRequestNew =
          some (.returned ok input' r') ∧
        r'.currentState ≠ .done ∧ input'.readable = (holding (ascii "GET /")).readable)) ↔
      LoopEnds httpRequestNew (holding (ascii "GET /")).readable :=
  parse_ends_iff sampleLeftover (holding (ascii "GET /")) .new

/-- On the beginning of a request line, and on nothing at all, the call goes on
forever. -/
theorem parse_waits :
    Reached httpRequestNew ∧ (holding (ascii "GET /")).readable = ascii "GET /" ∧
    (∀ n, parseHttpRequest sampleLeftover n (holding (ascii "GET /")) httpRequestNew = none) ∧
    ∀ n, parseHttpRequest sampleLeftover n (holding []) httpRequestNew = none := by
  refine ⟨.new,holding_readable _,?_,?_⟩
  · apply parse_stuck sampleLeftover (.inl rfl)
    rw [holding_readable]
    decide
  · apply parse_stuck sampleLeftover (.inl rfl)
    rw [holding_readable]
    decide

def colonRequest : List Byte := ascii "GET / HTTP/1.1\r\nHost:localhost\r\n\r\n"

theorem endsAtBlankLine_sample :
    EndsAtBlankLine sampleLeftover (holding colonRequest) httpRequestNew ↔
      SectionEndsBlank httpRequestNew (holding colonRequest).readable :=
  endsAtBlankLine_iff sampleLeftover (holding colonRequest) .new

/-- A header without a space behind its colon ends the request, and all but its first
two letters are left to be read as the next one. -/
theorem parse_endsInHeader :
    (∃ n input' r', parseHttpRequest sampleLeftover n (holding colonRequest) httpRequestNew =
        some (.returned 1 input' r') ∧ r'.currentState = .done ∧
        input'.readable = ascii "st:localhost\r\n\r\n") ∧
    ¬ EndsAtBlankLine sampleLeftover (holding colonRequest) httpRequestNew := by
  constructor
  · refine ⟨3,_,_,rfl,rfl,?_⟩
    decide
  · intro h
    obtain ⟨-,hblank⟩ := h.blank ((holding colonRequest).advance 16) _ 2 _
      (.turn (by decide) rfl (.refl _ _)) rfl rfl rfl
    rw [advance_readable, holding_readable] at hblank
    exact absurd hblank (by decide)

end CppExamples.HttpTest
