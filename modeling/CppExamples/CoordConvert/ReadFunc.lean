import CppExamples.HttpTest.CString
import CppExamples.Library.Machine

/-! # The messages of the coordinate server

`ReadFunc` takes a line out of the socket's buffer, splits it at its commas and reads the
fields by their numbers, as many as field 9 says.  Neither the number of bytes that
it was given nor that of the fields is looked at.  The buffer is that of the network
library, whose documentation says what is taken out of it; a floating point number is
whatever `std::stod` makes of a text.
-/
namespace CppExamples.CoordConvert
open HttpTest (Byte ascii)
open Machine

def bufLen : ℕ := 2048
def newline : Byte := 10
def comma : Byte := 44

def windowWidth : ℕ := 960
def windowHeight : ℕ := 540

/-- How `ReadFunc` ends early: the string is made longer than `msg_buf` is, a field is
read that the message does not have, or a conversion throws. -/
inductive Fault where
  | length (length : ℕ)
  | index (i : ℕ)
  | thrown
deriving DecidableEq

/-- `std::getline` on what is left of a stream; a token ends at the delimiter, which is
dropped, or with the stream. -/
def getline (delimiter : Byte) (input : List Byte) : Option (List Byte × List Byte) :=
  if input = [] then none
  else some (input.takeWhile (· ≠ delimiter), (input.dropWhile (· ≠ delimiter)).tail)

theorem getline_shorter {delimiter : Byte} {input token rest : List Byte}
    (h : getline delimiter input = some (token, rest)) : rest.length < input.length := by
  rw [getline] at h
  split at h
  next => cases h
  next hne =>
    obtain ⟨-,rfl⟩ := Prod.mk.inj (Option.some.inj h)
    have hpos := List.length_pos_iff.mpr hne
    have hdrop := (List.dropWhile_suffix (l := input) fun b => decide (b ≠ delimiter)).length_le
    rw [List.length_tail]
    omega

def splitString (input : List Byte) (delimiter : Byte) : List (List Byte) :=
  match _hline : getline delimiter input with
  | none => []
  | some (token, rest) => token :: splitString rest delimiter
termination_by input.length
decreasing_by exact getline_shorter _hline

def isSpace (b : Byte) : Bool := b = 32 || (9 ≤ b && b ≤ 13)

def isDigit (b : Byte) : Bool := 48 ≤ b && b ≤ 57

/-- `std::stoi`: blanks, a sign and digits, behind which anything may stand.  It throws
when there is no digit and when the number is not an `int`. -/
def stoi (text : List Byte) : Option ℤ :=
  let signed := text.dropWhile isSpace
  let unsigned := if signed.head? = some 43 ∨ signed.head? = some 45 then signed.tail else signed
  let digits := unsigned.takeWhile isDigit
  let magnitude : ℤ := digits.foldl (fun n d => 10 * n + (d.toNat - 48)) 0
  let value := if signed.head? = some 45 then -magnitude else magnitude
  if digits = [] ∨ value < -2 ^ 31 ∨ 2 ^ 31 ≤ value then none else some value

structure Pos (δ : Type*) where
  id : ℤ
  x : δ
  y : δ

/-- What is read from a message. -/
structure Report (δ : Type*) where
  lon : δ
  lat : δ
  h : δ
  heading : δ
  pitch : δ
  roll : δ
  hfov : δ
  vfov : δ
  posList : List (Pos δ)

/-- What `ReadUntil` returns, what it leaves in `msg_buf`, and what in the socket's buffer. -/
structure Received where
  size : ℕ
  msgBuf : List Byte
  rest : List Byte

/-- `std::string(msg_buf, length)`. -/
def msgString (msgBuf : List Byte) (length : ℕ) : Except Fault (List Byte) :=
  if length ≤ bufLen then .ok (msgBuf.take length) else .error (.length length)

def field {β : Type*} (result : List (List Byte)) (convert : List Byte → Option β) (i : ℕ) :
    Except Fault β :=
  match result[i]? with
  | none => .error (.index i)
  | some text =>
    match convert text with
    | none => .error .thrown
    | some value => .ok value

section Callback
variable {δ : Type} [NatCast δ] [Mul δ] [Sub δ] (stod : List Byte → Option δ)

/-- The loop over the positions, with the turns that are left. -/
def readPositions (result : List (List Byte)) : ℕ → ℕ → Except Fault (List (Pos δ))
  | 0, _ => .ok []
  | turns + 1, i => do
    let id ← field result stoi (10 + i * 3)
    let x ← field result stod (10 + i * 3 + 1)
    let y ← field result stod (10 + i * 3 + 2)
    let posList ← readPositions result turns (i + 1)
    return ⟨id,windowWidth * x,windowHeight - windowHeight * y⟩ :: posList

def readFields (result : List (List Byte)) : Except Fault (Report δ) := do
  let lon ← field result stod 1
  let lat ← field result stod 2
  let h ← field result stod 3
  let heading ← field result stod 4
  let pitch ← field result stod 5
  let roll ← field result stod 6
  let hfov ← field result stod 7
  let vfov ← field result stod 8
  let posNum ← field result stoi 9
  let posList ← readPositions stod result posNum.toNat 0
  return ⟨lon,lat,h,heading,pitch,roll,hfov,vfov,posList⟩

/-- The size is unsigned, so that one less than 0 is the largest. -/
def readFunc (readUntil : List Byte → Received) (unread : List Byte) :
    Except Fault (Report δ × List Byte) := do
  let received := readUntil unread
  let msg ← msgString received.msgBuf ((2 ^ 32 - 1 + received.size) % 2 ^ 32)
  let report ← readFields stod (splitString msg comma)
  return (report,received.rest)

/-- The callback on one more fragment from the socket.  A fault ends the program. -/
def readStep (readUntil : List Byte → Received) (unread fragment : List Byte) :
    Option (List Byte × Report δ) :=
  match readFunc stod readUntil (unread ++ fragment) with
  | .ok (report, rest) => some (rest, report)
  | .error _ => none

end Callback

/-- What the library documents of `ReadUntil`: without a newline, or when the line and its
newline are longer than `msg_buf`, nothing is read and 0 is returned; else the line is read
with its newline. -/
structure ReadsUntil (readUntil : List Byte → Received) : Prop where
  missing : ∀ unread, newline ∉ unread →
    (readUntil unread).size = 0 ∧ (readUntil unread).rest = unread
  tooLong : ∀ line rest, newline ∉ line → bufLen ≤ line.length →
    (readUntil (line ++ newline :: rest)).size = 0 ∧
      (readUntil (line ++ newline :: rest)).rest = line ++ newline :: rest
  found : ∀ line rest, newline ∉ line → line.length < bufLen →
    (readUntil (line ++ newline :: rest)).size = line.length + 1 ∧
      (readUntil (line ++ newline :: rest)).msgBuf.take (line.length + 1) = line ++ [newline] ∧
      (readUntil (line ++ newline :: rest)).rest = rest

/-- Neither the string nor a field is read beyond what there is; a conversion may throw. -/
def Safe {β : Type*} (r : Except Fault β) : Prop := ∀ fault, r = .error fault → fault = .thrown

section Conditions
variable {δ : Type} (stod : List Byte → Option δ)

/-- Whether the conversion of field `i` returns: field 9 and the first of each position are
integers. -/
def converts (i : ℕ) (text : List Byte) : Bool :=
  if i = 9 ∨ 10 ≤ i ∧ (i - 10) % 3 = 0 then (stoi text).isSome else (stod text).isSome

/-- A field from number `i` on does not convert. -/
def Throws (fields : List (List Byte)) (i : ℕ) : Prop :=
  ∃ j text, i ≤ j ∧ fields[j]? = some text ∧ converts stod j text = false

/-- The fields reach as far as field 9 says. -/
def Complete (fields : List (List Byte)) : Prop :=
  ∃ text posNum, fields[9]? = some text ∧ stoi text = some posNum ∧
    9 + 3 * posNum.toNat < fields.length

/-- There is a line that fits into `msg_buf`, and in it either a field that makes a conversion
throw or as many fields as it says. -/
def MessageFits (unread : List Byte) : Prop :=
  ∃ line rest, unread = line ++ newline :: rest ∧ newline ∉ line ∧ line.length < bufLen ∧
    (Throws stod (splitString line comma) 1 ∨ Complete (splitString line comma))

end Conditions

theorem safe_ok {β : Type*} (b : β) : Safe (.ok b : Except Fault β) := fun _ h => by cases h

theorem safe_error {β : Type*} {fault : Fault} :
    Safe (.error fault : Except Fault β) ↔ fault = .thrown := by
  constructor
  · intro h
    exact h fault rfl
  · rintro rfl fault h
    exact (Except.error.inj h).symm

theorem safe_bind_pure {β γ : Type} {r : Except Fault β} (g : β → γ) :
    Safe (r >>= fun b => pure (g b)) ↔ Safe r := by
  cases r with
  | ok b => exact iff_of_true (safe_ok (g b)) (safe_ok b)
  | error fault => exact safe_error.trans safe_error.symm

theorem safe_field_bind {β γ : Type} {result : List (List Byte)} {convert : List Byte → Option β}
    {i : ℕ} {next : β → Except Fault γ} :
    Safe (field result convert i >>= next) ↔
      ∃ text, result[i]? = some text ∧ ∀ value, convert text = some value → Safe (next value) := by
  cases htext : result[i]? with
  | none =>
    have hfield : field result convert i = .error (.index i) := by simp only [field, htext]
    rw [hfield]
    exact iff_of_false (fun h => by cases safe_error.mp h) (by simp)
  | some text =>
    cases hvalue : convert text with
    | none =>
      have hfield : field result convert i = .error .thrown := by simp only [field, htext, hvalue]
      rw [hfield]
      exact iff_of_true (safe_error.mpr rfl) ⟨text,rfl,fun _ h => by simp [hvalue] at h⟩
    | some value =>
      have hfield : field result convert i = .ok value := by simp only [field, htext, hvalue]
      rw [hfield]
      constructor
      · intro h
        refine ⟨text,rfl,fun value' h' => ?_⟩
        obtain rfl := Option.some.inj (hvalue.symm.trans h')
        exact h
      · rintro ⟨text',h',hnext⟩
        obtain rfl := Option.some.inj h'
        exact hnext value hvalue

section Reads
variable {δ : Type} {stod : List Byte → Option δ} {result : List (List Byte)}

/-- One read after the other: if it is safe to go on behind field `i` just when a later field
throws or `enough` holds, it is safe to read field `i` under the same condition from `i` on. -/
theorem safe_field {β γ : Type} {convert : List Byte → Option β} {next : β → Except Fault γ} {i : ℕ}
    {enough : Prop} (hconvert : ∀ text, converts stod i text = (convert text).isSome)
    (henough : enough → i < result.length)
    (hnext : ∀ text value, result[i]? = some text → convert text = some value →
      (Safe (next value) ↔ Throws stod result (i + 1) ∨ enough)) :
    Safe (field result convert i >>= next) ↔ Throws stod result i ∨ enough := by
  rw [safe_field_bind]
  constructor
  · rintro ⟨text,htext,h⟩
    cases hvalue : convert text with
    | none => exact .inl ⟨i,text,le_rfl,htext,by rw [hconvert, hvalue]; rfl⟩
    | some value =>
      rcases (hnext text value htext hvalue).mp (h value hvalue) with ⟨j,t,hj,ht,hthrows⟩ | henough
      · exact .inl ⟨j,t,(Nat.le_succ i).trans hj,ht,hthrows⟩
      · exact .inr henough
  · intro h
    have hlt : i < result.length := by
      rcases h with ⟨j,t,hj,ht,-⟩ | h
      · exact hj.trans_lt (List.getElem?_eq_some_iff.mp ht).1
      · exact henough h
    refine ⟨result[i],List.getElem?_eq_getElem hlt,fun value hvalue => ?_⟩
    refine (hnext _ value (List.getElem?_eq_getElem hlt) hvalue).mpr ?_
    rcases h with ⟨j,t,hj,ht,hthrows⟩ | h
    · refine .inl ⟨j,t,?_,ht,hthrows⟩
      rcases hj.eq_or_lt with rfl | hj
      · obtain rfl := Option.some.inj ((List.getElem?_eq_getElem hlt).symm.trans ht)
        rw [hconvert, hvalue] at hthrows
        cases hthrows
      · exact hj
    · exact .inr h

variable [NatCast δ] [Mul δ] [Sub δ]

theorem safe_readPositions (turns i : ℕ) (h : 10 + i * 3 ≤ result.length) :
    Safe (readPositions stod result turns i) ↔
      Throws stod result (10 + i * 3) ∨ 10 + (i + turns) * 3 ≤ result.length := by
  induction turns generalizing i with
  | zero => exact iff_of_true (safe_ok _) (.inr h)
  | succ turns ih =>
    rw [readPositions]
    refine safe_field (fun text => ?_) (by omega) fun _ id _ _ => ?_
    · rw [converts, if_pos (by omega)]
    refine safe_field (fun text => ?_) (by omega) fun _ x _ _ => ?_
    · rw [converts, if_neg (by omega)]
    refine safe_field (fun text => ?_) (by omega) fun text y htext _ => ?_
    · rw [converts, if_neg (by omega)]
    have hlast := (List.getElem?_eq_some_iff.mp htext).1
    have hih := ih (i + 1) (by omega)
    rw [safe_bind_pure, hih]
    have hnum : 10 + (i + 1) * 3 = 10 + i * 3 + 2 + 1 := by omega
    have htotal : 10 + (i + 1 + turns) * 3 = 10 + (i + (turns + 1)) * 3 := by omega
    rw [hnum, htotal]

omit [NatCast δ] [Mul δ] [Sub δ] in
theorem safe_number {γ : Type} {next : δ → Except Fault γ} {i : ℕ} (hi : i < 9)
    (hnext : ∀ value, Safe (next value) ↔ Throws stod result (i + 1) ∨ Complete result) :
    Safe (field result stod i >>= next) ↔ Throws stod result i ∨ Complete result := by
  refine safe_field (fun text => ?_) ?_ fun _ value _ _ => hnext value
  · rw [converts, if_neg (by omega)]
  · rintro ⟨text,posNum,-,-,h⟩
    omega

theorem safe_readFields :
    Safe (readFields stod result) ↔ Throws stod result 1 ∨ Complete result := by
  have hlong : Complete result → 9 < result.length := by
    rintro ⟨text,posNum,-,-,h⟩
    omega
  rw [readFields]
  refine safe_number (by decide) fun lon => ?_
  refine safe_number (by decide) fun lat => ?_
  refine safe_number (by decide) fun h => ?_
  refine safe_number (by decide) fun heading => ?_
  refine safe_number (by decide) fun pitch => ?_
  refine safe_number (by decide) fun roll => ?_
  refine safe_number (by decide) fun hfov => ?_
  refine safe_number (by decide) fun vfov => ?_
  refine safe_field (fun _ => rfl) hlong fun text posNum htext hposNum => ?_
  have hten := (List.getElem?_eq_some_iff.mp htext).1
  rw [safe_bind_pure, safe_readPositions _ 0 (by omega)]
  refine or_congr Iff.rfl ?_
  constructor
  · intro h
    exact ⟨text,posNum,htext,hposNum,by omega⟩
  · rintro ⟨text',posNum',htext',hposNum',h⟩
    obtain rfl := Option.some.inj (htext.symm.trans htext')
    obtain rfl := Option.some.inj (hposNum.symm.trans hposNum')
    omega

end Reads

section Runs
variable {δ : Type} [NatCast δ] [Mul δ] [Sub δ] {readUntil : List Byte → Received}

/-- Without a line that fits, the string is made as long as an unsigned number gets. -/
theorem readFunc_missing (stod : List Byte → Option δ) (h : ReadsUntil readUntil)
    {unread : List Byte} (hlong : ∀ line rest, unread = line ++ newline :: rest → newline ∉ line →
      bufLen ≤ line.length) : readFunc stod readUntil unread = .error (.length (2 ^ 32 - 1)) := by
  have hsize : (readUntil unread).size = 0 := by
    by_cases hmem : newline ∈ unread
    · obtain ⟨line,rest,rfl,hline⟩ := List.eq_append_cons_of_mem hmem
      exact (h.tooLong line rest hline (hlong line rest rfl hline)).1
    · exact (h.missing unread hmem).1
  have hover : ¬ (2 ^ 32 - 1 + 0) % 2 ^ 32 ≤ bufLen := by decide
  simp only [readFunc, hsize, msgString, if_neg hover]
  rfl

theorem readFunc_found (stod : List Byte → Option δ) (h : ReadsUntil readUntil) {line : List Byte}
    (rest : List Byte) (hline : newline ∉ line) (hlen : line.length < bufLen) :
    readFunc stod readUntil (line ++ newline :: rest) =
      readFields stod (splitString line comma) >>= fun report => pure (report,rest) := by
  obtain ⟨hsize,hbuf,hrest⟩ := h.found line rest hline hlen
  have hlength : (2 ^ 32 - 1 + (line.length + 1)) % 2 ^ 32 = line.length := by
    have : bufLen = 2048 := rfl
    omega
  have hmsg : (readUntil (line ++ newline :: rest)).msgBuf.take line.length = line := by
    have htake := congrArg (List.take line.length) hbuf
    rwa [List.take_take, min_eq_left (Nat.le_succ _), List.take_left] at htake
  simp only [readFunc, hsize, hlength, msgString, if_pos hlen.le, hmsg, hrest]
  rfl

theorem safe_readFunc (stod : List Byte → Option δ) (h : ReadsUntil readUntil) (unread : List Byte) :
    Safe (readFunc stod readUntil unread) ↔ MessageFits stod unread := by
  have hsafe : ∀ line rest, newline ∉ line → line.length < bufLen →
      (Safe (readFunc stod readUntil (line ++ newline :: rest)) ↔
        Throws stod (splitString line comma) 1 ∨ Complete (splitString line comma)) := by
    intro line rest hline hlen
    rw [readFunc_found stod h rest hline hlen, safe_bind_pure, safe_readFields]
  constructor
  · intro hread
    by_contra hno
    have hlong : ∀ line rest, unread = line ++ newline :: rest → newline ∉ line →
        bufLen ≤ line.length := by
      rintro line rest rfl hline
      by_contra hlen
      exact hno ⟨line,rest,rfl,hline,by omega,(hsafe line rest hline (by omega)).mp hread⟩
    rw [readFunc_missing stod h hlong] at hread
    cases safe_error.mp hread
  · rintro ⟨line,rest,rfl,hline,hlen,hfields⟩
    exact (hsafe line rest hline hlen).mpr hfields

theorem readStep_rest (h : ReadsUntil readUntil) {stod : List Byte → Option δ}
    {unread fragment line rest : List Byte} (he : unread ++ fragment = line ++ newline :: rest)
    (hline : newline ∉ line) (hlen : line.length < bufLen) {r : List Byte × Report δ}
    (hr : readStep stod readUntil unread fragment = some r) : r.1 = rest := by
  rw [readStep, he, readFunc_found stod h rest hline hlen] at hr
  cases hread : readFields stod (splitString line comma) with
  | ok report =>
    rw [hread] at hr
    rw [← Option.some.inj hr]
  | error fault =>
    rw [hread] at hr
    cases hr

/-- For all bytes and all ways in which they arrive: every call of the callback stays within
`msg_buf` and within the fields just when the bytes at hand form a message that fits at each
of them. -/
theorem readFunc_safe_iff (stod : List Byte → Option δ) (h : ReadsUntil readUntil)
    (fragments : List (List Byte)) :
    Admits (readStep stod readUntil) (fun unread fragment => MessageFits stod (unread ++ fragment))
      [] fragments ↔
    ∀ before fragment after unread reports, fragments = before ++ fragment :: after →
      run (readStep stod readUntil) [] before = some (unread, reports) →
        Safe (readFunc stod readUntil (unread ++ fragment)) := by
  simp only [safe_readFunc stod h]
  exact admits_iff_forall [] fragments

end Runs

/-- A buffer that does as documented. -/
def bufferReadUntil (unread : List Byte) : Received :=
  let line := unread.takeWhile (· ≠ newline)
  if line.length < unread.length ∧ line.length < bufLen then
    ⟨line.length + 1,line ++ newline :: List.replicate (bufLen - line.length - 1) 0,
      unread.drop (line.length + 1)⟩
  else ⟨0,List.replicate bufLen 0,unread⟩

theorem bufferReadUntil_reads : ReadsUntil bufferReadUntil := by
  have hfirst : ∀ line rest, newline ∉ line →
      (line ++ newline :: rest).takeWhile (· ≠ newline) = line := by
    intro line rest hline
    have hall : ∀ b ∈ line, decide (b ≠ newline) = true := by
      intro b hb
      exact decide_eq_true fun he => hline (he ▸ hb)
    rw [List.takeWhile_append_of_pos hall]
    simp
  refine ⟨?_,?_,?_⟩
  · intro unread hno
    have hall : unread.takeWhile (· ≠ newline) = unread :=
      List.takeWhile_eq_self_iff.mpr fun b hb => decide_eq_true fun he => hno (he ▸ hb)
    simp only [bufferReadUntil, hall, lt_irrefl, false_and, if_false, and_self]
  · intro line rest hline hlen
    simp only [bufferReadUntil, hfirst line rest hline, not_lt.mpr hlen, and_false, if_false,
      and_self]
  · intro line rest hline hlen
    have hlt : line.length < (line ++ newline :: rest).length := by
      rw [List.length_append, List.length_cons]
      omega
    simp only [bufferReadUntil, hfirst line rest hline, hlt, hlen, and_self, if_true, true_and]
    constructor
    · simp [List.take_append]
    · simp [List.drop_append]

/-- A conversion that is right of the texts below, all of which are zeros. -/
def stodZero : List Byte → Option ℚ := fun _ => some 0

/-- A message of one position. -/
def positionLine : List Byte := ascii "p,0,0,0,0,0,0,0,0,1,7,0,0"

/-- A message with the beginning of the next one, and its rest. -/
def positionFragments : List (List Byte) :=
  [positionLine ++ newline :: positionLine.take 4, positionLine.drop 4 ++ [newline]]

theorem positionLine_fits (rest : List Byte) : MessageFits stodZero (positionLine ++ newline :: rest) := by
  have hline : positionLine =
      [112, 44, 48, 44, 48, 44, 48, 44, 48, 44, 48, 44, 48, 44, 48, 44, 48, 44, 49, 44, 55, 44, 48, 44,
        48] := by decide
  have hfields : splitString positionLine comma =
      [112] :: List.replicate 8 [48] ++ [[49], [55], [48], [48]] := by
    rw [hline]
    simp [splitString, getline, comma]
  refine ⟨positionLine,rest,rfl,by decide,by decide,.inr ?_⟩
  rw [hfields]
  exact ⟨[49],1,rfl,by decide,by decide⟩

theorem positionFragments_fit :
    Admits (readStep stodZero bufferReadUntil)
      (fun unread fragment => MessageFits stodZero (unread ++ fragment)) [] positionFragments := by
  refine ⟨?_,fun r hr => ⟨?_,fun _ _ => trivial⟩⟩
  · exact positionLine_fits _
  · have hrest : r.1 = positionLine.take 4 :=
      readStep_rest bufferReadUntil_reads (List.nil_append _) (by decide) (by decide) hr
    have hwhole : r.1 ++ (positionLine.drop 4 ++ [newline]) = positionLine ++ newline :: [] := by
      rw [hrest, ← List.append_assoc, List.take_append_drop]
    have hfits := positionLine_fits []
    rwa [← hwhole] at hfits

theorem readFunc_safe_position :
    positionFragments.length = 2 ∧
      ∀ before fragment after unread reports, positionFragments = before ++ fragment :: after →
        run (readStep stodZero bufferReadUntil) [] before = some (unread, reports) →
          Safe (readFunc stodZero bufferReadUntil (unread ++ fragment)) :=
  ⟨rfl,(readFunc_safe_iff stodZero bufferReadUntil_reads positionFragments).mp positionFragments_fit⟩

/-- A piece without a newline makes a string of 4294967295 bytes, an empty line has no field
1, and a message that claims five positions and has none no field 10. -/
theorem readFunc_overruns :
    readFunc stodZero bufferReadUntil (ascii "p,0") = .error (.length 4294967295) ∧
    readFunc stodZero bufferReadUntil [newline] = .error (.index 1) ∧
    readFunc stodZero bufferReadUntil (ascii "p,0,0,0,0,0,0,0,0,5" ++ newline :: []) =
      .error (.index 10) ∧
    ¬ ∀ unread, Safe (readFunc stodZero bufferReadUntil unread) := by
  have hempty : readFunc stodZero bufferReadUntil [newline] = .error (.index 1) := by
    rw [← List.nil_append [newline], readFunc_found stodZero bufferReadUntil_reads [] (by decide)
      (by decide)]
    simp [splitString, getline, readFields, field]
    rfl
  refine ⟨?_,hempty,?_,fun h => by cases h [newline] _ hempty⟩
  · have hno : newline ∉ ascii "p,0" := by decide
    exact readFunc_missing stodZero bufferReadUntil_reads fun line rest he _ =>
      absurd (he ▸ List.mem_append_right line List.mem_cons_self) hno
  · have hline : ascii "p,0,0,0,0,0,0,0,0,5" =
        [112, 44, 48, 44, 48, 44, 48, 44, 48, 44, 48, 44, 48, 44, 48, 44, 48, 44, 53] := by decide
    have hfields : splitString (ascii "p,0,0,0,0,0,0,0,0,5") comma =
        [112] :: List.replicate 8 [48] ++ [[53]] := by
      rw [hline]
      simp [splitString, getline, comma]
    rw [readFunc_found stodZero bufferReadUntil_reads [] (by decide) (by decide), hfields]
    rfl

end CppExamples.CoordConvert
