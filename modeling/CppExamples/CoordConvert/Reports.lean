import CppExamples.CoordConvert.ReadFunc

/-! # Reports that reach the coordinate server

The line of a report is its fields with commas between them: a name that nobody reads, eight
numbers, the number of positions, and three fields for each of these.  How the peer prints a
floating point number is left open, as long as `std::stod` reads it back.  A line is read
back whatever it says, and the lines of a stream are read one at each call of `ReadFunc`.
-/
namespace CppExamples.CoordConvert
open HttpTest (Byte ascii)
open Machine

def digit (d : ℕ) : Byte := (48 + d).toUInt8

def printNat (n : ℕ) : List Byte :=
  if n = 0 then [48] else (Nat.digits 10 n).reverse.map digit

def printInt (z : ℤ) : List Byte :=
  if z < 0 then 45 :: printNat z.natAbs else printNat z.natAbs

theorem digit_toNat {d : ℕ} (hd : d < 10) : (digit d).toNat = 48 + d := by
  rw [digit, Nat.toUInt8, UInt8.toNat_ofNat', Nat.mod_eq_of_lt (by omega)]

theorem isDigit_digit {d : ℕ} (hd : d < 10) : isDigit (digit d) = true := by
  have hnat := digit_toNat hd
  simp only [isDigit, Bool.and_eq_true, decide_eq_true_eq, UInt8.le_iff_toNat_le, hnat]
  simp
  omega

theorem printNat_isDigit {n : ℕ} {b : Byte} (hb : b ∈ printNat n) : isDigit b = true := by
  unfold printNat at hb
  split at hb
  next =>
    obtain rfl := List.mem_singleton.mp hb
    decide
  next =>
    obtain ⟨d,hd,rfl⟩ := List.mem_map.mp hb
    exact isDigit_digit (Nat.digits_lt_base (by norm_num) (List.mem_reverse.mp hd))

theorem printNat_ne_nil (n : ℕ) : printNat n ≠ [] := by
  unfold printNat
  split
  next => simp
  next hn =>
    have hdigits : Nat.digits 10 n ≠ [] := Nat.digits_ne_nil_iff_ne_zero.mpr hn
    simpa only [ne_eq, List.map_eq_nil_iff, List.reverse_eq_nil_iff] using hdigits

theorem foldl_digits {digits : List ℕ} (hd : ∀ d ∈ digits, d < 10) :
    (digits.reverse.map digit).foldl (fun (n : ℤ) d => 10 * n + (d.toNat - 48)) 0 =
      ((Nat.ofDigits 10 digits : ℕ) : ℤ) := by
  induction digits with
  | nil => rfl
  | cons d digits ih =>
    have hhead := digit_toNat (hd d List.mem_cons_self)
    have hrest := ih fun e he => hd e (List.mem_cons_of_mem d he)
    rw [List.reverse_cons, List.map_append, List.foldl_append, hrest]
    rw [List.map_singleton, List.foldl_cons, List.foldl_nil, hhead, Nat.ofDigits_cons]
    push_cast
    ring

theorem foldl_printNat (n : ℕ) :
    (printNat n).foldl (fun (n : ℤ) d => 10 * n + (d.toNat - 48)) 0 = n := by
  unfold printNat
  split
  next hn =>
    subst hn
    rfl
  next =>
    rw [foldl_digits fun d hd => Nat.digits_lt_base (by norm_num) hd, Nat.ofDigits_digits]

theorem isSpace_of_isDigit {b : Byte} (hb : isDigit b = true) :
    isSpace b = false ∧ b ≠ 43 ∧ b ≠ 45 := by
  simp only [isDigit, Bool.and_eq_true, decide_eq_true_eq, UInt8.le_iff_toNat_le] at hb
  have hne : ∀ c : Byte, c.toNat < 48 → b ≠ c := by
    rintro c hc rfl
    have hlow : (48 : Byte).toNat = 48 := rfl
    omega
  have hhigh : ¬ b ≤ 13 := by
    rw [UInt8.le_iff_toNat_le]
    have hlow : (48 : Byte).toNat = 48 := rfl
    have htop : (13 : Byte).toNat = 13 := rfl
    omega
  refine ⟨?_,hne 43 (by decide),hne 45 (by decide)⟩
  simp [isSpace, hne 32 (by decide), hhigh]

/-- Every `int` is read back. -/
theorem stoi_printInt {z : ℤ} (hlow : -2 ^ 31 ≤ z) (hhigh : z < 2 ^ 31) : stoi (printInt z) = some z := by
  have hne := printNat_ne_nil z.natAbs
  have hdigits : (printNat z.natAbs).takeWhile isDigit = printNat z.natAbs :=
    List.takeWhile_eq_self_iff.mpr fun b hb => printNat_isDigit hb
  by_cases hneg : z < 0
  · have hsign : (45 :: printNat z.natAbs).dropWhile isSpace = 45 :: printNat z.natAbs := by
      rw [List.dropWhile_cons_of_neg (by decide)]
    have hvalue : -(z.natAbs : ℤ) = z := by omega
    have hrange : ¬ (z < -2 ^ 31 ∨ 2 ^ 31 ≤ z) := by omega
    simp only [stoi, printInt, if_pos hneg, hsign, List.head?_cons, or_true, if_true, List.tail_cons,
      hdigits, foldl_printNat, hvalue, hne, false_or, if_neg hrange]
  · obtain ⟨b,text,htext⟩ := List.exists_cons_of_ne_nil hne
    obtain ⟨hspace,hplus,hminus⟩ := isSpace_of_isDigit (printNat_isDigit (b := b) (n := z.natAbs) (by simp [htext]))
    have hsign : (printNat z.natAbs).dropWhile isSpace = printNat z.natAbs := by
      rw [htext, List.dropWhile_cons_of_neg (by simp [hspace])]
    have hhead : (printNat z.natAbs).head? = some b := by rw [htext, List.head?_cons]
    have hvalue : (z.natAbs : ℤ) = z := by omega
    have hrange : ¬ (z < -2 ^ 31 ∨ 2 ^ 31 ≤ z) := by omega
    simp only [stoi, printInt, if_neg hneg, hsign, hhead, Option.some.injEq, hplus, hminus, or_self,
      if_false, hdigits, foldl_printNat, hvalue, hne, false_or, if_neg hrange]

theorem mem_printInt {z : ℤ} {b : Byte} (hb : b ∈ printInt z) : b = 45 ∨ isDigit b = true := by
  unfold printInt at hb
  split at hb
  next =>
    rcases List.mem_cons.mp hb with rfl | hb
    · exact .inl rfl
    · exact .inr (printNat_isDigit hb)
  next => exact .inr (printNat_isDigit hb)

theorem printInt_ne_nil (z : ℤ) : printInt z ≠ [] := by
  unfold printInt
  split
  next => simp
  next => exact printNat_ne_nil _

/-- A text that can be a field. -/
def Plain (text : List Byte) : Prop := comma ∉ text ∧ newline ∉ text

theorem plain_printInt (z : ℤ) : Plain (printInt z) := by
  constructor
  · intro hb
    rcases mem_printInt hb with h | h <;> exact absurd h (by decide)
  · intro hb
    rcases mem_printInt hb with h | h <;> exact absurd h (by decide)

theorem getline_append {token : List Byte} {delimiter : Byte} (htoken : delimiter ∉ token)
    (rest : List Byte) : getline delimiter (token ++ delimiter :: rest) = some (token, rest) := by
  have hall : ∀ b ∈ token, decide (b ≠ delimiter) = true := by
    intro b hb
    exact decide_eq_true fun he => htoken (he ▸ hb)
  rw [getline, if_neg (by simp), List.takeWhile_append_of_pos hall, List.dropWhile_append_of_pos hall]
  simp

theorem splitString_append {token : List Byte} {delimiter : Byte} (htoken : delimiter ∉ token)
    (rest : List Byte) :
    splitString (token ++ delimiter :: rest) delimiter = token :: splitString rest delimiter := by
  rw [splitString, getline_append htoken]

theorem splitString_last {token : List Byte} {delimiter : Byte} (htoken : delimiter ∉ token)
    (hne : token ≠ []) : splitString token delimiter = [token] := by
  have hall : ∀ b ∈ token, decide (b ≠ delimiter) = true := by
    intro b hb
    exact decide_eq_true fun he => htoken (he ▸ hb)
  have hline : getline delimiter token = some (token, []) := by
    rw [getline, if_neg hne, List.takeWhile_eq_self_iff.mpr hall, List.dropWhile_eq_nil_iff.mpr hall]
    rfl
  rw [splitString, hline]
  simp [splitString, getline]

theorem splitString_intercalate {delimiter : Byte} {fields : List (List Byte)} {last : List Byte}
    (hlast : last ≠ []) (hfree : delimiter ∉ last) (hfields : ∀ field ∈ fields, delimiter ∉ field) :
    splitString (List.intercalate [delimiter] (fields ++ [last])) delimiter = fields ++ [last] := by
  induction fields with
  | nil =>
    rw [List.nil_append, List.intercalate_singleton]
    exact splitString_last hfree hlast
  | cons field fields ih =>
    have hrest := ih fun f hf => hfields f (List.mem_cons_of_mem field hf)
    have hsome : fields ++ [last] ≠ [] := by simp
    rw [List.cons_append, List.intercalate_cons_of_ne_nil hsome, List.append_assoc, List.singleton_append,
      splitString_append (hfields field List.mem_cons_self), hrest]

theorem length_le_intercalate (delimiter : Byte) (fields : List (List Byte)) :
    fields.length ≤ (List.intercalate [delimiter] fields).length + 1 := by
  induction fields with
  | nil => exact Nat.zero_le _
  | cons field fields ih =>
    cases fields with
    | nil => exact Nat.le_add_left 1 _
    | cons next fields =>
      rw [List.intercalate_cons_cons, List.length_append, List.length_append, List.length_cons]
      simp only [List.length_singleton]
      omega

/-- A report as the peer has it, with its positions in parts of the window. -/
structure Message (δ : Type) extends Report δ where
  name : List Byte

section Lines
variable {δ : Type} (printD : δ → List Byte)

def positionFields (p : Pos δ) : List (List Byte) := [printInt p.id, printD p.x, printD p.y]

def messageFields (m : Message δ) : List (List Byte) :=
  m.name :: [m.lon, m.lat, m.h, m.heading, m.pitch, m.roll, m.hfov, m.vfov].map printD ++
    printInt m.posList.length :: m.posList.flatMap (positionFields printD)

def messageText (m : Message δ) : List Byte := List.intercalate [comma] (messageFields printD m)

def messageLine (m : Message δ) : List Byte := messageText printD m ++ [newline]

def Report.numbers (r : Report δ) : List δ :=
  [r.lon, r.lat, r.h, r.heading, r.pitch, r.roll, r.hfov, r.vfov] ++ r.posList.flatMap fun p => [p.x, p.y]

/-- What the callback makes of the positions. -/
def Report.onScreen [NatCast δ] [Mul δ] [Sub δ] (r : Report δ) : Report δ :=
  { r with posList := r.posList.map fun p =>
      ⟨p.id,windowWidth * p.x,windowHeight - windowHeight * p.y⟩ }

/-- The numbers are read back, the fields hold no delimiter, and the line fits into `msg_buf`. -/
structure Readable (stod : List Byte → Option δ) (m : Message δ) : Prop where
  name : Plain m.name
  read : ∀ x ∈ m.numbers, stod (printD x) = some x
  plain : ∀ x ∈ m.numbers, Plain (printD x) ∧ printD x ≠ []
  ids : ∀ p ∈ m.posList, -2 ^ 31 ≤ p.id ∧ p.id < 2 ^ 31
  fits : (messageText printD m).length < bufLen

variable {printD} {stod : List Byte → Option δ} {m : Message δ}

theorem Readable.plain_fields (h : Readable printD stod m) {field : List Byte}
    (hf : field ∈ messageFields printD m) : Plain field := by
  simp only [messageFields, List.mem_cons, List.mem_append, List.mem_map, List.mem_flatMap] at hf
  rcases hf with (rfl | ⟨x,hx,rfl⟩) | rfl | ⟨p,hp,hf⟩
  · exact h.name
  · refine (h.plain x ?_).1
    rw [Report.numbers, List.mem_append]
    exact .inl (by simpa using hx)
  · exact plain_printInt _
  · have hmem : ∀ x ∈ [p.x, p.y], x ∈ m.numbers := by
      intro x hx
      rw [Report.numbers, List.mem_append]
      exact .inr (List.mem_flatMap.mpr ⟨p,hp,hx⟩)
    simp only [positionFields, List.mem_cons, List.not_mem_nil, or_false] at hf
    rcases hf with rfl | rfl | rfl
    · exact plain_printInt _
    · exact (h.plain p.x (hmem p.x (by simp))).1
    · exact (h.plain p.y (hmem p.y (by simp))).1

theorem Readable.last_field (h : Readable printD stod m) :
    ∃ fields last, messageFields printD m = fields ++ [last] ∧ last ≠ [] := by
  rcases List.eq_nil_or_concat m.posList with hnil | ⟨l,p,hl⟩
  · refine ⟨m.name :: [m.lon, m.lat, m.h, m.heading, m.pitch, m.roll, m.hfov, m.vfov].map printD,
      printInt 0,?_,printInt_ne_nil 0⟩
    simp [messageFields, hnil]
  · rw [List.concat_eq_append] at hl
    refine ⟨m.name :: [m.lon, m.lat, m.h, m.heading, m.pitch, m.roll, m.hfov, m.vfov].map printD ++
      printInt m.posList.length :: l.flatMap (positionFields printD) ++ [printInt p.id, printD p.x],
      printD p.y,?_,?_⟩
    · simp [messageFields, hl, positionFields]
    · refine (h.plain p.y ?_).2
      simp [Report.numbers, hl]

theorem Readable.splitString_text (h : Readable printD stod m) :
    splitString (messageText printD m) comma = messageFields printD m := by
  obtain ⟨fields,last,hfields,hlast⟩ := h.last_field
  have hplain : ∀ field ∈ fields ++ [last], comma ∉ field := by
    intro field hf
    exact (h.plain_fields (hfields ▸ hf)).1
  rw [messageText, hfields]
  exact splitString_intercalate hlast (hplain last (by simp)) fun field hf =>
    hplain field (List.mem_append_left _ hf)

theorem Readable.newline_notMem (h : Readable printD stod m) : newline ∉ messageText printD m := by
  have hall : ∀ fields : List (List Byte), (∀ field ∈ fields, newline ∉ field) →
      newline ∉ List.intercalate [comma] fields := by
    intro fields hfields
    induction fields with
    | nil => simp
    | cons field fields ih =>
      have hrest := ih fun f hf => hfields f (List.mem_cons_of_mem field hf)
      have hfirst := hfields field List.mem_cons_self
      cases fields with
      | nil => simpa using hfirst
      | cons next fields =>
        rw [List.intercalate_cons_cons, List.append_assoc, List.mem_append, List.singleton_append,
          List.mem_cons, not_or, not_or]
        exact ⟨hfirst,by decide,hrest⟩
  exact hall _ fun field hf => (h.plain_fields hf).2

theorem Readable.length_lt (h : Readable printD stod m) : m.posList.length < 2 ^ 31 := by
  have hlen := length_le_intercalate comma (messageFields printD m)
  have hfits := h.fits
  have hmore : m.posList.length ≤ (m.posList.flatMap (positionFields printD)).length := by
    rw [List.length_flatMap]
    simp only [positionFields, List.length_cons, List.length_nil, List.map_const', List.sum_replicate,
      smul_eq_mul]
    omega
  have hfields : (messageFields printD m).length = 10 + (m.posList.flatMap (positionFields printD)).length := by
    rw [messageFields, List.length_append, List.length_cons, List.length_cons, List.length_map]
    simp only [List.length_cons, List.length_nil]
    omega
  rw [messageText] at hfits
  have hbuf : bufLen = 2048 := rfl
  omega

end Lines

section Reading
variable {δ : Type} [NatCast δ] [Mul δ] [Sub δ] {printD : δ → List Byte} {stod : List Byte → Option δ}
variable {m : Message δ} {result : List (List Byte)}

omit [NatCast δ] [Mul δ] [Sub δ] in
theorem field_eq {β : Type*} {convert : List Byte → Option β} {i : ℕ} {text : List Byte} {value : β}
    (hresult : result[i]? = some text) (hvalue : convert text = some value) :
    field result convert i = .ok value := by
  simp only [field, hresult, hvalue]

theorem readPositions_eq {l : List (Pos δ)} {i : ℕ}
    (hrest : result.drop (10 + i * 3) = l.flatMap (positionFields printD))
    (hids : ∀ p ∈ l, -2 ^ 31 ≤ p.id ∧ p.id < 2 ^ 31)
    (hread : ∀ p ∈ l, stod (printD p.x) = some p.x ∧ stod (printD p.y) = some p.y) :
    readPositions stod result l.length i =
      .ok (l.map fun p => ⟨p.id,windowWidth * p.x,windowHeight - windowHeight * p.y⟩) := by
  induction l generalizing i with
  | nil => rfl
  | cons p l ih =>
    have hat : ∀ j, result[10 + i * 3 + j]? = ((p :: l).flatMap (positionFields printD))[j]? := by
      intro j
      rw [← hrest, List.getElem?_drop]
    have hnext : result.drop (10 + (i + 1) * 3) = l.flatMap (positionFields printD) := by
      have hthree := congrArg (List.drop 3) hrest
      rw [List.drop_drop, show 10 + i * 3 + 3 = 10 + (i + 1) * 3 by ring] at hthree
      rw [hthree]
      rfl
    obtain ⟨hlow,hhigh⟩ := hids p List.mem_cons_self
    obtain ⟨hx,hy⟩ := hread p List.mem_cons_self
    have hlater := ih hnext (fun q hq => hids q (List.mem_cons_of_mem p hq))
      fun q hq => hread q (List.mem_cons_of_mem p hq)
    have hid : field result stoi (10 + i * 3) = .ok p.id := field_eq (hat 0) (stoi_printInt hlow hhigh)
    rw [List.length_cons, readPositions, hid, field_eq (hat 1) hx, field_eq (hat 2) hy, hlater]
    rfl

theorem Readable.readFields_eq (h : Readable printD stod m) :
    readFields stod (messageFields printD m) = .ok m.onScreen := by
  have hnumber : ∀ x ∈ m.numbers, stod (printD x) = some x := h.read
  simp only [Report.numbers, List.mem_append, List.mem_cons, List.mem_flatMap] at hnumber
  have hcount : stoi (printInt m.posList.length) = some (m.posList.length : ℤ) := by
    refine stoi_printInt (by omega) ?_
    have hlt := h.length_lt
    omega
  have hpositions : readPositions stod (messageFields printD m) m.posList.length 0 =
      .ok (m.posList.map fun p => ⟨p.id,windowWidth * p.x,windowHeight - windowHeight * p.y⟩) := by
    refine readPositions_eq rfl h.ids fun p hp => ⟨hnumber p.x (.inr ⟨p,hp,?_⟩),hnumber p.y (.inr ⟨p,hp,?_⟩)⟩
    · simp
    · simp
  rw [readFields, field_eq rfl (hnumber m.lon (by simp)), field_eq rfl (hnumber m.lat (by simp)),
    field_eq rfl (hnumber m.h (by simp)), field_eq rfl (hnumber m.heading (by simp)),
    field_eq rfl (hnumber m.pitch (by simp)), field_eq rfl (hnumber m.roll (by simp)),
    field_eq rfl (hnumber m.hfov (by simp)), field_eq rfl (hnumber m.vfov (by simp)),
    field_eq rfl hcount]
  simp only [bind, Except.bind, Int.toNat_natCast, hpositions]
  rfl

/-- After each fragment as many lines have arrived as there were fragments. -/
def KeepsUp (unread : List Byte) (fragments : List (List Byte)) : Prop :=
  ∀ k ≤ fragments.length, k ≤ (unread ++ (fragments.take k).flatten).count newline

omit [NatCast δ] [Mul δ] [Sub δ] in
theorem keepsUp_cons {unread line rest fragment : List Byte} {fragments : List (List Byte)}
    (hline : newline ∉ line) (hfound : unread ++ fragment = line ++ newline :: rest) :
    KeepsUp unread (fragment :: fragments) ↔ KeepsUp rest fragments := by
  have hcount : ∀ k, (unread ++ ((fragment :: fragments).take (k + 1)).flatten).count newline =
      (rest ++ (fragments.take k).flatten).count newline + 1 := by
    intro k
    rw [List.take_succ_cons, List.flatten_cons, ← List.append_assoc, hfound, List.append_assoc,
      List.count_append, List.count_eq_zero_of_not_mem hline, List.cons_append, List.count_cons_self,
      Nat.zero_add]
  constructor
  · intro h k hk
    have hmore := h (k + 1) (Nat.succ_le_succ hk)
    rw [hcount k] at hmore
    exact Nat.le_of_succ_le_succ hmore
  · intro h k hk
    cases k with
    | zero => exact Nat.zero_le _
    | succ k =>
      rw [hcount k]
      exact Nat.succ_le_succ (h k (Nat.le_of_succ_le_succ hk))

variable {readUntil : List Byte → Received} {messages : List (Message δ)}

theorem Readable.readFunc_eq (h : Readable printD stod m) (hlib : ReadsUntil readUntil) (rest : List Byte) :
    readFunc stod readUntil (messageText printD m ++ newline :: rest) = .ok (m.onScreen, rest) := by
  rw [readFunc_found stod hlib rest h.newline_notMem h.fits, h.splitString_text, h.readFields_eq]
  rfl

variable (stod readUntil) in
/-- One more fragment from the socket, with the reports that have been read so far. -/
def readFragment (s : List Byte × List (Report δ)) (fragment : List Byte) :
    Except Fault (List Byte × List (Report δ)) :=
  (readFunc stod readUntil (s.1 ++ fragment)).map fun read => (read.2, s.2 ++ [read.1])

theorem readFragment_missing (hlib : ReadsUntil readUntil) {s : List Byte × List (Report δ)}
    {fragment : List Byte} (hno : newline ∉ s.1 ++ fragment) :
    readFragment stod readUntil s fragment = .error (.length (2 ^ 32 - 1)) := by
  have hmissing : readFunc stod readUntil (s.1 ++ fragment) =
      (.error (.length (2 ^ 32 - 1)) : Except Fault (Report δ × List Byte)) := by
    refine readFunc_missing stod hlib fun line rest he _ => absurd ?_ hno
    rw [he]
    exact List.mem_append_right line List.mem_cons_self
  rw [readFragment, hmissing, Except.map]

/-- From any point of a stream of lines. -/
theorem foldlM_readFragment (hlib : ReadsUntil readUntil)
    (hmessages : ∀ m ∈ messages, Readable printD stod m) (fragments : List (List Byte))
    {unread behind : List Byte} (seen : List (Report δ))
    (hstream : unread ++ fragments.flatten ++ behind = messages.flatMap (messageLine printD)) :
    (KeepsUp unread fragments → ∃ left,
      fragments.foldlM (readFragment stod readUntil) (unread,seen) =
        .ok (left, seen ++ (messages.take fragments.length).map fun m => m.onScreen) ∧
      unread ++ fragments.flatten =
        (messages.take fragments.length).flatMap (messageLine printD) ++ left) ∧
    (¬ KeepsUp unread fragments →
      fragments.foldlM (readFragment stod readUntil) (unread,seen) = .error (.length (2 ^ 32 - 1))) := by
  induction fragments generalizing unread seen messages with
  | nil =>
    constructor
    · intro _
      exact ⟨unread,by simp [pure, Except.pure],by simp⟩
    · intro hbehind
      refine absurd (fun k hk => ?_) hbehind
      rw [List.length_nil, Nat.le_zero] at hk
      rw [hk]
      exact Nat.zero_le _
  | cons fragment fragments ih =>
    rw [List.foldlM_cons]
    by_cases hmem : newline ∈ unread ++ fragment
    · obtain ⟨line,rest,hfound,hline⟩ := List.eq_append_cons_of_mem hmem
      rw [List.flatten_cons, ← List.append_assoc, hfound] at hstream
      cases messages with
      | nil => simp at hstream
      | cons m messages =>
        have hm := hmessages m List.mem_cons_self
        have hsplit : line ++ newline :: (rest ++ fragments.flatten ++ behind) =
            messageText printD m ++ newline :: messages.flatMap (messageLine printD) := by
          simpa [messageLine] using hstream
        -- the first line at hand is the one that the peer sent next
        have hget := congrArg (getline newline) hsplit
        rw [getline_append hline, getline_append hm.newline_notMem, Option.some.injEq,
          Prod.mk.injEq] at hget
        obtain ⟨rfl,hlater⟩ := hget
        have hfirst : readFragment stod readUntil (unread,seen) fragment =
            .ok (rest,seen ++ [m.onScreen]) := by
          rw [readFragment, hfound, hm.readFunc_eq hlib, Except.map]
        obtain ⟨hok,herror⟩ := ih (fun m' hm' => hmessages m' (List.mem_cons_of_mem m hm'))
          (seen ++ [m.onScreen]) hlater
        rw [hfirst, keepsUp_cons hline hfound]
        refine ⟨fun hkeeps => ?_,herror⟩
        obtain ⟨left,hrun,hleft⟩ := hok hkeeps
        refine ⟨left,?_,?_⟩
        · simp only [bind, Except.bind, hrun, List.length_cons, List.take_succ_cons, List.map_cons,
            List.append_assoc, List.singleton_append]
        · rw [List.flatten_cons, ← List.append_assoc, hfound, List.length_cons, List.take_succ_cons,
            List.flatMap_cons, List.append_assoc, List.cons_append, hleft, messageLine]
          simp
    · rw [readFragment_missing hlib hmem]
      refine ⟨fun hkeeps => ?_,fun _ => rfl⟩
      have hone := hkeeps 1 (by simp)
      rw [List.take_succ_cons, List.take_zero, List.flatten_cons, List.flatten_nil, List.append_nil,
        List.count_eq_zero_of_not_mem hmem] at hone
      exact absurd hone (by decide)

/-- The peer sends the lines of its reports, and they arrive in any fragments, one at each call
of `ReadFunc`.  As long as after every fragment as many lines have arrived as there were
fragments, the calls read the reports in order, whatever is left for later; otherwise the
first call that finds no line ends the program. -/
theorem reports_inOrder (hlib : ReadsUntil readUntil)
    (hmessages : ∀ m ∈ messages, Readable printD stod m) (fragments : List (List Byte))
    (behind : List Byte) (hstream : fragments.flatten ++ behind = messages.flatMap (messageLine printD)) :
    (KeepsUp [] fragments → ∃ left,
      fragments.foldlM (readFragment stod readUntil) ([],[]) =
        .ok (left, (messages.take fragments.length).map fun m => m.onScreen) ∧
      fragments.flatten = (messages.take fragments.length).flatMap (messageLine printD) ++ left) ∧
    (¬ KeepsUp [] fragments →
      fragments.foldlM (readFragment stod readUntil) ([],[]) = .error (.length (2 ^ 32 - 1))) := by
  have hfrom : [] ++ fragments.flatten ++ behind = messages.flatMap (messageLine printD) := hstream
  have hall := foldlM_readFragment hlib hmessages fragments [] hfrom
  simpa only [List.nil_append] using hall

end Reading

/-- A report of whole numbers with one position. -/
def wholeMessage (id : ℤ) : Message ℤ := ⟨⟨1,2,3,4,5,6,7,8,[⟨id,0,1⟩]⟩,ascii "p"⟩

theorem wholeMessage_readable {id : ℤ} (hlow : 0 ≤ id) (hhigh : id < 10) :
    Readable printInt stoi (wholeMessage id) := by
  have hnumbers : ∀ x ∈ (wholeMessage id).numbers, 0 ≤ x ∧ x < 10 := by
    intro x hx
    simp only [Report.numbers, wholeMessage, List.mem_append, List.mem_cons, List.mem_flatMap,
      List.not_mem_nil, or_false, exists_eq_left] at hx
    omega
  constructor
  · have hname : Plain (ascii "p") := ⟨by decide,by decide⟩
    exact hname
  · intro x hx
    obtain ⟨hx,hx'⟩ := hnumbers x hx
    exact stoi_printInt (by omega) (by omega)
  · intro x hx
    exact ⟨plain_printInt x,printInt_ne_nil x⟩
  · intro p hp
    obtain rfl := List.mem_singleton.mp hp
    exact ⟨by simp only; omega,by simp only; omega⟩
  · have hall : ∀ i < 10, (messageText printInt (wholeMessage (Int.ofNat i))).length < bufLen := by
      decide +kernel
    have hid := hall id.toNat (by omega)
    rwa [Int.ofNat_eq_natCast, Int.toNat_of_nonneg hlow] at hid

/-- Two reports: the first fragment ends within the second line. -/
theorem reports_inOrder_pair :
    ∃ left, [messageLine printInt (wholeMessage 7) ++ ascii "p,1", (messageLine printInt (wholeMessage 8)).drop 3].foldlM
      (readFragment stoi bufferReadUntil) ([],[]) =
        .ok (left, [(wholeMessage 7).onScreen, (wholeMessage 8).onScreen]) := by
  have hsplit : ascii "p,1" ++ (messageLine printInt (wholeMessage 8)).drop 3 =
      messageLine printInt (wholeMessage 8) := by decide +kernel
  have hreadable : ∀ m ∈ [wholeMessage 7, wholeMessage 8], Readable printInt stoi m := by
    intro m hm
    simp only [List.mem_cons, List.not_mem_nil, or_false] at hm
    rcases hm with rfl | rfl <;> exact wholeMessage_readable (by decide) (by decide)
  have hkeeps : KeepsUp [] [messageLine printInt (wholeMessage 7) ++ ascii "p,1",
      (messageLine printInt (wholeMessage 8)).drop 3] := by
    unfold KeepsUp
    decide +kernel
  obtain ⟨hok,-⟩ := reports_inOrder bufferReadUntil_reads hreadable
    [messageLine printInt (wholeMessage 7) ++ ascii "p,1", (messageLine printInt (wholeMessage 8)).drop 3] []
    (by simp [hsplit])
  obtain ⟨left,hrun,-⟩ := hok hkeeps
  exact ⟨left,hrun⟩

end CppExamples.CoordConvert
