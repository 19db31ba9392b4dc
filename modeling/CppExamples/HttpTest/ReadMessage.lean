import CppExamples.HttpTest.Buffer

/-! # `readn` and `read_message`

A socket is the list of bytes that its peer sends before it closes, and a list of what
becomes of the next calls of `read`; behind that list every call hands over as much as
it is asked for.  Lengths and counts are machine words: `int` and `u_int32_t` of 32
bits, `size_t` of 64, and a comparison converts as C does.
-/
namespace CppExamples.HttpTest
open Memory

/-- What becomes of one call of `read`: a signal interrupts it, it fails otherwise, or it
hands over no more than `more + 1` bytes. -/
inductive ReadOutcome where
  | interrupted
  | failed
  | upTo (more : ℕ)
deriving DecidableEq

inductive ReadResult where
  /-- -1 with `EINTR` -/
  | interrupted
  /-- -1 with another `errno` -/
  | failed
  | got (bytes : List Byte)
deriving DecidableEq

structure Socket where
  stream : List Byte
  outcomes : List ReadOutcome

namespace Socket

/-- Hand over the next `n` bytes, or as many as there are. -/
def take (fd : Socket) (n : ℕ) (outcomes : List ReadOutcome) : ReadResult × Socket :=
  (.got (fd.stream.take n),⟨fd.stream.drop n,outcomes⟩)

def read (fd : Socket) (length : ℕ) : ReadResult × Socket :=
  match fd.outcomes with
  | [] => fd.take length []
  | .interrupted :: rest => (.interrupted,{ fd with outcomes := rest })
  | .failed :: rest => (.failed,{ fd with outcomes := rest })
  | .upTo more :: rest => fd.take (min length (more + 1)) rest

theorem read_interrupted {fd fd' : Socket} {n : ℕ} (h : fd.read n = (.interrupted, fd')) :
    fd.outcomes = .interrupted :: fd'.outcomes ∧ fd'.stream = fd.stream := by
  unfold read take at h
  split at h <;> simp_all
  exact h ▸ ⟨rfl,rfl⟩

theorem read_failed {fd fd' : Socket} {n : ℕ} (h : fd.read n = (.failed, fd')) :
    .failed ∈ fd.outcomes := by
  unfold read take at h
  split at h <;> simp_all

theorem read_got {fd fd' : Socket} {n : ℕ} {bytes : List Byte} (h : fd.read n = (.got bytes, fd')) :
    fd.stream = bytes ++ fd'.stream ∧ bytes.length ≤ n ∧
      (bytes = [] → n = 0 ∨ fd.stream = []) ∧
      ∃ used, fd.outcomes = used ++ fd'.outcomes := by
  unfold read at h
  split at h
  next he =>
    cases h
    exact ⟨(List.take_append_drop ..).symm,by simp,List.take_eq_nil_iff.mp,⟨[],he⟩⟩
  next => cases h
  next => cases h
  next more rest he =>
    cases h
    refine ⟨(List.take_append_drop ..).symm,by simp,?_,⟨[.upTo more],he⟩⟩
    intro hnil
    rcases List.take_eq_nil_iff.mp hnil with hzero | hstream
    · exact Or.inl (by omega)
    · exact Or.inr hstream

end Socket

theorem toInt_pos_iff (length : BitVec 32) :
    0 < length.toInt ↔ 0 < length.toNat ∧ length.toNat ≤ intMax := by
  simp only [BitVec.toInt_eq_toNat_cond, intMax]
  split <;> omega

theorem toNat_sub_count {length : BitVec 32} {n : ℕ} (h : n ≤ length.toNat) :
    (length - BitVec.ofNat 32 n).toNat = length.toNat - n := by
  have hmod : n % 2 ^ 32 = n := Nat.mod_eq_of_lt (by omega)
  rw [BitVec.toNat_sub_of_le (by rw [BitVec.le_def, BitVec.toNat_ofNat, hmod]; exact h),
    BitVec.toNat_ofNat, hmod]

/-- The loop of `readn`, with what `buffer_pointer` points to and how much is missing;
none for the return of -1. -/
def readnLoop (fd : Socket) (buffer : ℕ → Byte) (bufferPointer : ℕ) (length : BitVec 32) :
    Option (BitVec 32) × (ℕ → Byte) × Socket :=
  if 0 < length.toInt then
    match _hread : fd.read length.toNat with
    | (.interrupted, fd') => readnLoop fd' buffer bufferPointer length
    | (.failed, fd') => (none, buffer, fd')
    | (.got [], fd') => (some length, buffer, fd')
    | (.got (byte :: bytes), fd') =>
      readnLoop fd' (store buffer bufferPointer (byte :: bytes))
        (bufferPointer + (byte :: bytes).length)
        (length - BitVec.ofNat 32 (byte :: bytes).length)
  else (some length, buffer, fd)
termination_by fd.outcomes.length + length.toNat
decreasing_by
  · obtain ⟨he,-⟩ := Socket.read_interrupted _hread
    simp [he]
  · obtain ⟨-,hle,-,used,he⟩ := Socket.read_got _hread
    rw [toNat_sub_count hle, he, List.length_append, List.length_cons]
    rw [List.length_cons] at hle
    omega

def readn (fd : Socket) (buffer : ℕ → Byte) (size : BitVec 64) :
    BitVec 64 × (ℕ → Byte) × Socket :=
  match readnLoop fd buffer 0 (size.setWidth 32) with
  | (none, buffer, fd) => (-1, buffer, fd)
  | (some length, buffer, fd) => (size - length.signExtend 64, buffer, fd)

/-- The four bytes of a word in network byte order as a number. -/
def ntohl (word : ℕ → Byte) : BitVec 32 :=
  BitVec.ofNat 32 ((word 0).toNat * 2 ^ 24 + (word 1).toNat * 2 ^ 16 + (word 2).toNat * 2 ^ 8 +
    (word 3).toNat)

def incomplete (rc : BitVec 32) : BitVec 64 := if rc.toInt < 0 then -1 else 0

/-- `read_message`; `stack` is what the two words on the stack hold before. -/
def readMessage (fd : Socket) (stack buffer : ℕ → Byte) (length : BitVec 64) :
    BitVec 64 × (ℕ → Byte) × Socket :=
  let (count, word, fd) := readn fd stack 4
  let rc := count.setWidth 32
  if rc.signExtend 64 ≠ 4 then (incomplete rc, buffer, fd)
  else
    let msgLength := ntohl word
    let (count, _, fd) := readn fd stack 4
    let rc := count.setWidth 32
    if rc.signExtend 64 ≠ 4 then (incomplete rc, buffer, fd)
    else if length < msgLength.setWidth 64 then (-1, buffer, fd)
    else
      let (count, buffer, fd) := readn fd buffer (msgLength.setWidth 64)
      let rc := count.setWidth 32
      if rc ≠ msgLength then (incomplete rc, buffer, fd) else (rc.signExtend 64, buffer, fd)

/-- While no call of `read` fails, the loop stores the front of the stream and leaves the
rest of it; what is missing then is missing in the stream. -/
theorem readnLoop_spec (fd : Socket) (buffer : ℕ → Byte) (bufferPointer : ℕ) (length : BitVec 32)
    (hlength : length.toNat ≤ intMax) (hok : .failed ∉ fd.outcomes) :
    ∃ left fd', readnLoop fd buffer bufferPointer length =
        (some left, store buffer bufferPointer (fd.stream.take length.toNat), fd') ∧
      left.toNat = length.toNat - fd.stream.length ∧
      fd'.stream = fd.stream.drop length.toNat ∧ .failed ∉ fd'.outcomes := by
  fun_induction readnLoop fd buffer bufferPointer length with
  | case1 fd buffer bufferPointer length hpos fd' hread ih =>
    obtain ⟨he,hstream⟩ := Socket.read_interrupted hread
    obtain ⟨left,fd'',hloop,hleft,hrest,hok'⟩ := ih hlength fun h => hok (he ▸ List.mem_cons_of_mem _ h)
    rw [hstream] at hloop hleft hrest
    exact ⟨left,fd'',hloop,hleft,hrest,hok'⟩
  | case2 fd buffer bufferPointer length hpos fd' hread =>
    exact absurd (Socket.read_failed hread) hok
  | case3 fd buffer bufferPointer length hpos fd' hread =>
    obtain ⟨hstream,-,hend,used,he⟩ := Socket.read_got hread
    have hpos := ((toInt_pos_iff length).mp hpos).1
    have hnil : fd.stream = [] := (hend rfl).resolve_left hpos.ne'
    rw [hnil, List.nil_append] at hstream
    refine ⟨length,fd',?_,?_,?_,fun h => hok (he ▸ List.mem_append_right used h)⟩
    · simp [hnil]
    · simp [hnil]
    · simp [hnil, ← hstream]
  | case4 fd buffer bufferPointer length hpos fd' byte bytes hread ih =>
    obtain ⟨hstream,hle,-,used,he⟩ := Socket.read_got hread
    have hsub := toNat_sub_count hle
    obtain ⟨left,fd'',hloop,hleft,hrest,hok'⟩ :=
      ih (by omega) fun h => hok (he ▸ List.mem_append_right used h)
    rw [hsub] at hloop hleft hrest
    refine ⟨left,fd'',?_,?_,?_,hok'⟩
    · rw [hloop, hstream, List.take_append, List.take_of_length_le hle, store_append]
    · rw [hleft, hstream, List.length_append]
      omega
    · rw [hrest, hstream, List.drop_append, List.drop_of_length_le hle, List.nil_append]
  | case5 fd buffer bufferPointer length hpos =>
    have hzero : length.toNat = 0 := by
      by_contra h
      exact hpos ((toInt_pos_iff length).mpr ⟨by omega,hlength⟩)
    exact ⟨length,fd,by simp [hzero],by omega,by simp [hzero],hok⟩

theorem readn_spec (fd : Socket) (buffer : ℕ → Byte) (size : BitVec 64)
    (hsize : size.toNat ≤ intMax) (hok : .failed ∉ fd.outcomes) :
    ∃ fd', readn fd buffer size =
        (BitVec.ofNat 64 (min size.toNat fd.stream.length),
          store buffer 0 (fd.stream.take size.toNat), fd') ∧
      fd'.stream = fd.stream.drop size.toNat ∧ .failed ∉ fd'.outcomes := by
  have hmax : size.toNat < 2 ^ 31 := Nat.lt_succ_of_le hsize
  have hint : (size.setWidth 32).toNat = size.toNat := by
    rw [BitVec.toNat_setWidth]
    omega
  obtain ⟨left,fd',hloop,hleft,hrest,hok'⟩ :=
    readnLoop_spec fd buffer 0 (size.setWidth 32) (hint ▸ hsize) hok
  rw [hint] at hloop hleft hrest
  refine ⟨fd',?_,hrest,hok'⟩
  simp only [readn, hloop, Prod.mk.injEq, and_true]
  apply BitVec.eq_of_toNat_eq
  rw [BitVec.signExtend_eq_setWidth_of_msb_false
      (BitVec.msb_eq_false_iff_two_mul_lt.mpr (by omega)),
    BitVec.toNat_sub_of_le (by rw [BitVec.le_def, BitVec.toNat_setWidth]; omega),
    BitVec.toNat_setWidth, BitVec.toNat_ofNat]
  omega

theorem setWidth_count (n : ℕ) : (BitVec.ofNat 64 n).setWidth 32 = BitVec.ofNat 32 n := by
  apply BitVec.eq_of_toNat_eq
  rw [BitVec.toNat_setWidth, BitVec.toNat_ofNat, BitVec.toNat_ofNat]
  omega

theorem signExtend_count {n : ℕ} (h : n ≤ intMax) :
    (BitVec.ofNat 32 n).signExtend 64 = BitVec.ofNat 64 n := by
  simp only [intMax] at h
  have hmsb : (BitVec.ofNat 32 n).msb = false := by
    rw [BitVec.msb_eq_false_iff_two_mul_lt, BitVec.toNat_ofNat]
    omega
  apply BitVec.eq_of_toNat_eq
  rw [BitVec.signExtend_eq_setWidth_of_msb_false hmsb, BitVec.toNat_setWidth, BitVec.toNat_ofNat,
    BitVec.toNat_ofNat]
  omega

theorem incomplete_count {n : ℕ} (h : n ≤ intMax) : incomplete (BitVec.ofNat 32 n) = 0 := by
  simp only [intMax] at h
  have hnat : (BitVec.ofNat 32 n).toNat = n := by
    rw [BitVec.toNat_ofNat]
    omega
  have hpos : ¬ (BitVec.ofNat 32 n).toInt < 0 := by
    rw [BitVec.toInt_eq_toNat_cond, hnat]
    omega
  rw [incomplete, if_neg hpos]

def htonl (word : BitVec 32) : List Byte :=
  [UInt8.ofNat (word.toNat / 2 ^ 24),UInt8.ofNat (word.toNat / 2 ^ 16),
    UInt8.ofNat (word.toNat / 2 ^ 8),UInt8.ofNat word.toNat]

@[simp] theorem htonl_length (word : BitVec 32) : (htonl word).length = 4 := rfl

@[simp] theorem ntohl_store_htonl (m : ℕ → Byte) (word : BitVec 32) :
    ntohl (store m 0 (htonl word)) = word := by
  have hword := word.isLt
  apply BitVec.eq_of_toNat_eq
  simp only [ntohl, htonl, store, BitVec.toNat_ofNat, Nat.zero_le, if_true, Nat.sub_zero,
    List.getElem?_cons_zero, List.getElem?_cons_succ, Option.getD_some, UInt8.toNat_ofNat']
  omega

/-- A record on the wire: the length of its body, its type and the body. -/
structure Frame where
  type : BitVec 32
  body : List Byte

def Frame.encoded (frame : Frame) : List Byte :=
  htonl (BitVec.ofNat 32 frame.body.length) ++ htonl frame.type ++ frame.body

@[simp] theorem Frame.encoded_length (frame : Frame) :
    frame.encoded.length = 8 + frame.body.length := by
  simp [encoded]
  omega

theorem readn_word {fd : Socket} {word : BitVec 32} {rest : List Byte} (stack : ℕ → Byte)
    (hstream : fd.stream = htonl word ++ rest) (hok : .failed ∉ fd.outcomes) :
    ∃ count fd', readn fd stack 4 = (count, store stack 0 (htonl word), fd') ∧
      (count.setWidth 32).signExtend 64 = 4 ∧ fd'.stream = rest ∧ .failed ∉ fd'.outcomes := by
  obtain ⟨fd',hread,hrest,hok'⟩ := readn_spec fd stack 4 (by decide) hok
  have hfour : (4 : BitVec 64).toNat = (htonl word).length := rfl
  rw [hstream, hfour, List.take_left, List.length_append, Nat.min_eq_left (by omega)] at hread
  rw [hstream, hfour, List.drop_left] at hrest
  refine ⟨_,fd',hread,?_,hrest,hok'⟩
  rw [htonl_length]
  decide

theorem readn_word_short {fd : Socket} (stack : ℕ → Byte) (hstream : fd.stream.length < 4)
    (hok : .failed ∉ fd.outcomes) :
    ∃ count word fd', readn fd stack 4 = (count, word, fd') ∧
      (count.setWidth 32).signExtend 64 ≠ 4 ∧ incomplete (count.setWidth 32) = 0 := by
  have hshort : ∀ n < 4, (BitVec.ofNat 32 n).signExtend 64 ≠ 4 := by decide
  obtain ⟨fd',hread,-,-⟩ := readn_spec fd stack 4 (by decide) hok
  rw [show min (4 : BitVec 64).toNat fd.stream.length = fd.stream.length from
    Nat.min_eq_right hstream.le] at hread
  refine ⟨_,_,fd',hread,?_⟩
  rw [setWidth_count]
  exact ⟨hshort _ hstream,incomplete_count (by simp only [intMax]; omega)⟩

theorem readMessage_header {fd : Socket} {msgLength type : BitVec 32} {rest : List Byte}
    (stack buffer : ℕ → Byte) (length : BitVec 64)
    (hstream : fd.stream = htonl msgLength ++ (htonl type ++ rest)) (hok : .failed ∉ fd.outcomes) :
    ∃ fd', fd'.stream = rest ∧ .failed ∉ fd'.outcomes ∧ readMessage fd stack buffer length =
      if length < msgLength.setWidth 64 then (-1, buffer, fd')
      else
        let (count, buffer, fd) := readn fd' buffer (msgLength.setWidth 64)
        let rc := count.setWidth 32
        if rc ≠ msgLength then (incomplete rc, buffer, fd) else (rc.signExtend 64, buffer, fd) := by
  obtain ⟨count1,fd1,h1,hcount1,hstream1,hok1⟩ := readn_word stack hstream hok
  obtain ⟨count2,fd2,h2,hcount2,hstream2,hok2⟩ := readn_word stack hstream1 hok1
  refine ⟨fd2,hstream2,hok2,?_⟩
  rw [readMessage, h1]
  apply (if_neg (not_not.mpr hcount1)).trans
  rw [h2]
  apply (if_neg (not_not.mpr hcount2)).trans
  rw [ntohl_store_htonl]

theorem readMessage_body {fd : Socket} {type : BitVec 32} {n : ℕ} {rest : List Byte}
    {length : BitVec 64} (stack buffer : ℕ → Byte)
    (hstream : fd.stream = htonl (BitVec.ofNat 32 n) ++ (htonl type ++ rest))
    (hn : n ≤ length.toNat) (hmax : n ≤ intMax) (hok : .failed ∉ fd.outcomes) :
    ∃ fd', readMessage fd stack buffer length =
        (if n ≤ rest.length then BitVec.ofNat 64 n else 0, store buffer 0 (rest.take n), fd') ∧
      fd'.stream = rest.drop n ∧ .failed ∉ fd'.outcomes := by
  have hsize : ((BitVec.ofNat 32 n).setWidth 64).toNat = n := by
    simp only [intMax] at hmax
    rw [BitVec.toNat_setWidth, BitVec.toNat_ofNat]
    omega
  obtain ⟨fd2,hstream2,hok2,hmessage⟩ := readMessage_header stack buffer length hstream hok
  obtain ⟨fd3,h3,hstream3,hok3⟩ :=
    readn_spec fd2 buffer ((BitVec.ofNat 32 n).setWidth 64) (hsize.symm ▸ hmax) hok2
  rw [hsize, hstream2] at h3 hstream3
  have hfits : ¬ length < (BitVec.ofNat 32 n).setWidth 64 := by
    rw [BitVec.lt_def, hsize]
    omega
  refine ⟨fd3,?_,hstream3,hok3⟩
  rw [hmessage, if_neg hfits, h3]
  show (if (BitVec.ofNat 64 (min n rest.length)).setWidth 32 ≠ BitVec.ofNat 32 n then _ else _) = _
  rw [setWidth_count]
  by_cases hle : n ≤ rest.length
  · rw [Nat.min_eq_left hle, if_neg (not_not.mpr rfl), if_pos hle, signExtend_count hmax]
  · have hne : ¬ BitVec.ofNat 32 rest.length = BitVec.ofNat 32 n := by
      intro he
      have he := congrArg BitVec.toNat he
      simp only [BitVec.toNat_ofNat, intMax] at he hmax
      omega
    rw [Nat.min_eq_right (by omega), if_pos hne, if_neg hle, incomplete_count (by omega)]

/-- A call that finds a whole frame stores its body and takes the frame off the stream. -/
theorem readMessage_frame {fd : Socket} {length : BitVec 64} {frame : Frame} {rest : List Byte}
    (stack buffer : ℕ → Byte) (hstream : fd.stream = frame.encoded ++ rest)
    (hbody : frame.body.length ≤ length.toNat) (hmax : frame.body.length ≤ intMax)
    (hok : .failed ∉ fd.outcomes) :
    ∃ fd', readMessage fd stack buffer length =
        (BitVec.ofNat 64 frame.body.length, store buffer 0 frame.body, fd') ∧
      fd'.stream = rest ∧ .failed ∉ fd'.outcomes := by
  simp only [Frame.encoded, List.append_assoc] at hstream
  obtain ⟨fd',hread,hrest,hok'⟩ := readMessage_body stack buffer hstream hbody hmax hok
  rw [if_pos (by simp), List.take_left] at hread
  exact ⟨fd',hread,by rw [hrest, List.drop_left],hok'⟩

theorem readMessage_short {fd : Socket} {length : BitVec 64} {frame : Frame} {k : ℕ}
    (stack buffer : ℕ → Byte) (hstream : fd.stream = frame.encoded.take k)
    (hk : k < frame.encoded.length) (hbody : frame.body.length ≤ length.toNat)
    (hlength : length.toNat ≤ intMax) (hok : .failed ∉ fd.outcomes) :
    (readMessage fd stack buffer length).1 = 0 := by
  simp only [Frame.encoded, List.append_assoc] at hstream
  rw [Frame.encoded_length] at hk
  rcases Nat.lt_or_ge k 4 with hfirst | hfirst
  · have hlen : fd.stream.length < 4 := by rw [hstream]; simp; omega
    obtain ⟨count,word,fd',hread,hcount,hzero⟩ := readn_word_short stack hlen hok
    rw [readMessage, hread]
    exact (congrArg Prod.fst (if_pos hcount)).trans hzero
  rw [List.take_append, List.take_of_length_le (by simpa using hfirst)] at hstream
  rcases Nat.lt_or_ge k 8 with hsecond | hsecond
  · obtain ⟨count1,fd1,h1,hcount1,hstream1,hok1⟩ := readn_word stack hstream hok
    have hlen : fd1.stream.length < 4 := by rw [hstream1]; simp; omega
    obtain ⟨count,word,fd',hread,hcount,hzero⟩ := readn_word_short stack hlen hok1
    rw [readMessage, h1]
    refine (congrArg Prod.fst (if_neg (not_not.mpr hcount1))).trans ?_
    rw [hread]
    exact (congrArg Prod.fst (if_pos hcount)).trans hzero
  · rw [List.take_append, List.take_of_length_le (by simp; omega)] at hstream
    obtain ⟨fd',hread,-,-⟩ :=
      readMessage_body stack buffer hstream hbody (hbody.trans hlength) hok
    rw [hread]
    simp only [List.length_take, htonl_length]
    rw [if_neg (by omega)]

/-- Successive calls into one buffer: what each returned, with that many bytes of the
buffer behind it. -/
def readMessages (fd : Socket) (stack buffer : ℕ → Byte) (length : BitVec 64) :
    ℕ → List (BitVec 64 × List Byte) × (ℕ → Byte) × Socket
  | 0 => ([], buffer, fd)
  | calls + 1 =>
    let (returned, buffer, fd) := readMessage fd stack buffer length
    let (results, last) := readMessages fd stack buffer length calls
    ((returned, load buffer 0 returned.toNat) :: results, last)

/-- However the stream is cut, one call for each frame returns the length of its body with
that body in the buffer, leaves what follows the frames and no byte of the buffer behind
`length` changed; when what follows is the front of one more frame, the next call
returns 0. -/
theorem readMessages_frames (frames : List Frame) (rest : List Byte) (fd : Socket)
    (stack buffer : ℕ → Byte) (length : BitVec 64)
    (hstream : fd.stream = frames.flatMap Frame.encoded ++ rest)
    (hframes : ∀ frame ∈ frames, frame.body.length ≤ length.toNat)
    (hlength : length.toNat ≤ intMax) (hok : .failed ∉ fd.outcomes) :
    ∃ buffer' fd', readMessages fd stack buffer length frames.length =
        (frames.map fun frame => (BitVec.ofNat 64 frame.body.length, frame.body), buffer', fd') ∧
      fd'.stream = rest ∧ (∀ i ≥ length.toNat, buffer' i = buffer i) ∧
      ∀ (frame : Frame) (k : ℕ), frame.body.length ≤ length.toNat → k < frame.encoded.length →
        rest = frame.encoded.take k → (readMessage fd' stack buffer' length).1 = 0 := by
  induction frames generalizing fd buffer with
  | nil =>
    refine ⟨buffer,fd,rfl,by simpa using hstream,fun _ _ => rfl,?_⟩
    intro frame k hbody hk hrest
    exact readMessage_short stack buffer (by simpa [hrest] using hstream) hk hbody hlength hok
  | cons frame frames ih =>
    obtain ⟨hhead,htail⟩ := List.forall_mem_cons.mp hframes
    rw [List.flatMap_cons, List.append_assoc] at hstream
    obtain ⟨fd1,hread,hstream1,hok1⟩ :=
      readMessage_frame stack buffer hstream hhead (hhead.trans hlength) hok
    obtain ⟨buffer',fd',hreads,hend,hkeep,hnext⟩ :=
      ih fd1 (store buffer 0 frame.body) hstream1 htail hok1
    have hcount : (BitVec.ofNat 64 frame.body.length).toNat = frame.body.length := by
      rw [BitVec.toNat_ofNat]
      exact Nat.mod_eq_of_lt (by simp only [intMax] at hlength; omega)
    refine ⟨buffer',fd',?_,hend,?_,hnext⟩
    · simp only [readMessages, List.length_cons, hread, hreads, hcount, load_store_self,
        List.map_cons]
    · intro i hi
      rw [hkeep i hi, store_apply_of_ge (by omega)]

/-- Two frames, cut inside both headers and interrupted, and a third one cut off. -/
theorem readMessages_frames_cut :
    ∃ buffer' fd', readMessages
        ⟨[0, 0, 0, 2, 0, 0, 0, 7, 97, 98, 0, 0, 0, 1, 0, 0, 0, 7, 99, 0, 0, 0],
          [.upTo 2,.interrupted,.upTo 0,.upTo 9,.upTo 0,.upTo 5,.interrupted]⟩
        (fun _ => 0) (fun _ => 0) 2 2 = ([(2, [97, 98]),(1, [99])], buffer', fd') ∧
      (readMessage fd' (fun _ => 0) buffer' 2).1 = 0 := by
  obtain ⟨buffer',fd',hreads,-,-,hnext⟩ := readMessages_frames [⟨7,[97, 98]⟩,⟨7,[99]⟩] [0, 0, 0]
    ⟨[0, 0, 0, 2, 0, 0, 0, 7, 97, 98, 0, 0, 0, 1, 0, 0, 0, 7, 99, 0, 0, 0],
      [.upTo 2,.interrupted,.upTo 0,.upTo 9,.upTo 0,.upTo 5,.interrupted]⟩
    (fun _ => 0) (fun _ => 0) 2 rfl (by decide) (by decide) (by decide)
  exact ⟨buffer',fd',hreads,hnext ⟨7,[99]⟩ 3 (by decide) (by decide) rfl⟩

end CppExamples.HttpTest
