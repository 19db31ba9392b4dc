import CppExamples.HttpTest.ReadMessage

/-! # `readline`

What `recv` handed over is kept in static storage, but how much of it is left is kept
in the call: a new call receives again.  So the bytes behind a line in one `recv` are
lost, and only those.
-/
namespace CppExamples.HttpTest
open Memory

/-- The static variables: the read buffer and the pointer into it. -/
structure ReadBuffer where
  cells : ℕ → Byte
  pointer : ℕ

/-- What becomes of the test for `nleft <= 0`. -/
inductive Refilled where
  | interrupted
  | failed
  | atEnd
  | ready (readBuffer : ReadBuffer) (nleft : ℕ)

def refill (fd : Socket) (readBuffer : ReadBuffer) (nleft : ℕ) : Refilled × Socket :=
  if 0 < nleft then (.ready readBuffer nleft, fd)
  else
    match fd.read 512 with
    | (.interrupted, fd) => (.interrupted, fd)
    | (.failed, fd) => (.failed, fd)
    | (.got bytes, fd) =>
      if bytes = [] then (.atEnd, fd)
      else (.ready ⟨store readBuffer.cells 0 bytes,0⟩ bytes.length, fd)

theorem refill_cases {fd fd' : Socket} {readBuffer : ReadBuffer} {nleft : ℕ} {refilled : Refilled}
    (h : refill fd readBuffer nleft = (refilled, fd')) :
    0 < nleft ∧ refilled = .ready readBuffer nleft ∧ fd' = fd ∨
      nleft = 0 ∧ (fd.read 512 = (.interrupted, fd') ∧ refilled = .interrupted ∨
        fd.read 512 = (.failed, fd') ∧ refilled = .failed ∨
        fd.read 512 = (.got [], fd') ∧ refilled = .atEnd ∨
        ∃ bytes, bytes ≠ [] ∧ fd.read 512 = (.got bytes, fd') ∧
          refilled = .ready ⟨store readBuffer.cells 0 bytes,0⟩ bytes.length) := by
  unfold refill at h
  split at h
  next hleft =>
    obtain ⟨rfl,rfl⟩ := Prod.mk.inj h
    exact .inl ⟨hleft,rfl,rfl⟩
  next hleft =>
    right
    apply And.intro (Nat.eq_zero_of_not_pos hleft)
    split at h
    next hread =>
      obtain ⟨rfl,rfl⟩ := Prod.mk.inj h
      exact .inl ⟨hread,rfl⟩
    next hread =>
      obtain ⟨rfl,rfl⟩ := Prod.mk.inj h
      exact .inr (.inl ⟨hread,rfl⟩)
    next bytes fd₁ hread =>
      split at h
      next hnil =>
        obtain ⟨rfl,rfl⟩ := Prod.mk.inj h
        exact .inr (.inr (.inl ⟨hnil ▸ hread,rfl⟩))
      next hne =>
        obtain ⟨rfl,rfl⟩ := Prod.mk.inj h
        exact .inr (.inr (.inr ⟨bytes,hne,hread,rfl⟩))

theorem refill_interrupted {fd fd' : Socket} {readBuffer : ReadBuffer} {nleft : ℕ}
    (h : refill fd readBuffer nleft = (.interrupted, fd')) : fd.read 512 = (.interrupted, fd') := by
  rcases refill_cases h with ⟨-,he,-⟩ | ⟨-,⟨hread,-⟩ | ⟨-,he⟩ | ⟨-,he⟩ | ⟨bytes,-,-,he⟩⟩
  · cases he
  · exact hread
  · cases he
  · cases he
  · cases he

theorem refill_outcomes {fd fd' : Socket} {readBuffer readBuffer' : ReadBuffer} {nleft nleft' : ℕ}
    (h : refill fd readBuffer nleft = (.ready readBuffer' nleft', fd')) :
    fd'.outcomes.length ≤ fd.outcomes.length := by
  rcases refill_cases h with ⟨-,-,rfl⟩ | ⟨-,⟨-,he⟩ | ⟨-,he⟩ | ⟨-,he⟩ | ⟨bytes,-,hread,-⟩⟩
  · exact le_rfl
  · cases he
  · cases he
  · cases he
  · obtain ⟨-,-,-,used,houtcomes⟩ := Socket.read_got hread
    rw [houtcomes, List.length_append]
    omega

/-- The loop of `readline`, with the count of the bytes stored so far.  An interrupted
`recv` puts `length` back and goes on. -/
def readlineLoop (fd : Socket) (readBuffer : ReadBuffer) (nleft : ℕ) (buffer : ℕ → Byte) (i : ℕ)
    (length : BitVec 64) : BitVec 64 × (ℕ → Byte) × ReadBuffer × Socket :=
  if 0 < length - 1 then
    match _hrefill : refill fd readBuffer nleft with
    | (.interrupted, fd') => readlineLoop fd' readBuffer nleft buffer i length
    | (.failed, fd') => (-1, buffer, readBuffer, fd')
    | (.atEnd, fd') => (0, buffer, readBuffer, fd')
    | (.ready readBuffer nleft, fd') =>
      let c := readBuffer.cells readBuffer.pointer
      let readBuffer := { readBuffer with pointer := readBuffer.pointer + 1 }
      let buffer := Function.update buffer i c
      if c = 10 then
        (BitVec.ofNat 64 (i + 1), Function.update buffer (i + 1) 0, readBuffer, fd')
      else readlineLoop fd' readBuffer (nleft - 1) buffer (i + 1) (length - 1)
  else (-1, buffer, readBuffer, fd)
termination_by fd.outcomes.length + (length - 1).toNat
decreasing_by
  · obtain ⟨he,-⟩ := Socket.read_interrupted (refill_interrupted _hrefill)
    simp [he]
  · have hle := refill_outcomes _hrefill
    have hpos : 0 < length - 1 := ‹0 < length - 1›
    bv_omega

def readline (fd : Socket) (readBuffer : ReadBuffer) (buffer : ℕ → Byte) (length : BitVec 64) :
    BitVec 64 × (ℕ → Byte) × ReadBuffer × Socket :=
  readlineLoop fd readBuffer 0 buffer 0 length

/-- Successive calls into one buffer: what each returned, with that many bytes of the
buffer and one more. -/
def readlines (fd : Socket) (readBuffer : ReadBuffer) (buffer : ℕ → Byte) (length : BitVec 64) :
    ℕ → List (BitVec 64 × List Byte) × Socket
  | 0 => ([], fd)
  | calls + 1 =>
    let (returned, buffer, readBuffer, fd) := readline fd readBuffer buffer length
    let (results, last) := readlines fd readBuffer buffer length calls
    ((returned, load buffer 0 (returned.toNat + 1)) :: results, last)

/-- What the successful calls of `recv` hand over until the end of the stream. -/
def recvs (fd : Socket) : List (List Byte) :=
  match _hread : fd.read 512 with
  | (.interrupted, fd') => recvs fd'
  | (.failed, _) => []
  | (.got [], _) => []
  | (.got (byte :: bytes), fd') => (byte :: bytes) :: recvs fd'
termination_by fd.outcomes.length + fd.stream.length
decreasing_by
  · obtain ⟨he,hstream⟩ := Socket.read_interrupted _hread
    simp [he, hstream]
  · obtain ⟨hstream,-,-,used,he⟩ := Socket.read_got _hread
    rw [hstream, he]
    simp only [List.length_append, List.length_cons]
    omega

/-- The lines of a stream that a newline ends, without it. -/
def endedLines : List Byte → List (List Byte)
  | [] => []
  | c :: stream =>
    if c = 10 then [] :: endedLines stream
    else
      match endedLines stream with
      | [] => []
      | line :: lines => (c :: line) :: lines

def lineResult (line : List Byte) : BitVec 64 × List Byte :=
  (BitVec.ofNat 64 (line.length + 1), line ++ [10, 0])

/-- One call for each complete line returns that line, and what the calls returned and
the descriptor still holds is the stream. -/
def ReturnsLines (fd : Socket) (readBuffer : ReadBuffer) (buffer : ℕ → Byte)
    (length : BitVec 64) : Prop :=
  let lines := endedLines fd.stream
  let calls := readlines fd readBuffer buffer length lines.length
  calls.1 = lines.map lineResult ∧ fd.stream = lines.flatMap (· ++ [10]) ++ calls.2.stream

def NewlineLast (chunk : List Byte) : Prop := 10 ∉ chunk.dropLast

theorem newlineLast_cons {c : Byte} (hc : c ≠ 10) (chunk : List Byte) :
    NewlineLast (c :: chunk) ↔ NewlineLast chunk := by
  cases chunk with
  | nil => simp [NewlineLast]
  | cons d chunk => simp [NewlineLast, hc.symm]

theorem newlineLast_newline (chunk : List Byte) : NewlineLast (10 :: chunk) ↔ chunk = [] := by
  cases chunk <;> simp [NewlineLast]

theorem endedLines_spec (stream : List Byte) :
    ∃ tail, stream = (endedLines stream).flatMap (· ++ [10]) ++ tail ∧ 10 ∉ tail ∧
      ∀ line ∈ endedLines stream, 10 ∉ line := by
  induction stream with
  | nil => exact ⟨[],rfl,List.not_mem_nil,by simp [endedLines]⟩
  | cons c stream ih =>
    obtain ⟨tail,hstream,htail,hlines⟩ := ih
    rw [endedLines]
    split
    · rename_i hc
      refine ⟨tail,?_,htail,List.forall_mem_cons.mpr ⟨List.not_mem_nil,hlines⟩⟩
      rw [hc, List.flatMap_cons, List.nil_append, List.append_assoc, ← hstream]
      rfl
    · rename_i hc
      cases hsplit : endedLines stream with
      | nil =>
        rw [hsplit, List.flatMap_nil, List.nil_append] at hstream
        exact ⟨c :: tail,by rw [hstream]; rfl,by simp [Ne.symm hc, htail],by simp⟩
      | cons line lines =>
        rw [hsplit] at hstream hlines
        obtain ⟨hline,hrest⟩ := List.forall_mem_cons.mp hlines
        refine ⟨tail,?_,htail,List.forall_mem_cons.mpr ⟨by simp [Ne.symm hc, hline],hrest⟩⟩
        rw [hstream]
        rfl

theorem recvs_interrupted {fd fd' : Socket} (h : fd.read 512 = (.interrupted, fd')) :
    recvs fd = recvs fd' := by
  rw [recvs]
  split <;> simp_all

theorem recvs_got {fd fd' : Socket} {bytes : List Byte} (h : fd.read 512 = (.got bytes, fd'))
    (hne : bytes ≠ []) : recvs fd = bytes :: recvs fd' := by
  rw [recvs]
  split <;> simp_all

theorem mem_of_recvs (fd : Socket) : ∀ chunk ∈ recvs fd, chunk ⊆ fd.stream := by
  fun_induction recvs fd with
  | case1 fd fd' hread ih =>
    rw [← (Socket.read_interrupted hread).2]
    exact ih
  | case2 => simp
  | case3 => simp
  | case4 fd byte bytes fd' hread ih =>
    obtain ⟨hstream,-⟩ := Socket.read_got hread
    rw [hstream]
    refine List.forall_mem_cons.mpr ⟨List.subset_append_left _ _,fun chunk hchunk => ?_⟩
    exact fun c hc => List.mem_append_right _ (ih chunk hchunk hc)

/-- The bytes of the read buffer that the call has not taken yet. -/
def ReadBuffer.ahead (readBuffer : ReadBuffer) (nleft : ℕ) : List Byte :=
  load readBuffer.cells readBuffer.pointer nleft

theorem refill_ready {fd fd' : Socket} {readBuffer readBuffer' : ReadBuffer} {nleft nleft' : ℕ}
    (h : refill fd readBuffer nleft = (.ready readBuffer' nleft', fd')) :
    0 < nleft' ∧ readBuffer.ahead nleft ++ fd.stream = readBuffer'.ahead nleft' ++ fd'.stream ∧
      (.failed ∉ fd.outcomes → .failed ∉ fd'.outcomes) ∧
      ∃ received, recvs fd = received ++ recvs fd' ∧
        (NewlineLast (readBuffer'.ahead nleft') ↔
          NewlineLast (readBuffer.ahead nleft) ∧ ∀ chunk ∈ received, NewlineLast chunk) := by
  rcases refill_cases h with ⟨hleft,he,rfl⟩ | ⟨rfl,⟨-,he⟩ | ⟨-,he⟩ | ⟨-,he⟩ | ⟨bytes,hne,hread,he⟩⟩
  · obtain ⟨rfl,rfl⟩ := Refilled.ready.inj he
    exact ⟨hleft,rfl,id,[],rfl,by simp⟩
  · cases he
  · cases he
  · cases he
  · obtain ⟨rfl,rfl⟩ := Refilled.ready.inj he
    obtain ⟨hstream,-,-,used,houtcomes⟩ := Socket.read_got hread
    have hahead : ReadBuffer.ahead ⟨store readBuffer.cells 0 bytes,0⟩ bytes.length = bytes :=
      load_store_self readBuffer.cells 0 bytes
    rw [hahead]
    refine ⟨List.length_pos_iff.mpr hne,hstream,?_,[bytes],recvs_got hread hne,?_⟩
    · exact fun hok hmem => hok (houtcomes ▸ List.mem_append_right used hmem)
    · simp [ReadBuffer.ahead, NewlineLast]

theorem refill_atEnd {fd fd' : Socket} {readBuffer : ReadBuffer} {nleft : ℕ}
    (h : refill fd readBuffer nleft = (.atEnd, fd')) :
    readBuffer.ahead nleft ++ fd.stream = [] := by
  rcases refill_cases h with ⟨-,he,-⟩ | ⟨rfl,⟨-,he⟩ | ⟨-,he⟩ | ⟨hread,-⟩ | ⟨bytes,-,-,he⟩⟩
  · cases he
  · cases he
  · cases he
  · obtain ⟨-,-,hend,-⟩ := Socket.read_got hread
    simpa [ReadBuffer.ahead] using hend rfl
  · cases he

theorem refill_failed {fd fd' : Socket} {readBuffer : ReadBuffer} {nleft : ℕ}
    (h : refill fd readBuffer nleft = (.failed, fd')) : .failed ∈ fd.outcomes := by
  rcases refill_cases h with ⟨-,he,-⟩ | ⟨-,⟨-,he⟩ | ⟨hread,-⟩ | ⟨-,he⟩ | ⟨bytes,-,-,he⟩⟩
  · cases he
  · cases he
  · exact Socket.read_failed hread
  · cases he
  · cases he

theorem ahead_succ (readBuffer : ReadBuffer) {nleft : ℕ} (h : 0 < nleft) :
    readBuffer.ahead nleft = readBuffer.cells readBuffer.pointer ::
      ReadBuffer.ahead { readBuffer with pointer := readBuffer.pointer + 1 } (nleft - 1) := by
  obtain ⟨n,rfl⟩ : ∃ n, nleft = n + 1 := ⟨nleft - 1,by omega⟩
  exact load_succ _ _ _

/-- A call that has a line in front of it returns the line.  The bytes that it received
behind the newline are lost, and there are none exactly if no byte stands behind a newline
in what it had ahead and received. -/
theorem readlineLoop_line (fd : Socket) (readBuffer : ReadBuffer) (nleft : ℕ) (buffer : ℕ → Byte)
    (i : ℕ) (length : BitVec 64) {line rest : List Byte} (hok : .failed ∉ fd.outcomes)
    (hpending : readBuffer.ahead nleft ++ fd.stream = line ++ 10 :: rest) (hline : 10 ∉ line)
    (hlength : line.length + 1 < length.toNat) :
    ∃ readBuffer' fd' received lost, readlineLoop fd readBuffer nleft buffer i length =
        (BitVec.ofNat 64 (i + line.length + 1), store buffer i (line ++ [10, 0]), readBuffer', fd') ∧
      .failed ∉ fd'.outcomes ∧ rest = lost ++ fd'.stream ∧ recvs fd = received ++ recvs fd' ∧
      (lost = [] ↔ NewlineLast (readBuffer.ahead nleft) ∧ ∀ chunk ∈ received, NewlineLast chunk) := by
  fun_induction readlineLoop fd readBuffer nleft buffer i length generalizing line with
  | case1 fd readBuffer nleft buffer i length hpos fd' hrefill ih =>
    have hread := refill_interrupted hrefill
    obtain ⟨he,hstream⟩ := Socket.read_interrupted hread
    rw [recvs_interrupted hread]
    exact ih (fun h => hok (he ▸ List.mem_cons_of_mem _ h)) (by rwa [hstream]) hline hlength
  | case2 fd readBuffer nleft buffer i length hpos fd' hrefill =>
    exact absurd (refill_failed hrefill) hok
  | case3 fd readBuffer nleft buffer i length hpos fd' hrefill =>
    rw [refill_atEnd hrefill] at hpending
    simp at hpending
  | case4 fd readBuffer nleft buffer i length hpos readBuffer₁ nleft₁ fd₁ hrefill c readBuffer₂ buffer₁ =>
    rename_i hc
    obtain ⟨hleft,hsame,hok₁,received,hrecvs,hnewline⟩ := refill_ready hrefill
    have hahead : readBuffer₁.ahead nleft₁ = 10 :: readBuffer₂.ahead (nleft₁ - 1) :=
      hc ▸ ahead_succ readBuffer₁ hleft
    rw [hsame, hahead, List.cons_append] at hpending
    obtain rfl : line = [] := by
      cases line with
      | nil => rfl
      | cons d line => exact absurd ((List.cons.inj hpending).1 ▸ List.mem_cons_self) hline
    refine ⟨readBuffer₂,fd₁,received,readBuffer₂.ahead (nleft₁ - 1),?_,hok₁ hok,
      (List.cons.inj hpending).2.symm,hrecvs,?_⟩
    · rw [List.nil_append, store_cons, store_cons, store_nil, ← hc]
      rfl
    · rw [← hnewline, hahead, newlineLast_newline]
  | case5 fd readBuffer nleft buffer i length hpos readBuffer₁ nleft₁ fd₁ hrefill c readBuffer₂ buffer₁ hc =>
    rename_i ih
    obtain ⟨hleft,hsame,hok₁,received,hrecvs,hnewline⟩ := refill_ready hrefill
    have hahead : readBuffer₁.ahead nleft₁ = c :: readBuffer₂.ahead (nleft₁ - 1) :=
      ahead_succ readBuffer₁ hleft
    rw [hsame, hahead, List.cons_append] at hpending
    obtain ⟨line',rfl⟩ : ∃ line', line = c :: line' := by
      cases line with
      | nil => exact absurd (List.cons.inj hpending).1 hc
      | cons d line => exact ⟨line,by rw [(List.cons.inj hpending).1]⟩
    rw [List.length_cons] at hlength
    obtain ⟨readBuffer',fd',received',lost,hloop,hok',hrest,hrecvs',hlost⟩ :=
      ih (hok₁ hok) (List.cons.inj hpending).2 (fun h => hline (List.mem_cons_of_mem c h))
        (by bv_omega)
    refine ⟨readBuffer',fd',received ++ received',lost,?_,hok',hrest,?_,?_⟩
    · rw [hloop, List.cons_append, store_cons, List.length_cons, Nat.add_right_comm i 1,
        Nat.add_assoc i]
    · rw [hrecvs, hrecvs', List.append_assoc]
    · rw [hahead, newlineLast_cons hc] at hnewline
      rw [hlost, hnewline, List.forall_mem_append, and_assoc]
  | case6 fd readBuffer nleft buffer i length hstop =>
    exact absurd (show 0 < length - 1 by bv_omega) hstop

theorem readlineLoop_count (fd : Socket) (readBuffer : ReadBuffer) (nleft : ℕ) (buffer : ℕ → Byte)
    (i : ℕ) (length : BitVec 64) :
    (readlineLoop fd readBuffer nleft buffer i length).1 = 0 ∨
      (readlineLoop fd readBuffer nleft buffer i length).1 = -1 ∨
      (readlineLoop fd readBuffer nleft buffer i length).1.toNat +
          (readlineLoop fd readBuffer nleft buffer i length).2.2.2.stream.length ≤
        i + nleft + fd.stream.length := by
  fun_induction readlineLoop fd readBuffer nleft buffer i length with
  | case1 fd readBuffer nleft buffer i length hpos fd' hrefill ih =>
    rwa [(Socket.read_interrupted (refill_interrupted hrefill)).2] at ih
  | case2 => exact .inr (.inl rfl)
  | case3 => exact .inl rfl
  | case4 fd readBuffer nleft buffer i length hpos readBuffer₁ nleft₁ fd₁ hrefill c readBuffer₂ buffer₁ hc =>
    obtain ⟨hleft,hsame,-⟩ := refill_ready hrefill
    have hlength := congrArg List.length hsame
    simp only [List.length_append, ReadBuffer.ahead, load_length] at hlength
    refine .inr (.inr ?_)
    simp only [BitVec.toNat_ofNat]
    omega
  | case5 fd readBuffer nleft buffer i length hpos readBuffer₁ nleft₁ fd₁ hrefill c readBuffer₂ buffer₁ hc ih =>
    obtain ⟨hleft,hsame,-⟩ := refill_ready hrefill
    have hlength := congrArg List.length hsame
    simp only [List.length_append, ReadBuffer.ahead, load_length] at hlength
    rcases ih with hzero | hminus | hcount
    · exact .inl hzero
    · exact .inr (.inl hminus)
    · exact .inr (.inr (by omega))
  | case6 => exact .inr (.inl rfl)

theorem readlines_count {length : BitVec 64} {lines : List (List Byte)}
    (hlength : ∀ line ∈ lines, line.length + 1 < length.toNat) (fd : Socket)
    (readBuffer : ReadBuffer) (buffer : ℕ → Byte)
    (hcalls : (readlines fd readBuffer buffer length lines.length).1 = lines.map lineResult) :
    (lines.flatMap (· ++ [10])).length +
      (readlines fd readBuffer buffer length lines.length).2.stream.length ≤ fd.stream.length := by
  induction lines generalizing fd readBuffer buffer with
  | nil => simp [readlines]
  | cons line lines ih =>
    obtain ⟨hline,hrest⟩ := List.forall_mem_cons.mp hlength
    have hcount := readlineLoop_count fd readBuffer 0 buffer 0 length
    obtain ⟨⟨returned,buffer',readBuffer',fd'⟩,hcall⟩ :
        ∃ result, readlineLoop fd readBuffer 0 buffer 0 length = result := ⟨_,rfl⟩
    simp only [List.length_cons, readlines, readline, hcall, List.map_cons, List.cons.injEq,
      lineResult, Prod.mk.injEq] at hcalls hcount ⊢
    obtain ⟨⟨hreturned,-⟩,hothers⟩ := hcalls
    have htail := ih hrest fd' readBuffer' buffer' hothers
    have hnat : returned.toNat = line.length + 1 := by
      rw [hreturned, BitVec.toNat_ofNat]
      exact Nat.mod_eq_of_lt (by omega)
    simp only [List.flatMap_cons, List.length_append, List.length_cons, List.length_nil]
    rcases hcount with rfl | rfl | hcount
    · cases hnat
    · have hmax : (-1 : BitVec 64).toNat = 2 ^ 64 - 1 := rfl
      omega
    · omega

theorem readlines_lines {length : BitVec 64} {tail : List Byte} (htail : 10 ∉ tail)
    (lines : List (List Byte)) (hlines : ∀ line ∈ lines, 10 ∉ line)
    (hlength : ∀ line ∈ lines, line.length + 1 < length.toNat) (fd : Socket)
    (readBuffer : ReadBuffer) (buffer : ℕ → Byte) (hok : .failed ∉ fd.outcomes)
    (hstream : fd.stream = lines.flatMap (· ++ [10]) ++ tail) :
    ((readlines fd readBuffer buffer length lines.length).1 = lines.map lineResult ∧
        tail = (readlines fd readBuffer buffer length lines.length).2.stream) ↔
      ∀ chunk ∈ recvs fd, NewlineLast chunk := by
  induction lines generalizing fd readBuffer buffer with
  | nil =>
    rw [List.flatMap_nil, List.nil_append] at hstream
    refine iff_of_true ⟨rfl,hstream.symm⟩ fun chunk hchunk hmem => htail ?_
    exact hstream ▸ mem_of_recvs fd chunk hchunk (List.mem_of_mem_dropLast hmem)
  | cons line lines ih =>
    obtain ⟨hline,hlines'⟩ := List.forall_mem_cons.mp hlines
    obtain ⟨hfits,hlength'⟩ := List.forall_mem_cons.mp hlength
    have hpending : readBuffer.ahead 0 ++ fd.stream =
        line ++ 10 :: (lines.flatMap (· ++ [10]) ++ tail) := by
      rw [hstream]
      simp [ReadBuffer.ahead]
    obtain ⟨readBuffer',fd',received,lost,hcall,hok',hrest,hrecvs,hlost⟩ :=
      readlineLoop_line fd readBuffer 0 buffer 0 length hok hpending hline hfits
    rw [Nat.zero_add] at hcall
    have hnat : (BitVec.ofNat 64 (line.length + 1)).toNat = line.length + 1 := by
      rw [BitVec.toNat_ofNat]
      exact Nat.mod_eq_of_lt (by omega)
    have hcells : load (store buffer 0 (line ++ [10, 0])) 0 (line.length + 1 + 1) = line ++ [10, 0] := by
      have hself := load_store_self buffer 0 (line ++ [10, 0])
      rwa [List.length_append] at hself
    have hnone : NewlineLast (readBuffer.ahead 0) := by simp [ReadBuffer.ahead, NewlineLast]
    simp only [List.length_cons, readlines, readline, hcall, hnat, hcells, List.map_cons, lineResult,
      List.cons.injEq, true_and, hrecvs, List.forall_mem_append]
    constructor
    · rintro ⟨hcalls,hleft⟩
      -- lost bytes would be missing in what the other calls return
      have hcount := readlines_count hlength' fd' readBuffer' _ hcalls
      have htotal := congrArg List.length hrest
      rw [← hleft] at hcount
      simp only [List.length_append] at htotal
      obtain rfl : lost = [] := List.length_eq_zero_iff.mp (by omega)
      exact ⟨(hlost.mp rfl).2,(ih hlines' hlength' fd' readBuffer' _ hok' hrest.symm).mp ⟨hcalls,hleft⟩⟩
    · rintro ⟨hreceived,hothers⟩
      obtain rfl := hlost.mpr ⟨hnone,hreceived⟩
      exact (ih hlines' hlength' fd' readBuffer' _ hok' hrest.symm).mpr hothers

/-- Successive calls return the lines of the stream exactly if every `recv` stops at the
newline. -/
theorem readlines_iff (fd : Socket) (readBuffer : ReadBuffer) (buffer : ℕ → Byte)
    (length : BitVec 64) (hok : .failed ∉ fd.outcomes)
    (hlength : ∀ line ∈ endedLines fd.stream, line.length + 1 < length.toNat) :
    ReturnsLines fd readBuffer buffer length ↔ ∀ chunk ∈ recvs fd, 10 ∉ chunk.dropLast := by
  obtain ⟨tail,hstream,htail,hlines⟩ := endedLines_spec fd.stream
  have hwhole : ∀ left, fd.stream = (endedLines fd.stream).flatMap (· ++ [10]) ++ left ↔
      tail = left := by
    intro left
    nth_rewrite 1 [hstream]
    rw [List.append_right_inj]
  rw [ReturnsLines, hwhole]
  exact readlines_lines htail (endedLines fd.stream) hlines hlength fd readBuffer buffer hok hstream

/-- Two lines, one of them behind an interrupted `recv`. -/
theorem readlines_iff_cut :
    ReturnsLines ⟨[97, 10, 98, 10],[.upTo 1,.interrupted]⟩ ⟨fun _ => 0,0⟩ (fun _ => 0) 8 ↔
      ∀ chunk ∈ recvs ⟨[97, 10, 98, 10],[.upTo 1,.interrupted]⟩, 10 ∉ chunk.dropLast :=
  readlines_iff ⟨[97, 10, 98, 10],[.upTo 1,.interrupted]⟩ ⟨fun _ => 0,0⟩ (fun _ => 0) 8 (by decide)
    (by decide)

/-- The same lines in one `recv`. -/
theorem readlines_together :
    ¬ ReturnsLines ⟨[97, 10, 98, 10],[]⟩ ⟨fun _ => 0,0⟩ (fun _ => 0) 8 := by
  rintro ⟨hcalls,hleft⟩
  have hread : Socket.read ⟨[97, 10, 98, 10],[]⟩ 512 = (.got [97, 10, 98, 10], ⟨[],[]⟩) := rfl
  have hclean := (readlines_lines List.not_mem_nil [[97], [98]] (by decide) (by decide)
    ⟨[97, 10, 98, 10],[]⟩ ⟨fun _ => 0,0⟩ (fun _ => 0) (by decide) rfl).mp
      ⟨hcalls,@List.append_cancel_left _ [97, 10, 98, 10] [] _ hleft⟩
  rw [recvs_got hread (by decide)] at hclean
  exact absurd (hclean _ List.mem_cons_self) (by unfold NewlineLast; decide)

end CppExamples.HttpTest
