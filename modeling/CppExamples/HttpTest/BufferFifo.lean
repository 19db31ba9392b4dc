import CppExamples.HttpTest.Buffer
import CppExamples.Library.Fifo

/-! # `struct buffer` refines the FIFO queue

`makeRoom` moves nothing that is readable and leaves the room it was asked for,
so every append enqueues and every read dequeues.  The simulation of single
operations lifts to runs, and conservation of the queue becomes conservation of
the buffered stream.
-/
namespace CppExamples.HttpTest
open Memory Machine

namespace Buffer

/-- The order of the indices in the block. -/
structure Valid (buffer : Buffer) : Prop where
  read_le : buffer.readIndex ≤ buffer.writeIndex
  write_le : buffer.writeIndex ≤ buffer.totalSize

/-- `size` bytes fit without growing, or growing for them neither overflows nor
fails. -/
def Room (buffer : Buffer) (size : ℕ) (realloc : Option (ℕ → Byte)) : Prop :=
  size ≤ buffer.frontSpareSize + buffer.writeableSize ∨
    (buffer.totalSize + size ≤ intMax ∧ realloc.isSome)

@[simp] theorem readable_length (buffer : Buffer) : buffer.readable.length = buffer.readableSize :=
  load_length ..

theorem memcpy_eq {buffer : Buffer} {offset : ℕ} {bytes : List Byte}
    (h : offset + bytes.length ≤ buffer.totalSize) :
    buffer.memcpy offset bytes = some { buffer with data := store buffer.data offset bytes } :=
  if_pos h

/-- The state of the compaction loop after `n` rounds: the source of every later
copy still lies above all cells written so far. -/
theorem compact_eq {buffer : Buffer} {n : ℕ} (h : buffer.readIndex + n ≤ buffer.totalSize) :
    buffer.compact n = some { buffer with
      data := fun k => if k < n then buffer.data (buffer.readIndex + k) else buffer.data k } := by
  induction n with
  | zero => simp [compact]
  | succ n ih =>
    have hn := ih (by omega)
    unfold compact at hn ⊢
    rw [List.range_succ, List.foldlM_append, hn]
    have hb : n < buffer.totalSize ∧ buffer.readIndex + n < buffer.totalSize := by omega
    simp only [List.foldlM_cons, List.foldlM_nil, copyByte, hb, and_self, ↓reduceIte,
      Option.bind_eq_bind, Option.bind_some, Option.pure_def, Option.some.injEq, mk.injEq, and_true]
    funext k
    rcases Nat.lt_trichotomy k n with hk | rfl | hk
    · simp [Function.update_of_ne (Nat.ne_of_lt hk), hk, Nat.lt_succ_of_lt hk]
    · simp
    · simp [Function.update_of_ne (Nat.ne_of_gt hk), Nat.not_lt.mpr hk.le,
        show ¬ k < n + 1 by omega]

end Buffer

open Buffer

theorem makeRoom_spec {buffer : Buffer} {size : ℕ} {realloc : Option (ℕ → Byte)}
    (hv : buffer.Valid) (hroom : buffer.Room size realloc) :
    ∃ b, makeRoom buffer size realloc = some b ∧ b.Valid ∧ b.readable = buffer.readable ∧
      size ≤ b.writeableSize := by
  obtain ⟨hr,hw⟩ := hv
  unfold makeRoom
  by_cases hfit : size ≤ buffer.writeableSize
  · exact ⟨buffer,if_pos hfit,⟨hr,hw⟩,rfl,hfit⟩
  rw [if_neg hfit]
  by_cases hfront : size ≤ buffer.frontSpareSize + buffer.writeableSize
  · have hc : buffer.readIndex + buffer.readableSize ≤ buffer.totalSize := by
      unfold readableSize
      omega
    rw [if_pos hfront, compact_eq hc]
    refine ⟨_,rfl,⟨Nat.zero_le _,?_⟩,?_,?_⟩
    · exact (Nat.le_add_left _ _).trans hc
    · refine load_congr (n := buffer.readableSize) fun i hi => ?_
      rw [Nat.zero_add]
      exact if_pos hi
    · unfold writeableSize frontSpareSize readableSize at *
      dsimp only
      omega
  · rw [if_neg hfront]
    obtain ⟨hmax,hsome⟩ := hroom.resolve_left hfront
    obtain ⟨fresh,rfl⟩ := Option.isSome_iff_exists.mp hsome
    refine ⟨buffer.grow size fresh,if_pos hmax,⟨hr,?_⟩,?_,?_⟩
    · exact hw.trans (Nat.le_add_right _ _)
    · refine load_congr fun i hi => ?_
      have hlt : buffer.readIndex + i < buffer.totalSize := by
        unfold readableSize grow at hi
        dsimp only at hi
        omega
      exact if_pos hlt
    · unfold writeableSize grow
      dsimp only
      omega

/-- `bytes` written behind `writeIndex`, and the index advanced over them. -/
def Buffer.push (buffer : Buffer) (bytes : List Byte) : Buffer :=
  { buffer with
    data := store buffer.data buffer.writeIndex bytes
    writeIndex := buffer.writeIndex + bytes.length }

theorem Buffer.Valid.push {buffer : Buffer} {bytes : List Byte} (hv : buffer.Valid)
    (hfit : bytes.length ≤ buffer.writeableSize) : (buffer.push bytes).Valid := by
  obtain ⟨hr,hw⟩ := hv
  unfold writeableSize at hfit
  exact ⟨hr.trans (Nat.le_add_right _ _),by simp only [Buffer.push]; omega⟩

theorem push_readable {buffer : Buffer} {bytes : List Byte} (hv : buffer.Valid) :
    (buffer.push bytes).readable = buffer.readable ++ bytes := by
  obtain ⟨hr,-⟩ := hv
  have hsize : buffer.writeIndex + bytes.length - buffer.readIndex =
      buffer.readableSize + bytes.length := by
    unfold readableSize
    omega
  have hend : buffer.readIndex + buffer.readableSize = buffer.writeIndex := by
    unfold readableSize
    omega
  change load (store buffer.data buffer.writeIndex bytes) buffer.readIndex
    (buffer.writeIndex + bytes.length - buffer.readIndex) = _
  rw [hsize, load_add, hend, load_store_self, load_store_of_disjoint _ (Or.inl hend.le)]
  rfl

theorem memcpy_writeIndex {buffer : Buffer} {bytes : List Byte} (hv : buffer.Valid)
    (hfit : bytes.length ≤ buffer.writeableSize) :
    buffer.memcpy buffer.writeIndex bytes =
      some { buffer with data := store buffer.data buffer.writeIndex bytes } := by
  have hw := hv.write_le
  unfold writeableSize at hfit
  exact memcpy_eq (by omega)

theorem bufferAppend_spec {buffer : Buffer} {bytes : List Byte} {realloc : Option (ℕ → Byte)}
    (hv : buffer.Valid) (hroom : buffer.Room bytes.length realloc) :
    ∃ b, bufferAppend buffer (some bytes) realloc = some b ∧ b.Valid ∧
      b.readable = buffer.readable ++ bytes := by
  obtain ⟨b,hb,hbv,hread,hsize⟩ := makeRoom_spec hv hroom
  refine ⟨b.push bytes,?_,hbv.push hsize,?_⟩
  · simp only [bufferAppend, hb, memcpy_writeIndex hbv hsize, Option.bind_eq_bind, Option.bind_some,
      Option.pure_def]
    rfl
  · rw [push_readable hbv, hread]

theorem room_of_bufferAppend {buffer b : Buffer} {bytes : List Byte} {realloc : Option (ℕ → Byte)}
    (hv : buffer.Valid) (h : bufferAppend buffer (some bytes) realloc = some b) :
    buffer.Room bytes.length realloc := by
  by_contra hroom
  simp only [Buffer.Room, not_or, not_and] at hroom
  obtain ⟨hspace,hgrow⟩ := hroom
  have hnot : ¬ bytes.length ≤ buffer.writeableSize := by omega
  by_cases hint : buffer.totalSize + bytes.length ≤ intMax
  · cases realloc with
    | some fresh => exact hgrow hint rfl
    | none =>
      have hover : ¬ buffer.writeIndex + bytes.length ≤ buffer.totalSize := by
        simp only [Buffer.writeableSize] at hnot
        have := hv.write_le
        omega
      simp [bufferAppend, makeRoom, hnot, hspace, hint, Buffer.memcpy, hover] at h
  · simp [bufferAppend, makeRoom, hnot, hspace, hint] at h

theorem makeRoom_cases {buffer : Buffer} (hv : buffer.Valid) (size : ℕ)
    (realloc : Option (ℕ → Byte)) :
    (size ≤ buffer.writeableSize ∧ makeRoom buffer size realloc = some buffer) ∨
    (buffer.writeableSize < size ∧ size ≤ buffer.frontSpareSize + buffer.writeableSize ∧
      ∃ b, makeRoom buffer size realloc = some b ∧ b.totalSize = buffer.totalSize ∧
        b.writeIndex = buffer.readableSize) ∨
    (buffer.frontSpareSize + buffer.writeableSize < size ∧ intMax < buffer.totalSize + size ∧
      makeRoom buffer size realloc = none) ∨
    (buffer.frontSpareSize + buffer.writeableSize < size ∧ buffer.totalSize + size ≤ intMax ∧
      ∃ b, makeRoom buffer size realloc = some b ∧ b.writeIndex = buffer.writeIndex ∧
        b.totalSize = if realloc.isSome then buffer.totalSize + size else buffer.totalSize) := by
  by_cases hfit : size ≤ buffer.writeableSize
  · exact .inl ⟨hfit,if_pos hfit⟩
  right
  by_cases hfront : size ≤ buffer.frontSpareSize + buffer.writeableSize
  · left
    have hc : buffer.readIndex + buffer.readableSize ≤ buffer.totalSize := by
      have hr := hv.read_le
      have hw := hv.write_le
      unfold readableSize
      omega
    refine ⟨not_le.mp hfit,hfront,?_⟩
    unfold makeRoom
    rw [if_neg hfit, if_pos hfront, compact_eq hc, Option.map_some]
    exact ⟨_,rfl,rfl,rfl⟩
  right
  by_cases hmax : buffer.totalSize + size ≤ intMax
  · right
    refine ⟨not_le.mp hfront,hmax,?_⟩
    simp only [makeRoom, if_neg hfit, if_neg hfront, if_pos hmax]
    cases realloc with
    | none => exact ⟨buffer,rfl,rfl,rfl⟩
    | some fresh => exact ⟨_,rfl,rfl,rfl⟩
  · left
    refine ⟨not_le.mp hfront,not_le.mp hmax,?_⟩
    simp only [makeRoom, if_neg hfit, if_neg hfront, if_neg hmax]

theorem bufferAppend_totalSize {buffer b : Buffer} {bytes : List Byte} {realloc : Option (ℕ → Byte)}
    (hv : buffer.Valid) (h : bufferAppend buffer (some bytes) realloc = some b) :
    b.totalSize = if buffer.readableSize + bytes.length ≤ buffer.totalSize then buffer.totalSize
      else buffer.totalSize + bytes.length := by
  have hroom := room_of_bufferAppend hv h
  obtain ⟨m,hm,hcopy⟩ := Option.bind_eq_some_iff.mp h
  obtain ⟨c,hc,he⟩ := Option.bind_eq_some_iff.mp hcopy
  obtain rfl := Option.some.inj he
  simp only [Buffer.memcpy, Option.ite_none_right_eq_some, Option.some.injEq] at hc
  obtain ⟨-,rfl⟩ := hc
  obtain ⟨hr,hw⟩ := hv
  unfold readableSize
  rcases makeRoom_cases ⟨hr,hw⟩ bytes.length realloc with
    ⟨hfit,hmake⟩ | ⟨-,hmove,c,hmake,hkept,-⟩ | ⟨-,-,hmake⟩ | ⟨hfull,-,c,hmake,-,hgrown⟩
  · obtain rfl := Option.some.inj (hm.symm.trans hmake)
    unfold writeableSize at hfit
    exact (if_pos (by omega)).symm
  · obtain rfl := Option.some.inj (hm.symm.trans hmake)
    unfold frontSpareSize writeableSize at hmove
    exact hkept.trans (if_pos (by omega)).symm
  · cases hm.symm.trans hmake
  · obtain rfl := Option.some.inj (hm.symm.trans hmake)
    rw [if_pos (hroom.resolve_left (not_le.mpr hfull)).2] at hgrown
    unfold frontSpareSize writeableSize at hfull
    exact hgrown.trans (if_neg (by omega)).symm

/-- The bytes `readv` can have received: at most both segments full, and what
went to the stack buffer has room when it is appended back. -/
def Buffer.Receives (buffer : Buffer) (received : List Byte) (realloc : Option (ℕ → Byte)) : Prop :=
  received.length ≤ buffer.writeableSize + initBufferSize ∧
    (buffer.writeableSize < received.length →
      (buffer.push (received.take buffer.writeableSize)).Room
        (received.length - buffer.writeableSize) realloc)

theorem bufferSocketRead_of_le {buffer : Buffer} {received : List Byte} (hv : buffer.Valid)
    (hfit : received.length ≤ buffer.writeableSize) (realloc : Option (ℕ → Byte)) :
    bufferSocketRead buffer (some received) realloc =
      some (buffer.push received, (received.length : ℤ)) := by
  simp only [bufferSocketRead, List.take_of_length_le hfit, memcpy_writeIndex hv hfit, hfit,
    ↓reduceIte, Option.bind_eq_bind, Option.bind_some, Option.pure_def]
  rfl

/-- Else the first segment fills the block, and the rest goes through `buffer_append`. -/
theorem bufferSocketRead_of_lt {buffer : Buffer} {received : List Byte} (hv : buffer.Valid)
    (hlt : buffer.writeableSize < received.length) (realloc : Option (ℕ → Byte)) :
    (buffer.push (received.take buffer.writeableSize)).Valid ∧
      bufferSocketRead buffer (some received) realloc =
        (bufferAppend (buffer.push (received.take buffer.writeableSize))
          (some (received.drop buffer.writeableSize)) realloc).map
            fun b => (b, (received.length : ℤ)) := by
  have hlen : (received.take buffer.writeableSize).length = buffer.writeableSize :=
    List.length_take_of_le hlt.le
  have hmem := memcpy_writeIndex hv hlen.le
  have hfull : buffer.writeIndex + buffer.writeableSize = buffer.totalSize := by
    have hw := hv.write_le
    unfold writeableSize
    omega
  refine ⟨hv.push hlen.le,?_⟩
  simp only [bufferSocketRead, hmem, if_neg (not_le.mpr hlt), Option.bind_eq_bind, Option.bind_some,
    Option.pure_def]
  rw [Buffer.push, hlen, hfull, Option.map_eq_bind]
  rfl

theorem bufferSocketRead_spec {buffer : Buffer} {received : List Byte} {realloc : Option (ℕ → Byte)}
    (hv : buffer.Valid) (hrec : buffer.Receives received realloc) :
    ∃ b, bufferSocketRead buffer (some received) realloc = some (b, (received.length : ℤ)) ∧
      b.Valid ∧ b.readable = buffer.readable ++ received := by
  by_cases hfit : received.length ≤ buffer.writeableSize
  · exact ⟨buffer.push received,bufferSocketRead_of_le hv hfit realloc,hv.push hfit,push_readable hv⟩
  · obtain ⟨hpushed,hread⟩ := bufferSocketRead_of_lt hv (not_le.mp hfit) realloc
    have hroom : (buffer.push (received.take buffer.writeableSize)).Room
        (received.drop buffer.writeableSize).length realloc := by
      rw [List.length_drop]
      exact hrec.2 (by omega)
    obtain ⟨b,hb,hbv,hbytes⟩ := bufferAppend_spec hpushed hroom
    refine ⟨b,by rw [hread, hb, Option.map_some],hbv,?_⟩
    rw [hbytes, push_readable hv, List.append_assoc, List.take_append_drop]

theorem bufferReadChar_spec {buffer : Buffer} (hv : buffer.Valid) (h : 0 < buffer.readableSize) :
    ∃ b c, bufferReadChar buffer = some (b, c) ∧ b.Valid ∧ buffer.readable = c :: b.readable := by
  obtain ⟨hr,hw⟩ := hv
  unfold readableSize at h
  refine ⟨_,_,if_pos (by omega),⟨?_,hw⟩,?_⟩
  · dsimp only
    omega
  · have hs : buffer.readableSize = (buffer.writeIndex - (buffer.readIndex + 1)) + 1 := by
      unfold readableSize
      omega
    rw [readable, hs, load_succ]
    rfl

/-- What a client does to a buffer; `consume n` is `readIndex += n`. -/
inductive BufferOp where
  | append (data : Option (List Byte))
  | appendChar (data : Byte)
  | appendString (data : Option (List Byte))
  | socketRead (readv : Option (List Byte))
  | readChar
  | consume (n : ℕ)

/-- One operation, with what a successful `realloc` would leave in new cells; the
output is the bytes consumed. -/
def bufferStep (buffer : Buffer) (input : BufferOp × (ℕ → Byte)) : Option (Buffer × List Byte) :=
  match input.1 with
  | .append data => (bufferAppend buffer data (some input.2)).map fun b => (b, [])
  | .appendChar data => (bufferAppendChar buffer data (some input.2)).map fun b => (b, [])
  | .appendString data => (bufferAppendString buffer data (some input.2)).map fun b => (b, [])
  | .socketRead readv => (bufferSocketRead buffer readv (some input.2)).map fun r => (r.1, [])
  | .readChar => (bufferReadChar buffer).map fun r => (r.1, [r.2])
  | .consume n =>
    some ({ buffer with readIndex := buffer.readIndex + n }, load buffer.data buffer.readIndex n)

/-- Appended sizes stay below `INT_MAX`, `readv` fills at most its two segments,
and no more is consumed than is readable. -/
def BufferAllowed (buffer : Buffer) (input : BufferOp × (ℕ → Byte)) : Prop :=
  match input.1 with
  | .append data => ∀ bytes ∈ data, buffer.Room bytes.length (some input.2)
  | .appendChar _ => buffer.Room 1 (some input.2)
  | .appendString data => ∀ chars ∈ data, buffer.Room (cString chars).length (some input.2)
  | .socketRead readv => ∀ received ∈ readv, buffer.Receives received (some input.2)
  | .readChar => 0 < buffer.readableSize
  | .consume n => n ≤ buffer.readableSize

def BufferOp.toFifo : BufferOp → Fifo.Op Byte
  | .append data => .enqueue (data.getD [])
  | .appendChar data => .enqueue [data]
  | .appendString data => .enqueue ((data.map cString).getD [])
  | .socketRead readv => .enqueue (readv.getD [])
  | .readChar => .dequeue 1
  | .consume n => .dequeue n

def Buffer.Represents (buffer : Buffer) (queue : List Byte) : Prop :=
  buffer.Valid ∧ buffer.readable = queue

theorem Buffer.Represents.enqueue_nil {buffer : Buffer} {queue : List Byte}
    (h : buffer.Represents queue) :
    ∃ b q' out, some (buffer, ([] : List Byte)) = some (b, out) ∧
      Fifo.step queue (.enqueue []) = some (q', out) ∧ b.Represents q' :=
  ⟨buffer,queue ++ [],[],rfl,rfl,h.1,by rw [h.2, List.append_nil]⟩

theorem bufferStep_simulates (buffer : Buffer) (queue : List Byte) (input : BufferOp × (ℕ → Byte))
    (hrel : buffer.Represents queue) (hok : BufferAllowed buffer input) :
    ∃ b q' out, bufferStep buffer input = some (b, out) ∧
      Fifo.step queue input.1.toFifo = some (q', out) ∧ b.Represents q' := by
  obtain ⟨op,fresh⟩ := input
  obtain ⟨hv,rfl⟩ := hrel
  cases op with
  | append data =>
    cases data with
    | none => exact Buffer.Represents.enqueue_nil ⟨hv,rfl⟩
    | some bytes =>
      obtain ⟨b,hb,hbv,hread⟩ := bufferAppend_spec hv (hok bytes rfl)
      exact ⟨b,_,[],by simp only [bufferStep, hb, Option.map_some],rfl,hbv,hread⟩
  | appendChar data =>
    have hroom : buffer.Room [data].length (some fresh) := hok
    obtain ⟨b,hb,hbv,hread⟩ := bufferAppend_spec hv hroom
    refine ⟨b,_,[],?_,rfl,hbv,hread⟩
    change (bufferAppend buffer (some [data]) (some fresh)).map _ = _
    rw [hb, Option.map_some]
  | appendString data =>
    cases data with
    | none => exact Buffer.Represents.enqueue_nil ⟨hv,rfl⟩
    | some chars =>
      obtain ⟨b,hb,hbv,hread⟩ := bufferAppend_spec hv (hok chars rfl)
      exact ⟨b,_,[],by simp only [bufferStep, bufferAppendString, hb, Option.map_some],rfl,hbv,hread⟩
  | socketRead readv =>
    cases readv with
    | none => exact Buffer.Represents.enqueue_nil ⟨hv,rfl⟩
    | some received =>
      obtain ⟨b,hb,hbv,hread⟩ := bufferSocketRead_spec hv (hok received rfl)
      exact ⟨b,_,[],by simp only [bufferStep, hb, Option.map_some],rfl,hbv,hread⟩
  | readChar =>
    obtain ⟨b,c,hb,hbv,hread⟩ := bufferReadChar_spec hv hok
    refine ⟨b,b.readable,[c],by simp only [bufferStep, hb, Option.map_some],?_,hbv,rfl⟩
    simp only [BufferOp.toFifo, Fifo.step, hread, List.drop_one, List.tail_cons, List.take_one,
      List.head?_cons, Option.toList_some]
  | consume n =>
    have hn : n ≤ buffer.readableSize := hok
    refine ⟨_,buffer.readable.drop n,_,rfl,?_,⟨?_,hv.write_le⟩,?_⟩
    · simp only [BufferOp.toFifo, Fifo.step, readable, take_load _ _ hn]
    · have hr := hv.read_le
      unfold readableSize at hn
      dsimp only
      omega
    · rw [readable, readable, drop_load _ _ hn]
      unfold readableSize
      dsimp only
      rw [Nat.sub_sub]

theorem bufferNew_represents (block : ℕ → Byte) : (bufferNew block).Represents [] :=
  ⟨⟨le_rfl,Nat.zero_le _⟩,rfl⟩

/-- From `buffer_new`, every run of operations is defined, so every copy stays in
the block; the indices stay ordered, and what was consumed followed by what is
readable is everything appended and received.  Making room, by compaction or by
growing, leaves the readable bytes as they are. -/
theorem bufferRun_fifo (block : ℕ → Byte) (ops : List (BufferOp × (ℕ → Byte)))
    (hok : Admits bufferStep BufferAllowed (bufferNew block) ops) :
    ∃ buffer consumed, run bufferStep (bufferNew block) ops = some (buffer, consumed) ∧
      buffer.Valid ∧ consumed.flatten ++ buffer.readable = ops.flatMap (fun x => x.1.toFifo.added) ∧
      ∀ size realloc, buffer.Room size realloc →
        ∃ b, makeRoom buffer size realloc = some b ∧ b.readable = buffer.readable := by
  obtain ⟨buffer,queue,consumed,hrun,hfifo,hv,rfl⟩ :=
    run_simulates bufferStep_simulates (bufferNew_represents block) hok
  have hcons := Fifo.run_conserves
    (fun q (x : BufferOp × (ℕ → Byte)) q' out h => Fifo.step_conserves q x.1.toFifo q' out h) hfifo
  refine ⟨buffer,consumed,hrun,hv,hcons,fun size realloc hroom => ?_⟩
  obtain ⟨b,hb,-,hread,-⟩ := makeRoom_spec hv hroom
  exact ⟨b,hb,hread⟩

def BufferOp.taken : BufferOp → ℕ
  | .append _ => 0
  | .appendChar _ => 0
  | .appendString _ => 0
  | .socketRead _ => 0
  | .readChar => 1
  | .consume n => n

/-- Beginning with `queued` bytes, no operation consumes more than there is, and none receives
more than the stack buffer of a read holds. -/
def Balanced : ℕ → List (BufferOp × (ℕ → Byte)) → Prop
  | _, [] => True
  | queued, input :: inputs =>
    input.1.taken ≤ queued ∧ input.1.toFifo.added.length ≤ initBufferSize ∧
      Balanced (queued - input.1.taken + input.1.toFifo.added.length) inputs

theorem bufferStep_readableSize {buffer b : Buffer} {input : BufferOp × (ℕ → Byte)} {out : List Byte}
    (hv : buffer.Valid) (hok : BufferAllowed buffer input)
    (h : bufferStep buffer input = some (b, out)) :
    b.Valid ∧ b.readableSize =
      buffer.readableSize - input.1.taken + input.1.toFifo.added.length := by
  obtain ⟨b',queue,out',hb',hfifo,hbv,hread⟩ := bufferStep_simulates buffer _ input ⟨hv,rfl⟩ hok
  obtain ⟨rfl,-⟩ := Prod.mk.inj (Option.some.inj (h.symm.trans hb'))
  refine ⟨hbv,?_⟩
  rw [← readable_length, hread]
  obtain ⟨op,fresh⟩ := input
  cases op <;>
  · obtain ⟨rfl,-⟩ := Prod.mk.inj (Option.some.inj hfifo)
    simp [BufferOp.taken, BufferOp.toFifo, Fifo.Op.added]

section Steps
variable {buffer b : Buffer} {input : BufferOp × (ℕ → Byte)} {out : List Byte}

/-- A step keeps the block, appends what its operation adds, or receives. -/
theorem bufferStep_cases (h : bufferStep buffer input = some (b, out)) :
    b.totalSize = buffer.totalSize ∨
      ((∀ readv, input.1 ≠ .socketRead readv) ∧
        bufferAppend buffer (some input.1.toFifo.added) (some input.2) = some b) ∨
      ∃ received n, input.1 = .socketRead (some received) ∧
        bufferSocketRead buffer (some received) (some input.2) = some (b, n) := by
  obtain ⟨op,fresh⟩ := input
  cases op with
  | append data =>
    obtain ⟨c,hc,he⟩ := Option.map_eq_some_iff.mp h
    obtain ⟨rfl,-⟩ := Prod.mk.inj he
    cases data with
    | none => exact .inl (congrArg Buffer.totalSize (Option.some.inj hc)).symm
    | some bytes => exact .inr (.inl ⟨fun _ => BufferOp.noConfusion,hc⟩)
  | appendChar data =>
    obtain ⟨c,hc,he⟩ := Option.map_eq_some_iff.mp h
    obtain ⟨rfl,-⟩ := Prod.mk.inj he
    exact .inr (.inl ⟨fun _ => BufferOp.noConfusion,hc⟩)
  | appendString data =>
    obtain ⟨c,hc,he⟩ := Option.map_eq_some_iff.mp h
    obtain ⟨rfl,-⟩ := Prod.mk.inj he
    cases data with
    | none => exact .inl (congrArg Buffer.totalSize (Option.some.inj hc)).symm
    | some chars => exact .inr (.inl ⟨fun _ => BufferOp.noConfusion,hc⟩)
  | socketRead readv =>
    obtain ⟨⟨c,n⟩,hc,he⟩ := Option.map_eq_some_iff.mp h
    obtain ⟨rfl,-⟩ := Prod.mk.inj he
    cases readv with
    | none => exact .inl (congrArg Buffer.totalSize (Prod.mk.inj (Option.some.inj hc)).1).symm
    | some received => exact .inr (.inr ⟨received,n,rfl,hc⟩)
  | readChar =>
    obtain ⟨r,hr,he⟩ := Option.map_eq_some_iff.mp h
    obtain ⟨rfl,-⟩ := Prod.mk.inj he
    obtain ⟨-,hread⟩ := Option.ite_none_right_eq_some.mp hr
    exact .inl (congrArg (fun r => r.1.totalSize) (Option.some.inj hread)).symm
  | consume n =>
    obtain ⟨rfl,-⟩ := Prod.mk.inj (Option.some.inj h)
    exact .inl rfl

theorem bufferSocketRead_totalSize {received : List Byte} {realloc : Option (ℕ → Byte)} {n : ℤ}
    (hv : buffer.Valid) (h : bufferSocketRead buffer (some received) realloc = some (b, n)) :
    b.totalSize ≤ buffer.totalSize + received.length := by
  by_cases hfit : received.length ≤ buffer.writeableSize
  · rw [bufferSocketRead_of_le hv hfit] at h
    obtain ⟨rfl,-⟩ := Prod.mk.inj (Option.some.inj h)
    exact Nat.le_add_right _ _
  · obtain ⟨hpushed,hread⟩ := bufferSocketRead_of_lt hv (not_le.mp hfit) realloc
    obtain ⟨d,hd,he⟩ := Option.map_eq_some_iff.mp (hread.symm.trans h)
    obtain ⟨rfl,-⟩ := Prod.mk.inj he
    have hdrop : (received.drop buffer.writeableSize).length ≤ received.length := by
      rw [List.length_drop]
      exact Nat.sub_le _ _
    have hkeeps : (buffer.push (received.take buffer.writeableSize)).totalSize = buffer.totalSize := rfl
    rw [bufferAppend_totalSize hpushed hd, hkeeps]
    split <;> omega

theorem bufferStep_totalSize (hv : buffer.Valid) (h : bufferStep buffer input = some (b, out)) :
    b.totalSize ≤ buffer.totalSize + input.1.toFifo.added.length := by
  rcases bufferStep_cases h with hsame | ⟨-,happend⟩ | ⟨received,n,hop,hread⟩
  · rw [hsame]
    exact Nat.le_add_right _ _
  · rw [bufferAppend_totalSize hv happend]
    split <;> omega
  · rw [hop]
    exact bufferSocketRead_totalSize hv hread

end Steps

theorem admits_of_balanced {buffer : Buffer} {inputs : List (BufferOp × (ℕ → Byte))}
    (hv : buffer.Valid) (hmax : buffer.totalSize +
      (inputs.map fun input => input.1.toFifo.added.length).sum ≤ intMax)
    (h : Balanced buffer.readableSize inputs) : Admits bufferStep BufferAllowed buffer inputs := by
  induction inputs generalizing buffer with
  | nil => trivial
  | cons input inputs ih =>
    obtain ⟨htaken,hreceived,hrest⟩ := h
    rw [List.map_cons, List.sum_cons] at hmax
    have hok : BufferAllowed buffer input := by
      obtain ⟨op,fresh⟩ := input
      have hroom : ∀ {size : ℕ}, size ≤ (BufferOp.toFifo op).added.length →
          buffer.Room size (some fresh) := fun hsize => .inr ⟨by dsimp only at hmax; omega,rfl⟩
      cases op with
      | append data =>
        rintro bytes ⟨⟩
        exact hroom le_rfl
      | appendChar data => exact hroom le_rfl
      | appendString data =>
        rintro chars ⟨⟩
        exact hroom le_rfl
      | socketRead readv =>
        rintro received ⟨⟩
        refine ⟨hreceived.trans (Nat.le_add_left _ _),fun _ => .inr ⟨?_,rfl⟩⟩
        have hlen : (BufferOp.toFifo (.socketRead (some received))).added.length =
          received.length := rfl
        simp only [hlen] at hmax
        simp only [Buffer.push]
        omega
      | readChar => exact htaken
      | consume n => exact htaken
    refine ⟨hok,fun r hr => ?_⟩
    obtain ⟨hbv,hsize⟩ := bufferStep_readableSize hv hok hr
    have htotal := bufferStep_totalSize hv hr
    exact ih hbv (by omega) (by rwa [hsize])

/-- The block is filled, one byte read at once and nine later; three bytes more are moved to the
front, and the last of eight received grows the block. -/
def fillingOps : List (BufferOp × (ℕ → Byte)) :=
  [(.append (some (List.replicate initBufferSize 0)),fun _ => 0), (.readChar,fun _ => 0),
    (.consume 9,fun _ => 0), (.append (some [1, 2, 3]),fun _ => 0),
    (.socketRead (some (List.replicate 8 7)),fun _ => 0)]

theorem fillingOps_allowed :
    Admits bufferStep BufferAllowed (bufferNew fun _ => 0) fillingOps := by
  refine admits_of_balanced ⟨le_rfl,Nat.zero_le _⟩ ?_ ?_
  · simp [fillingOps, BufferOp.toFifo, Fifo.Op.added, bufferNew]
    decide
  · simp [fillingOps, Balanced, BufferOp.taken, BufferOp.toFifo, Fifo.Op.added, bufferNew,
      readableSize]
    decide

theorem bufferRun_fifo_sample :
    ∃ buffer consumed, run bufferStep (bufferNew fun _ => 0) fillingOps = some (buffer, consumed) ∧
      buffer.Valid ∧ consumed.flatten ++ buffer.readable =
        List.replicate initBufferSize 0 ++ [1, 2, 3] ++ List.replicate 8 7 := by
  obtain ⟨buffer,consumed,hrun,hv,hstream,-⟩ := bufferRun_fifo _ _ fillingOps_allowed
  refine ⟨buffer,consumed,hrun,hv,hstream.trans ?_⟩
  simp [fillingOps, BufferOp.toFifo, Fifo.Op.added]

end CppExamples.HttpTest
