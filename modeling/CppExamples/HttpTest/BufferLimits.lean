import CppExamples.HttpTest.BufferFifo

/-! # Where a buffer can no longer grow

`make_room` grows the block by the size it is asked for.  It only returns when `realloc`
fails, and its callers copy all the same; and it adds the size to `total_size` as `int`s,
without a bound.  Both go wrong exactly when the block has to grow and cannot.
-/
namespace CppExamples.HttpTest
open Memory Machine Buffer

/-- The calls that append to a buffer. -/
inductive AppendOp where
  | append (data : Option (List Byte))
  | appendChar (data : Byte)
  | socketRead (readv : Option (List Byte))

namespace AppendOp

def apply (buffer : Buffer) (realloc : Option (ℕ → Byte)) : AppendOp → Option Buffer
  | append data => bufferAppend buffer data realloc
  | appendChar data => bufferAppendChar buffer data realloc
  | socketRead readv => (bufferSocketRead buffer readv realloc).map Prod.fst

def requested (buffer : Buffer) : AppendOp → ℕ
  | append data => (data.getD []).length
  | appendChar _ => 1
  | socketRead readv => (readv.getD []).length - buffer.writeableSize

/-- What is free in the block when `make_room` is called. -/
def spare (buffer : Buffer) : AppendOp → ℕ
  | append _ => buffer.frontSpareSize + buffer.writeableSize
  | appendChar _ => buffer.frontSpareSize + buffer.writeableSize
  | socketRead _ => buffer.frontSpareSize

def Grows (buffer : Buffer) (op : AppendOp) : Prop := op.spare buffer < op.requested buffer

/-- All bytes go to indices in the block and the indices stay ordered; a `realloc` that fails
leaves the indices and what is readable. -/
def Safe (buffer : Buffer) (realloc : Option (ℕ → Byte)) (op : AppendOp) : Prop :=
  ∃ b, op.apply buffer realloc = some b ∧ b.Valid ∧
    (op.Grows buffer → realloc = none → b.readable = buffer.readable ∧
      b.readIndex = buffer.readIndex ∧ b.writeIndex = buffer.writeIndex)

def MayGrow (buffer : Buffer) (realloc : Option (ℕ → Byte)) (op : AppendOp) : Prop :=
  op.Grows buffer → buffer.totalSize + op.requested buffer ≤ intMax ∧ realloc.isSome

end AppendOp

section Append
variable {buffer b : Buffer} {bytes : List Byte} {realloc : Option (ℕ → Byte)}

theorem room_iff_mayGrow (buffer : Buffer) (bytes : List Byte) (realloc : Option (ℕ → Byte)) :
    buffer.Room bytes.length realloc ↔ AppendOp.MayGrow buffer realloc (.append (some bytes)) := by
  have hgrows : AppendOp.Grows buffer (.append (some bytes)) ↔
      ¬ bytes.length ≤ buffer.frontSpareSize + buffer.writeableSize := not_le.symm
  rw [AppendOp.MayGrow, hgrows, Buffer.Room, Classical.or_iff_not_imp_left]
  rfl

theorem bufferAppend_iff (hv : buffer.Valid) :
    (∃ b, bufferAppend buffer (some bytes) realloc = some b) ↔ buffer.Room bytes.length realloc := by
  constructor
  · rintro ⟨b,hb⟩
    exact room_of_bufferAppend hv hb
  · intro hroom
    obtain ⟨b,hb,-⟩ := bufferAppend_spec hv hroom
    exact ⟨b,hb⟩

theorem bufferAppend_valid (hv : buffer.Valid) (h : bufferAppend buffer (some bytes) realloc = some b) :
    b.Valid := by
  obtain ⟨b',hb',hbv,-⟩ := bufferAppend_spec hv (room_of_bufferAppend hv h)
  rw [hb'] at h
  exact Option.some.inj h ▸ hbv

theorem push_filled (hv : buffer.Valid)
    (hlt : buffer.writeableSize < bytes.length) :
    (buffer.push (bytes.take buffer.writeableSize)).writeableSize = 0 := by
  have hlen : (bytes.take buffer.writeableSize).length = buffer.writeableSize :=
    List.length_take_of_le hlt.le
  have hw := hv.write_le
  simp only [writeableSize, Buffer.push] at hlen ⊢
  omega

theorem room_filled (hlt : buffer.writeableSize < bytes.length) (hv : buffer.Valid) :
    (buffer.push (bytes.take buffer.writeableSize)).Room (bytes.drop buffer.writeableSize).length
      realloc ↔ AppendOp.MayGrow buffer realloc (.socketRead (some bytes)) := by
  have hgrows : AppendOp.Grows buffer (.socketRead (some bytes)) ↔
      ¬ bytes.length - buffer.writeableSize ≤ buffer.frontSpareSize := not_le.symm
  rw [AppendOp.MayGrow, hgrows, Buffer.Room, push_filled hv hlt, List.length_drop,
    Classical.or_iff_not_imp_left]
  rfl

/-- A call that has no need of more room keeps the block, and every other one appends to it;
a read fills it before that. -/
theorem apply_cases (hv : buffer.Valid) (op : AppendOp) (realloc : Option (ℕ → Byte)) :
    (¬ op.Grows buffer ∧ ∃ b, op.apply buffer realloc = some b ∧ b.Valid ∧
      b.totalSize = buffer.totalSize) ∨
    ∃ (filled : Buffer) (bytes : List Byte), filled.Valid ∧ filled.totalSize = buffer.totalSize ∧
      op.apply buffer realloc = bufferAppend filled (some bytes) realloc ∧
      (filled.Room bytes.length realloc ↔ op.MayGrow buffer realloc) := by
  cases op with
  | append data =>
    cases data with
    | none => exact .inl ⟨Nat.not_lt_zero _,buffer,rfl,hv,rfl⟩
    | some bytes => exact .inr ⟨buffer,bytes,hv,rfl,rfl,room_iff_mayGrow buffer bytes realloc⟩
  | appendChar data =>
    exact .inr ⟨buffer,[data],hv,rfl,rfl,room_iff_mayGrow buffer [data] realloc⟩
  | socketRead readv =>
    cases readv with
    | none =>
      have hsmall : ¬ AppendOp.Grows buffer (.socketRead none) := by
        simp [AppendOp.Grows, AppendOp.requested]
      exact .inl ⟨hsmall,buffer,rfl,hv,rfl⟩
    | some received =>
      by_cases hfit : received.length ≤ buffer.writeableSize
      · have hsmall : ¬ AppendOp.Grows buffer (.socketRead (some received)) := by
          simp [AppendOp.Grows, AppendOp.requested, Nat.sub_eq_zero_of_le hfit]
        refine .inl ⟨hsmall,buffer.push received,?_,hv.push hfit,rfl⟩
        rw [AppendOp.apply, bufferSocketRead_of_le hv hfit, Option.map_some]
      · obtain ⟨hpushed,hread⟩ := bufferSocketRead_of_lt hv (not_le.mp hfit) realloc
        refine .inr ⟨_,_,hpushed,rfl,?_,room_filled (not_le.mp hfit) hv⟩
        rw [AppendOp.apply, hread, Option.map_map]
        exact Option.map_id'

theorem apply_iff (hv : buffer.Valid) (op : AppendOp) :
    (∃ b, op.apply buffer realloc = some b) ↔ op.MayGrow buffer realloc := by
  rcases apply_cases hv op realloc with ⟨hsmall,b,hb,-⟩ | ⟨filled,bytes,hfilled,-,happend,hroom⟩
  · exact iff_of_true ⟨b,hb⟩ fun h => absurd h hsmall
  · rw [happend, bufferAppend_iff hfilled, hroom]

theorem apply_valid (hv : buffer.Valid) {op : AppendOp} (h : op.apply buffer realloc = some b) :
    b.Valid := by
  rcases apply_cases hv op realloc with ⟨-,b',hb',hbv,-⟩ | ⟨filled,bytes,hfilled,-,happend,-⟩
  · rw [hb'] at h
    exact Option.some.inj h ▸ hbv
  · exact bufferAppend_valid hfilled (happend ▸ h)

end Append

/-- An append is safe exactly when the block need not grow, or may. -/
theorem append_safe_iff {buffer : Buffer} (hv : buffer.Valid) (realloc : Option (ℕ → Byte))
    (op : AppendOp) : op.Safe buffer realloc ↔ op.MayGrow buffer realloc := by
  rw [← apply_iff hv op]
  constructor
  · rintro ⟨b,hb,-⟩
    exact ⟨b,hb⟩
  · rintro ⟨b,hb⟩
    refine ⟨b,hb,apply_valid hv hb,fun hgrows hnone => ?_⟩
    have hsome := ((apply_iff hv op).mp ⟨b,hb⟩ hgrows).2
    rw [hnone] at hsome
    cases hsome

/-- Two bytes for a full block, of which one has been read. -/
theorem append_safe_growing : AppendOp.Safe ⟨fun _ => 0,1,65536,65536⟩ (some fun _ => 0)
    (.append (some [1, 2])) := by
  have hv : (⟨fun _ => 0,1,65536,65536⟩ : Buffer).Valid := ⟨by decide,le_rfl⟩
  exact (append_safe_iff hv _ _).mpr fun _ =>
    ⟨(by decide +kernel : 65536 + 2 ≤ 2147483647),rfl⟩

/-- One character for a full block that cannot grow is stored behind it. -/
theorem append_overrun : (⟨fun _ => 0,0,65536,65536⟩ : Buffer).Valid ∧
    ¬ AppendOp.Safe ⟨fun _ => 0,0,65536,65536⟩ none (.appendChar 65) := by
  refine ⟨⟨Nat.zero_le _,le_rfl⟩,?_⟩
  rintro ⟨b,hb,-⟩
  exact Option.some_ne_none b hb.symm

def InInt (x : ℤ) : Prop := 0 ≤ x ∧ x ≤ intMax

/-- What `make_room` computes, each branch up to where it is taken. -/
def makeRoomInts (buffer : Buffer) (size : ℕ) : List ℤ :=
  (buffer.totalSize - buffer.writeIndex : ℤ) ::
    if size ≤ buffer.writeableSize then []
    else (buffer.frontSpareSize + buffer.writeableSize : ℤ) ::
      if size ≤ buffer.frontSpareSize + buffer.writeableSize then
        [(buffer.writeIndex - buffer.readIndex : ℤ)]
      else [(buffer.totalSize + size : ℤ)]

/-- What `buffer_append` and `buffer_append_char` compute, and the writeable size that they
leave to the next call. -/
def appendInts (buffer : Buffer) (size : ℕ) (realloc : Option (ℕ → Byte)) : List ℤ :=
  makeRoomInts buffer size ++ (makeRoom buffer size realloc).elim [] fun b =>
    [(b.writeIndex + size : ℤ), (b.totalSize - (b.writeIndex + size) : ℤ)]

def AppendOp.ints (buffer : Buffer) (realloc : Option (ℕ → Byte)) : AppendOp → List ℤ
  | .append none => []
  | .append (some bytes) => appendInts buffer bytes.length realloc
  | .appendChar _ => appendInts buffer 1 realloc
  | .socketRead none => [(buffer.totalSize - buffer.writeIndex : ℤ)]
  | .socketRead (some received) =>
    (buffer.totalSize - buffer.writeIndex : ℤ) ::
      if received.length ≤ buffer.writeableSize then [(buffer.writeIndex + received.length : ℤ)]
      else (received.length - buffer.writeableSize : ℤ) ::
        appendInts (buffer.push (received.take buffer.writeableSize))
          (received.length - buffer.writeableSize) realloc

/-- Every computed size is in range, or the call leaves the buffer as it is. -/
def AppendOp.Computes (buffer : Buffer) (realloc : Option (ℕ → Byte)) (op : AppendOp) : Prop :=
  (∀ x ∈ op.ints buffer realloc, InInt x) ∨ op.apply buffer realloc = some buffer

section Ints
variable {buffer b : Buffer} {size : ℕ} {realloc : Option (ℕ → Byte)}

theorem appendInts_iff (hv : buffer.Valid) (htotal : buffer.totalSize ≤ intMax) (size : ℕ)
    (realloc : Option (ℕ → Byte)) :
    (∀ x ∈ appendInts buffer size realloc, InInt x) ↔ buffer.Room size realloc := by
  have hr := hv.read_le
  have hw := hv.write_le
  have hwriteable : buffer.writeableSize = buffer.totalSize - buffer.writeIndex := rfl
  have hreadable : buffer.readableSize = buffer.writeIndex - buffer.readIndex := rfl
  have hfront : buffer.frontSpareSize = buffer.readIndex := rfl
  rw [appendInts, makeRoomInts, Buffer.Room]
  rcases makeRoom_cases hv size realloc with ⟨hfit,hroom⟩ | ⟨hfit,hmove,b,hroom,htot,hb⟩ |
    ⟨hgrow,hmax,hroom⟩ | ⟨hgrow,hmax,b,hroom,hb,htot⟩
  · rw [hroom, if_pos hfit]
    simp only [Option.elim_some, List.cons_append, List.nil_append, List.forall_mem_cons,
      List.not_mem_nil, false_imp_iff, forall_const, and_true, InInt]
    omega
  · rw [hroom, if_neg (not_le.mpr hfit), if_pos hmove]
    simp only [Option.elim_some, List.cons_append, List.nil_append, List.forall_mem_cons,
      List.not_mem_nil, false_imp_iff, forall_const, and_true, InInt, hb, htot]
    omega
  · rw [hroom, if_neg (by omega), if_neg (by omega)]
    simp only [Option.elim_none, List.append_nil, List.forall_mem_cons, List.not_mem_nil,
      false_imp_iff, forall_const, and_true, InInt]
    omega
  · rw [hroom, if_neg (by omega), if_neg (by omega)]
    simp only [Option.elim_some, List.cons_append, List.nil_append, List.forall_mem_cons,
      List.not_mem_nil, false_imp_iff, forall_const, and_true, InInt, hb]
    cases realloc with
    | none =>
      -- the index goes behind the block, and the next call finds a negative size
      simp only [Option.isSome_none, Bool.false_eq_true, if_false, and_false, or_false] at htot ⊢
      omega
    | some fresh =>
      simp only [Option.isSome_some, if_true, and_true] at htot ⊢
      omega

theorem ints_iff (hv : buffer.Valid) (htotal : buffer.totalSize ≤ intMax) (op : AppendOp) :
    (∀ x ∈ op.ints buffer realloc, InInt x) ↔ op.MayGrow buffer realloc := by
  have hw := hv.write_le
  have hwriteable : InInt (buffer.totalSize - buffer.writeIndex : ℤ) := by
    constructor <;> omega
  cases op with
  | append data =>
    cases data with
    | none =>
      have hsmall : ¬ AppendOp.Grows buffer (.append none) := Nat.not_lt_zero _
      exact iff_of_true (fun x hx => absurd hx List.not_mem_nil) fun h => absurd h hsmall
    | some bytes =>
      exact (appendInts_iff hv htotal bytes.length realloc).trans (room_iff_mayGrow ..)
  | appendChar data =>
    exact (appendInts_iff hv htotal 1 realloc).trans (room_iff_mayGrow buffer [data] realloc)
  | socketRead readv =>
    cases readv with
    | none =>
      have hsmall : ¬ AppendOp.Grows buffer (.socketRead none) := by
        simp [AppendOp.Grows, AppendOp.requested]
      exact iff_of_true (List.forall_mem_singleton.mpr hwriteable) fun h => absurd h hsmall
    | some received =>
      by_cases hfit : received.length ≤ buffer.writeableSize
      · have hsmall : ¬ AppendOp.Grows buffer (.socketRead (some received)) := by
          simp [AppendOp.Grows, AppendOp.requested, Nat.sub_eq_zero_of_le hfit]
        refine iff_of_true ?_ fun h => absurd h hsmall
        rw [AppendOp.ints, if_pos hfit, List.forall_mem_cons, List.forall_mem_singleton]
        refine ⟨hwriteable,?_⟩
        unfold writeableSize at hfit
        constructor <;> omega
      · have hlt := not_le.mp hfit
        obtain ⟨hpushed,-⟩ := bufferSocketRead_of_lt hv hlt realloc
        have hrest := appendInts_iff hpushed htotal (received.length - buffer.writeableSize) realloc
        rw [← List.length_drop, room_filled hlt hv, List.length_drop] at hrest
        rw [AppendOp.ints, if_neg hfit, List.forall_mem_cons, List.forall_mem_cons, hrest]
        refine ⟨fun h => h.2.2,fun h => ⟨hwriteable,?_,h⟩⟩
        -- what is left of the read is spare or is what the block grows by
        have hspare : buffer.frontSpareSize ≤ intMax := (hv.read_le.trans hw).trans htotal
        by_cases hgrows : buffer.frontSpareSize < received.length - buffer.writeableSize
        · have hmax : buffer.totalSize + (received.length - buffer.writeableSize) ≤ intMax :=
            (h hgrows).1
          constructor <;> omega
        · constructor <;> omega

/-- Where a size overflows the call has no result, so the buffer is not as it was. -/
theorem computes_iff (hv : buffer.Valid) (htotal : buffer.totalSize ≤ intMax) (op : AppendOp) :
    op.Computes buffer realloc ↔ op.MayGrow buffer realloc := by
  rw [AppendOp.Computes, ints_iff hv htotal op]
  constructor
  · rintro (h | h)
    · exact h
    · exact (apply_iff hv op).mp ⟨buffer,h⟩
  · exact .inl

theorem bufferAppend_withinInt (hv : buffer.Valid) (htotal : buffer.totalSize ≤ intMax)
    {bytes : List Byte} (h : bufferAppend buffer (some bytes) realloc = some b) :
    b.totalSize ≤ intMax := by
  rw [bufferAppend_totalSize hv h]
  split
  · exact htotal
  · rename_i hfull
    have hroom := room_of_bufferAppend hv h
    have hr := hv.read_le
    have hw := hv.write_le
    unfold Buffer.Room frontSpareSize writeableSize at hroom
    unfold readableSize at hfull
    omega

theorem apply_withinInt (hv : buffer.Valid) (htotal : buffer.totalSize ≤ intMax) {op : AppendOp}
    (h : op.apply buffer realloc = some b) : b.totalSize ≤ intMax := by
  rcases apply_cases hv op realloc with ⟨-,b',hb',-,hsize⟩ | ⟨filled,bytes,hfilled,hsize,happend,-⟩
  · rw [hb'] at h
    exact Option.some.inj h ▸ hsize.trans_le htotal
  · exact bufferAppend_withinInt hfilled (hsize.trans_le htotal) (happend ▸ h)

end Ints

/-- What a client does to a buffer, with the outcome of `realloc`. -/
inductive BufferCall where
  | append (op : AppendOp) (realloc : Option (ℕ → Byte))
  | readChar
  | consume (n : ℕ)

def bufferCallStep (buffer : Buffer) : BufferCall → Option (Buffer × Unit)
  | .append op realloc => (op.apply buffer realloc).map fun b => (b, ())
  | .readChar => (bufferReadChar buffer).map fun r => (r.1, ())
  | .consume n => some ({ buffer with readIndex := buffer.readIndex + n }, ())

def BufferCall.Reads (buffer : Buffer) : BufferCall → Prop
  | .append _ _ => True
  | .readChar => 0 < buffer.readableSize
  | .consume n => n ≤ buffer.readableSize

def BufferCall.Computes (buffer : Buffer) : BufferCall → Prop
  | .append op realloc => op.Computes buffer realloc
  | .readChar => True
  | .consume _ => True

def BufferCall.MayGrow (buffer : Buffer) : BufferCall → Prop
  | .append op realloc => op.MayGrow buffer realloc
  | .readChar => True
  | .consume _ => True

theorem bufferCallStep_valid {buffer b : Buffer} {call : BufferCall} {o : Unit}
    (hv : buffer.Valid ∧ buffer.totalSize ≤ intMax) (hreads : call.Reads buffer)
    (h : bufferCallStep buffer call = some (b, o)) : b.Valid ∧ b.totalSize ≤ intMax := by
  obtain ⟨hv,htotal⟩ := hv
  cases call with
  | append op realloc =>
    obtain ⟨b',hb',he⟩ := Option.map_eq_some_iff.mp h
    obtain ⟨rfl,-⟩ := Prod.mk.inj he
    exact ⟨apply_valid hv hb',apply_withinInt hv htotal hb'⟩
  | readChar =>
    obtain ⟨r,hr,he⟩ := Option.map_eq_some_iff.mp h
    obtain ⟨rfl,-⟩ := Prod.mk.inj he
    obtain ⟨b',c,hread,hbv,-⟩ := bufferReadChar_spec hv hreads
    rw [hread] at hr
    obtain rfl := Option.some.inj hr
    unfold bufferReadChar at hread
    split_ifs at hread
    obtain ⟨rfl,-⟩ := Prod.mk.inj (Option.some.inj hread)
    exact ⟨hbv,htotal⟩
  | consume n =>
    obtain ⟨rfl,-⟩ := Prod.mk.inj (Option.some.inj h)
    have hn : n ≤ buffer.writeIndex - buffer.readIndex := hreads
    have hr := hv.read_le
    exact ⟨⟨show buffer.readIndex + n ≤ buffer.writeIndex by omega,hv.write_le⟩,htotal⟩

/-- In a run from `buffer_new` whatever is computed stays in range exactly when every append
that makes the block grow finds the memory for it, within an `int`. -/
theorem bufferArithmetic_iff (block : ℕ → Byte) (calls : List BufferCall)
    (hreads : Admits bufferCallStep (fun b call => call.Reads b) (bufferNew block) calls) :
    Admits bufferCallStep (fun b call => call.Computes b) (bufferNew block) calls ↔
      Admits bufferCallStep (fun b call => call.MayGrow b) (bufferNew block) calls := by
  have hinit : initBufferSize ≤ intMax := by decide
  have hstart : (bufferNew block).Valid ∧ (bufferNew block).totalSize ≤ intMax :=
    ⟨⟨le_rfl,Nat.zero_le _⟩,hinit⟩
  refine admits_congr (fun b call b' o hv hreads h => bufferCallStep_valid hv hreads h)
    (fun b call hv _ => ?_) hstart hreads
  cases call with
  | append op realloc => exact computes_iff hv.1 hv.2 op
  | readChar => exact Iff.rfl
  | consume n => exact Iff.rfl

/-- The call that an operation with a successful `realloc` is. -/
def BufferCall.ofOp (input : BufferOp × (ℕ → Byte)) : BufferCall :=
  match input.1 with
  | .append data => .append (.append data) (some input.2)
  | .appendChar data => .append (.appendChar data) (some input.2)
  | .appendString data => .append (.append (data.map cString)) (some input.2)
  | .socketRead readv => .append (.socketRead readv) (some input.2)
  | .readChar => .readChar
  | .consume n => .consume n

theorem bufferCallStep_ofOp (buffer : Buffer) (input : BufferOp × (ℕ → Byte)) :
    bufferCallStep buffer (.ofOp input) = (bufferStep buffer input).map fun r => (r.1, ()) := by
  obtain ⟨op,fresh⟩ := input
  cases op with
  | appendString data =>
    cases data <;> simp [BufferCall.ofOp, bufferCallStep, bufferStep, AppendOp.apply,
      bufferAppendString, bufferAppend]
  | _ => simp [BufferCall.ofOp, bufferCallStep, bufferStep, AppendOp.apply, Function.comp_def]

theorem ofOp_mayGrow {buffer : Buffer} {input : BufferOp × (ℕ → Byte)} (hv : buffer.Valid)
    (hok : BufferAllowed buffer input) :
    (BufferCall.ofOp input).Reads buffer ∧ (BufferCall.ofOp input).MayGrow buffer := by
  obtain ⟨b,queue,out,hb,-,-⟩ := bufferStep_simulates buffer _ input ⟨hv,rfl⟩ hok
  have hcall := bufferCallStep_ofOp buffer input
  rw [hb, Option.map_some] at hcall
  obtain ⟨op,fresh⟩ := input
  cases op with
  | readChar => exact ⟨hok,trivial⟩
  | consume n => exact ⟨hok,trivial⟩
  | _ =>
    obtain ⟨c,hc,-⟩ := Option.map_eq_some_iff.mp hcall
    exact ⟨trivial,(apply_iff hv _).mp ⟨c,hc⟩⟩

theorem calls_mayGrow {buffer : Buffer} {inputs : List (BufferOp × (ℕ → Byte))} (hv : buffer.Valid)
    (h : Admits bufferStep BufferAllowed buffer inputs) :
    Admits bufferCallStep (fun b call => call.Reads b ∧ call.MayGrow b) buffer
      (inputs.map .ofOp) := by
  have hstep : ∀ (b : Buffer) (input : BufferOp × (ℕ → Byte)) (r : Buffer × Unit), b.Valid →
      BufferAllowed b input → bufferCallStep b (.ofOp input) = some r →
      r.1.Valid ∧ ∃ out, bufferStep b input = some (r.1, out) := by
    intro b input r hv hok hr
    rw [bufferCallStep_ofOp] at hr
    obtain ⟨⟨b',out⟩,hb',rfl⟩ := Option.map_eq_some_iff.mp hr
    exact ⟨(bufferStep_readableSize hv hok hb').1,out,hb'⟩
  exact Admits.map hstep (fun b input => ofOp_mayGrow) hv h

theorem bufferArithmetic_filling : Admits bufferCallStep (fun b call => call.Computes b)
    (bufferNew fun _ => 0) (fillingOps.map .ofOp) := by
  have hgrow := calls_mayGrow ⟨le_rfl,Nat.zero_le _⟩ fillingOps_allowed
  exact (bufferArithmetic_iff (fun _ => 0) _ (Admits.mono hgrow fun _ _ h => h.1)).mpr
    (Admits.mono hgrow fun _ _ h => h.2)

/-- A new buffer is asked to append `INT_MAX` bytes. -/
theorem bufferArithmetic_overflow : ¬ Admits bufferCallStep (fun b call => call.Computes b)
    (bufferNew fun _ => 0) [.append (.append (some (List.replicate intMax 0))) none] := by
  rintro ⟨hcomputes,-⟩
  have hgrow := (computes_iff ⟨le_rfl,Nat.zero_le _⟩ (by decide) _).mp hcomputes
  have hlength : AppendOp.requested (bufferNew fun _ => 0)
      (.append (some (List.replicate intMax 0))) = intMax := List.length_replicate
  have hgrows : AppendOp.Grows (bufferNew fun _ => 0)
      (.append (some (List.replicate intMax 0))) := by
    rw [AppendOp.Grows, hlength]
    exact (by decide +kernel : 65536 < 2147483647)
  have hmax := (hgrow hgrows).1
  rw [hlength] at hmax
  exact absurd hmax (by decide +kernel : ¬ 65536 + 2147483647 ≤ 2147483647)

end CppExamples.HttpTest
