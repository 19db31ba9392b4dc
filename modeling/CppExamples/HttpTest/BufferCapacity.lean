import CppExamples.HttpTest.BufferLimits

/-! # What a buffer costs in memory

`make_room` grows the block only where the spare bytes in front and behind do not suffice
together, that is where the bytes that are kept fill what the append leaves of the block.  So
the block, which never shrinks, stays within the most bytes ever kept at once and one append.
-/
namespace CppExamples.HttpTest
open Memory Machine Buffer

/-- The most bytes that an operation has appended by `buffer_append`; a read leaves the bytes in
its stack buffer to it. -/
def BufferOp.size : BufferOp → ℕ
  | .append data => (data.getD []).length
  | .appendChar _ => 1
  | .appendString data => ((data.map cString).getD []).length
  | .socketRead _ => initBufferSize
  | .readChar => 0
  | .consume _ => 0

section Append
variable {buffer b : Buffer} {bytes : List Byte} {realloc : Option (ℕ → Byte)}

theorem bufferAppend_capacity (hv : buffer.Valid)
    (h : bufferAppend buffer (some bytes) realloc = some b) :
    b.Valid ∧ b.readable = buffer.readable ++ bytes ∧
      b.totalSize ≤ max buffer.totalSize (b.readableSize + bytes.length) := by
  obtain ⟨b',hb',hbv,hread⟩ := bufferAppend_spec hv (room_of_bufferAppend hv h)
  obtain rfl := Option.some.inj (h.symm.trans hb')
  have hsize := congrArg List.length hread
  rw [List.length_append, readable_length, readable_length] at hsize
  refine ⟨hbv,hread,?_⟩
  rw [bufferAppend_totalSize hv h]
  split <;> omega

theorem bufferSocketRead_capacity {received : List Byte} {n : ℤ} (hv : buffer.Valid)
    (hlen : received.length ≤ buffer.writeableSize + initBufferSize)
    (h : bufferSocketRead buffer (some received) realloc = some (b, n)) :
    b.Valid ∧ b.totalSize ≤ max buffer.totalSize (b.readableSize + initBufferSize) := by
  by_cases hfit : received.length ≤ buffer.writeableSize
  · rw [bufferSocketRead_of_le hv hfit] at h
    obtain ⟨rfl,-⟩ := Prod.mk.inj (Option.some.inj h)
    exact ⟨hv.push hfit,le_max_left _ _⟩
  · obtain ⟨hfilled,hread⟩ := bufferSocketRead_of_lt hv (not_le.mp hfit) realloc
    obtain ⟨c,happend,he⟩ := Option.map_eq_some_iff.mp (hread.symm.trans h)
    obtain ⟨rfl,-⟩ := Prod.mk.inj he
    obtain ⟨hbv,-,htotal⟩ := bufferAppend_capacity hfilled happend
    refine ⟨hbv,htotal.trans (max_le_max le_rfl (Nat.add_le_add_left ?_ _))⟩
    rw [List.length_drop]
    omega

end Append

theorem BufferOp.added_length_le {op : BufferOp} (h : ∀ readv, op ≠ .socketRead readv) :
    op.toFifo.added.length ≤ op.size := by
  cases op with
  | socketRead readv => exact absurd rfl (h readv)
  | readChar | consume => exact Nat.zero_le _
  | append | appendChar | appendString => exact le_rfl

/-- An operation grows the block at most to what it then keeps and what it appended. -/
theorem bufferStep_capacity {buffer b : Buffer} {input : BufferOp × (ℕ → Byte)} {out : List Byte}
    (hv : buffer.Valid) (hok : BufferAllowed buffer input)
    (hstep : bufferStep buffer input = some (b, out)) :
    b.Valid ∧ b.totalSize ≤ max buffer.totalSize (b.readableSize + input.1.size) := by
  rcases bufferStep_cases hstep with hsame | ⟨hno,happend⟩ | ⟨received,n,hop,hread⟩
  · obtain ⟨b',_,_,hb',_,hvalid,_⟩ :=
      bufferStep_simulates buffer buffer.readable input ⟨hv,rfl⟩ hok
    obtain ⟨rfl,rfl⟩ := Prod.mk.inj (Option.some.inj (hstep.symm.trans hb'))
    exact ⟨hvalid,le_max_of_le_left hsame.le⟩
  · obtain ⟨hvalid,-,htotal⟩ := bufferAppend_capacity hv happend
    exact ⟨hvalid,htotal.trans (max_le_max le_rfl (Nat.add_le_add_left (BufferOp.added_length_le hno) _))⟩
  · rw [BufferAllowed, hop] at hok
    rw [hop]
    exact bufferSocketRead_capacity hv (hok received rfl).1 hread

/-- In every run from `buffer_new` the block has room for the most bytes that were readable at
once and for one append, or it is the one it started with. -/
theorem bufferRun_capacity {block : ℕ → Byte} {ops : List (BufferOp × (ℕ → Byte))} {q : ℕ}
    (hq : ∀ input ∈ ops, input.1.size ≤ q) (hok : Admits bufferStep BufferAllowed (bufferNew block) ops) :
    ∃ b out, run bufferStep (bufferNew block) ops = some (b, out) ∧ b.totalSize ≤
      max initBufferSize (peak bufferStep Buffer.readableSize (bufferNew block) ops + q) := by
  obtain ⟨b,queue,out,hrun,-,-⟩ := run_simulates bufferStep_simulates (bufferNew_represents block) hok
  refine ⟨b,out,hrun,?_⟩
  set p := peak bufferStep Buffer.readableSize (bufferNew block) ops with hp
  have hpeak := admits_peak (hok.restrict hq) hp.ge
  have hkeep : ∀ (s : Buffer) (input : BufferOp × (ℕ → Byte)) (s' : Buffer) (o : List Byte),
      s.Valid ∧ s.totalSize ≤ max initBufferSize (p + q) →
      (BufferAllowed s input ∧ input.1.size ≤ q) ∧ s.readableSize ≤ p ∧
        (∀ r, bufferStep s input = some r → r.1.readableSize ≤ p) →
      bufferStep s input = some (s', o) →
        s'.Valid ∧ s'.totalSize ≤ max initBufferSize (p + q) := by
    rintro s input s' o ⟨hv,hle⟩ ⟨⟨hallowed,hsize⟩,-,hnext⟩ hstep
    obtain ⟨hv',htotal⟩ := bufferStep_capacity hv hallowed hstep
    have hgrown : s'.readableSize + input.1.size ≤ p + q := Nat.add_le_add (hnext _ hstep) hsize
    exact ⟨hv',htotal.trans (max_le hle (hgrown.trans (le_max_right _ _)))⟩
  exact (run_invariant hkeep ⟨(bufferNew_represents block).1,le_max_left _ _⟩ hpeak hrun).2

theorem bufferRun_capacity_filling :
    ∃ b out, run bufferStep (bufferNew fun _ => 0) fillingOps = some (b, out) ∧ b.totalSize ≤
      max initBufferSize
        (peak bufferStep Buffer.readableSize (bufferNew fun _ => 0) fillingOps + initBufferSize) := by
  refine bufferRun_capacity ?_ fillingOps_allowed
  simp [fillingOps, BufferOp.size]
  decide

end CppExamples.HttpTest
