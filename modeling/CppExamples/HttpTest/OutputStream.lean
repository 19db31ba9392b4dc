import CppExamples.HttpTest.TcpConnection
import CppExamples.HttpTest.BufferFifo

/-! # The output stream of a connection

While no direct `write()` fails, what the socket took followed by what is buffered
is what was sent, and the write event is on exactly while something is buffered.
A failed direct `write()` is not noticed, because `nwrited` is unsigned: the byte
before the data is queued with it.
-/
namespace CppExamples.HttpTest
open Memory Machine

/-- The calls and events that touch the output of a connection. -/
inductive OutputEvent where
  | sendData (data : ℤ → Byte) (size : ℕ) (result : WriteResult) (realloc : Option (ℕ → Byte))
  | sendBuffer (buffer : Buffer) (outside : ℤ → Byte) (result : WriteResult)
      (realloc : Option (ℕ → Byte))
  | handleWrite (result : WriteResult)

def OutputEvent.passed : OutputEvent → List Byte
  | .sendData data size _ _ => bytesAt data 0 size
  | .sendBuffer buffer _ _ _ => buffer.readable
  | .handleWrite _ => []

/-- One event; the output is the bytes passed to send. -/
def outputStep (s : Outgoing) (event : OutputEvent) : Option (Outgoing × List Byte) :=
  match event with
  | .sendData data size result realloc =>
    (tcpConnectionSendData s data size result realloc).map fun r => (r.1, event.passed)
  | .sendBuffer buffer outside result realloc =>
    (tcpConnectionSendBuffer s buffer outside result realloc).map fun r => (r.1, event.passed)
  | .handleWrite result => some (handleWrite s result, event.passed)

/-- The direct `write()`, when there is one, returns a count, and what goes to the
output buffer finds or gets room there. -/
def Outgoing.SendAllowed (s : Outgoing) (size : ℕ) (result : WriteResult)
    (realloc : Option (ℕ → Byte)) : Prop :=
  size ≤ intMax ∧
    if s.direct then ∃ n ≤ size, result = .wrote n ∧ s.output.Room (size - n) realloc
    else s.output.Room size realloc

def OutputAllowed (s : Outgoing) (event : OutputEvent) : Prop :=
  match event with
  | .sendData _ size result realloc => s.SendAllowed size result realloc
  | .sendBuffer buffer _ result realloc => s.SendAllowed buffer.readableSize result realloc
  | .handleWrite result => result.count ≤ s.output.readableSize

/-- `stream` is what the socket took and what is buffered, and the write event is
on exactly while something is buffered. -/
structure Outgoing.Carries (s : Outgoing) (stream : List Byte) : Prop where
  valid : s.output.Valid
  bytes : s.written ++ s.output.readable = stream
  enabled : s.writeEnabled = true ↔ s.output.readable ≠ []

@[simp] theorem bytesAt_length (data : ℤ → Byte) (offset : ℤ) (n : ℕ) :
    (bytesAt data offset n).length = n := by
  simp [bytesAt]

theorem bytesAt_add (data : ℤ → Byte) (offset : ℤ) (a b : ℕ) :
    bytesAt data offset (a + b) = bytesAt data offset a ++ bytesAt data (offset + a) b := by
  simp only [bytesAt, List.range_add, List.map_append, List.map_map]
  congr 1
  exact List.map_congr_left fun i _ => by simp [add_assoc]

theorem bytesAt_around (buffer : Buffer) (outside : ℤ → Byte) :
    bytesAt (buffer.around outside) 0 buffer.readableSize = buffer.readable := by
  refine List.map_congr_left fun i _ => ?_
  have h : 0 ≤ (buffer.readIndex : ℤ) + (0 + i) := by omega
  simp only [Buffer.around, if_pos h]
  congr 1
  omega

theorem readable_eq_nil_iff {buffer : Buffer} : buffer.readable = [] ↔ buffer.readableSize = 0 := by
  rw [← List.length_eq_zero_iff, Buffer.readable_length]

theorem Outgoing.Carries.direct_iff {s : Outgoing} {stream : List Byte} (h : s.Carries stream) :
    s.direct = true ↔ s.output.readable = [] := by
  have he := h.enabled
  rw [Outgoing.direct, Bool.and_eq_true, Bool.not_eq_true', beq_iff_eq, ← readable_eq_nil_iff]
  constructor
  · exact fun hd => hd.2
  · refine fun hn => ⟨?_,hn⟩
    rw [← Bool.not_eq_true, he]
    exact not_not.mpr hn

theorem directWrite_wrote {n size : ℕ} (hn : n ≤ size) (hs : size ≤ intMax) :
    directWrite size (.wrote n) = (BitVec.ofNat 64 n, BitVec.ofNat 64 (size - n), false) := by
  unfold intMax at hs
  have hw : BitVec.ofInt 64 (WriteResult.wrote n).value = BitVec.ofNat 64 n := by
    simp [WriteResult.value]
  have hsub : BitVec.ofNat 64 size - BitVec.ofNat 64 n = BitVec.ofNat 64 (size - n) := by
    apply BitVec.eq_of_toNat_eq
    rw [BitVec.toNat_sub, BitVec.toNat_ofNat, BitVec.toNat_ofNat, BitVec.toNat_ofNat]
    omega
  unfold directWrite
  rw [hw]
  exact (if_pos (Nat.zero_le _)).trans (by rw [hsub])

theorem toInt_offset {n : ℕ} (h : n ≤ intMax) : (BitVec.ofNat 64 n).toInt = n := by
  unfold intMax at h
  have hn : (BitVec.ofNat 64 n).toNat = n := by
    rw [BitVec.toNat_ofNat]
    omega
  rw [BitVec.toInt_eq_toNat_of_lt (by rw [hn]; omega), hn]

theorem queueRest_spec {s : Outgoing} {data : ℤ → Byte} {n m : ℕ} {realloc : Option (ℕ → Byte)}
    (hv : s.output.Valid) (hn : n ≤ intMax) (hm : m ≤ intMax) (hroom : s.output.Room m realloc) :
    ∃ s', s.queueRest data (BitVec.ofNat 64 n) (BitVec.ofNat 64 m) false realloc = some s' ∧
      s'.output.Valid ∧ s'.written = s.written ∧
      s'.output.readable = s.output.readable ++ bytesAt data n m ∧
      (s'.writeEnabled = true ↔ s.writeEnabled = true ∨ m ≠ 0) := by
  have hm64 : (BitVec.ofNat 64 m).toNat = m := by
    unfold intMax at hm
    rw [BitVec.toNat_ofNat]
    omega
  by_cases hz : m = 0
  · subst hz
    refine ⟨s,rfl,hv,rfl,?_,by simp⟩
    simp [bytesAt]
  · have hpos : 0#64 < BitVec.ofNat 64 m := by
      rw [BitVec.lt_def, hm64]
      exact Nat.pos_of_ne_zero hz
    have hroom' : s.output.Room (bytesAt data n m).length realloc := by rwa [bytesAt_length]
    obtain ⟨b,hb,hbv,hread⟩ := bufferAppend_spec hv hroom'
    have hdef : s.queueRest data (BitVec.ofNat 64 n) (BitVec.ofNat 64 m) false realloc =
        some (if s.writeEnabled then s.setOutput b else
          (s.setOutput b).setChannel (channelWriteEventEnable s.connection.channel)) := by
      simp only [Outgoing.queueRest, Bool.not_false, Bool.true_and, hpos, decide_true, ↓reduceIte,
        hm64, hm, toInt_offset hn, hb, Option.map_some]
      rfl
    refine ⟨_,hdef,?_⟩
    by_cases he : s.writeEnabled = true
    · rw [if_pos he]
      have hen : (s.setOutput b).writeEnabled = true := he
      exact ⟨hbv,rfl,hread,by simp [hen, he]⟩
    · rw [if_neg he]
      exact ⟨hbv,rfl,hread,by simp [Outgoing.writeEnabled, Outgoing.setChannel, hz]⟩

theorem bytesAt_eq_nil_iff {data : ℤ → Byte} {offset : ℤ} {n : ℕ} :
    bytesAt data offset n = [] ↔ n = 0 := by
  rw [← List.length_eq_zero_iff, bytesAt_length]

theorem Outgoing.Carries.queueRest {s : Outgoing} {stream : List Byte} {n m : ℕ}
    {realloc : Option (ℕ → Byte)} (h : s.Carries stream) (data : ℤ → Byte) (hn : n ≤ intMax) (hm : m ≤ intMax)
    (hroom : s.output.Room m realloc) :
    ∃ s', s.queueRest data (BitVec.ofNat 64 n) (BitVec.ofNat 64 m) false realloc = some s' ∧
      s'.Carries (stream ++ bytesAt data n m) := by
  obtain ⟨s',hs',hv,hw,hread,hen⟩ := queueRest_spec h.valid hn hm hroom
  refine ⟨s',hs',hv,?_,?_⟩
  · rw [hw, hread, ← List.append_assoc, h.bytes]
  · rw [hen, h.enabled, hread]
    simp only [ne_eq, List.append_eq_nil_iff, bytesAt_eq_nil_iff]
    tauto

theorem sendData_spec {s : Outgoing} {stream : List Byte} {size : ℕ} {result : WriteResult}
    {realloc : Option (ℕ → Byte)} (h : s.Carries stream) (data : ℤ → Byte)
    (hok : s.SendAllowed size result realloc) :
    ∃ s' sent, tcpConnectionSendData s data size result realloc = some (s', sent) ∧
      s'.Carries (stream ++ bytesAt data 0 size) := by
  obtain ⟨hsize,hok⟩ := hok
  by_cases hd : s.direct = true
  · -- the socket takes `n` bytes at once and the rest is queued behind nothing
    rw [if_pos hd] at hok
    obtain ⟨n,hn,rfl,hroom⟩ := hok
    have hempty := h.direct_iff.mp hd
    have htaken : (s.take (bytesAt data 0 n)).Carries (stream ++ bytesAt data 0 n) := by
      refine ⟨h.valid,?_,h.enabled⟩
      have hw : s.written = stream := by rw [← h.bytes, hempty, List.append_nil]
      calc (s.take (bytesAt data 0 n)).written ++ s.output.readable = s.written ++ bytesAt data 0 n := by
            rw [hempty, List.append_nil]
            rfl
        _ = stream ++ bytesAt data 0 n := by rw [hw]
    obtain ⟨s',hs',hc⟩ := htaken.queueRest data (hn.trans hsize)
      ((Nat.sub_le size n).trans hsize) hroom
    refine ⟨s',BitVec.ofNat 64 n,?_,?_⟩
    · simp only [tcpConnectionSendData, hd, ↓reduceIte, directWrite_wrote hn hsize,
        WriteResult.count, hs', Option.map_some]
    · have hsplit := bytesAt_add data 0 n (size - n)
      rw [Nat.add_sub_cancel' hn, zero_add] at hsplit
      rwa [hsplit, ← List.append_assoc]
  · rw [if_neg hd] at hok
    obtain ⟨s',hs',hc⟩ := h.queueRest data (Nat.zero_le intMax) hsize hok
    refine ⟨s',0#64,?_,hc⟩
    simp only [tcpConnectionSendData, hd, Bool.false_eq_true, ↓reduceIte]
    rw [show (0#64) = BitVec.ofNat 64 0 from rfl, hs', Option.map_some]

theorem sendBuffer_spec {s : Outgoing} {stream : List Byte} {buffer : Buffer}
    {result : WriteResult} {realloc : Option (ℕ → Byte)} (h : s.Carries stream)
    (outside : ℤ → Byte) (hok : s.SendAllowed buffer.readableSize result realloc) :
    ∃ s' rest sent, tcpConnectionSendBuffer s buffer outside result realloc = some (s', rest, sent) ∧
      s'.Carries (stream ++ buffer.readable) := by
  obtain ⟨s',sent,hs',hc⟩ := sendData_spec h (buffer.around outside) hok
  rw [bytesAt_around] at hc
  exact ⟨s',_,sent,by simp only [tcpConnectionSendBuffer, hs']; rfl,hc⟩

/-- A flush moves the bytes the socket takes from the buffer to the socket. -/
theorem handleWrite_spec {s : Outgoing} {stream : List Byte} {result : WriteResult}
    (h : s.Carries stream) (hok : result.count ≤ s.output.readableSize) :
    (handleWrite s result).Carries stream := by
  cases result with
  | failed errno => exact h
  | wrote n =>
    have hn : n ≤ s.output.readableSize := hok
    by_cases hz : n = 0
    · subst hz
      exact h
    · obtain ⟨⟨hr,hw⟩,hbytes,hen⟩ := h
      have hpos : 0 < (WriteResult.wrote n).value := by
        simp only [WriteResult.value]
        omega
      let rest : Buffer := { s.output with readIndex := s.output.readIndex + n }
      have hsize : rest.readableSize = s.output.readableSize - n := Nat.sub_add_eq ..
      have hrest : rest.readable = s.output.readable.drop n := by
        rw [Buffer.readable, Buffer.readable, hsize, drop_load _ _ hn]
      have hvalid : rest.Valid := by
        refine ⟨?_,hw⟩
        unfold Buffer.readableSize at hn
        change s.output.readIndex + n ≤ s.output.writeIndex
        omega
      have htaken : load s.output.data s.output.readIndex n = s.output.readable.take n :=
        (take_load _ _ hn).symm
      have hstream : s.written ++ s.output.readable.take n ++ rest.readable = stream := by
        rw [hrest, List.append_assoc, List.take_append_drop, hbytes]
      have hdef : handleWrite s (.wrote n) =
          if rest.readableSize = 0 then
            ((s.take (s.output.readable.take n)).setOutput rest).setChannel
              (channelWriteEventDisable s.connection.channel)
          else (s.take (s.output.readable.take n)).setOutput rest := by
        simp only [handleWrite, if_pos hpos, WriteResult.count, htaken]
        rfl
      rw [hdef]
      split_ifs with hdone
      · refine ⟨hvalid,hstream,?_⟩
        have hnil : rest.readable = [] := readable_eq_nil_iff.mpr hdone
        simp [Outgoing.writeEnabled, Outgoing.setChannel, Outgoing.output, Outgoing.setOutput, hnil]
      · refine ⟨hvalid,hstream,?_⟩
        have hne : rest.readable ≠ [] := fun e => hdone (readable_eq_nil_iff.mp e)
        have hold : s.output.readable ≠ [] := by
          intro e
          rw [hrest, e, List.drop_nil] at hne
          exact hne rfl
        exact ⟨fun _ => hne,fun _ => hen.mpr hold⟩

theorem outputStep_carries (s : Outgoing) (stream : List Byte) (event : OutputEvent)
    (h : s.Carries stream) (hok : OutputAllowed s event) :
    ∃ s' stream' out, outputStep s event = some (s', out) ∧
      some (stream ++ event.passed, event.passed) = some (stream', out) ∧ s'.Carries stream' := by
  cases event with
  | sendData data size result realloc =>
    obtain ⟨s',sent,hs',hc⟩ := sendData_spec h data hok
    exact ⟨s',_,_,by simp only [outputStep, hs', Option.map_some],rfl,hc⟩
  | sendBuffer buffer outside result realloc =>
    obtain ⟨s',rest,sent,hs',hc⟩ := sendBuffer_spec h outside hok
    exact ⟨s',_,_,by simp only [outputStep, hs', Option.map_some],rfl,hc⟩
  | handleWrite result =>
    have hc := handleWrite_spec h hok
    exact ⟨_,_,_,rfl,rfl,by rwa [OutputEvent.passed, List.append_nil]⟩

theorem outgoing_new_carries (addr : ℕ) (fd : ℤ) (eventLoop : ℕ) (block : ℕ → Byte) :
    (Outgoing.new (tcpConnectionNew addr fd eventLoop block)).Carries [] := by
  refine ⟨⟨le_rfl,Nat.zero_le _⟩,rfl,?_⟩
  constructor
  · intro h
    exact absurd (show (0x02#32 &&& 0x04#32 : BitVec 32) ≠ 0 from of_decide_eq_true h) (by decide)
  · intro h
    exact absurd rfl h

/-- In every run of a new connection whose direct `write()` calls return counts,
every state reached holds the stream: what the socket took followed by what is
buffered is what was sent, and the write event is on exactly while something is
buffered. -/
theorem outputRun_stream (addr : ℕ) (fd : ℤ) (eventLoop : ℕ) (block : ℕ → Byte)
    (events : List OutputEvent)
    (hok : Admits outputStep OutputAllowed (Outgoing.new (tcpConnectionNew addr fd eventLoop block))
      events) :
    ∃ s passed, run outputStep (Outgoing.new (tcpConnectionNew addr fd eventLoop block)) events =
        some (s, passed) ∧
      s.written ++ s.output.readable = passed.flatten ∧
      (s.writeEnabled = true ↔ s.output.readable ≠ []) := by
  obtain ⟨s,stream,passed,hrun,hspec,hc⟩ := run_simulates outputStep_carries
    (outgoing_new_carries addr fd eventLoop block) hok
  have hstream := run_accumulates (fun t event t' o h => by
    obtain ⟨rfl,rfl⟩ := Prod.mk.inj (Option.some.inj h)
    rfl) hspec
  rw [List.nil_append] at hstream
  exact ⟨s,passed,hrun,hstream ▸ hc.bytes,hc.enabled⟩

/-- Two bytes sent, of which the socket takes one, and a flush of the other. -/
theorem outputRun_stream_sample :
    ∃ s passed, run outputStep (Outgoing.new (tcpConnectionNew 0 5 0 fun _ => 0))
        [.sendData (fun i => if i = 0 then 65 else 66) 2 (.wrote 1) (some fun _ => 0),
          .handleWrite (.wrote 1)] = some (s, passed) ∧
      s.written ++ s.output.readable = passed.flatten := by
  obtain ⟨s,passed,hrun,hstream,-⟩ := outputRun_stream 0 5 0 (fun _ => 0)
    [.sendData (fun i => if i = 0 then 65 else 66) 2 (.wrote 1) (some fun _ => 0),
      .handleWrite (.wrote 1)]
    ⟨⟨by decide,⟨1,by decide,rfl,Or.inl (by decide)⟩⟩,fun r hr => by
      cases hr
      exact ⟨show 1 ≤ 1 by decide,fun _ _ => trivial⟩⟩
  exact ⟨s,passed,hrun,hstream⟩

/-- One byte sent while the socket would block: the byte before it is queued too. -/
theorem outputRun_wouldBlock :
    ∃ s passed, run outputStep (Outgoing.new (tcpConnectionNew 0 5 0 fun _ => 0))
        [.sendData (fun i => if i = 0 then 65 else 66) 1 (.failed .wouldBlock) (some fun _ => 0)] =
          some (s, passed) ∧
      passed.flatten = [65] ∧ s.written ++ s.output.readable = [66, 65] :=
  ⟨_,_,rfl,by decide,by decide⟩

end CppExamples.HttpTest
