import CppExamples.HttpTest.ReadMessage

/-! # Messages that do not fit

`read_message` compares the length of a record with the buffer behind both words of
the header, and returns without reading the body.  What it finds next on the
descriptor is then that body.  A body whose length is no `int` is left as well: `readn`
takes its length for a negative one.
-/
namespace CppExamples.HttpTest
open Memory

/-- What a call has to return for a frame, and to leave in the buffer. -/
def Answered (length : BitVec 64) (frame : Frame) (returned : BitVec 64) (buffer : ℕ → Byte) :
    Prop :=
  if frame.body.length ≤ length.toNat then
    returned = BitVec.ofNat 64 frame.body.length ∧ load buffer 0 frame.body.length = frame.body
  else returned = -1

/-- One call for each frame answers it, and leaves the descriptor at the next one. -/
def InStep (stack : ℕ → Byte) (length : BitVec 64) (rest : List Byte) :
    Socket → (ℕ → Byte) → List Frame → Prop
  | _, _, [] => True
  | fd, buffer, frame :: frames =>
    let (returned, buffer', fd') := readMessage fd stack buffer length
    Answered length frame returned buffer' ∧
      fd'.stream = frames.flatMap Frame.encoded ++ rest ∧
      InStep stack length rest fd' buffer' frames

def Frame.Fits (length : BitVec 64) (frame : Frame) : Prop :=
  frame.body.length ≤ length.toNat ∧ frame.body.length ≤ intMax

theorem readn_negative (fd : Socket) (buffer : ℕ → Byte) {n : ℕ} (hn : intMax < n)
    (hword : n < 2 ^ 32) :
    ∃ count, readn fd buffer ((BitVec.ofNat 32 n).setWidth 64) = (count, buffer, fd) ∧
      count.setWidth 32 = 0 := by
  have hsize : ((BitVec.ofNat 32 n).setWidth 64).setWidth 32 = BitVec.ofNat 32 n := by
    apply BitVec.eq_of_toNat_eq
    simp only [BitVec.toNat_setWidth, BitVec.toNat_ofNat]
    omega
  have hnat : (BitVec.ofNat 32 n).toNat = n := by
    rw [BitVec.toNat_ofNat]
    exact Nat.mod_eq_of_lt hword
  have hneg : ¬ 0 < (BitVec.ofNat 32 n).toInt := by
    rw [toInt_pos_iff, hnat]
    omega
  have hloop : readnLoop fd buffer 0 (BitVec.ofNat 32 n) = (some (BitVec.ofNat 32 n), buffer, fd) := by
    rw [readnLoop, if_neg hneg]
  refine ⟨_,by simp only [readn, hsize, hloop]; rfl,?_⟩
  have hmsb : (BitVec.ofNat 32 n).msb = true := by
    rw [BitVec.msb_eq_true_iff_two_mul_ge, hnat]
    simp only [intMax] at hn
    omega
  apply BitVec.eq_of_toNat_eq
  rw [BitVec.toNat_setWidth, BitVec.toNat_sub, BitVec.toNat_signExtend, hmsb, BitVec.toNat_setWidth,
    hnat]
  have hzero : (0 : BitVec 32).toNat = 0 := rfl
  simp only [if_true, hzero]
  omega

/-- Behind a header whose length does not fit everything is left on the descriptor. -/
theorem readMessage_leaves {fd : Socket} {type : BitVec 32} {n : ℕ} {rest : List Byte}
    {length : BitVec 64} (stack buffer : ℕ → Byte)
    (hstream : fd.stream = htonl (BitVec.ofNat 32 n) ++ (htonl type ++ rest))
    (hword : n < 2 ^ 32) (hfits : ¬ (n ≤ length.toNat ∧ n ≤ intMax)) (hok : .failed ∉ fd.outcomes) :
    ∃ fd', readMessage fd stack buffer length =
        (if length.toNat < n then -1 else 0, buffer, fd') ∧
      fd'.stream = rest ∧ .failed ∉ fd'.outcomes := by
  obtain ⟨fd',hrest,hok',hmessage⟩ := readMessage_header stack buffer length hstream hok
  have hsize : ((BitVec.ofNat 32 n).setWidth 64).toNat = n := by
    rw [BitVec.toNat_setWidth, BitVec.toNat_ofNat]
    omega
  refine ⟨fd',?_,hrest,hok'⟩
  rw [hmessage]
  by_cases hover : length.toNat < n
  · have hlt : length < (BitVec.ofNat 32 n).setWidth 64 := by rwa [BitVec.lt_def, hsize]
    rw [if_pos hlt, if_pos hover]
  · have hlt : ¬ length < (BitVec.ofNat 32 n).setWidth 64 := by rwa [BitVec.lt_def, hsize]
    have hmax : intMax < n := by
      by_contra h
      exact hfits ⟨by omega,by omega⟩
    have hne : (0 : BitVec 32) ≠ BitVec.ofNat 32 n := by
      intro he
      have he := congrArg BitVec.toNat he
      rw [BitVec.toNat_ofNat, Nat.mod_eq_of_lt hword] at he
      have hzero : (0 : BitVec 32).toNat = 0 := rfl
      omega
    obtain ⟨count,h3,hcount⟩ := readn_negative fd' buffer hmax hword
    rw [if_neg hlt, if_neg hover, h3]
    simp only [hcount, if_pos hne]
    rfl

/-- The calls stay in step with the frames exactly if every frame fits. -/
theorem readMessages_inStep (frames : List Frame) (rest : List Byte) (fd : Socket)
    (stack buffer : ℕ → Byte) (length : BitVec 64)
    (hstream : fd.stream = frames.flatMap Frame.encoded ++ rest)
    (hword : ∀ frame ∈ frames, frame.body.length < 2 ^ 32) (hok : .failed ∉ fd.outcomes) :
    InStep stack length rest fd buffer frames ↔ ∀ frame ∈ frames, frame.Fits length := by
  induction frames generalizing fd buffer with
  | nil => simp [InStep]
  | cons frame frames ih =>
    obtain ⟨hhead,htail⟩ := List.forall_mem_cons.mp hword
    rw [List.flatMap_cons, List.append_assoc] at hstream
    rw [List.forall_mem_cons]
    by_cases hfits : frame.Fits length
    · obtain ⟨fd',hread,hrest,hok'⟩ :=
        readMessage_frame stack buffer hstream hfits.1 hfits.2 hok
      have hanswered : Answered length frame (BitVec.ofNat 64 frame.body.length)
          (store buffer 0 frame.body) := by
        rw [Answered, if_pos hfits.1]
        exact ⟨rfl,load_store_self buffer 0 frame.body⟩
      simp only [InStep, hread, hanswered, hrest, hfits, true_and]
      exact ih fd' (store buffer 0 frame.body) hrest htail hok'
    · simp only [Frame.encoded, List.append_assoc] at hstream
      obtain ⟨fd',hread,hleft,-⟩ := readMessage_leaves stack buffer hstream hhead hfits hok
      simp only [InStep, hread, hleft, hfits, false_and, iff_false]
      rintro ⟨-,hskipped,-⟩
      have hempty : frame.body = [] := List.append_left_eq_self.mp hskipped
      exact hfits ⟨by simp [hempty],by simp [hempty]⟩

theorem readMessages_inStep_two :
    InStep (fun _ => 0) 2 [] ⟨[0, 0, 0, 2, 0, 0, 0, 7, 97, 98, 0, 0, 0, 1, 0, 0, 0, 7, 99],[.upTo 2]⟩
        (fun _ => 0) [⟨7,[97, 98]⟩, ⟨7,[99]⟩] ↔
      ∀ frame ∈ [⟨7,[97, 98]⟩, ⟨7,[99]⟩], Frame.Fits 2 frame :=
  readMessages_inStep [⟨7,[97, 98]⟩, ⟨7,[99]⟩] []
    ⟨[0, 0, 0, 2, 0, 0, 0, 7, 97, 98, 0, 0, 0, 1, 0, 0, 0, 7, 99],[.upTo 2]⟩ (fun _ => 0) (fun _ => 0) 2
    rfl (by decide) (by decide)

def smuggling : Socket :=
  ⟨(⟨7,(⟨7,[120]⟩ : Frame).encoded⟩ : Frame).encoded ++ (⟨7,[99]⟩ : Frame).encoded,[]⟩

/-- The frame in the body is returned instead of the one that follows. -/
theorem readMessages_smuggled :
    ∃ buffer fd₁ fd₂, readMessage smuggling (fun _ => 0) (fun _ => 0) 1 = (-1, fun _ => 0, fd₁) ∧
      readMessage fd₁ (fun _ => 0) (fun _ => 0) 1 = (1, buffer, fd₂) ∧ buffer 0 = 120 ∧
      ¬ Answered 1 ⟨7,[99]⟩ 1 buffer := by
  obtain ⟨fd₁,hread₁,hrest₁,hok₁⟩ := @readMessage_leaves smuggling 7 9 _ 1 (fun _ => 0) (fun _ => 0)
    rfl (by decide) (by decide) (by decide)
  obtain ⟨fd₂,hread₂,-,-⟩ := @readMessage_frame fd₁ 1 ⟨7,[120]⟩ _ (fun _ => 0) (fun _ => 0) hrest₁
    (by decide) (by decide) hok₁
  refine ⟨_,fd₁,fd₂,hread₁,hread₂,rfl,?_⟩
  rw [Answered, if_pos (by decide)]
  exact fun h => absurd h.2 (by decide)

end CppExamples.HttpTest
