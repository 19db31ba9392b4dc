import CppExamples.HttpTest.Readline
import CppExamples.HttpTest.UniversalNewlines

/-! # The buffers of the line readers

`readline` counts `length` down in front of a byte and `read_line` stops at `size - 1`, so
that both have a cell left for the terminator.  `readline_2` counts down behind the store:
a newline that fills the buffer has its terminator stored behind it.
-/
namespace CppExamples.HttpTest
open Memory

/-- The loop of `readline_2` with `length` left, and the count of the bytes stored so far. -/
def readline2Loop (fd : Socket) (buffer : ℕ → Byte) (i : ℕ) : ℕ → BitVec 64 × (ℕ → Byte) × Socket
  | 0 => (-1, buffer, fd)
  | length + 1 =>
    match fd.recvByte with
    | (some c, fd) =>
      let buffer := Function.update buffer i c
      if c = 10 then (BitVec.ofNat 64 (i + 1), Function.update buffer (i + 1) 0, fd)
      else readline2Loop fd buffer (i + 1) length
    | (none, fd) => (-1, buffer, fd)

def readline2 (fd : Socket) (buffer : ℕ → Byte) (length : BitVec 64) : BitVec 64 × (ℕ → Byte) × Socket :=
  readline2Loop fd buffer 0 length.toNat

/-- Whatever the buffer held, cells from `n` on are as before. -/
def Confined (final : (ℕ → Byte) → ℕ → Byte) (n : ℕ) : Prop :=
  ∀ (buffer : ℕ → Byte) (j : ℕ), n ≤ j → final buffer j = buffer j

/-- The bytes that successive calls of `recv` for one byte hand over until one fails. -/
def received (fd : Socket) : ℕ → List Byte
  | 0 => []
  | n + 1 =>
    match fd.recvByte with
    | (some c, fd) => c :: received fd n
    | (none, _) => []

/-- The first newline received is byte number `n`. -/
def NewlineFills (fd : Socket) (n : ℕ) : Prop :=
  ∃ line, 10 ∉ line ∧ line.length + 1 = n ∧ received fd n = line ++ [10]

section Frame
variable {fd : Socket} {buffer : ℕ → Byte} {i j n : ℕ}

theorem update_below (hij : i < j) (c : Byte) (buffer : ℕ → Byte) :
    Function.update buffer i c j = buffer j := Function.update_of_ne hij.ne' c buffer

/-- The terminator goes one cell behind the byte, for which one more was counted down. -/
theorem readlineLoop_frame (fd : Socket) (readBuffer : ReadBuffer) (nleft : ℕ) (buffer : ℕ → Byte)
    (i : ℕ) (length : BitVec 64) (hlength : 1 ≤ length.toNat) (hn : i + length.toNat ≤ n) (hj : n ≤ j) :
    (readlineLoop fd readBuffer nleft buffer i length).2.1 j = buffer j := by
  fun_induction readlineLoop fd readBuffer nleft buffer i length with
  | case1 fd readBuffer nleft buffer i length hpos fd' hrefill ih => exact ih hlength hn
  | case2 => rfl
  | case3 => rfl
  | case4 fd readBuffer nleft buffer i length hpos readBuffer₁ nleft₁ fd₁ hrefill c readBuffer₂ buffer₁ =>
    have htwo : 2 ≤ length.toNat := by bv_omega
    calc Function.update buffer₁ (i + 1) 0 j = buffer₁ j := update_below (by omega) 0 buffer₁
      _ = buffer j := update_below (show i < j by omega) c buffer
  | case5 fd readBuffer nleft buffer i length hpos readBuffer₁ nleft₁ fd₁ hrefill c readBuffer₂ buffer₁ hc ih =>
    have hnext : (length - 1).toNat + 1 = length.toNat := by bv_omega
    have hone : 1 ≤ (length - 1).toNat := by bv_omega
    rw [ih hone (by omega)]
    exact update_below (show i < j by omega) c buffer
  | case6 => rfl

theorem readLineLoop_frame (fd : Socket) (buf : ℕ → Byte) (i : ℕ) (c : Byte) (size : ℤ)
    (hi : (i : ℤ) ≤ size - 1) :
    ((readLineLoop fd buf i c size).1 : ℤ) ≤ size - 1 ∧
      ∀ j : ℕ, size ≤ j → (readLineLoop fd buf i c size).2.1 j = buf j := by
  fun_induction readLineLoop fd buf i c size with
  | case1 fd buf i c hgo c' fd₁ hnext ih =>
    obtain ⟨hle,hframe⟩ := ih (by push_cast; omega)
    refine ⟨hle,fun j hj => ?_⟩
    rw [hframe j hj]
    exact update_below (show i < j by omega) c' buf
  | case2 => exact ⟨hi,fun _ _ => rfl⟩
  | case3 => exact ⟨hi,fun _ _ => rfl⟩

theorem received_some {c : Byte} {fd' : Socket} (hrecv : fd.recvByte = (some c, fd')) (n : ℕ) :
    received fd (n + 1) = c :: received fd' n := by
  rw [received, hrecv]

theorem received_none {fd' : Socket} (hrecv : fd.recvByte = (none, fd')) (n : ℕ) :
    received fd (n + 1) = [] := by
  rw [received, hrecv]

theorem newlineFills_newline {fd' : Socket} (hrecv : fd.recvByte = (some 10, fd')) :
    NewlineFills fd (n + 1) ↔ n = 0 := by
  rw [NewlineFills, received_some hrecv]
  constructor
  · rintro ⟨line,hline,hlen,hreceived⟩
    cases line with
    | nil => simpa using hlen.symm
    | cons c line =>
      obtain ⟨rfl,-⟩ := List.cons.inj hreceived
      exact absurd List.mem_cons_self hline
  · rintro rfl
    exact ⟨[],List.not_mem_nil,rfl,rfl⟩

theorem newlineFills_other {c : Byte} {fd' : Socket} (hrecv : fd.recvByte = (some c, fd')) (hc : c ≠ 10) :
    NewlineFills fd (n + 1) ↔ NewlineFills fd' n := by
  rw [NewlineFills, received_some hrecv]
  constructor
  · rintro ⟨line,hline,hlen,hreceived⟩
    cases line with
    | nil => exact absurd (List.cons.inj hreceived).1 hc
    | cons d line =>
      obtain ⟨-,hrest⟩ := List.cons.inj hreceived
      exact ⟨line,fun h => hline (List.mem_cons_of_mem d h),Nat.succ.inj hlen,hrest⟩
  · rintro ⟨line,hline,hlen,hreceived⟩
    refine ⟨c :: line,?_,by rw [List.length_cons, hlen],by rw [hreceived, List.cons_append]⟩
    exact fun h => (List.mem_cons.mp h).elim (fun he => hc he.symm) hline

theorem readline2Loop_frame (fd : Socket) (buffer : ℕ → Byte) (i length : ℕ) :
    (NewlineFills fd length → (readline2Loop fd buffer i length).2.1 (i + length) = 0) ∧
      (¬ NewlineFills fd length →
        ∀ j, i + length ≤ j → (readline2Loop fd buffer i length).2.1 j = buffer j) := by
  induction length generalizing fd buffer i with
  | zero =>
    refine ⟨?_,fun _ _ _ => rfl⟩
    rintro ⟨line,-,hlen,-⟩
    cases hlen
  | succ length ih =>
    unfold readline2Loop
    split
    next c fd' hrecv =>
      dsimp only
      split
      next hc =>
        subst hc
        rw [newlineFills_newline hrecv]
        constructor
        · rintro rfl
          exact Function.update_self ..
        · intro hne j hj
          exact (update_below (show i + 1 < j by omega) 0 _).trans (update_below (by omega) 10 buffer)
      next hc =>
        rw [newlineFills_other hrecv hc]
        obtain ⟨hfills,hframe⟩ := ih fd' (Function.update buffer i c) (i + 1)
        have hnext : i + (length + 1) = i + 1 + length := by omega
        rw [hnext]
        refine ⟨hfills,fun hno j hj => ?_⟩
        rw [hframe hno j hj]
        exact update_below (show i < j by omega) c buffer
    next fd' hrecv =>
      refine ⟨?_,fun _ _ _ => rfl⟩
      rintro ⟨line,-,-,hreceived⟩
      rw [received_none hrecv] at hreceived
      exact absurd hreceived.symm (by simp)

end Frame

theorem readline2_confined_iff (fd : Socket) (length : BitVec 64) :
    Confined (fun buffer => (readline2 fd buffer length).2.1) length.toNat ↔
      ¬ NewlineFills fd length.toNat := by
  have hframe := fun buffer => readline2Loop_frame fd buffer 0 length.toNat
  simp only [Nat.zero_add] at hframe
  constructor
  · intro hconfined hfills
    have hkept : (readline2 fd (fun _ => 1) length).2.1 length.toNat = 1 := hconfined _ _ le_rfl
    have hnul : (readline2 fd (fun _ => 1) length).2.1 length.toNat = 0 := (hframe fun _ => 1).1 hfills
    exact absurd (hnul.symm.trans hkept) (by decide)
  · exact fun hno buffer j hj => (hframe buffer).2 hno j hj

/-- Of the three readers two never write behind the buffer, and the third does just when
the first newline is the last byte for which there is room. -/
theorem lineReaders_confined_iff (fd : Socket) (readBuffer : ReadBuffer) (length : BitVec 64)
    (hlength : 1 ≤ length.toNat) (size : ℤ) (hsize : 1 ≤ size) :
    Confined (fun buffer => (readline fd readBuffer buffer length).2.1) length.toNat ∧
    Confined (fun buf => (readLine fd buf size).2.1) size.toNat ∧
    (Confined (fun buffer => (readline2 fd buffer length).2.1) length.toNat ↔
      ¬ NewlineFills fd length.toNat) := by
  refine ⟨?_,?_,readline2_confined_iff fd length⟩
  · intro buffer j hj
    exact readlineLoop_frame fd readBuffer 0 buffer 0 length hlength (Nat.zero_add _).le hj
  · intro buf j hj
    obtain ⟨hle,hframe⟩ := readLineLoop_frame fd buf 0 0 size (by push_cast; omega)
    simp only [readLine]
    rw [Function.update_of_ne (by omega), hframe j (by omega)]

theorem lineReaders_confined_short :
    Confined (fun buffer => (readline ⟨[97, 10],[.upTo 0]⟩ ⟨fun _ => 0,0⟩ buffer 2).2.1) 2 ∧
      Confined (fun buf => (readLine ⟨[97, 10],[.upTo 0]⟩ buf 2).2.1) 2 :=
  have h := lineReaders_confined_iff ⟨[97, 10],[.upTo 0]⟩ ⟨fun _ => 0,0⟩ 2 (by decide) 2 (by decide)
  ⟨h.1,h.2.1⟩

/-- A line of two bytes for a buffer of two. -/
theorem readline2_overruns :
    ¬ Confined (fun buffer => (readline2 ⟨[97, 10],[]⟩ buffer 2).2.1) 2 := by
  intro hconfined
  exact absurd (hconfined (fun _ => 1) 2 le_rfl) (by decide)

end CppExamples.HttpTest
