import CppExamples.HttpTest.ReadMessage

/-! # `read_line`

The function reads byte by byte, and looks one byte ahead behind a carriage return.
What a call returns is what comes next in the stream with universal newlines, and the
call leaves a stream that goes on from there: a carriage return and the line feed
behind it are consumed by the same call.
-/
namespace CppExamples.HttpTest
open Memory

namespace Socket

/-- `recv` of one byte; none when it returns 0 or fails. -/
def recvByte (fd : Socket) : Option Byte × Socket :=
  match fd.read 1 with
  | (.got (c :: _), fd') => (some c, fd')
  | (_, fd') => (none, fd')

def peekByte (fd : Socket) : Option Byte × Socket :=
  (fd.recvByte.1,{ fd.recvByte.2 with stream := fd.stream })

def Sound (fd : Socket) : Prop := ∀ outcome ∈ fd.outcomes, ∃ more, outcome = .upTo more

end Socket

/-- The byte that is stored for a carriage return. -/
def afterReturn (fd : Socket) : Byte × Socket :=
  match fd.peekByte with
  | (some c, fd) => if c = 10 then (fd.recvByte.1.getD c,fd.recvByte.2) else (10,fd)
  | (none, fd) => (10,fd)

def nextByte (fd : Socket) : Option Byte × Socket :=
  match fd.recvByte with
  | (some c, fd) => if c = 13 then (some (afterReturn fd).1,(afterReturn fd).2) else (some c,fd)
  | (none, fd) => (none,fd)

/-- The loop of `read_line`; without a next byte `c` becomes `\n`, which ends it. -/
def readLineLoop (fd : Socket) (buf : ℕ → Byte) (i : ℕ) (c : Byte) (size : ℤ) :
    ℕ × (ℕ → Byte) × Socket :=
  if (i : ℤ) < size - 1 ∧ c ≠ 10 then
    match nextByte fd with
    | (some c, fd) => readLineLoop fd (Function.update buf i c) (i + 1) c size
    | (none, fd) => (i, buf, fd)
  else (i, buf, fd)
termination_by (size - i).toNat

def readLine (fd : Socket) (buf : ℕ → Byte) (size : ℤ) : ℕ × (ℕ → Byte) × Socket :=
  let (i, buf, fd) := readLineLoop fd buf 0 0 size
  (i, Function.update buf i 0, fd)

/-- Every CR LF and every other CR as one LF. -/
def universalNewlines : List Byte → List Byte
  | [] => []
  | [c] => [if c = 13 then 10 else c]
  | c :: d :: s =>
    if c = 13 ∧ d = 10 then 10 :: universalNewlines s
    else (if c = 13 then 10 else c) :: universalNewlines (d :: s)

/-- Successive calls into one buffer: what each returned, with that many bytes of the
buffer and one more. -/
def readLines (fd : Socket) (buf : ℕ → Byte) : List ℤ → List (ℕ × List Byte) × Socket
  | [] => ([], fd)
  | size :: sizes =>
    let (i, buf, fd) := readLine fd buf size
    let (lines, last) := readLines fd buf sizes
    ((i, load buf 0 (i + 1)) :: lines, last)

theorem universalNewlines_cons {c : Byte} (hc : c ≠ 13) (s : List Byte) :
    universalNewlines (c :: s) = c :: universalNewlines s := by
  cases s <;> simp [universalNewlines, hc]

theorem universalNewlines_crlf (s : List Byte) :
    universalNewlines (13 :: 10 :: s) = 10 :: universalNewlines s := by
  simp [universalNewlines]

theorem universalNewlines_cr {s : List Byte} (hs : s.head? ≠ some 10) :
    universalNewlines (13 :: s) = 10 :: universalNewlines s := by
  cases s with
  | nil => rfl
  | cons d s =>
    have hd : d ≠ 10 := fun h => hs (by rw [h, List.head?_cons])
    simp [universalNewlines, hd]

theorem recvByte_spec {fd : Socket} (hok : fd.Sound) :
    ∃ fd', fd.recvByte = (fd.stream.head?, fd') ∧ fd'.stream = fd.stream.tail ∧ fd'.Sound := by
  obtain ⟨stream,outcomes⟩ := fd
  cases outcomes with
  | nil => cases stream <;> exact ⟨_,rfl,rfl,hok⟩
  | cons outcome rest =>
    obtain ⟨more,rfl⟩ := hok outcome List.mem_cons_self
    have hrest : ∀ s, (⟨s,rest⟩ : Socket).Sound := fun s o ho => hok o (List.mem_cons_of_mem _ ho)
    cases stream with
    | nil => exact ⟨⟨[],rest⟩,by simp [Socket.recvByte, Socket.read, Socket.take],rfl,hrest []⟩
    | cons c s =>
      exact ⟨⟨s,rest⟩,by simp [Socket.recvByte, Socket.read, Socket.take],rfl,hrest s⟩

theorem afterReturn_spec {fd : Socket} (hok : fd.Sound) :
    ∃ fd', afterReturn fd = (10, fd') ∧ fd'.Sound ∧ fd'.stream.length ≤ fd.stream.length ∧
      universalNewlines (13 :: fd.stream) = 10 :: universalNewlines fd'.stream := by
  obtain ⟨fd₁,hrecv,-,hok₁⟩ := recvByte_spec hok
  have hpeek : fd.peekByte = (fd.stream.head?, { fd₁ with stream := fd.stream }) := by
    simp only [Socket.peekByte, hrecv]
  have hsame : Socket.Sound { fd₁ with stream := fd.stream } := hok₁
  by_cases hhead : fd.stream.head? = some 10
  · obtain ⟨s,hs⟩ : ∃ s, fd.stream = 10 :: s := by
      cases hstream : fd.stream with
      | nil => simp [hstream] at hhead
      | cons d s => exact ⟨s,by simpa [hstream] using hhead⟩
    obtain ⟨fd₂,hrecv₂,htail,hok₂⟩ := recvByte_spec hsame
    simp only [hs, List.head?_cons, List.tail_cons] at hrecv₂ htail
    refine ⟨fd₂,?_,hok₂,by simp [hs, htail],by rw [hs, htail, universalNewlines_crlf]⟩
    simp [afterReturn, hpeek, hs, hrecv₂]
  · refine ⟨_,?_,hsame,le_rfl,universalNewlines_cr hhead⟩
    cases hd : fd.stream.head? with
    | none => simp [afterReturn, hpeek, hd]
    | some d =>
      have hne : d ≠ 10 := fun h => hhead (hd.trans (congrArg some h))
      simp [afterReturn, hpeek, hd, hne]

theorem nextByte_spec {fd : Socket} (hok : fd.Sound) :
    (fd.stream = [] ∧ ∃ fd', nextByte fd = (none, fd') ∧ fd'.stream = [] ∧ fd'.Sound) ∨
      ∃ c fd', nextByte fd = (some c, fd') ∧ fd'.Sound ∧
        fd'.stream.length < fd.stream.length ∧
        universalNewlines fd.stream = c :: universalNewlines fd'.stream := by
  obtain ⟨fd₁,hrecv,htail,hok₁⟩ := recvByte_spec hok
  cases hstream : fd.stream with
  | nil =>
    refine .inl ⟨rfl,fd₁,?_,by rw [htail, hstream, List.tail_nil],hok₁⟩
    simp [nextByte, hrecv, hstream]
  | cons c s =>
    rw [hstream, List.tail_cons] at htail
    rw [hstream, List.head?_cons] at hrecv
    by_cases hc : c = 13
    · subst hc
      obtain ⟨fd₂,hafter,hok₂,hle,hlines⟩ := afterReturn_spec hok₁
      rw [htail] at hle hlines
      refine .inr ⟨10,fd₂,?_,hok₂,Nat.lt_succ_of_le hle,hlines⟩
      simp [nextByte, hrecv, hafter]
    · refine .inr ⟨c,fd₁,?_,hok₁,by simp [htail],by rw [universalNewlines_cons hc, htail]⟩
      simp [nextByte, hrecv, hc]

/-- From a state in which the loop goes on it stores a line: what comes next in the
stream with universal newlines, up to a line feed or to the size. -/
theorem readLineLoop_spec (fd : Socket) (buf : ℕ → Byte) (i : ℕ) (c : Byte) (size : ℤ)
    (hok : fd.Sound) (hi : (i : ℤ) ≤ size - 1) :
    ∃ line fd', readLineLoop fd buf i c size = (i + line.length, store buf i line, fd') ∧
      fd'.Sound ∧ fd'.stream.length ≤ fd.stream.length ∧
      universalNewlines fd.stream = line ++ universalNewlines fd'.stream ∧
      (i + line.length : ℤ) ≤ size - 1 ∧ 10 ∉ line.dropLast ∧ (c = 10 → line = []) ∧
      ((i : ℤ) < size - 1 → c ≠ 10 → fd.stream ≠ [] → fd'.stream.length < fd.stream.length) := by
  fun_induction readLineLoop fd buf i c size with
  | case1 fd buf i c hgo c' fd₁ hnext ih =>
    rcases nextByte_spec hok with ⟨-,_,hnone,-⟩ | ⟨d,fd₂,hsome,hok₁,hlt,hlines⟩
    · simp [hnext] at hnone
    · obtain ⟨rfl,rfl⟩ : c' = d ∧ fd₁ = fd₂ := by simpa [hnext] using hsome
      obtain ⟨line,fd',hloop,hok',hle,hrest,hsize,hnl,hend,-⟩ := ih hok₁ (by push_cast; omega)
      refine ⟨c' :: line,fd',?_,hok',by omega,by rw [hlines, hrest, List.cons_append],?_,?_,?_,?_⟩
      · rw [hloop, store_cons, List.length_cons, Nat.add_assoc, Nat.add_comm 1]
      · push_cast [List.length_cons] at hsize ⊢
        omega
      · cases line with
        | nil => simp
        | cons d line =>
          rw [List.dropLast_cons_cons, List.mem_cons, not_or]
          exact ⟨fun h => absurd (hend h.symm) (List.cons_ne_nil _ _),hnl⟩
      · exact fun h => absurd h hgo.2
      · exact fun _ _ _ => by omega
  | case2 fd buf i c hgo fd₁ hnext =>
    rcases nextByte_spec hok with ⟨hnil,fd₂,hnone,hnil₂,hok₂⟩ | ⟨d,_,hsome,-⟩
    · obtain rfl : fd₁ = fd₂ := by simpa [hnext] using hnone
      refine ⟨[],fd₁,by simp,hok₂,by simp [hnil₂],by rw [hnil, hnil₂, List.nil_append],by simpa using hi,
        by simp,fun _ => rfl,?_⟩
      exact fun _ _ hne => absurd hnil hne
    · simp [hnext] at hsome
  | case3 fd buf i c hstop =>
    refine ⟨[],fd,by simp,hok,le_rfl,rfl,by simpa using hi,by simp,fun _ => rfl,?_⟩
    exact fun hlt hc _ => absurd ⟨hlt,hc⟩ hstop

/-- Every call returns a line of at most `size - 1` bytes with a NUL behind it, and the
lines together are what was read of the stream with universal newlines; as many calls
as the stream has bytes read all of it. -/
theorem readLines_universal (fd : Socket) (buf : ℕ → Byte) (sizes : List ℤ) (hok : fd.Sound)
    (hsizes : ∀ size ∈ sizes, 2 ≤ size) :
    ∃ lines fd', readLines fd buf sizes = (lines.map fun line => (line.length, line ++ [0]), fd') ∧
      List.Forall₂ (fun line size => (line.length : ℤ) ≤ size - 1 ∧ 10 ∉ line.dropLast) lines sizes ∧
      lines.flatten ++ universalNewlines fd'.stream = universalNewlines fd.stream ∧
      (fd.stream.length ≤ sizes.length →
        fd'.stream = [] ∧ lines.flatten = universalNewlines fd.stream) := by
  induction sizes generalizing fd buf with
  | nil =>
    refine ⟨[],fd,rfl,.nil,rfl,fun hle => ?_⟩
    obtain hnil := List.length_eq_zero_iff.mp (Nat.le_zero.mp hle)
    exact ⟨hnil,by rw [hnil]; rfl⟩
  | cons size sizes ih =>
    obtain ⟨hsize,hrest⟩ := List.forall_mem_cons.mp hsizes
    obtain ⟨line,fd₁,hloop,hok₁,hle,hline,hfits,hnl,-,hprogress⟩ :=
      readLineLoop_spec fd buf 0 0 size hok (by push_cast; omega)
    rw [Nat.zero_add] at hloop
    have hcells : load (Function.update (store buf 0 line) line.length 0) 0 (line.length + 1) =
        line ++ [0] := by
      have hstore : Function.update (store buf 0 line) line.length 0 = store buf 0 (line ++ [0]) := by
        rw [store_append, Nat.zero_add, store_cons, store_nil]
      have hself := load_store_self buf 0 (line ++ [0])
      rwa [← hstore, List.length_append] at hself
    obtain ⟨lines,fd',hreads,hforall,hflat,hall⟩ :=
      ih fd₁ (Function.update (store buf 0 line) line.length 0) hok₁ hrest
    refine ⟨line :: lines,fd',?_,.cons ⟨by simpa using hfits,hnl⟩ hforall,?_,?_⟩
    · simp only [readLines, readLine, hloop, hreads, hcells, List.map_cons]
    · rw [List.flatten_cons, List.append_assoc, hflat, hline]
    · intro hcalls
      rw [List.length_cons] at hcalls
      have hshorter : fd₁.stream.length ≤ sizes.length := by
        by_cases hnil : fd.stream = []
        · simp only [hnil, List.length_nil] at hle
          omega
        · have hlt := hprogress (by push_cast; omega) (by decide) hnil
          omega
      obtain ⟨hend,hlines⟩ := hall hshorter
      exact ⟨hend,by rw [List.flatten_cons, hlines, hline]⟩

/-- The size cuts a line in front of its CR LF, and a lone CR ends the stream. -/
theorem readLines_universal_cut :
    ∃ lines fd', readLines ⟨[97, 98, 13, 10, 99, 13],[.upTo 0]⟩ (fun _ => 0) [3, 3, 3, 3, 3, 3] =
        (lines.map fun line => (line.length, line ++ [0]), fd') ∧
      List.Forall₂ (fun line size => (line.length : ℤ) ≤ size - 1 ∧ 10 ∉ line.dropLast) lines
        [3, 3, 3, 3, 3, 3] ∧
      lines.flatten ++ universalNewlines fd'.stream = [97, 98, 10, 99, 10] ∧
      (6 ≤ 6 → fd'.stream = [] ∧ lines.flatten = [97, 98, 10, 99, 10]) :=
  readLines_universal ⟨[97, 98, 13, 10, 99, 13],[.upTo 0]⟩ (fun _ => 0) [3, 3, 3, 3, 3, 3]
    (by simp [Socket.Sound]) (by decide)

end CppExamples.HttpTest
