import CppExamples.HttpTest.Dispatch

/-! # The scan of the poll table

`poll_dispatch` visits the slots while the callbacks that it invokes add and remove
channels, and leaves the loop when as many slots as `poll` counted have been activated.
A slot that is freed before the scan comes to it stays in the count, and the loop then
runs on to its bound, which is one slot behind the table.
-/
namespace CppExamples.HttpTest
open PendingList Slots

/-- An operation that a callback asks the dispatcher for. -/
def PollData.call (data : PollData) (op : ChannelOp × Channel) : PollData :=
  let result := match op.1 with
    | .add => pollAdd data op.2
    | .remove => pollDel data op.2
    | .update => pollUpdate data op.2
  (result.map Prod.fst).getD data

/-- The table, the indices that have been read, and those whose slot was activated. -/
structure Scan where
  data : PollData
  reads : List ℕ
  activated : List ℕ

/-- The loop with the turns that are left, which ends undefined behind the table.  The
callbacks of slot `i` have the effect of a list of operations. -/
def scanLoop (effects : ℕ → List (ChannelOp × Channel)) : ℕ → ℕ → ℕ → Scan → Scan
  | 0, _, _, s => s
  | turns + 1, i, readyNumber, s =>
    let s := { s with reads := s.reads ++ [i] }
    match s.data.eventSet[i]? with
    | none => s
    | some pollfd =>
      if pollfd.fd < 0 then scanLoop effects turns (i + 1) readyNumber s
      else if 0 < pollfd.revents.toInt then
        let s := { s with
          data := (effects i).foldl PollData.call s.data
          activated := s.activated ++ [i] }
        if readyNumber ≤ 1 then s else scanLoop effects turns (i + 1) (readyNumber - 1) s
      else scanLoop effects turns (i + 1) readyNumber s

/-- What `poll_dispatch` does behind `poll`. -/
def pollScanTable (effects : ℕ → List (ChannelOp × Channel)) (data : PollData) (readyNumber : ℕ) : Scan :=
  if readyNumber = 0 then ⟨data,[],[]⟩
  else scanLoop effects (initPollSize + 1) 0 readyNumber ⟨data,[],[]⟩

/-- What `poll` returns: negative descriptors are ignored, the bits are below the sign, and
the count is that of the slots with something to report. -/
structure PollReturns (data : PollData) (readyNumber : ℕ) : Prop where
  size : data.eventSet.length = initPollSize
  ignored : ∀ slot ∈ data.eventSet, slot.fd < 0 → slot.revents = 0
  bits : ∀ slot ∈ data.eventSet, 0 ≤ slot.revents.toInt
  count : readyNumber = data.eventSet.countP fun slot => slot.revents ≠ 0

def PollData.ready (data : PollData) (i : ℕ) : Bool :=
  (data.eventSet[i]?).elim false fun slot => decide (0 ≤ slot.fd) && decide (0 < slot.revents.toInt)

/-- The table when slot `i` comes up: the callbacks of the slots before have been run. -/
def tableAt (effects : ℕ → List (ChannelOp × Channel)) (data : PollData) : ℕ → PollData
  | 0 => data
  | i + 1 =>
    let t := tableAt effects data i
    if t.ready i then (effects i).foldl PollData.call t else t

/-- Only the table is read, and each slot that is still registered and ready when it comes
up is activated once, and no other. -/
def ScansTable (effects : ℕ → List (ChannelOp × Channel)) (data : PollData) (readyNumber : ℕ) : Prop :=
  let s := pollScanTable effects data readyNumber
  (∀ i ∈ s.reads, i < initPollSize) ∧
    ∀ i, s.activated.count i = if i < initPollSize ∧ (tableAt effects data i).ready i then 1 else 0

/-- No slot with something to report is free when it comes up. -/
def StillRegistered (effects : ℕ → List (ChannelOp × Channel)) (data : PollData) : Prop :=
  ∀ (i : ℕ) (slot : PollFd), data.eventSet[i]? = some slot → slot.revents ≠ 0 →
    ∀ slot', (tableAt effects data i).eventSet[i]? = some slot' → 0 ≤ slot'.fd

variable {effects : ℕ → List (ChannelOp × Channel)} {data : PollData} {readyNumber : ℕ}

theorem PollData.call_revents (data : PollData) (op : ChannelOp × Channel) :
    (data.call op).eventSet.map PollFd.revents = data.eventSet.map PollFd.revents := by
  obtain ⟨type,channel⟩ := op
  cases type with
  | add =>
    simp only [PollData.call, pollAdd, Option.map_some, Option.getD_some]
    exact map_modifyFirst _ _ (by intro slot; rfl) _
  | remove =>
    simp only [PollData.call, pollDel, Option.map_some, Option.getD_some]
    exact map_modifyFirst _ _ (by intro slot; rfl) _
  | update =>
    simp only [PollData.call, pollUpdate, Option.map_some, Option.getD_some]
    exact map_modifyFirst _ _ (by intro slot; rfl) _

theorem calls_revents (ops : List (ChannelOp × Channel)) (data : PollData) :
    (ops.foldl PollData.call data).eventSet.map PollFd.revents = data.eventSet.map PollFd.revents := by
  induction ops generalizing data with
  | nil => rfl
  | cons op ops ih => rw [List.foldl_cons, ih, PollData.call_revents]

theorem tableAt_revents (effects : ℕ → List (ChannelOp × Channel)) (data : PollData) (i : ℕ) :
    (tableAt effects data i).eventSet.map PollFd.revents = data.eventSet.map PollFd.revents := by
  induction i with
  | zero => rfl
  | succ i ih =>
    unfold tableAt
    dsimp only
    split
    · rw [calls_revents, ih]
    · exact ih

theorem tableAt_length (effects : ℕ → List (ChannelOp × Channel)) (data : PollData) (i : ℕ) :
    (tableAt effects data i).eventSet.length = data.eventSet.length := by
  have hlen := congrArg List.length (tableAt_revents effects data i)
  rwa [List.length_map, List.length_map] at hlen

/-- The slots before `i` that were ready when they came up. -/
def readyList (effects : ℕ → List (ChannelOp × Channel)) (data : PollData) (i : ℕ) : List ℕ :=
  (List.range i).filter fun j => (tableAt effects data j).ready j

def PollData.marked (data : PollData) (i : ℕ) : Bool :=
  (data.eventSet[i]?).elim false fun slot => decide (slot.revents ≠ 0)

theorem countP_eq_length_filter_range {α : Type*} (p : α → Bool) (l : List α) :
    l.countP p = ((List.range l.length).filter fun i => (l[i]?).elim false p).length := by
  induction l with
  | nil => rfl
  | cons a l ih =>
    rw [List.length_cons, List.range_succ_eq_map, List.filter_cons, List.filter_map, List.countP_cons, ih]
    cases hp : p a <;> simp [hp, Function.comp_def]

theorem length_filter_eq_iff {α : Type*} {p q : α → Bool} {l : List α} (h : ∀ a ∈ l, p a = true → q a = true) :
    (l.filter p).length = (l.filter q).length ↔ ∀ a ∈ l, q a = true → p a = true := by
  have hsplit : l.filter p = (l.filter q).filter p := by
    rw [List.filter_filter]
    refine List.filter_congr fun a ha => ?_
    cases hp : p a with
    | false => rfl
    | true => rw [h a ha hp, Bool.and_true]
  rw [hsplit, List.length_filter_eq_length_iff]
  simp only [List.mem_filter, and_imp]

theorem readyList_succ (effects : ℕ → List (ChannelOp × Channel)) (data : PollData) (i : ℕ) :
    readyList effects data (i + 1) =
      readyList effects data i ++ if (tableAt effects data i).ready i then [i] else [] := by
  rw [readyList, List.range_succ, List.filter_append, List.filter_singleton, readyList]
  cases (tableAt effects data i).ready i <;> rfl

theorem readyList_sublist {i j : ℕ} (hij : i ≤ j) :
    (readyList effects data i).Sublist (readyList effects data j) :=
  (List.range_sublist.mpr hij).filter _

theorem tableAt_slot {i : ℕ} {slot : PollFd} (hslot : (tableAt effects data i).eventSet[i]? = some slot) :
    ∃ slot', data.eventSet[i]? = some slot' ∧ slot'.revents = slot.revents := by
  have hsame := congrArg (fun l => l[i]?) (tableAt_revents effects data i)
  simp only [List.getElem?_map, hslot, Option.map_some] at hsame
  obtain ⟨slot',hslot',he⟩ := Option.map_eq_some_iff.mp hsame.symm
  exact ⟨slot',hslot',he⟩

theorem ready_marked {i : ℕ} (hready : (tableAt effects data i).ready i = true) : data.marked i = true := by
  unfold PollData.ready at hready
  cases hslot : (tableAt effects data i).eventSet[i]? with
  | none => simp [hslot] at hready
  | some slot =>
    obtain ⟨slot',hslot',he⟩ := tableAt_slot hslot
    simp only [hslot, Option.elim_some, Bool.and_eq_true, decide_eq_true_eq] at hready
    simp only [PollData.marked, hslot', Option.elim_some, decide_eq_true_eq, he]
    intro hzero
    rw [hzero] at hready
    exact absurd hready.2 (by decide)

theorem ready_of_marked (h : PollReturns data readyNumber) {i : ℕ} {slot : PollFd}
    (hslot : (tableAt effects data i).eventSet[i]? = some slot) (hmarked : data.marked i = true) :
    (tableAt effects data i).ready i = true ↔ 0 ≤ slot.fd := by
  obtain ⟨slot',hslot',he⟩ := tableAt_slot hslot
  have hbits := h.bits slot' (List.mem_of_getElem? hslot')
  simp only [PollData.marked, hslot', Option.elim_some, decide_eq_true_eq] at hmarked
  have hpos : 0 < slot.revents.toInt := by
    rw [← he]
    refine lt_of_le_of_ne hbits fun hzero => hmarked ?_
    exact BitVec.eq_of_toInt_eq hzero.symm
  simp [PollData.ready, hslot, hpos]

theorem readyList_length_iff (h : PollReturns data readyNumber) :
    (readyList effects data initPollSize).length ≤ readyNumber ∧
      ((readyList effects data initPollSize).length = readyNumber ↔ StillRegistered effects data) := by
  have hcount : readyNumber = ((List.range initPollSize).filter data.marked).length := by
    rw [h.count, countP_eq_length_filter_range, h.size]
    rfl
  have himp : ∀ i ∈ List.range initPollSize, (tableAt effects data i).ready i = true →
      data.marked i = true := fun i _ => ready_marked
  constructor
  · rw [hcount, readyList, ← List.countP_eq_length_filter, ← List.countP_eq_length_filter]
    exact List.countP_mono_left himp
  · rw [hcount, readyList, length_filter_eq_iff himp]
    constructor
    · intro hall i slot hslot hrevents slot' hslot'
      have hmarked : data.marked i = true := by simpa [PollData.marked, hslot] using hrevents
      have hi : i < initPollSize := h.size ▸ (List.getElem?_eq_some_iff.mp hslot).1
      exact (ready_of_marked h hslot' hmarked).mp (hall i (List.mem_range.mpr hi) hmarked)
    · intro hstill i hi hmarked
      have hlt : i < (tableAt effects data i).eventSet.length := by
        rw [tableAt_length, h.size]
        exact List.mem_range.mp hi
      have hslot' := List.getElem?_eq_getElem hlt
      obtain ⟨slot,hslot,-⟩ := tableAt_slot hslot'
      refine (ready_of_marked h hslot' hmarked).mpr (hstill i slot hslot ?_ _ hslot')
      simpa [PollData.marked, hslot] using hmarked

/-- The loop in front of slot `i`: everything before has been visited, and the count is
not used up. -/
structure Scanning (effects : ℕ → List (ChannelOp × Channel)) (data : PollData) (total i readyNumber : ℕ)
    (s : Scan) : Prop where
  data_eq : s.data = tableAt effects data i
  reads_eq : s.reads = List.range i
  activated_eq : s.activated = readyList effects data i
  left : 0 < readyNumber
  count : readyNumber + (readyList effects data i).length = total

/-- The loop ends within the table with all slots that were ready, or behind the table. -/
theorem scanLoop_spec (hsize : data.eventSet.length = initPollSize) {total : ℕ}
    (hle : (readyList effects data initPollSize).length ≤ total) {turns i readyNumber : ℕ} {s : Scan}
    (hturns : i + turns = initPollSize + 1) (hi : i ≤ initPollSize)
    (hs : Scanning effects data total i readyNumber s) :
    ((readyList effects data initPollSize).length = total →
      (∀ j ∈ (scanLoop effects turns i readyNumber s).reads, j < initPollSize) ∧
        (scanLoop effects turns i readyNumber s).activated = readyList effects data initPollSize) ∧
    ((readyList effects data initPollSize).length ≠ total →
      initPollSize ∈ (scanLoop effects turns i readyNumber s).reads) := by
  induction turns generalizing i readyNumber s with
  | zero => omega
  | succ turns ih =>
    obtain ⟨hdata,hreads,hactivated,hleft,hcount⟩ := hs
    have hlen : (tableAt effects data i).eventSet.length = initPollSize := (tableAt_length ..).trans hsize
    have hnext := readyList_succ effects data i
    rw [scanLoop, hdata, hreads, ← List.range_succ]
    rcases hi.lt_or_eq with hlt | hend
    · obtain ⟨slot,hslot⟩ : ∃ slot, (tableAt effects data i).eventSet[i]? = some slot :=
        ⟨_,List.getElem?_eq_getElem (hlen.symm ▸ hlt)⟩
      have hready : (tableAt effects data i).ready i =
          (decide (0 ≤ slot.fd) && decide (0 < slot.revents.toInt)) := by
        rw [PollData.ready, hslot, Option.elim_some]
      have hskip : (tableAt effects data i).ready i = false →
          Scanning effects data total (i + 1) readyNumber
            ⟨tableAt effects data i,List.range (i + 1),s.activated⟩ := by
        intro hfalse
        rw [hfalse] at hnext
        simp only [Bool.false_eq_true, if_false, List.append_nil] at hnext
        exact ⟨by simp [tableAt, hfalse],rfl,hactivated.trans hnext.symm,hleft,hnext ▸ hcount⟩
      rw [hslot]
      dsimp only
      split
      next hfree => exact ih (by omega) hlt (hskip (by rw [hready]; simp [hfree]))
      next hused =>
        split
        next hpos =>
          have htrue : (tableAt effects data i).ready i = true := by
            rw [hready]
            simp [not_lt.mp hused, hpos]
          rw [htrue, if_pos rfl] at hnext
          have hlast := congrArg List.length hnext
          rw [List.length_append, List.length_singleton] at hlast
          have hsub : (readyList effects data (i + 1)).Sublist (readyList effects data initPollSize) :=
            readyList_sublist hlt
          split
          next hone =>
            have hgrown := hsub.length_le
            refine ⟨fun _ => ⟨?_,?_⟩,fun hne => by omega⟩
            · exact fun j hj => lt_of_lt_of_le (List.mem_range.mp hj) hlt
            · rw [hactivated, ← hnext]
              exact hsub.eq_of_length_le (by omega)
          next hmore =>
            refine ih (by omega) hlt ⟨?_,rfl,?_,by omega,by omega⟩
            · simp [tableAt, htrue]
            · rw [hactivated, hnext]
        next hnothing => exact ih (by omega) hlt (hskip (by rw [hready]; simp [hnothing]))
    · rw [List.getElem?_eq_none (hlen.trans hend.symm).le]
      dsimp only
      refine ⟨fun heq => ?_,fun _ => List.mem_range.mpr (by omega)⟩
      rw [← hend] at heq
      omega

theorem count_readyList (effects : ℕ → List (ChannelOp × Channel)) (data : PollData) (n i : ℕ) :
    (readyList effects data n).count i = if i < n ∧ (tableAt effects data i).ready i then 1 else 0 := by
  have hnodup : (readyList effects data n).Nodup := List.nodup_range.filter _
  rw [hnodup.count]
  simp [readyList]

theorem pollScanTable_spec (h : PollReturns data readyNumber) :
    ((readyList effects data initPollSize).length = readyNumber →
      (∀ j ∈ (pollScanTable effects data readyNumber).reads, j < initPollSize) ∧
        (pollScanTable effects data readyNumber).activated = readyList effects data initPollSize) ∧
    ((readyList effects data initPollSize).length ≠ readyNumber →
      initPollSize ∈ (pollScanTable effects data readyNumber).reads) := by
  have hle : (readyList effects data initPollSize).length ≤ readyNumber := (readyList_length_iff h).1
  rcases Nat.eq_zero_or_pos readyNumber with hzero | hpos
  · rw [pollScanTable, if_pos hzero]
    refine ⟨fun heq => ⟨by simp,?_⟩,fun hne => by omega⟩
    exact (List.length_eq_zero_iff.mp (heq.trans hzero)).symm
  · rw [pollScanTable, if_neg (Nat.pos_iff_ne_zero.mp hpos)]
    exact scanLoop_spec h.size hle (Nat.zero_add _) (Nat.zero_le _) ⟨rfl,rfl,rfl,hpos,rfl⟩

theorem reads_behind (h : PollReturns data readyNumber) (hfreed : ¬ StillRegistered effects data) :
    initPollSize ∈ (pollScanTable effects data readyNumber).reads :=
  (pollScanTable_spec h).2 fun heq => hfreed ((readyList_length_iff h).2.mp heq)

def twoReadable : PollData :=
  ⟨⟨3,pollRdNorm,pollRdNorm⟩ :: ⟨4,pollRdNorm,pollRdNorm⟩ :: List.replicate (initPollSize - 2) ⟨-1,0,0⟩⟩

theorem twoReadable_returns : PollReturns twoReadable 2 := by
  have hmem : ∀ slot ∈ twoReadable.eventSet, slot.fd = -1 ∧ slot.revents = 0 ∨
      0 ≤ slot.fd ∧ slot.revents = pollRdNorm := by
    intro slot hslot
    rcases List.mem_cons.mp hslot with rfl | hslot
    · exact .inr ⟨by decide,rfl⟩
    · rcases List.mem_cons.mp hslot with rfl | hslot
      · exact .inr ⟨by decide,rfl⟩
      · obtain rfl := List.eq_of_mem_replicate hslot
        exact .inl ⟨rfl,rfl⟩
  refine ⟨?_,?_,?_,?_⟩
  · rw [twoReadable, List.length_cons, List.length_cons, List.length_replicate]
    rfl
  · intro slot hslot hneg
    rcases hmem slot hslot with ⟨-,hzero⟩ | ⟨hpos,-⟩
    · exact hzero
    · omega
  · intro slot hslot
    rcases hmem slot hslot with ⟨-,hzero⟩ | ⟨-,hread⟩
    · rw [hzero]
      decide
    · rw [hread]
      decide
  · rw [twoReadable, List.countP_cons, List.countP_cons, List.countP_replicate]
    decide

def closeSecond : ℕ → List (ChannelOp × Channel)
  | 0 => [(.remove, channelNew 4 eventRead (some .handleRead) (some .handleWrite) (.tcpConnection 0))]
  | _ => []

end CppExamples.HttpTest
