import CppExamples.HttpTest.DispatchRounds
import CppExamples.HttpTest.PollScanning

/-! # The scan of a round

In a round of `poll_dispatch` the callbacks reach the table through the handlers of the
loop, so that each of them has the effect of a list of operations on it.  A round is
therefore a scan of the table that `poll` has written to; a round that ends without a
fault is one whose scan stays within it.
-/
namespace CppExamples.HttpTest
open PendingList

def Operated (data data' : PollData) : Prop :=
  ∃ ops : List (ChannelOp × Channel), ops.foldl PollData.call data = data'

theorem Operated.refl (data : PollData) : Operated data data := ⟨[],rfl⟩

theorem Operated.single (data : PollData) (op : ChannelOp × Channel) :
    Operated data (data.call op) := ⟨[op],rfl⟩

theorem Operated.trans {data₁ data₂ data₃ : PollData} (h : Operated data₁ data₂)
    (h' : Operated data₂ data₃) : Operated data₁ data₃ := by
  obtain ⟨ops,rfl⟩ := h
  obtain ⟨ops',rfl⟩ := h'
  exact ⟨ops ++ ops',List.foldl_append⟩

theorem handleAdd_operated {s : LoopState PollKernel} {channel : Channel} {fd : ℤ} {realloc : Bool}
    {r : LoopState PollKernel × ℤ}
    (h : eventLoopHandlePendingAdd pollBackend.dispatcher s fd channel realloc = some r) :
    Operated s.data.data r.1.data.data := by
  simp only [eventLoopHandlePendingAdd] at h
  split at h
  · obtain rfl := Option.some.inj h
    exact .refl _
  obtain ⟨room,-,h⟩ := Option.bind_eq_some_iff.mp h
  split at h
  · obtain rfl := Option.some.inj h
    exact .refl _
  split at h
  · obtain ⟨q,hadd,rfl⟩ := Option.map_eq_some_iff.mp h
    obtain rfl := Option.some.inj hadd
    exact .single _ (.add,channel)
  · obtain rfl := Option.some.inj h
    exact .refl _

theorem handleRemove_operated {s : LoopState PollKernel} {channel1 : Channel} {fd : ℤ}
    {r : LoopState PollKernel × ℤ}
    (h : eventLoopHandlePendingRemove pollBackend.dispatcher s fd channel1 = some r) :
    Operated s.data.data r.1.data.data := by
  simp only [eventLoopHandlePendingRemove] at h
  split_ifs at h
  · obtain rfl := Option.some.inj h
    exact .refl _
  · obtain rfl := Option.some.inj h
    exact .refl _
  · obtain ⟨channel2,-,h⟩ := Option.bind_eq_some_iff.mp h
    obtain ⟨q,hdel,rfl⟩ := Option.map_eq_some_iff.mp h
    obtain rfl := Option.some.inj hdel
    exact .single _ (.remove,channel2)

theorem handleUpdate_operated {s : LoopState PollKernel} {channel : Channel} {fd : ℤ}
    {r : LoopState PollKernel × Option ℤ}
    (h : eventLoopHandlePendingUpdate pollBackend.dispatcher s fd channel = some r) :
    Operated s.data.data r.1.data.data := by
  simp only [eventLoopHandlePendingUpdate] at h
  split_ifs at h
  · obtain rfl := Option.some.inj h
    exact .refl _
  · obtain rfl := Option.some.inj h
    exact .refl _
  · obtain ⟨q,hupdate,rfl⟩ := Option.map_eq_some_iff.mp h
    obtain rfl := Option.some.inj hupdate
    exact .single _ (.update,channel)

theorem handleChannelOp_operated {s s' : LoopState PollKernel} {realloc : ℤ → Bool} {type : ChannelOp}
    {channel : Channel}
    (h : handleChannelOp pollBackend.dispatcher realloc (some s) type channel = some s') :
    Operated s.data.data s'.data.data := by
  cases type with
  | add =>
    obtain ⟨r,hr,rfl⟩ := Option.map_eq_some_iff.mp h
    exact handleAdd_operated hr
  | remove =>
    obtain ⟨r,hr,rfl⟩ := Option.map_eq_some_iff.mp h
    exact handleRemove_operated hr
  | update =>
    obtain ⟨r,hr,rfl⟩ := Option.map_eq_some_iff.mp h
    exact handleUpdate_operated hr

namespace Round
variable {r r' : Round PollKernel} {realloc : ℤ → Bool} {o : Outcome} {channel : Channel} {fd : ℕ}

def table (r : Round PollKernel) : PollData := r.state.data.data

theorem bind_eq_ok {α β : Type} {x : Except Fault α} {f : α → Except Fault β} {b : β}
    (h : x >>= f = .ok b) : ∃ a, x = .ok a ∧ f a = .ok b := by
  cases x with
  | error fault => cases h
  | ok a => exact ⟨a,rfl,h⟩

theorem handle_operated {type : ChannelOp} (h : r.handle pollBackend realloc type channel = .ok r') :
    Operated r.table r'.table := by
  rw [handle] at h
  split at h
  next state hstate =>
    obtain rfl := Except.ok.inj h
    exact handleChannelOp_operated hstate
  next => cases h

theorem accept_table (r : Round PollKernel) (connection : Connection) :
    (r.accept pollBackend connection).1.table = r.table := by
  simp only [accept]
  split <;> rfl

theorem establish_operated {connection : Connection}
    (h : r.establish pollBackend realloc connection = .ok r') : Operated r.table r'.table :=
  r.accept_table connection ▸ handle_operated h

theorem establishAll_operated {connections : List Connection}
    (h : connections.foldlM (establish pollBackend realloc) r = .ok r') :
    Operated r.table r'.table := by
  induction connections generalizing r with
  | nil =>
    obtain rfl := Except.ok.inj h
    exact .refl _
  | cons connection connections ih =>
    rw [List.foldlM_cons] at h
    obtain ⟨r₁,hfirst,hrest⟩ := bind_eq_ok h
    exact (establish_operated hfirst).trans (ih hrest)

theorem toggle_table {change : Option Bool} (h : r.toggle channel change = .ok r') :
    r'.table = r.table := by
  cases change with
  | none =>
    obtain rfl := Except.ok.inj h
    rfl
  | some enable =>
    by_cases hback : (if enable then channelWriteEventEnable channel
        else channelWriteEventDisable channel).2.returns = true
    · rw [toggle, if_pos hback] at h
      obtain rfl := Except.ok.inj h
      rfl
    · rw [toggle, if_neg hback] at h
      cases h

theorem readCallback_operated {callback : ReadCallback}
    (h : readCallback pollBackend o channel r callback = .ok r') : Operated r.table r'.table := by
  cases callback with
  | handleRead =>
    simp only [readCallback] at h
    split at h
    · rw [toggle_table h]
      exact .refl _
    · obtain ⟨r₁,hposted,hremoved⟩ := bind_eq_ok h
      exact (establishAll_operated hposted).trans (handle_operated hremoved)
  | handleWakeup =>
    obtain rfl := Except.ok.inj h
    exact .refl _
  | handleConnectionEstablished =>
    simp only [readCallback] at h
    split at h
    · exact establishAll_operated h
    · obtain rfl := Except.ok.inj h
      rw [accept_table]
      exact .refl _

theorem channelEventActivate_operated {kind : EventKind}
    (h : r.channelEventActivate pollBackend o fd kind = .ok r') : Operated r.table r'.table := by
  rw [channelEventActivate] at h
  split at h
  next =>
    obtain rfl := Except.ok.inj h
    exact .refl _
  next =>
    split at h
    next => cases h
    next channel _ =>
      split at h
      next => cases h
      next =>
        cases kind with
        | read =>
          dsimp only at h
          split at h
          next =>
            obtain rfl := Except.ok.inj h
            exact .refl _
          next callback _ =>
            have hcall : Operated (r.log fd .read).table r'.table := readCallback_operated h
            exact hcall
        | write =>
          dsimp only at h
          split at h
          next =>
            obtain rfl := Except.ok.inj h
            exact .refl _
          next =>
            have htable : r'.table = (r.log fd .write).table := toggle_table h
            rw [htable]
            exact .refl _

theorem activateReported_operated {readable writable : Bool}
    (h : r.activateReported pollBackend o readable writable fd = .ok r') :
    Operated r.table r'.table := by
  have hwrite : ∀ r₁ : Round PollKernel, (if writable then
      r₁.channelEventActivate pollBackend o fd .write else .ok r₁) = .ok r' →
      Operated r₁.table r'.table := by
    intro r₁ hr₁
    split at hr₁
    · exact channelEventActivate_operated hr₁
    · obtain rfl := Except.ok.inj hr₁
      exact .refl _
  cases readable with
  | true =>
    rw [activateReported, if_pos rfl] at h
    obtain ⟨r₁,hr₁,hrest⟩ := bind_eq_ok h
    exact (channelEventActivate_operated hr₁).trans (hwrite r₁ hrest)
  | false => exact hwrite r h

end Round

theorem scanLoop_congr {effects effects' : ℕ → List (ChannelOp × Channel)} {turns i readyNumber : ℕ}
    (s : Scan) (h : ∀ j, i ≤ j → effects j = effects' j) :
    scanLoop effects turns i readyNumber s = scanLoop effects' turns i readyNumber s := by
  induction turns generalizing i readyNumber s with
  | zero => rfl
  | succ turns ih =>
    have hlater : ∀ j, i + 1 ≤ j → effects j = effects' j := fun j hj => h j (Nat.le_of_succ_le hj)
    simp only [scanLoop, h i le_rfl, ih _ hlater]

/-- The scan from slot `i` on leads from one table to the other and reads nothing behind it. -/
def ScansTo (effects : ℕ → List (ChannelOp × Channel)) (turns i readyNumber : ℕ)
    (data data' : PollData) : Prop :=
  ∀ reads activated, (scanLoop effects turns i readyNumber ⟨data,reads,activated⟩).data = data' ∧
    ∀ j ∈ (scanLoop effects turns i readyNumber ⟨data,reads,activated⟩).reads,
      j ∈ reads ∨ j < data.eventSet.length

section Slot
variable {effects : ℕ → List (ChannelOp × Channel)} {turns i readyNumber : ℕ} {data data' : PollData}
  {slot : PollFd} (hslot : data.eventSet[i]? = some slot)
include hslot

theorem read_within {reads : List ℕ} {j : ℕ} (h : j ∈ reads ++ [i] ∨ j < data.eventSet.length) :
    j ∈ reads ∨ j < data.eventSet.length := by
  have hi : i < data.eventSet.length := (List.getElem?_eq_some_iff.mp hslot).1
  rcases h with hread | hlt
  · rcases List.mem_append.mp hread with hread | hread
    · exact .inl hread
    · exact .inr (List.mem_singleton.mp hread ▸ hi)
  · exact .inr hlt

theorem ScansTo.pass (hidle : slot.fd < 0 ∨ ¬ 0 < slot.revents.toInt)
    (h : ScansTo effects turns (i + 1) readyNumber data data') :
    ScansTo effects (turns + 1) i readyNumber data data' := by
  intro reads activated
  obtain ⟨hdata,hreads⟩ := h (reads ++ [i]) activated
  have hloop : scanLoop effects (turns + 1) i readyNumber ⟨data,reads,activated⟩ =
      scanLoop effects turns (i + 1) readyNumber ⟨data,reads ++ [i],activated⟩ := by
    simp only [scanLoop, hslot]
    split
    next => rfl
    next hused => rw [if_neg (hidle.resolve_left hused)]
  rw [hloop]
  exact ⟨hdata,fun j hj => read_within hslot (hreads j hj)⟩

theorem ScansTo.last (hused : ¬ slot.fd < 0) (hpos : 0 < slot.revents.toInt) (hlast : readyNumber ≤ 1) :
    ScansTo effects (turns + 1) i readyNumber data ((effects i).foldl PollData.call data) := by
  intro reads activated
  simp only [scanLoop, hslot, if_neg hused, if_pos hpos, if_pos hlast, true_and]
  exact fun j hj => read_within hslot (.inl hj)

theorem ScansTo.next (hused : ¬ slot.fd < 0) (hpos : 0 < slot.revents.toInt)
    (hmore : ¬ readyNumber ≤ 1) {ops : List (ChannelOp × Channel)}
    (h : ScansTo effects turns (i + 1) (readyNumber - 1) (ops.foldl PollData.call data) data') :
    ScansTo (Function.update effects i ops) (turns + 1) i readyNumber data data' := by
  intro reads activated
  obtain ⟨hdata,hreads⟩ := h (reads ++ [i]) (activated ++ [i])
  have hlen : (ops.foldl PollData.call data).eventSet.length = data.eventSet.length := by
    have hlen := congrArg List.length (calls_revents ops data)
    rwa [List.length_map, List.length_map] at hlen
  have hlater : ∀ j, i + 1 ≤ j → Function.update effects i ops j = effects j :=
    fun j hj => Function.update_of_ne (by omega) _ _
  simp only [scanLoop, hslot, if_neg hused, if_pos hpos, if_neg hmore, Function.update_self]
  rw [scanLoop_congr _ hlater]
  exact ⟨hdata,fun j hj => read_within hslot (hlen ▸ hreads j hj)⟩

end Slot

theorem pollScan_scansTo {outcomes : ℕ → Outcome} {turns i readyNumber : ℕ} {r r' : Round PollKernel}
    (h : pollScan outcomes turns i readyNumber r = .ok r') :
    ∃ effects, ScansTo effects turns i readyNumber r.table r'.table := by
  induction turns generalizing i readyNumber r with
  | zero =>
    obtain rfl := Except.ok.inj h
    exact ⟨fun _ => [],fun reads activated => ⟨rfl,fun j hj => .inl hj⟩⟩
  | succ turns ih =>
    rw [pollScan] at h
    split at h
    next => cases h
    next pollfd hslot =>
      split at h
      next hfree =>
        obtain ⟨effects,hscan⟩ := ih h
        exact ⟨effects,hscan.pass hslot (.inl hfree)⟩
      next hused =>
        split at h
        next hpos =>
          obtain ⟨r₁,hactivate,hrest⟩ := Round.bind_eq_ok h
          obtain ⟨ops,hops⟩ := Round.activateReported_operated hactivate
          split at hrest
          next hlast =>
            obtain rfl := Except.ok.inj hrest
            rw [← hops]
            exact ⟨fun _ => ops,ScansTo.last hslot hused hpos hlast⟩
          next hmore =>
            obtain ⟨effects,hscan⟩ := ih hrest
            rw [← hops] at hscan
            exact ⟨_,hscan.next hslot hused hpos hmore⟩
        next hnothing =>
          obtain ⟨effects,hscan⟩ := ih h
          exact ⟨effects,hscan.pass hslot (.inr hnothing)⟩

theorem pollWait_returns (reports : ℕ → Conditions) {data : PollData}
    (hsize : data.eventSet.length = initPollSize) :
    PollReturns (pollWait reports data).1 (pollWait reports data).2 := by
  refine ⟨(List.length_map ..).trans hsize,?_,?_,rfl⟩
  · intro slot hslot hneg
    obtain ⟨slot,-,rfl⟩ := List.mem_map.mp hslot
    exact pollRevents_neg hneg
  · intro slot hslot
    obtain ⟨slot,-,rfl⟩ := List.mem_map.mp hslot
    simp only [pollRevents]
    split
    · decide
    · generalize reports slot.fd.toNat = c
      obtain ⟨readable,writable,err,hup⟩ := c
      cases readable <;> cases writable <;> cases err <;> cases hup <;> decide

/-- A round of the poll dispatcher that ends without a fault is a scan in which no slot that
`poll` reported has become free, under callbacks that do what those of the round do. -/
theorem pollDispatch_scans {reports : ℕ → Conditions} {outcomes : ℕ → Outcome}
    {s : LoopState PollKernel} {r : Round PollKernel}
    (hsize : s.data.data.eventSet.length = initPollSize)
    (h : pollDispatch reports outcomes s = .ok r) :
    ∃ effects, StillRegistered effects (pollWait reports s.data.data).1 ∧
      (pollScanTable effects (pollWait reports s.data.data).1 (pollWait reports s.data.data).2).data =
        r.table := by
  have hreturns := pollWait_returns reports hsize
  have hscan : ∃ effects,
      (pollScanTable effects (pollWait reports s.data.data).1 (pollWait reports s.data.data).2).data =
        r.table ∧
      ∀ j ∈ (pollScanTable effects (pollWait reports s.data.data).1
        (pollWait reports s.data.data).2).reads, j < initPollSize := by
    simp only [pollDispatch] at h
    split at h
    next hzero =>
      obtain rfl := Except.ok.inj h
      refine ⟨fun _ => [],?_,?_⟩
      · rw [pollScanTable, if_pos hzero]
        rfl
      · rw [pollScanTable, if_pos hzero]
        exact List.forall_mem_nil _
    next hsome =>
      obtain ⟨effects,hscan⟩ := pollScan_scansTo h
      obtain ⟨hdata,hreads⟩ := hscan [] []
      refine ⟨effects,?_,?_⟩
      · rw [pollScanTable, if_neg hsome]
        exact hdata
      · rw [pollScanTable, if_neg hsome]
        intro j hj
        exact hreturns.size ▸ (hreads j hj).resolve_left List.not_mem_nil
  obtain ⟨effects,hdata,hreads⟩ := hscan
  refine ⟨effects,?_,hdata⟩
  by_contra hfreed
  exact lt_irrefl _ (hreads _ (reads_behind hreturns hfreed))

end CppExamples.HttpTest
