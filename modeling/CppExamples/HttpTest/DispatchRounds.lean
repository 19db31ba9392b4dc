import CppExamples.HttpTest.DispatchEvents

/-! # Whole rounds of the two dispatchers

Both rounds serve descriptors one after the other, `epoll_dispatch` those that
`epoll_wait` returned and `poll_dispatch` those of the slots in their order, although
its table changes under the loop.
-/
namespace CppExamples.HttpTest
open PendingList Slots Relation Machine
variable {δ : Type*} {backend : Backend δ} {free watched : δ → ℕ → Prop}
  {channels : ℕ → Channel} {todo : List ℕ} {fd : ℕ}

def Conditions.any (c : Conditions) : Bool := c.readable || c.writable || c.err || c.hup

def Round.openSet (backend : Backend δ) (r : Round δ) : Set ℕ :=
  {x | backend.openFiles r.state.data x ≠ none}

def descriptors (connections : List Connection) : Set ℕ :=
  {x | ∃ c ∈ connections, c.connectedFd = x}

theorem Round.Effect.openSet {r r' : Round δ} {kinds : List EventKind}
    {connections : List Connection} (h : r.Effect backend fd kinds connections r') :
    r'.openSet backend = r.openSet backend ∪ descriptors connections :=
  Set.ext h.opened

/-- How one event of a round ends, and what it has then invoked and opened or closed. -/
structure Serving (backend : Backend δ) (free watched : δ → ℕ → Prop) (channels : ℕ → Channel)
    (event : Round δ → ℕ → Except Fault (Round δ)) (crash hang : ℕ → Prop)
    (kinds : ℕ → List EventKind) (files : ℕ → Set ℕ → Set ℕ) : Prop where
  crashes : ∀ fd todo r, fd ∉ todo → Serves free watched channels (fd :: todo) r.state →
    crash fd → event r fd = .error .nullChannel
  hangs : ∀ fd todo r, fd ∉ todo → Serves free watched channels (fd :: todo) r.state →
    hang fd → event r fd = .error .hung
  serves : ∀ fd todo r, fd ∉ todo → Serves free watched channels (fd :: todo) r.state →
    ¬ crash fd → ¬ hang fd →
    ∃ r', event r fd = .ok r' ∧ Serves free watched channels todo r'.state ∧
      r'.invoked = r.invoked ++ (kinds fd).map (Prod.mk fd) ∧
      r'.openSet backend = files fd (r.openSet backend)

section Fold
variable {event : Round δ → ℕ → Except Fault (Round δ)} {crash hang : ℕ → Prop}
  {kinds : ℕ → List EventKind} {files : ℕ → Set ℕ → Set ℕ}

theorem Serving.fold_serves
    (hs : Serving backend free watched channels event crash hang kinds files)
    {r : Round δ} (hnodup : todo.Nodup) (h : Serves free watched channels todo r.state)
    (hback : ∀ fd ∈ todo, ¬ crash fd ∧ ¬ hang fd) :
    ∃ r', todo.foldlM event r = .ok r' ∧
      r'.invoked = r.invoked ++ todo.flatMap (fun fd => (kinds fd).map (Prod.mk fd)) ∧
      r'.openSet backend = todo.foldl (fun s fd => files fd s) (r.openSet backend) := by
  induction todo generalizing r with
  | nil => exact ⟨r,rfl,by simp,rfl⟩
  | cons fd todo ih =>
    obtain ⟨hnot,hnodup⟩ := List.nodup_cons.mp hnodup
    obtain ⟨hcrash,hhang⟩ := hback fd List.mem_cons_self
    obtain ⟨r₁,hr₁,hserves,hinvoked,hopen⟩ := hs.serves fd todo r hnot h hcrash hhang
    obtain ⟨r₂,hr₂,hinvoked₂,hopen₂⟩ :=
      ih hnodup hserves fun x hx => hback x (List.mem_cons_of_mem _ hx)
    refine ⟨r₂,?_,?_,?_⟩
    · rw [List.foldlM_cons, hr₁]
      exact hr₂
    · rw [hinvoked₂, hinvoked, List.flatMap_cons, List.append_assoc]
    · rw [hopen₂, hopen, List.foldl_cons]

/-- The descriptors whose turn comes: no callback of one before them keeps the loop. -/
def reached (hang : ℕ → Prop) [DecidablePred hang] (todo : List ℕ) : List ℕ :=
  todo.takeWhile fun fd => ¬ hang fd

theorem reached_cons_of_hang [DecidablePred hang] (h : hang fd) : reached hang (fd :: todo) = [] := by
  simp [reached, h]

theorem reached_cons [DecidablePred hang] (h : ¬ hang fd) :
    reached hang (fd :: todo) = fd :: reached hang todo := by
  simp [reached, h]

theorem mem_of_mem_reached [DecidablePred hang] (h : fd ∈ reached hang todo) : fd ∈ todo :=
  (List.takeWhile_prefix _).mem h

/-- The loop follows a null entry exactly when the turn of an event that crashes comes. -/
theorem Serving.fold_ne_null
    (hs : Serving backend free watched channels event crash hang kinds files)
    [DecidablePred hang] {r : Round δ} (hnodup : todo.Nodup)
    (h : Serves free watched channels todo r.state) :
    todo.foldlM event r ≠ .error .nullChannel ↔ ∀ fd ∈ reached hang todo, ¬ crash fd := by
  induction todo generalizing r with
  | nil => simp [reached, pure, Except.pure]
  | cons fd todo ih =>
    obtain ⟨hnot,hnodup⟩ := List.nodup_cons.mp hnodup
    rw [List.foldlM_cons]
    by_cases hhang : hang fd
    · rw [hs.hangs fd todo r hnot h hhang, reached_cons_of_hang hhang]
      simp [bind, Except.bind]
    · rw [reached_cons hhang, List.forall_mem_cons]
      by_cases hcrash : crash fd
      · rw [hs.crashes fd todo r hnot h hcrash]
        simp [bind, Except.bind, hcrash]
      · obtain ⟨r',hr',hserves,-,-⟩ := hs.serves fd todo r hnot h hcrash hhang
        rw [hr', and_iff_right hcrash]
        exact ih hnodup hserves

end Fold

section Epoll
variable {reports : ℕ → Conditions} {outcomes : ℕ → Outcome}

theorem epollBackend_lawful :
    epollBackend.Lawful (fun d x => d.interest x = none) fun d x => d.interest x ≠ none where
  add d channel fd hfd hopen hfree := by
    obtain ⟨hpos,hnat⟩ : 0 ≤ channel.fd ∧ channel.fd.toNat = fd := by omega
    have hok : 0 ≤ channel.fd ∧ d.openFiles channel.fd.toNat ≠ none ∧
        d.interest channel.fd.toNat = none := by
      rw [hnat]
      exact ⟨hpos,hopen,hfree⟩
    refine ⟨_,if_pos hok,rfl,?_⟩
    intro x hx
    simp [hnat, hx]
  del d channel fd hfd hwatched := by
    obtain ⟨hpos,hnat⟩ : 0 ≤ channel.fd ∧ channel.fd.toNat = fd := by omega
    have hok : 0 ≤ channel.fd ∧ d.interest channel.fd.toNat ≠ none := by
      rw [hnat]
      exact ⟨hpos,hwatched⟩
    refine ⟨_,if_pos hok,rfl,by simp [hnat],?_⟩
    intro x hx
    simp [hnat, hx]
  opened d fd file := ⟨rfl,fun x => ⟨id,id⟩⟩

/-- `epoll_dispatch` closes a descriptor with an error or a hang-up. -/
def Conditions.closes (c : Conditions) : Bool := c.err || c.hup

variable (reports) in
theorem epollEvent_serving (hsized : ∀ fd, (outcomes fd).Sized) :
    Serving epollBackend (fun d x => d.interest x = none) (fun d x => d.interest x ≠ none) channels
      (epollEvent reports outcomes)
      (fun fd => (reports fd).closes = false ∧
        (outcomes fd).Crashes (channels fd) (reports fd).readable (reports fd).writable)
      (fun fd => (reports fd).closes = false ∧
        (outcomes fd).Hangs (channels fd) (reports fd).readable (reports fd).writable)
      (fun fd => if (reports fd).closes then []
        else (channels fd).invokes (reports fd).readable (reports fd).writable)
      (fun fd s => if (reports fd).closes then s \ {fd}
        else s ∪ descriptors
          (if (reports fd).readable then (outcomes fd).establishes (channels fd) else [])) where
  crashes fd todo r hnot h hcrash := by
    have hc : ((reports fd).err || (reports fd).hup) = false := hcrash.1
    simp only [epollEvent, hc, Bool.false_eq_true, if_false]
    exact (r.activateReported_spec epollBackend_lawful (hsized fd) h hnot _ _).1 hcrash.2
  hangs fd todo r hnot h hhang := by
    have hc : ((reports fd).err || (reports fd).hup) = false := hhang.1
    simp only [epollEvent, hc, Bool.false_eq_true, if_false]
    exact (r.activateReported_spec epollBackend_lawful (hsized fd) h hnot _ _).2.1 hhang.2
  serves fd todo r hnot h hcrash hhang := by
    cases hc : (reports fd).closes with
    | true =>
      have hc' : ((reports fd).err || (reports fd).hup) = true := hc
      have hne : ∀ y ∈ todo, y ≠ fd := fun y hy he => hnot (he ▸ hy)
      simp only [epollEvent, hc', if_true]
      refine ⟨_,rfl,⟨h.tail.entry,?_,h.descriptor,?_⟩,by simp,?_⟩
      · intro y hy
        simpa [EpollData.close, hne y hy] using h.tail.watched y hy
      · intro y hy
        by_cases hyf : y = fd
        · simp [EpollData.close, hyf]
        · simpa [EpollData.close, hyf] using h.free y hy
      · ext x
        by_cases hx : x = fd <;> simp [Round.openSet, epollBackend, EpollData.close, hx]
    | false =>
      have hc' : ((reports fd).err || (reports fd).hup) = false := hc
      simp only [epollEvent, hc', Bool.false_eq_true, if_false]
      obtain ⟨r',hr',hserves,heffect⟩ := (r.activateReported_spec epollBackend_lawful (hsized fd)
        h hnot _ _).2.2 (fun hcr => hcrash ⟨hc,hcr⟩) fun hh => hhang ⟨hc,hh⟩
      exact ⟨r',hr',hserves,heffect.invoked,heffect.openSet⟩

end Epoll

section Poll
variable {reports : ℕ → Conditions} {outcomes : ℕ → Outcome}

theorem pollBackend_lawful : pollBackend.Lawful (fun _ _ => True) fun _ _ => True where
  add _ _ _ _ _ _ := ⟨_,rfl,rfl,fun _ _ => ⟨id,id⟩⟩
  del _ _ _ _ _ := ⟨_,rfl,rfl,trivial,fun _ _ => ⟨id,id⟩⟩
  opened _ _ _ := ⟨rfl,fun _ => ⟨id,id⟩⟩

/-- The body of the loop in `poll_dispatch`, for a slot with something to report. -/
def pollEvent (reports : ℕ → Conditions) (outcomes : ℕ → Outcome) (r : Round PollKernel) (fd : ℕ) :
    Except Fault (Round PollKernel) :=
  r.activateReported pollBackend (outcomes fd) (reports fd).readable (reports fd).writable fd

variable (reports) in
theorem pollEvent_serving (hsized : ∀ fd, (outcomes fd).Sized) :
    Serving pollBackend (fun _ _ => True) (fun _ _ => True) channels (pollEvent reports outcomes)
      (fun fd => (outcomes fd).Crashes (channels fd) (reports fd).readable (reports fd).writable)
      (fun fd => (outcomes fd).Hangs (channels fd) (reports fd).readable (reports fd).writable)
      (fun fd => (channels fd).invokes (reports fd).readable (reports fd).writable)
      (fun fd s => s ∪ descriptors
        (if (reports fd).readable then (outcomes fd).establishes (channels fd) else [])) where
  crashes fd todo r hnot h hcrash :=
    (r.activateReported_spec pollBackend_lawful (hsized fd) h hnot _ _).1 hcrash
  hangs fd todo r hnot h hhang :=
    (r.activateReported_spec pollBackend_lawful (hsized fd) h hnot _ _).2.1 hhang
  serves fd todo r hnot h hcrash hhang := by
    obtain ⟨r',hr',hserves,heffect⟩ :=
      (r.activateReported_spec pollBackend_lawful (hsized fd) h hnot _ _).2.2 hcrash hhang
    exact ⟨r',hr',hserves,heffect.invoked,heffect.openSet⟩

theorem pollRevents_neg {fd : ℤ} (h : fd < 0) : pollRevents reports fd = 0 := if_pos h

theorem pollRevents_natCast (reports : ℕ → Conditions) (fd : ℕ) :
    pollRevents reports fd = (reports fd).pollBits :=
  if_neg (by omega)

theorem Conditions.pollBits_spec (c : Conditions) :
    (c.pollBits ≠ 0 ↔ c.any) ∧ (0 < c.pollBits.toInt ↔ c.any) ∧
      decide (c.pollBits &&& pollRdNorm ≠ 0) = c.readable ∧
      decide (c.pollBits &&& pollWrNorm ≠ 0) = c.writable := by
  rcases c with ⟨readable,writable,err,hup⟩
  cases readable <;> cases writable <;> cases err <;> cases hup <;> decide

def pollReady (reports : ℕ → Conditions) (slots : List PollFd) : List ℕ :=
  ((slots.filterMap PollFd.entry).map Prod.fst).filter fun fd => (reports fd).any

theorem pollReady_neg {slot : PollFd} {slots : List PollFd} (h : slot.fd < 0) :
    pollReady reports (slot :: slots) = pollReady reports slots := by
  have he : slot.entry = none := PollFd.entry_eq_none.mpr h
  rw [pollReady, List.filterMap_cons_none he, pollReady]

theorem pollReady_cons {slot : PollFd} {slots : List PollFd} {fd : ℕ} (h : slot.fd = fd) :
    pollReady reports (slot :: slots) =
      if (reports fd).any then fd :: pollReady reports slots else pollReady reports slots := by
  obtain ⟨events,he⟩ := PollFd.entry_eq_some.mp h
  rw [pollReady, List.filterMap_cons_some he, List.map_cons, List.filter_cons, pollReady]

def written (reports : ℕ → Conditions) (slot : PollFd) : PollFd :=
  { slot with revents := pollRevents reports slot.fd }

theorem pollWait_eq (reports : ℕ → Conditions) (data : PollData) :
    pollWait reports data =
      (⟨data.eventSet.map (written reports)⟩, (pollReady reports data.eventSet).length) := by
  have hcount : ∀ slots : List PollFd,
      ((slots.map (written reports)).countP fun slot => slot.revents ≠ 0) =
        (pollReady reports slots).length := by
    intro slots
    induction slots with
    | nil => rfl
    | cons slot slots ih =>
      rw [List.map_cons, List.countP_cons, ih]
      by_cases hneg : slot.fd < 0
      · rw [pollReady_neg hneg]
        simp [written, pollRevents_neg hneg]
      · obtain ⟨fd,hfd⟩ := Int.eq_ofNat_of_zero_le (not_lt.mp hneg)
        rw [pollReady_cons hfd]
        have hbits := (reports fd).pollBits_spec.1
        simp only [written, hfd, pollRevents_natCast, decide_eq_true_iff, hbits]
        cases (reports fd).any <;> simp
  exact Prod.ext rfl (hcount data.eventSet)

/-- A slot behind the index of the loop: it is as `poll` has left it, or was free and has
nothing to report. -/
def Later (reports : ℕ → Conditions) (slot slot' : PollFd) : Prop :=
  slot' = written reports slot ∨ slot.fd < 0 ∧ slot'.revents = 0

/-- The table when the loop has reached a slot, with the slots from there on. -/
def Scanned (reports : ℕ → Conditions) (i : ℕ) (slots : List PollFd) (kernel : PollKernel) : Prop :=
  ∃ front back, kernel.data.eventSet = front ++ back ∧ front.length = i ∧
    List.Forall₂ (Later reports) slots back

theorem Scanned.modifyFirst {i : ℕ} {slots : List PollFd} {kernel : PollKernel}
    (h : Scanned reports i slots kernel) {p : PollFd → Bool} {f : PollFd → PollFd}
    (hf : ∀ slot ∈ slots, ∀ slot', Later reports slot slot' → p slot' = true →
      slot.fd < 0 ∧ (f slot').revents = 0) :
    Scanned reports i slots { kernel with data := ⟨modifyFirst p f kernel.data.eventSet⟩ } := by
  obtain ⟨front,back,he,hi,hback⟩ := h
  rcases modifyFirst_append p f front back with hm | hm
  · exact ⟨_,back,by rw [he, hm],by rw [modifyFirst_length, hi],hback⟩
  · exact ⟨front,_,by rw [he, hm],hi,forall₂_modifyFirst hback fun slot hslot slot' hl hp =>
      Or.inr (hf slot hslot slot' hl hp)⟩

theorem Scanned.change {i : ℕ} {slots : List PollFd} {kernel kernel' : PollKernel}
    (h : Scanned reports i slots kernel) (hne : ∀ slot ∈ slots, slot.fd ≠ fd)
    (hchange : pollBackend.Change fd kernel kernel') : Scanned reports i slots kernel' := by
  cases hchange with
  | add channel result hadd =>
    obtain ⟨rfl,-⟩ := Prod.mk.inj (Option.some.inj hadd)
    refine h.modifyFirst ?_
    rintro slot - slot' (rfl | ⟨hfd,hrevents⟩) hfree
    · have hneg : slot.fd < 0 := of_decide_eq_true hfree
      exact ⟨hneg,pollRevents_neg hneg⟩
    · exact ⟨hfd,hrevents⟩
  | del channel result hfd hdel =>
    obtain ⟨rfl,-⟩ := Prod.mk.inj (Option.some.inj hdel)
    refine h.modifyFirst ?_
    rintro slot hslot slot' (rfl | ⟨hneg,hrevents⟩) hfound
    · have he : slot.fd = channel.fd := of_decide_eq_true hfound
      exact absurd (he.trans hfd) (hne slot hslot)
    · exact ⟨hneg,hrevents⟩
  | opened x file => exact h

theorem Scanned.changes {i : ℕ} {slots : List PollFd} {kernel kernel' : PollKernel}
    (h : Scanned reports i slots kernel) (hne : ∀ slot ∈ slots, slot.fd ≠ fd)
    (hchanges : ReflTransGen (pollBackend.Change fd) kernel kernel') :
    Scanned reports i slots kernel' := by
  induction hchanges with
  | refl => exact h
  | tail _ hchange ih => exact ih.change hne hchange

theorem Scanned.next {i : ℕ} {slot : PollFd} {slots : List PollFd} {kernel : PollKernel}
    (h : Scanned reports i (slot :: slots) kernel) :
    ∃ slot', kernel.data.eventSet[i]? = some slot' ∧ Later reports slot slot' ∧
      Scanned reports (i + 1) slots kernel := by
  obtain ⟨front,back,he,rfl,hback⟩ := h
  obtain ⟨slot',back,hlater,hrest,rfl⟩ := List.forall₂_cons_left_iff.mp hback
  refine ⟨slot',?_,hlater,front ++ [slot'],back,?_,?_,hrest⟩
  · rw [he, List.getElem?_append_right le_rfl, Nat.sub_self, List.getElem?_cons_zero]
  · rw [he, List.append_assoc, List.singleton_append]
  · rw [List.length_append, List.length_singleton]

/-- The loop of `poll_dispatch` serves the ready descriptors one after the other, and
stops before the end of the table. -/
theorem pollScan_eq (hsized : ∀ fd, (outcomes fd).Sized) {slots : List PollFd} {i : ℕ}
    {r : Round PollKernel} (hscan : Scanned reports i slots r.state.data)
    (hdistinct : ((slots.filterMap PollFd.entry).map Prod.fst).Nodup)
    (hserves : Serves (fun _ _ => True) (fun _ _ => True) channels (pollReady reports slots) r.state)
    (hready : pollReady reports slots ≠ []) :
    pollScan outcomes (slots.length + 1) i (pollReady reports slots).length r =
      (pollReady reports slots).foldlM (pollEvent reports outcomes) r := by
  induction slots generalizing i r with
  | nil => exact absurd rfl hready
  | cons slot slots ih =>
    obtain ⟨slot',hslot,hlater,hscan⟩ := hscan.next
    rw [List.length_cons, pollScan, hslot]
    by_cases hneg : slot.fd < 0
    · -- the slot is free, or one that was taken during this round
      have hskip : slot'.fd < 0 ∨ ¬ 0 < slot'.revents.toInt := by
        rcases hlater with rfl | ⟨-,hrevents⟩
        · exact Or.inl hneg
        · exact Or.inr (by rw [hrevents]; decide)
      rw [pollReady_neg hneg] at hserves hready ⊢
      rw [PollFd.entry_eq_none.mpr hneg |> List.filterMap_cons_none] at hdistinct
      rw [← ih hscan hdistinct hserves hready]
      by_cases hfree : slot'.fd < 0
      · simp only [hfree, if_true]
      · simp only [hfree, hskip.resolve_left hfree, if_false]
    · obtain ⟨fd,hfd⟩ := Int.eq_ofNat_of_zero_le (not_lt.mp hneg)
      obtain rfl := hlater.resolve_right fun h => hneg h.1
      obtain ⟨events,hentry⟩ := PollFd.entry_eq_some.mp hfd
      rw [List.filterMap_cons_some hentry, List.map_cons, List.nodup_cons] at hdistinct
      obtain ⟨-,hany,hread,hwrite⟩ := (reports fd).pollBits_spec
      have hpos : ¬ (fd : ℤ) < 0 := by omega
      simp only [written, hfd, hpos, if_false, pollRevents_natCast, Int.toNat_natCast]
      rw [pollReady_cons hfd] at hserves hready ⊢
      cases hc : (reports fd).any with
      | false =>
        have hnone : ¬ 0 < (reports fd).pollBits.toInt := by rw [hany, hc]; decide
        simp only [hc, Bool.false_eq_true, if_false] at hserves hready ⊢
        rw [if_neg hnone]
        exact ih hscan hdistinct.2 hserves hready
      | true =>
        have hsome : 0 < (reports fd).pollBits.toInt := hany.mpr hc
        simp only [hc, if_true] at hserves ⊢
        rw [if_pos hsome, hread, hwrite, List.foldlM_cons, List.length_cons]
        have hnot : fd ∉ pollReady reports slots := fun h => hdistinct.1 (List.mem_of_mem_filter h)
        have hspec := r.activateReported_spec pollBackend_lawful (hsized fd) hserves hnot
          (reports fd).readable (reports fd).writable
        by_cases hcrash : (outcomes fd).Crashes (channels fd) (reports fd).readable
            (reports fd).writable
        · rw [pollEvent, hspec.1 hcrash]
          rfl
        by_cases hhang : (outcomes fd).Hangs (channels fd) (reports fd).readable
            (reports fd).writable
        · rw [pollEvent, hspec.2.1 hhang]
          rfl
        · obtain ⟨r',hr',hserves',heffect⟩ := hspec.2.2 hcrash hhang
          rw [pollEvent, hr']
          change (if (pollReady reports slots).length + 1 ≤ 1 then _ else _) = _
          by_cases hlast : pollReady reports slots = []
          · rw [hlast]
            rfl
          · have hmore : ¬ (pollReady reports slots).length + 1 ≤ 1 := by
              have := List.length_pos_of_ne_nil hlast
              omega
            have hne : ∀ slot ∈ slots, slot.fd ≠ fd := by
              intro s hs he
              obtain ⟨events',he'⟩ := PollFd.entry_eq_some.mp he
              exact hdistinct.1 (List.mem_map.mpr ⟨_,List.mem_filterMap.mpr ⟨s,hs,he'⟩,rfl⟩)
            rw [if_neg hmore]
            exact ih (hscan.changes hne heffect.changes) hdistinct.2 hserves' hlast

end Poll

section Rounds
variable {reports : ℕ → Conditions} {outcomes : ℕ → Outcome} {w : PollLoop}
  {files : ℕ → Option File} {e : LoopState EpollData} {order : List ℕ}

/-- The channel registered for a descriptor, if there is one. -/
def ChannelMap.channelAt (map : ChannelMap) (fd : ℕ) : Channel :=
  (map.lookup fd).getD (connectionChannel fd 0)

theorem ChannelMap.lookup_channelAt {map : ChannelMap} (h : map.lookup fd ≠ none) :
    map.lookup fd = some (map.channelAt fd) := by
  obtain ⟨channel,hchannel⟩ := Option.ne_none_iff_exists'.mp h
  rw [channelAt, hchannel, Option.getD_some]

theorem ChannelMap.channelAt_of_lookup {map : ChannelMap} {channel : Channel}
    (h : map.lookup fd = some channel) : map.channelAt fd = channel := by
  rw [channelAt, h, Option.getD_some]

def PollLoop.kernel (w : PollLoop) (files : ℕ → Option File) : LoopState PollKernel :=
  ⟨w.state.map,⟨w.state.data,files⟩⟩

/-- When the kernel has written the table. -/
def PollLoop.start (w : PollLoop) (files : ℕ → Option File) (reports : ℕ → Conditions) :
    Round PollKernel :=
  ⟨⟨w.state.map,⟨⟨w.state.data.eventSet.map (written reports)⟩,files⟩⟩,[],[]⟩

theorem PollLoop.Invariant.mem_ready (hw : w.Invariant) :
    fd ∈ pollReady reports w.state.data.eventSet ↔
      w.state.map.lookup fd ≠ none ∧ (reports fd).any = true := by
  rw [pollReady, List.mem_filter, hw.table.key_mem, hw.entries, ne_eq, ne_eq,
    Option.map_eq_none_iff]

theorem PollLoop.Invariant.ready_nodup (hw : w.Invariant) :
    (pollReady reports w.state.data.eventSet).Nodup :=
  hw.table.distinct.filter _

theorem PollLoop.Invariant.serves (hw : w.Invariant) :
    Serves (fun _ _ => True) (fun _ _ => True) w.state.map.channelAt
      (pollReady reports w.state.data.eventSet) (w.start files reports).state where
  entry _ hfd := ChannelMap.lookup_channelAt (hw.mem_ready.mp hfd).1
  watched _ _ := trivial
  descriptor := hw.descriptor
  free _ _ := trivial

theorem PollLoop.Invariant.dispatch_eq (hw : w.Invariant) (hsized : ∀ fd, (outcomes fd).Sized) :
    pollDispatch reports outcomes (w.kernel files) =
      (pollReady reports w.state.data.eventSet).foldlM (pollEvent reports outcomes)
        (w.start files reports) := by
  have hscan : Scanned reports 0 w.state.data.eventSet (w.start files reports).state.data :=
    ⟨[],_,rfl,rfl,List.forall₂_map_right_iff.mpr (List.forall₂_same.mpr fun _ _ => Or.inl rfl)⟩
  simp only [pollDispatch, PollLoop.kernel, pollWait_eq]
  by_cases hready : pollReady reports w.state.data.eventSet = []
  · rw [hready]
    rfl
  · rw [if_neg (by rwa [List.length_eq_zero_iff]), ← hw.size]
    exact pollScan_eq hsized hscan hw.table.distinct hw.serves hready

/-- Channels are registered under their descriptors, and `epoll` watches no others. -/
structure Watches (e : LoopState EpollData) : Prop where
  descriptor : ∀ fd channel, e.map.lookup fd = some channel → channel.fd = fd
  watched : ∀ fd, e.data.interest fd ≠ none → e.map.lookup fd ≠ none

theorem Watches.serves (he : Watches e) (horder : ∀ fd ∈ order, e.data.interest fd ≠ none) :
    Serves (fun d x => d.interest x = none) (fun d x => d.interest x ≠ none) e.map.channelAt
      (order.take maxEvents) (Round.mk e [] []).state where
  entry fd hfd := ChannelMap.lookup_channelAt
    (he.watched fd (horder fd (List.mem_of_mem_take hfd)))
  watched fd hfd := horder fd (List.mem_of_mem_take hfd)
  descriptor := he.descriptor
  free fd hfd := by
    by_contra hwatched
    exact he.watched fd hwatched hfd

/-- Callbacks that neither end nor establish a connection. -/
def quiet : Outcome := ⟨true,none,none,⟨-1,0⟩,false,[],fun _ => true⟩

theorem quiet_sized : quiet.Sized := ⟨by decide,by simp [quiet]⟩

/-- The callbacks that are invoked for the given bits come back, and the channel is there
for all of them. -/
def Outcome.Returns (o : Outcome) (channel : Channel) (readable writable : Bool) : Prop :=
  ¬ o.Crashes channel readable writable ∧ ¬ o.Hangs channel readable writable

theorem quiet_returns (channel : Channel) (readable writable : Bool) :
    quiet.Returns channel readable writable := by
  constructor
  · rintro ⟨-,-,-,hend⟩
    cases hend
  · rintro (⟨-,-,-,hswitch,-⟩ | ⟨-,⟨-,hswitch,-⟩,-⟩) <;> exact hswitch rfl

theorem quiet_descriptors (channel : Channel) (readable : Bool) :
    descriptors (if readable then quiet.establishes channel else []) = ∅ := by
  have hno : descriptors (quiet.establishes channel) = ∅ := by
    simp only [Outcome.establishes, quiet]
    split
    · simp [descriptors]
    · refine Set.eq_empty_of_forall_notMem fun x hx => ?_
      obtain ⟨c,hc,hx⟩ := hx
      have he : c = ⟨-1,0⟩ := by simpa using hc
      rw [he] at hx
      have hneg : (-1 : ℤ) = x := hx
      omega
    · simp [descriptors]
  cases readable
  · simp [descriptors]
  · rw [if_pos rfl, hno]

def busyChannel (fd : ℕ) : Channel :=
  channelNew fd (eventRead ||| eventWrite) (some .handleRead) (some .handleWrite) (.tcpConnection fd)

def busyOps : List PendingOp := [⟨.add,busyChannel 5,true⟩,⟨.add,busyChannel 6,true⟩]

def busyFiles (fd : ℕ) : Option File := if fd = 5 ∨ fd = 6 then some (.connection fd) else none

def busyEpoll (map : ChannelMap) : LoopState EpollData :=
  ⟨map,⟨busyFiles,fun fd => if fd = 5 ∨ fd = 6 then some (epollEvents (busyChannel fd)) else none⟩⟩

theorem busyLoop : ∃ w os, run PollLoop.step (PollLoop.empty fun _ => ⟨0,0,0⟩) busyOps =
      some (w, os) ∧ w.Invariant ∧
    ∀ fd, w.state.map.lookup fd = if fd = 5 ∨ fd = 6 then some (busyChannel fd) else none := by
  let map : ChannelMap :=
    ⟨Function.update (Function.update (fun _ => none) 5 (some (busyChannel 5))) 6
      (some (busyChannel 6)),32⟩
  have hmap : (run PollLoop.step (PollLoop.empty fun _ => ⟨0,0,0⟩) busyOps).map
      (fun r => r.1.state.map) = some map := rfl
  have hok : Admits PollLoop.step PollLoop.Allowed (PollLoop.empty fun _ => ⟨0,0,0⟩) busyOps := by
    refine ⟨⟨by simp,PollLoop.room_of_nentries rfl,by simp [busyChannel, channelNew]⟩,?_⟩
    intro r hr
    obtain rfl := Option.some.inj hr
    exact ⟨⟨by simp,PollLoop.room_of_nentries rfl,by simp [busyChannel, channelNew]⟩,fun _ _ => trivial⟩
  have hstep : ∀ (u : PollLoop) (op : PendingOp), u.Invariant → u.Allowed op →
      ∃ v o, u.step op = some (v, o) ∧ v.Invariant ∧ True := by
    intro u op hu hop
    obtain ⟨v,hv,hinv,-⟩ := hu.step hop
    exact ⟨v,op,hv,hinv,trivial⟩
  obtain ⟨w,os,hrun,hinv,-⟩ := run_total hstep (PollLoop.invariant_empty _) hok
  rw [hrun] at hmap
  have hw : w.state.map = map := Option.some.inj hmap
  refine ⟨w,os,hrun,hinv,fun fd => ?_⟩
  rw [hw, ChannelMap.lookup]
  by_cases h5 : fd = 5
  · simp [h5, map]
  · by_cases h6 : fd = 6 <;> simp [h5, h6, map]

def reportedOn (fd : ℕ) (c : Conditions) (x : ℕ) : Conditions :=
  if x = fd then c else ⟨false,false,false,false⟩

/-- No call of `channel_event_activate` in a round of either dispatcher finds a null
entry, exactly when no descriptor whose turn comes is reported both readable and writable
and has a connection that ends in its read callback. -/
theorem dispatch_findsChannel (hw : w.Invariant) (he : Watches e)
    (hsized : ∀ fd, (outcomes fd).Sized) (hnodup : order.Nodup)
    (horder : ∀ fd ∈ order, e.data.interest fd ≠ none) :
    (pollDispatch reports outcomes (w.kernel files) ≠ .error .nullChannel ↔
      ∀ fd ∈ reached (fun fd => (outcomes fd).Hangs (w.state.map.channelAt fd)
          (reports fd).readable (reports fd).writable) (pollReady reports w.state.data.eventSet),
        ∀ channel, w.state.map.lookup fd = some channel →
          ¬ (outcomes fd).Crashes channel (reports fd).readable (reports fd).writable) ∧
    (epollDispatch reports outcomes order e ≠ .error .nullChannel ↔
      ∀ fd ∈ reached (fun fd => (reports fd).closes = false ∧ (outcomes fd).Hangs
          (e.map.channelAt fd) (reports fd).readable (reports fd).writable) (order.take maxEvents),
        ∀ channel, e.map.lookup fd = some channel → (reports fd).closes = false →
          ¬ (outcomes fd).Crashes channel (reports fd).readable (reports fd).writable) := by
  constructor
  · rw [hw.dispatch_eq hsized,
      (pollEvent_serving reports hsized).fold_ne_null hw.ready_nodup hw.serves]
    constructor
    · intro h fd hfd channel hlook
      rw [← ChannelMap.channelAt_of_lookup hlook]
      exact h fd hfd
    · intro h fd hfd
      exact h fd hfd _ (ChannelMap.lookup_channelAt (hw.mem_ready.mp (mem_of_mem_reached hfd)).1)
  · have hserves := he.serves horder
    rw [epollDispatch, (epollEvent_serving reports hsized).fold_ne_null (hnodup.sublist
      (List.take_sublist ..)) hserves]
    constructor
    · intro h fd hfd channel hlook hopen hcrash
      exact h fd hfd ⟨hopen,by rwa [ChannelMap.channelAt_of_lookup hlook]⟩
    · rintro h fd hfd ⟨hopen,hcrash⟩
      exact h fd hfd _ (hserves.entry fd (mem_of_mem_reached hfd)) hopen hcrash

theorem busyEpoll_watches {map : ChannelMap}
    (hmap : ∀ fd, map.lookup fd = if fd = 5 ∨ fd = 6 then some (busyChannel fd) else none) :
    Watches (busyEpoll map) where
  descriptor fd channel hlook := by
    rw [show (busyEpoll map).map = map from rfl, hmap] at hlook
    split at hlook
    next =>
      cases hlook
      rfl
    next => cases hlook
  watched fd hfd := by
    rw [show (busyEpoll map).map = map from rfl, hmap]
    by_cases hmem : fd = 5 ∨ fd = 6
    · simp [hmem]
    · simp [busyEpoll, hmem] at hfd

def busyReport : Conditions := ⟨true,true,false,false⟩

theorem dispatch_findsChannel_busy :
    ∃ w os, run PollLoop.step (PollLoop.empty fun _ => ⟨0,0,0⟩) busyOps = some (w, os) ∧
      (pollDispatch (fun _ => busyReport) (fun _ => quiet) (w.kernel busyFiles) ≠
          .error .nullChannel ↔
        ∀ fd ∈ reached (fun fd => quiet.Hangs (w.state.map.channelAt fd) busyReport.readable
            busyReport.writable) (pollReady (fun _ => busyReport) w.state.data.eventSet),
          ∀ channel, w.state.map.lookup fd = some channel →
            ¬ quiet.Crashes channel busyReport.readable busyReport.writable) ∧
      (epollDispatch (fun _ => busyReport) (fun _ => quiet) [6,5] (busyEpoll w.state.map) ≠
          .error .nullChannel ↔
        ∀ fd ∈ reached (fun fd => busyReport.closes = false ∧
            quiet.Hangs ((busyEpoll w.state.map).map.channelAt fd) busyReport.readable
              busyReport.writable) ([6,5].take maxEvents),
          ∀ channel, (busyEpoll w.state.map).map.lookup fd = some channel →
            busyReport.closes = false →
            ¬ quiet.Crashes channel busyReport.readable busyReport.writable) := by
  obtain ⟨w,os,hrun,hinv,hmap⟩ := busyLoop
  have horder : ∀ fd ∈ [6,5], (busyEpoll w.state.map).data.interest fd ≠ none := by
    simp [busyEpoll]
  exact ⟨w,os,hrun,dispatch_findsChannel hinv (busyEpoll_watches hmap) (fun _ => quiet_sized)
    (by decide) horder⟩

/-- The same connection when its peer has closed it. -/
def ended : Outcome := { quiet with received := false }

theorem ended_crashes : ended.Crashes (busyChannel 5) busyReport.readable busyReport.writable :=
  ⟨rfl,rfl,rfl,rfl⟩

theorem pollReady_reportedOn (hw : w.Invariant) {c : Conditions} (hc : c.any = true)
    (hlook : w.state.map.lookup fd ≠ none) :
    pollReady (reportedOn fd c) w.state.data.eventSet = [fd] := by
  refine List.perm_singleton.mp ((List.perm_ext_iff_of_nodup hw.ready_nodup
    (List.nodup_singleton fd)).mpr fun x => ?_)
  rw [hw.mem_ready, List.mem_singleton]
  by_cases hx : x = fd
  · subst hx
    simp [reportedOn, hc, hlook]
  · simp [reportedOn, hx, Conditions.any]

theorem dispatch_followsNull :
    ∃ w os, run PollLoop.step (PollLoop.empty fun _ => ⟨0,0,0⟩) busyOps = some (w, os) ∧
      pollDispatch (reportedOn 5 busyReport) (fun _ => ended) (w.kernel busyFiles) =
        .error .nullChannel ∧
      epollDispatch (reportedOn 5 busyReport) (fun _ => ended) [5] (busyEpoll w.state.map) =
        .error .nullChannel := by
  obtain ⟨w,os,hrun,hinv,hmap⟩ := busyLoop
  have hsized : ∀ _ : ℕ, ended.Sized := fun _ => quiet_sized
  have hlook : w.state.map.lookup 5 = some (busyChannel 5) := hmap 5
  have hcrash : ended.Crashes (w.state.map.channelAt 5) busyReport.readable
      busyReport.writable := by
    rw [ChannelMap.channelAt_of_lookup hlook]
    exact ended_crashes
  have hready := pollReady_reportedOn hinv (show busyReport.any = true from rfl)
    (show w.state.map.lookup 5 ≠ none by simp [hlook])
  have hserves : Serves (fun _ _ => True) (fun _ _ => True) w.state.map.channelAt
      (pollReady (reportedOn 5 busyReport) w.state.data.eventSet)
      (w.start busyFiles (reportedOn 5 busyReport)).state := hinv.serves
  refine ⟨w,os,hrun,?_,?_⟩
  · rw [hready] at hserves
    rw [hinv.dispatch_eq hsized, hready, List.foldlM_cons,
      (pollEvent_serving _ hsized).crashes 5 [] _ List.not_mem_nil hserves hcrash]
    rfl
  · have horder : ∀ fd ∈ [5], (busyEpoll w.state.map).data.interest fd ≠ none := by
      simp [busyEpoll]
    have hwatches := (busyEpoll_watches hmap).serves horder
    rw [epollDispatch, show [5].take maxEvents = [5] from rfl, List.foldlM_cons,
      (epollEvent_serving (reportedOn 5 busyReport) hsized).crashes 5 [] _ List.not_mem_nil
        hwatches ⟨rfl,hcrash⟩]
    rfl

/-- The two rounds come to their ends, invoke the same callbacks and leave the same
descriptors open. -/
def RoundsAgree (p : Except Fault (Round PollKernel)) (q : Except Fault (Round EpollData)) : Prop :=
  match p, q with
  | .ok r, .ok r' => r.invoked.Perm r'.invoked ∧
    ∀ fd, r.state.data.openFiles fd = none ↔ r'.state.data.openFiles fd = none
  | _, _ => False

/-- The two loops have the same channels registered, all of them open and watched. -/
structure SameChannels (w : PollLoop) (files : ℕ → Option File) (e : LoopState EpollData) : Prop where
  map : e.map = w.state.map
  openFiles : e.data.openFiles = files
  isOpen : ∀ fd, w.state.map.lookup fd ≠ none → files fd ≠ none
  watched : ∀ fd, e.data.interest fd ≠ none ↔ w.state.map.lookup fd ≠ none

theorem mem_foldl_union {s : Set ℕ} {l : List ℕ} {f : ℕ → Set ℕ} {x : ℕ} :
    x ∈ l.foldl (fun s fd => s ∪ f fd) s ↔ x ∈ s ∨ ∃ fd ∈ l, x ∈ f fd := by
  induction l generalizing s with
  | nil => simp
  | cons fd l ih =>
    rw [List.foldl_cons, ih, Set.mem_union, or_assoc]
    simp

theorem mem_foldl_closed {s : Set ℕ} {l : List ℕ} {closes : ℕ → Bool} {x : ℕ} :
    x ∈ l.foldl (fun s fd => if closes fd then s \ {fd} else s) s ↔
      x ∈ s ∧ ¬ (x ∈ l ∧ closes x = true) := by
  induction l generalizing s with
  | nil => simp
  | cons fd l ih =>
    rw [List.foldl_cons, ih]
    by_cases hx : x = fd
    · subst hx
      cases hc : closes x <;> simp
    · cases hc : closes fd <;> simp [hx]

theorem Channel.invokes_of_readable {channel : Channel} {readable writable : Bool}
    (h : channel.invokes readable writable = []) :
    readable = false ∨ channel.eventReadCallback = none := by
  by_contra hno
  rw [not_or, Bool.not_eq_false] at hno
  simp [Channel.invokes, Channel.readKinds, hno] at h

theorem Channel.invokes_of_writable {channel : Channel} {readable writable : Bool}
    (h : channel.invokes readable writable = []) :
    writable = false ∨ channel.eventWriteCallback = none := by
  by_contra hno
  rw [not_or, Bool.not_eq_false] at hno
  simp [Channel.invokes, Channel.writeKinds, hno] at h

theorem SameChannels.watches (hw : w.Invariant) (hsame : SameChannels w files e) : Watches e where
  descriptor := by
    rw [hsame.map]
    exact hw.descriptor
  watched fd hfd := by
    rw [hsame.map]
    exact (hsame.watched fd).mp hfd

/-- One set of reports for both loops; `epoll` has them in the order of its ready list. -/
structure SameReports (w : PollLoop) (files : ℕ → Option File) (e : LoopState EpollData)
    (reports : ℕ → Conditions) (order : List ℕ) : Prop extends SameChannels w files e where
  nodup : order.Nodup
  mem : ∀ fd, fd ∈ order ↔ w.state.map.lookup fd ≠ none ∧ (reports fd).any = true

/-- What a descriptor needs for both dispatchers to treat it alike: it is reported
without an error or a hang-up, or it is left for the next round of `epoll_wait` and has
no callback to invoke. -/
structure Alike (w : PollLoop) (reports : ℕ → Conditions) (order : List ℕ) : Prop where
  taken : ∀ fd ∈ order.take maxEvents, (reports fd).closes = false
  left : ∀ fd ∈ order.drop maxEvents, ∀ channel, w.state.map.lookup fd = some channel →
    channel.invokes (reports fd).readable (reports fd).writable = []

namespace SameReports

theorem perm (hw : w.Invariant) (h : SameReports w files e reports order) :
    (pollReady reports w.state.data.eventSet).Perm order :=
  (List.perm_ext_iff_of_nodup hw.ready_nodup h.nodup).mpr fun fd => by rw [hw.mem_ready, h.mem]

theorem take_nodup (h : SameReports w files e reports order) : (order.take maxEvents).Nodup :=
  h.nodup.sublist (List.take_sublist ..)

theorem serves (hw : w.Invariant) (h : SameReports w files e reports order) :
    Serves (fun d x => d.interest x = none) (fun d x => d.interest x ≠ none) w.state.map.channelAt
      (order.take maxEvents) (Round.mk e [] []).state := by
  rw [← h.map]
  exact (h.watches hw).serves fun fd hfd => (h.watched fd).mpr ((h.mem fd).mp hfd).1

theorem openSet (h : SameReports w files e reports order) :
    (w.start files reports).openSet pollBackend = (Round.mk e [] []).openSet epollBackend := by
  simp only [Round.openSet, pollBackend, epollBackend, PollLoop.start, h.openFiles]

/-- With callbacks that change nothing, rounds that agree show that no descriptor was
closed and none was left out. -/
theorem alike_of_agree (hw : w.Invariant) (h : SameReports w files e reports order)
    (hagree : RoundsAgree (pollDispatch reports (fun _ => quiet) (w.kernel files))
      (epollDispatch reports (fun _ => quiet) order e)) : Alike w reports order := by
  have hsized : ∀ _ : ℕ, quiet.Sized := fun _ => quiet_sized
  obtain ⟨r,hr,hinvoked,hopen⟩ := (pollEvent_serving reports hsized).fold_serves
    hw.ready_nodup hw.serves fun fd _ => quiet_returns _ _ _
  obtain ⟨r',hr',hinvoked',hopen'⟩ := (epollEvent_serving reports hsized).fold_serves
    h.take_nodup (h.serves hw) fun fd _ =>
      ⟨fun hc => (quiet_returns _ _ _).1 hc.2,fun hh => (quiet_returns _ _ _).2 hh.2⟩
  rw [hw.dispatch_eq hsized, hr, epollDispatch, hr'] at hagree
  obtain ⟨hlog,hfiles⟩ := hagree
  simp only [quiet_descriptors, Set.union_empty, List.foldl_fixed] at hopen hopen'
  constructor
  · intro fd hfd
    by_contra hcloses
    rw [Bool.not_eq_false] at hcloses
    have hpoll : fd ∈ r.openSet pollBackend := by
      rw [hopen]
      exact h.isOpen fd ((h.mem fd).mp (List.mem_of_mem_take hfd)).1
    have hepoll : fd ∉ r'.openSet epollBackend := by
      rw [hopen', mem_foldl_closed]
      exact fun hmem => hmem.2 ⟨hfd,hcloses⟩
    exact hpoll ((hfiles fd).mpr (not_not.mp hepoll))
  · intro fd hfd channel hlook
    by_contra hne
    obtain ⟨kind,hkind⟩ := List.exists_mem_of_ne_nil _ hne
    have hmem : (fd, kind) ∈ r.invoked := by
      rw [hinvoked]
      refine List.mem_append_right _ (List.mem_flatMap.mpr ⟨fd,?_,List.mem_map.mpr ⟨kind,?_,rfl⟩⟩)
      · exact (h.perm hw).mem_iff.mpr (List.mem_of_mem_drop hfd)
      · rwa [ChannelMap.channelAt_of_lookup hlook]
    have hmem' := hlog.mem_iff.mp hmem
    rw [hinvoked', List.nil_append] at hmem'
    obtain ⟨x,hx,hx'⟩ := List.mem_flatMap.mp hmem'
    obtain ⟨kind',-,he⟩ := List.mem_map.mp hx'
    obtain rfl : x = fd := (Prod.mk.inj he).1
    exact List.disjoint_take_drop h.nodup le_rfl hx hfd

theorem ready_iff (hw : w.Invariant) (h : SameReports w files e reports order) {fd : ℕ} :
    fd ∈ pollReady reports w.state.data.eventSet ↔
      fd ∈ order.take maxEvents ∨ fd ∈ order.drop maxEvents := by
  rw [(h.perm hw).mem_iff, ← List.mem_append, List.take_append_drop]

theorem left_silent (h : SameReports w files e reports order) (halike : Alike w reports order) :
    ∀ fd ∈ order.drop maxEvents,
      (w.state.map.channelAt fd).invokes (reports fd).readable (reports fd).writable = [] := by
  intro fd hfd
  exact halike.left fd hfd _
    (ChannelMap.lookup_channelAt ((h.mem fd).mp (List.mem_of_mem_drop hfd)).1)

theorem left_unread (h : SameReports w files e reports order) (halike : Alike w reports order) :
    ∀ fd ∈ order.drop maxEvents, (reports fd).readable = false ∨
      (w.state.map.channelAt fd).eventReadCallback = none :=
  fun fd hfd => Channel.invokes_of_readable (h.left_silent halike fd hfd)

theorem left_returns (h : SameReports w files e reports order) (halike : Alike w reports order) :
    ∀ fd ∈ order.drop maxEvents, (outcomes fd).Returns (w.state.map.channelAt fd)
      (reports fd).readable (reports fd).writable := by
  intro fd hfd
  have hsilent := h.left_silent halike fd hfd
  have hread := Channel.invokes_of_readable hsilent
  have hwrite := Channel.invokes_of_writable hsilent
  constructor
  · rintro ⟨hreadable,-,hcallback,-⟩
    rcases hread with hr | hr
    · exact absurd (hr.symm.trans hreadable) (by decide)
    · exact absurd (hr.symm.trans hcallback) (by simp)
  · rintro (⟨hreadable,hcallback,-⟩ | ⟨hwritable,⟨hcallback,-⟩,-⟩)
    · rcases hread with hr | hr
      · exact absurd (hr.symm.trans hreadable) (by decide)
      · exact absurd (hr.symm.trans hcallback) (by simp)
    · rcases hwrite with hr | hr
      · exact absurd (hr.symm.trans hwritable) (by decide)
      · exact hcallback hr

theorem invoked_perm (hw : w.Invariant) (h : SameReports w files e reports order)
    (halike : Alike w reports order) :
    ((pollReady reports w.state.data.eventSet).flatMap fun fd => List.map (Prod.mk fd)
        ((w.state.map.channelAt fd).invokes (reports fd).readable (reports fd).writable)).Perm
      ((order.take maxEvents).flatMap fun fd => List.map (Prod.mk fd)
        (if (reports fd).closes then []
          else (w.state.map.channelAt fd).invokes (reports fd).readable (reports fd).writable)) := by
  refine ((h.perm hw).flatMap_right _).trans (.of_eq ?_)
  calc order.flatMap _ = (order.take maxEvents ++ order.drop maxEvents).flatMap _ := by
        rw [List.take_append_drop]
    _ = (order.take maxEvents).flatMap (fun fd => List.map (Prod.mk fd)
        ((w.state.map.channelAt fd).invokes (reports fd).readable (reports fd).writable)) := by
        rw [List.flatMap_append, List.append_right_eq_self]
        refine List.flatMap_eq_nil_iff.mpr fun fd hfd => ?_
        rw [h.left_silent halike fd hfd, List.map_nil]
    _ = _ := by
        refine List.flatMap_congr fun fd hfd => ?_
        rw [halike.taken fd hfd, if_neg Bool.false_ne_true]

theorem opened_eq (hw : w.Invariant) (h : SameReports w files e reports order)
    (halike : Alike w reports order) (s : Set ℕ) :
    (pollReady reports w.state.data.eventSet).foldl (fun s fd => s ∪ descriptors
        (if (reports fd).readable then
          (outcomes fd).establishes (w.state.map.channelAt fd) else [])) s =
      (order.take maxEvents).foldl (fun s fd => if (reports fd).closes then s \ {fd}
        else s ∪ descriptors (if (reports fd).readable then
          (outcomes fd).establishes (w.state.map.channelAt fd) else [])) s := by
  have htaken := List.foldl_ext (fun s fd => if (reports fd).closes then s \ {fd}
      else s ∪ descriptors (if (reports fd).readable then
        (outcomes fd).establishes (w.state.map.channelAt fd) else []))
    (fun s fd => s ∪ descriptors (if (reports fd).readable then
        (outcomes fd).establishes (w.state.map.channelAt fd) else []))
    s (l := order.take maxEvents) fun s fd hfd => by
      rw [halike.taken fd hfd, if_neg Bool.false_ne_true]
  rw [htaken]
  ext x
  rw [mem_foldl_union, mem_foldl_union]
  refine or_congr_right ⟨?_,?_⟩
  · rintro ⟨fd,hfd,hx⟩
    rcases (h.ready_iff hw).mp hfd with hfd | hfd
    · exact ⟨fd,hfd,hx⟩
    · exfalso
      rcases h.left_unread halike fd hfd with hread | hread <;>
        simp [hread, descriptors, Outcome.establishes] at hx
  · rintro ⟨fd,hfd,hx⟩
    exact ⟨fd,(h.ready_iff hw).mpr (.inl hfd),hx⟩

theorem agree_of_alike (hw : w.Invariant) (h : SameReports w files e reports order)
    (halike : Alike w reports order) (hsized : ∀ fd, (outcomes fd).Sized)
    (hback : ∀ fd ∈ order.take maxEvents, (outcomes fd).Returns (w.state.map.channelAt fd)
      (reports fd).readable (reports fd).writable) :
    RoundsAgree (pollDispatch reports outcomes (w.kernel files))
      (epollDispatch reports outcomes order e) := by
  have hready : ∀ fd ∈ pollReady reports w.state.data.eventSet, (outcomes fd).Returns
      (w.state.map.channelAt fd) (reports fd).readable (reports fd).writable := by
    intro fd hfd
    rcases (h.ready_iff hw).mp hfd with hfd | hfd
    · exact hback fd hfd
    · exact h.left_returns halike fd hfd
  obtain ⟨r,hr,hinvoked,hopen⟩ := (pollEvent_serving reports hsized).fold_serves
    hw.ready_nodup hw.serves hready
  obtain ⟨r',hr',hinvoked',hopen'⟩ := (epollEvent_serving reports hsized).fold_serves h.take_nodup
    (h.serves hw) fun fd hfd => ⟨fun hc => (hback fd hfd).1 hc.2,fun hh => (hback fd hfd).2 hh.2⟩
  rw [hw.dispatch_eq hsized, epollDispatch, hr, hr']
  constructor
  · rw [hinvoked, hinvoked']
    exact (h.invoked_perm hw halike).append_left _
  · have hsame : r.openSet pollBackend = r'.openSet epollBackend := by
      rw [hopen, hopen', h.opened_eq hw halike, h.openSet]
    exact fun fd => not_iff_not.mp (Set.ext_iff.mp hsame fd)

end SameReports

/-- The rounds of the two dispatchers agree, whatever the callbacks that come back meet,
exactly when none of the descriptors that `epoll_wait` returns has an error or a hang-up and
those that it leaves for the next round have no callback to invoke. -/
theorem dispatchers_agree (hw : w.Invariant) (h : SameReports w files e reports order) :
    (∀ outcomes : ℕ → Outcome, (∀ fd, (outcomes fd).Sized) →
      (∀ fd ∈ order.take maxEvents, (outcomes fd).Returns (w.state.map.channelAt fd)
        (reports fd).readable (reports fd).writable) →
      RoundsAgree (pollDispatch reports outcomes (w.kernel files))
        (epollDispatch reports outcomes order e)) ↔ Alike w reports order := by
  constructor
  · intro hagree
    exact h.alike_of_agree hw
      (hagree _ (fun _ => quiet_sized) fun fd _ => quiet_returns _ _ _)
  · intro halike outcomes hsized hback
    exact h.agree_of_alike hw halike hsized hback

theorem dispatchers_agree_busy :
    ∃ w os, run PollLoop.step (PollLoop.empty fun _ => ⟨0,0,0⟩) busyOps = some (w, os) ∧
      ((∀ outcomes : ℕ → Outcome, (∀ fd, (outcomes fd).Sized) →
        (∀ fd ∈ [6,5].take maxEvents, (outcomes fd).Returns (w.state.map.channelAt fd)
          busyReport.readable busyReport.writable) →
        RoundsAgree (pollDispatch (fun _ => busyReport) outcomes (w.kernel busyFiles))
          (epollDispatch (fun _ => busyReport) outcomes [6,5] (busyEpoll w.state.map))) ↔
        Alike w (fun _ => busyReport) [6,5]) := by
  obtain ⟨w,os,hrun,hinv,hmap⟩ := busyLoop
  refine ⟨w,os,hrun,dispatchers_agree hinv ⟨⟨rfl,rfl,?_,?_⟩,by decide,?_⟩⟩
  · intro fd
    rw [hmap]
    by_cases hfd : fd = 5 ∨ fd = 6 <;> simp [busyFiles, hfd]
  · intro fd
    rw [hmap]
    by_cases hfd : fd = 5 ∨ fd = 6 <;> simp [busyEpoll, hfd]
  · intro fd
    rw [hmap]
    by_cases hfd : fd = 5 ∨ fd = 6
    · simp [hfd, or_comm, busyReport, Conditions.any]
    · simp [hfd, or_comm]

/-- Data and a hang-up: `poll_dispatch` delivers the data and leaves the descriptor open,
`epoll_dispatch` closes it. -/
theorem dispatchers_disagree :
    ∃ w os, run PollLoop.step (PollLoop.empty fun _ => ⟨0,0,0⟩) busyOps = some (w, os) ∧
      (∃ r, pollDispatch (reportedOn 5 ⟨true,false,false,true⟩) (fun _ => quiet)
        (w.kernel busyFiles) = .ok r ∧ r.invoked = [(5, .read)] ∧ r.state.data.openFiles 5 ≠ none) ∧
      ∃ r, epollDispatch (reportedOn 5 ⟨true,false,false,true⟩) (fun _ => quiet) [5]
        (busyEpoll w.state.map) = .ok r ∧ r.invoked = [] ∧ r.state.data.openFiles 5 = none := by
  obtain ⟨w,os,hrun,hinv,hmap⟩ := busyLoop
  refine ⟨w,os,hrun,?_,_,rfl,rfl,rfl⟩
  have hready := pollReady_reportedOn hinv (c := ⟨true,false,false,true⟩) rfl
    (show w.state.map.lookup 5 ≠ none by simp [hmap])
  have hsized : ∀ _ : ℕ, quiet.Sized := fun _ => quiet_sized
  obtain ⟨r,hr,hinvoked,hopen⟩ := (pollEvent_serving _ hsized).fold_serves
    hinv.ready_nodup hinv.serves fun fd _ => quiet_returns _ _ _
  simp only [quiet_descriptors, Set.union_empty, List.foldl_fixed] at hopen
  refine ⟨r,by rw [hinv.dispatch_eq hsized, hr],?_,?_⟩
  · rw [hinvoked, hready, List.flatMap_singleton, ChannelMap.channelAt_of_lookup (hmap 5)]
    rfl
  · change 5 ∈ r.openSet pollBackend
    rw [hopen]
    exact (show busyFiles 5 ≠ none by decide)

end Rounds

end CppExamples.HttpTest
