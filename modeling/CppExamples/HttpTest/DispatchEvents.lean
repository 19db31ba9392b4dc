import CppExamples.HttpTest.Dispatch

/-! # What one reported event does

The rules by which the callbacks of an event change the map and a dispatcher's data are
stated for every dispatcher whose operations succeed on descriptors that are free or
watched.
-/
namespace CppExamples.HttpTest
open PendingList Slots Relation
variable {δ : Type*} {backend : Backend δ} {free watched : δ → ℕ → Prop}

/-- One thing that the callbacks of a descriptor do to the data of a dispatcher. -/
inductive Backend.Change (backend : Backend δ) (fd : ℕ) (d : δ) : δ → Prop where
  | add {d' : δ} (channel : Channel) (result : ℤ)
      (h : backend.dispatcher.add d channel = some (d', result)) : Change backend fd d d'
  | del {d' : δ} (channel : Channel) (result : ℤ) (hfd : channel.fd = fd)
      (h : backend.dispatcher.del d channel = some (d', result)) : Change backend fd d d'
  | opened (x : ℕ) (file : File) : Change backend fd d (backend.opened d x file)

/-- Adding succeeds on open descriptors that are free, removing on watched ones, and
no operation disturbs what the others need. -/
structure Backend.Lawful (backend : Backend δ) (free watched : δ → ℕ → Prop) : Prop where
  add : ∀ d (channel : Channel) (fd : ℕ), channel.fd = fd → backend.openFiles d fd ≠ none →
    free d fd → ∃ d', backend.dispatcher.add d channel = some (d', 0) ∧
      backend.openFiles d' = backend.openFiles d ∧
      ∀ x, x ≠ fd → (free d x → free d' x) ∧ (watched d x → watched d' x)
  del : ∀ d (channel : Channel) (fd : ℕ), channel.fd = fd → watched d fd →
    ∃ d', backend.dispatcher.del d channel = some (d', 0) ∧
      backend.openFiles d' = backend.openFiles d ∧ free d' fd ∧
      ∀ x, x ≠ fd → (free d x → free d' x) ∧ (watched d x → watched d' x)
  opened : ∀ d fd file, backend.openFiles (backend.opened d fd file) =
      Function.update (backend.openFiles d) fd (some file) ∧
    ∀ x, (free d x → free (backend.opened d fd file) x) ∧
      (watched d x → watched (backend.opened d fd file) x)

/-- The loop in the middle of a round: the channels still to be served are as they were. -/
structure Serves (free watched : δ → ℕ → Prop) (channels : ℕ → Channel) (todo : List ℕ)
    (s : LoopState δ) : Prop where
  entry : ∀ fd ∈ todo, s.map.lookup fd = some (channels fd)
  watched : ∀ fd ∈ todo, watched s.data fd
  descriptor : ∀ fd channel, s.map.lookup fd = some channel → channel.fd = fd
  free : ∀ fd, s.map.lookup fd = none → free s.data fd

/-- What the callbacks of a descriptor have done: those that were invoked, and the
connections that were opened. -/
structure Round.Effect (backend : Backend δ) (fd : ℕ) (kinds : List EventKind)
    (connections : List Connection) (r r' : Round δ) : Prop where
  invoked : r'.invoked = r.invoked ++ kinds.map (Prod.mk fd)
  opened : ∀ x : ℕ, backend.openFiles r'.state.data x ≠ none ↔
    backend.openFiles r.state.data x ≠ none ∨ ∃ c ∈ connections, c.connectedFd = x
  changes : ReflTransGen (backend.Change fd) r.state.data r'.state.data

variable {channels : ℕ → Channel} {todo : List ℕ} {fd : ℕ} {r r' r'' : Round δ}
  {kinds kinds' : List EventKind} {connections connections' : List Connection}

theorem Serves.tail {s : LoopState δ} (h : Serves free watched channels (fd :: todo) s) :
    Serves free watched channels todo s where
  entry x hx := h.entry x (List.mem_cons_of_mem _ hx)
  watched x hx := h.watched x (List.mem_cons_of_mem _ hx)
  descriptor := h.descriptor
  free := h.free

theorem ChannelMap.lookup_eq_some {map : ChannelMap} {channel : Channel} :
    map.lookup fd = some channel ↔ fd < map.nentries ∧ map.entries fd = some channel := by
  by_cases h : fd < map.nentries <;> simp [ChannelMap.lookup, h]

/-- An update that is posted to what the channel is for comes back. -/
def Channel.takesUpdates (channel : Channel) : Bool :=
  (UpdateCall.mk channel.data channel.fd channel).returns

theorem Channel.takesUpdates_of_data {channel channel' : Channel} (h : channel.data = channel'.data) :
    channel.takesUpdates = channel'.takesUpdates := by
  simp only [takesUpdates, UpdateCall.returns, h]

namespace Round

theorem Effect.refl (backend : Backend δ) (fd : ℕ) (r : Round δ) : r.Effect backend fd [] [] r :=
  ⟨by simp,by simp,.refl⟩

theorem Effect.trans (h : r.Effect backend fd kinds connections r')
    (h' : r'.Effect backend fd kinds' connections' r'') :
    r.Effect backend fd (kinds ++ kinds') (connections ++ connections') r'' where
  invoked := by simp [h'.invoked, h.invoked]
  opened x := by
    rw [h'.opened, h.opened, or_assoc]
    simp only [List.mem_append, or_and_right, exists_or]
  changes := h.changes.trans h'.changes

variable (fd) in
theorem accept_spec (hlaw : backend.Lawful free watched)
    (h : Serves free watched channels todo r.state) (connection : Connection) :
    Serves free watched channels todo (r.accept backend connection).1.state ∧
      r.Effect backend fd [] [connection] (r.accept backend connection).1 ∧
      (r.accept backend connection).1.state.map = r.state.map ∧
      ((r.accept backend connection).2 = -1 ∨ ∃ x : ℕ,
        (r.accept backend connection).2 = x ∧ connection.connectedFd = x ∧
        backend.openFiles (r.accept backend connection).1.state.data x ≠ none) := by
  by_cases hfree : 0 ≤ connection.connectedFd ∧
      backend.openFiles r.state.data connection.connectedFd.toNat = none
  · obtain ⟨x,hx⟩ := Int.eq_ofNat_of_zero_le hfree.1
    have hnat : connection.connectedFd.toNat = x := by omega
    obtain ⟨hopen,hkeep⟩ := hlaw.opened r.state.data x (.connection connection.addr)
    rw [accept, if_pos hfree, hnat]
    refine ⟨⟨h.entry,?_,h.descriptor,?_⟩,⟨by simp,?_,?_⟩,rfl,Or.inr ⟨x,hx,hx,by simp [hopen]⟩⟩
    · exact fun y hy => (hkeep y).2 (h.watched y hy)
    · exact fun y hy => (hkeep y).1 (h.free y hy)
    · intro y
      simp only [hopen, List.mem_singleton, exists_eq_left, hx, Nat.cast_inj]
      by_cases hy : y = x
      · simp [hy]
      · simp [hy, Ne.symm hy]
    · exact .single (.opened x _)
  · rw [accept, if_neg hfree]
    refine ⟨h,⟨by simp,?_,.refl⟩,rfl,Or.inl rfl⟩
    intro x
    refine ⟨Or.inl,?_⟩
    rintro (hx | ⟨c,hc,hx⟩)
    · exact hx
    · obtain rfl := List.mem_singleton.mp hc
      intro hnone
      exact hfree ⟨by omega,by rwa [hx, Int.toNat_natCast]⟩

variable (fd) in
theorem handle_add_spec (hlaw : backend.Lawful free watched)
    (h : Serves free watched channels todo r.state) (realloc : ℤ → Bool) {channel : Channel}
    (hfd : channel.fd = -1 ∨ ∃ x : ℕ, channel.fd = x ∧ x < 2 ^ 27 ∧
      backend.openFiles r.state.data x ≠ none) :
    ∃ r', r.handle backend realloc .add channel = .ok r' ∧
      Serves free watched channels todo r'.state ∧ r.Effect backend fd [] [] r' := by
  rcases hfd with hneg | ⟨x,hx,hsmall,hopen⟩
  · exact ⟨r,by simp [handle, handleChannelOp, eventLoopHandlePendingAdd, hneg],h,.refl ..⟩
  rcases handlePendingAdd_cases backend.dispatcher r.state channel (realloc channel.fd) x hx hsmall
    with ⟨-,-,hadd⟩ | ⟨-,hadd⟩ | ⟨hnone,map',hlookup,hadd⟩
  · exact ⟨r,by simp [handle, handleChannelOp, hadd],h,.refl ..⟩
  · exact ⟨r,by simp [handle, handleChannelOp, hadd],h,.refl ..⟩
  obtain ⟨d,hd,hfiles,hkeep⟩ := hlaw.add r.state.data channel x hx hopen (h.free x hnone)
  refine ⟨{ r with state := ⟨map',d⟩ },by simp [handle, handleChannelOp, hadd, hd],?_,?_⟩
  · have hne : ∀ y ∈ todo, y ≠ x := by
      intro y hy he
      rw [he] at hy
      rw [h.entry x hy] at hnone
      cases hnone
    constructor
    · intro y hy
      rw [hlookup, if_neg (hne y hy), h.entry y hy]
    · exact fun y hy => (hkeep y (hne y hy)).2 (h.watched y hy)
    · intro y c hc
      rw [hlookup] at hc
      split at hc
      · rename_i hy
        cases hc
        rw [hx, hy]
      · exact h.descriptor y c hc
    · intro y hy
      rw [hlookup] at hy
      split at hy
      · cases hy
      · rename_i hyx
        exact (hkeep y hyx).1 (h.free y hy)
  · exact ⟨by simp,fun y => by simp [hfiles],.single (.add channel 0 hd)⟩

variable (fd) in
theorem establish_spec (hlaw : backend.Lawful free watched)
    (h : Serves free watched channels todo r.state) (realloc : ℤ → Bool) {connection : Connection}
    (hsmall : connection.connectedFd < 2 ^ 27) :
    ∃ r', r.establish backend realloc connection = .ok r' ∧
      Serves free watched channels todo r'.state ∧ r.Effect backend fd [] [connection] r' := by
  obtain ⟨hserves,heffect,-,hreturn⟩ := accept_spec fd hlaw h connection
  have hfd : (connectionChannel (r.accept backend connection).2 connection.addr).fd = -1 ∨
      ∃ x : ℕ, (connectionChannel (r.accept backend connection).2 connection.addr).fd = x ∧
        x < 2 ^ 27 ∧ backend.openFiles (r.accept backend connection).1.state.data x ≠ none := by
    rcases hreturn with hneg | ⟨x,hx,hc,hopen⟩
    · exact Or.inl hneg
    · exact Or.inr ⟨x,hx,by omega,hopen⟩
  obtain ⟨r',hhandle,hserves',heffect'⟩ := handle_add_spec fd hlaw hserves realloc hfd
  exact ⟨r',hhandle,hserves',by simpa using heffect.trans heffect'⟩

variable (fd) in
theorem establishAll_spec (hlaw : backend.Lawful free watched) (realloc : ℤ → Bool)
    (h : Serves free watched channels todo r.state)
    (hsmall : ∀ c ∈ connections, c.connectedFd < 2 ^ 27) :
    ∃ r', connections.foldlM (establish backend realloc) r = .ok r' ∧
      Serves free watched channels todo r'.state ∧ r.Effect backend fd [] connections r' := by
  induction connections generalizing r with
  | nil => exact ⟨r,rfl,h,.refl ..⟩
  | cons c connections ih =>
    obtain ⟨r₁,hr₁,hserves,heffect⟩ :=
      establish_spec fd hlaw h realloc (hsmall c List.mem_cons_self)
    obtain ⟨r₂,hr₂,hserves₂,heffect₂⟩ :=
      ih hserves fun c' hc' => hsmall c' (List.mem_cons_of_mem _ hc')
    refine ⟨r₂,?_,hserves₂,by simpa using heffect.trans heffect₂⟩
    rw [List.foldlM_cons, hr₁]
    exact hr₂

theorem handle_remove_spec (hlaw : backend.Lawful free watched)
    (h : Serves free watched channels (fd :: todo) r.state) (hnot : fd ∉ todo)
    (realloc : ℤ → Bool) :
    ∃ r', r.handle backend realloc .remove (channels fd) = .ok r' ∧
      Serves free watched channels todo r'.state ∧ r.Effect backend fd [] [] r' ∧
      fd < r'.state.map.nentries ∧ r'.state.map.entries fd = none := by
  have hlook := h.entry fd List.mem_cons_self
  have hfd := h.descriptor fd _ hlook
  obtain ⟨hlt,hentry⟩ := ChannelMap.lookup_eq_some.mp hlook
  obtain ⟨d,hd,hfiles,hfree,hkeep⟩ := hlaw.del r.state.data (channels fd) fd hfd
    (h.watched fd List.mem_cons_self)
  have hmap := r.state.lookup_setEntry hlt none
  refine ⟨{ r with state := { r.state.setEntry fd none with data := d } },?_,?_,?_,hlt,?_⟩
  · have hpos : ¬ (fd : ℤ) < 0 := by omega
    have hin : ¬ r.state.map.nentries ≤ fd := by omega
    simp [handle, handleChannelOp, eventLoopHandlePendingRemove, hfd, hpos, hin, hentry, hd]
  · have hne : ∀ y ∈ todo, y ≠ fd := fun y hy he => hnot (he ▸ hy)
    constructor
    · intro y hy
      rw [hmap, if_neg (hne y hy)]
      exact h.tail.entry y hy
    · exact fun y hy => (hkeep y (hne y hy)).2 (h.tail.watched y hy)
    · intro y c hc
      rw [hmap] at hc
      split at hc
      · cases hc
      · exact h.descriptor y c hc
    · intro y hy
      rw [hmap] at hy
      split at hy
      · rename_i hyx
        rwa [hyx]
      · rename_i hyx
        exact (hkeep y hyx).1 (h.free y hy)
  · exact ⟨by simp,fun y => by simp [hfiles],.single (.del _ 0 hfd hd)⟩
  · simp [LoopState.setEntry]

/-- The entry of a channel that has been served without being removed. -/
def Kept (channel : Channel) (fd : ℕ) (s : LoopState δ) : Prop :=
  ∃ c, s.map.lookup fd = some c ∧ c.fd = fd ∧
    c.eventWriteCallback = channel.eventWriteCallback ∧ c.data = channel.data

theorem toggled_returns (enable : Bool) (channel : Channel) :
    (if enable then channelWriteEventEnable channel
      else channelWriteEventDisable channel).2.returns = channel.takesUpdates := by
  cases enable <;> rfl

variable (backend) in
/-- A switched write event is posted to the channel's data, and only an event loop takes it. -/
theorem toggle_spec {channel : Channel} (hlook : r.state.map.lookup fd = some channel)
    (h : Serves free watched channels todo r.state) (hnot : fd ∉ todo) {enable : Option Bool}
    (hback : channel.takesUpdates = true ∨ enable = none) :
    ∃ r', r.toggle channel enable = .ok r' ∧ Serves free watched channels todo r'.state ∧
      r.Effect backend fd [] [] r' ∧ Kept channel fd r'.state := by
  have hfd := h.descriptor fd _ hlook
  cases enable with
  | none => exact ⟨r,rfl,h,.refl ..,⟨channel,hlook,hfd,rfl,rfl⟩⟩
  | some enable =>
    obtain ⟨hlt,-⟩ := ChannelMap.lookup_eq_some.mp hlook
    set c := if enable then channelWriteEventEnable channel else channelWriteEventDisable channel
      with hc
    have hcfd : c.1.fd = fd ∧ c.1.eventWriteCallback = channel.eventWriteCallback ∧
        c.1.data = channel.data := by
      cases enable <;> exact ⟨hfd,rfl,rfl⟩
    have hreturns : c.2.returns = true := by
      rw [hc, toggled_returns]
      exact hback.resolve_right (by simp)
    have hnat : channel.fd.toNat = fd := by omega
    have htoggle : r.toggle channel (some enable) = .ok { r with
        state := r.state.setEntry fd (some c.1)
        updates := r.updates ++ [c.2] } := by
      simp only [toggle, ← hc, hnat, if_pos hreturns]
    have hmap := r.state.lookup_setEntry hlt (some c.1)
    refine ⟨_,htoggle,⟨?_,h.watched,?_,?_⟩,
      ⟨by simp,fun _ => by simp [LoopState.setEntry],.refl⟩,⟨c.1,by rw [hmap, if_pos rfl],hcfd⟩⟩
    · intro y hy
      rw [hmap, if_neg fun he : y = fd => hnot (he ▸ hy)]
      exact h.entry y hy
    · intro y c' hc'
      rw [hmap] at hc'
      split at hc'
      · rename_i hy
        cases hc'
        rw [hy]
        exact hcfd.1
      · exact h.descriptor y c' hc'
    · intro y hy
      rw [hmap] at hy
      split at hy
      · cases hy
      · exact h.free y hy

theorem toggle_hung (r : Round δ) {channel : Channel} {enable : Option Bool}
    (hback : channel.takesUpdates = false) (henable : enable ≠ none) :
    r.toggle channel enable = .error .hung := by
  cases enable with
  | none => exact absurd rfl henable
  | some enable => rw [toggle, if_neg (by rw [toggled_returns, hback]; decide)]

end Round

/-- The connection of the channel ends when its read callback runs. -/
def Outcome.closes (o : Outcome) (channel : Channel) : Prop :=
  channel.eventReadCallback = some .handleRead ∧ o.received = false

instance (o : Outcome) (channel : Channel) : Decidable (o.closes channel) :=
  inferInstanceAs (Decidable (_ ∧ _))

/-- The callback switches the write event, and the update that is posted does not come back. -/
def Outcome.HangsOn (o : Outcome) (channel : Channel) : EventKind → Prop
  | .read => channel.eventReadCallback = some .handleRead ∧ o.received = true ∧ o.onRead ≠ none ∧
      channel.takesUpdates = false
  | .write => channel.eventWriteCallback ≠ none ∧ o.onWrite ≠ none ∧ channel.takesUpdates = false

instance (o : Outcome) (channel : Channel) (kind : EventKind) : Decidable (o.HangsOn channel kind) :=
  match kind with
  | .read => inferInstanceAs (Decidable (_ ∧ _ ∧ _ ∧ _))
  | .write => inferInstanceAs (Decidable (_ ∧ _ ∧ _))

/-- The connections that the read callback of the channel establishes. -/
def Outcome.establishes (o : Outcome) (channel : Channel) : List Connection :=
  match channel.eventReadCallback with
  | some .handleRead => if o.received then [] else o.posted
  | some .handleConnectionEstablished => if o.here then o.posted ++ [o.accepted] else [o.accepted]
  | _ => []

/-- The new connections have descriptors for which the map has a size that is an `int`. -/
def Outcome.Sized (o : Outcome) : Prop :=
  o.accepted.connectedFd < 2 ^ 27 ∧ ∀ c ∈ o.posted, c.connectedFd < 2 ^ 27

/-- The read callback is invoked. -/
def Channel.readKinds (channel : Channel) : List EventKind :=
  if channel.eventReadCallback = none then [] else [.read]

def Channel.writeKinds (channel : Channel) : List EventKind :=
  if channel.eventWriteCallback = none then [] else [.write]

namespace Round

variable (fd) in
theorem Serves.log (h : Serves free watched channels todo r.state) (kind : EventKind) :
    Serves free watched channels todo (r.log fd kind).state := h

theorem Effect.log (backend : Backend δ) (fd : ℕ) (r : Round δ) (kind : EventKind) :
    r.Effect backend fd [kind] [] (r.log fd kind) :=
  ⟨by simp [Round.log],fun x => by simp [Round.log],.refl⟩

theorem activate_read {channel : Channel} (hlook : r.state.map.lookup fd = some channel)
    (hfd : channel.fd = fd) (backend : Backend δ) (o : Outcome) :
    r.channelEventActivate backend o fd .read = channel.eventReadCallback.elim (.ok r) fun callback =>
      readCallback backend o channel (r.log fd .read) callback := by
  obtain ⟨hlt,hentry⟩ := ChannelMap.lookup_eq_some.mp hlook
  simp only [channelEventActivate, if_neg (not_le.mpr hlt), hentry, hfd, ne_eq, not_true_eq_false, if_false]
  cases channel.eventReadCallback <;> rfl

theorem activate_write {channel : Channel} (hlook : r.state.map.lookup fd = some channel)
    (hfd : channel.fd = fd) (backend : Backend δ) (o : Outcome) :
    r.channelEventActivate backend o fd .write =
      if channel.eventWriteCallback = none then .ok r else (r.log fd .write).toggle channel o.onWrite := by
  obtain ⟨hlt,hentry⟩ := ChannelMap.lookup_eq_some.mp hlook
  simp only [channelEventActivate, if_neg (not_le.mpr hlt), hentry, hfd, ne_eq, not_true_eq_false, if_false]
  cases channel.eventWriteCallback <;> rfl

theorem handleRead_spec (hlaw : backend.Lawful free watched) {o : Outcome} (ho : o.Sized)
    (h : Serves free watched channels (fd :: todo) r.state) (hnot : fd ∉ todo)
    (hback : o.received = true → (channels fd).takesUpdates = true ∨ o.onRead = none) :
    ∃ r', readCallback backend o (channels fd) r .handleRead = .ok r' ∧
      Serves free watched channels todo r'.state ∧
      r.Effect backend fd [] (if o.received then [] else o.posted) r' ∧
      (o.received = false → fd < r'.state.map.nentries ∧ r'.state.map.entries fd = none) ∧
      (o.received = true → Kept (channels fd) fd r'.state) := by
  cases hreceived : o.received with
  | true =>
    obtain ⟨r',hr',hserves,heffect,hkept⟩ :=
      toggle_spec backend (h.entry fd List.mem_cons_self) h.tail hnot (hback hreceived)
    exact ⟨r',(if_pos hreceived).trans hr',hserves,heffect,by simp,fun _ => hkept⟩
  | false =>
    obtain ⟨r₁,hr₁,hserves₁,heffect₁⟩ := establishAll_spec fd hlaw o.realloc h ho.2
    obtain ⟨r₂,hr₂,hserves₂,heffect₂,hnull⟩ := handle_remove_spec hlaw hserves₁ hnot o.realloc
    refine ⟨r₂,?_,hserves₂,by simpa using heffect₁.trans heffect₂,fun _ => hnull,by simp⟩
    simp only [readCallback, hreceived, Bool.false_eq_true, if_false, hr₁]
    exact hr₂

theorem handleConnectionEstablished_spec (hlaw : backend.Lawful free watched) {o : Outcome} (ho : o.Sized)
    (h : Serves free watched channels todo r.state) (fd : ℕ) (channel : Channel) :
    ∃ r', readCallback backend o channel r .handleConnectionEstablished = .ok r' ∧
      Serves free watched channels todo r'.state ∧
      r.Effect backend fd [] (if o.here then o.posted ++ [o.accepted] else [o.accepted]) r' := by
  cases hhere : o.here with
  | true =>
    have hsmall : ∀ c ∈ o.posted ++ [o.accepted], c.connectedFd < 2 ^ 27 := by
      intro c hc
      rcases List.mem_append.mp hc with hc | hc
      · exact ho.2 c hc
      · rw [List.mem_singleton.mp hc]
        exact ho.1
    obtain ⟨r₁,hr₁,hserves,heffect⟩ := establishAll_spec fd hlaw o.realloc h hsmall
    exact ⟨r₁,by simpa only [readCallback, hhere, if_true] using hr₁,hserves,heffect⟩
  | false =>
    obtain ⟨hserves,heffect,-⟩ := accept_spec fd hlaw h o.accepted
    exact ⟨_,by simp only [readCallback, hhere, Bool.false_eq_true, if_false],hserves,heffect⟩

theorem activate_read_spec (hlaw : backend.Lawful free watched) {o : Outcome} (ho : o.Sized)
    (h : Serves free watched channels (fd :: todo) r.state) (hnot : fd ∉ todo)
    (hback : ¬ o.HangsOn (channels fd) .read) :
    ∃ r', r.channelEventActivate backend o fd .read = .ok r' ∧
      Serves free watched channels todo r'.state ∧
      r.Effect backend fd (channels fd).readKinds (o.establishes (channels fd)) r' ∧
      (o.closes (channels fd) → fd < r'.state.map.nentries ∧ r'.state.map.entries fd = none) ∧
      (¬ o.closes (channels fd) → Kept (channels fd) fd r'.state) := by
  have hlook := h.entry fd List.mem_cons_self
  have hfd := h.descriptor fd _ hlook
  have hlog := Effect.log backend fd r .read
  have hkept : ∀ r' : Round δ, Serves free watched channels (fd :: todo) r'.state →
      Kept (channels fd) fd r'.state := fun r' h' => ⟨_,h'.entry fd List.mem_cons_self,hfd,rfl,rfl⟩
  rw [activate_read hlook hfd]
  cases hread : (channels fd).eventReadCallback with
  | none =>
    refine ⟨r,rfl,h.tail,?_,by simp [Outcome.closes, hread],fun _ => hkept r h⟩
    simpa [Channel.readKinds, Outcome.establishes, hread] using Effect.refl backend fd r
  | some callback =>
    have hkinds : (channels fd).readKinds = [.read] := by simp [Channel.readKinds, hread]
    rw [hkinds]
    cases callback with
    | handleRead =>
      have hcloses : o.closes (channels fd) ↔ o.received = false := by simp [Outcome.closes, hread]
      have htoggle : o.received = true → (channels fd).takesUpdates = true ∨ o.onRead = none := by
        intro hreceived
        by_contra hno
        rw [not_or, Bool.not_eq_true] at hno
        exact hback ⟨hread,hreceived,hno.2,hno.1⟩
      obtain ⟨r',hr',hserves,heffect,hnull,hstays⟩ :=
        handleRead_spec hlaw ho (Serves.log fd h .read) hnot htoggle
      refine ⟨r',hr',hserves,?_,fun hc => hnull (hcloses.mp hc),
        fun hc => hstays (by simpa [hcloses] using hc)⟩
      simpa [Outcome.establishes, hread] using hlog.trans heffect
    | handleWakeup =>
      refine ⟨_,rfl,h.tail,?_,by simp [Outcome.closes, hread],fun _ => hkept r h⟩
      simpa [Outcome.establishes, hread] using hlog
    | handleConnectionEstablished =>
      obtain ⟨r',hr',hserves,heffect⟩ :=
        handleConnectionEstablished_spec hlaw ho (Serves.log fd h .read) fd (channels fd)
      refine ⟨r',hr',hserves.tail,?_,by simp [Outcome.closes, hread],fun _ => hkept r' hserves⟩
      simpa [Outcome.establishes, hread] using hlog.trans heffect

theorem activate_read_hung {o : Outcome} (h : Serves free watched channels (fd :: todo) r.state)
    (hhang : o.HangsOn (channels fd) .read) :
    r.channelEventActivate backend o fd .read = .error .hung := by
  obtain ⟨hread,hreceived,hswitch,hback⟩ := hhang
  have hlook := h.entry fd List.mem_cons_self
  rw [activate_read hlook (h.descriptor fd _ hlook), hread, Option.elim_some, readCallback, if_pos hreceived]
  exact toggle_hung _ hback hswitch

variable (backend) in
theorem activate_write_spec {o : Outcome} {channel : Channel} (hkept : Kept channel fd r.state)
    (h : Serves free watched channels todo r.state) (hnot : fd ∉ todo)
    (hback : ¬ o.HangsOn channel .write) :
    ∃ r', r.channelEventActivate backend o fd .write = .ok r' ∧
      Serves free watched channels todo r'.state ∧
      r.Effect backend fd channel.writeKinds [] r' := by
  obtain ⟨c,hlook,hfd,hwrite,hdata⟩ := hkept
  rw [activate_write hlook hfd, Channel.writeKinds, ← hwrite]
  by_cases hnone : c.eventWriteCallback = none
  · rw [if_pos hnone, if_pos hnone]
    exact ⟨r,rfl,h,Effect.refl backend fd r⟩
  · rw [if_neg hnone, if_neg hnone]
    have htoggle : c.takesUpdates = true ∨ o.onWrite = none := by
      by_contra hno
      rw [not_or, Bool.not_eq_true, Channel.takesUpdates_of_data hdata] at hno
      exact hback ⟨hwrite ▸ hnone,hno.2,hno.1⟩
    obtain ⟨r',hr',hserves,heffect,-⟩ :=
      toggle_spec backend (r := r.log fd .write) hlook h hnot htoggle
    exact ⟨r',hr',hserves,by simpa using (Effect.log backend fd r .write).trans heffect⟩

variable (backend) in
theorem activate_write_hung {o : Outcome} {channel : Channel} (hkept : Kept channel fd r.state)
    (hhang : o.HangsOn channel .write) :
    r.channelEventActivate backend o fd .write = .error .hung := by
  obtain ⟨c,hlook,hfd,hwrite,hdata⟩ := hkept
  obtain ⟨hcallback,hswitch,hback⟩ := hhang
  rw [activate_write hlook hfd, if_neg (hwrite ▸ hcallback)]
  exact toggle_hung _ ((Channel.takesUpdates_of_data hdata).trans hback) hswitch

end Round

/-- The callbacks that are invoked for a channel with the given bits. -/
def Channel.invokes (channel : Channel) (readable writable : Bool) : List EventKind :=
  (if readable then channel.readKinds else []) ++ if writable then channel.writeKinds else []

/-- The write event of a channel comes after a read event in which its connection ends. -/
def Outcome.Crashes (o : Outcome) (channel : Channel) (readable writable : Bool) : Prop :=
  readable = true ∧ writable = true ∧ o.closes channel

/-- A callback that is invoked for the given bits does not come back. -/
def Outcome.Hangs (o : Outcome) (channel : Channel) (readable writable : Bool) : Prop :=
  readable = true ∧ o.HangsOn channel .read ∨
    writable = true ∧ o.HangsOn channel .write ∧ ¬ (readable = true ∧ o.closes channel)

instance (o : Outcome) (channel : Channel) (readable writable : Bool) :
    Decidable (o.Hangs channel readable writable) :=
  inferInstanceAs (Decidable (_ ∧ _ ∨ _ ∧ _ ∧ ¬ (_ ∧ _)))

namespace Round

/-- One report: the loop follows the null entry that its read event has left, stays in a
callback, or serves the channel and goes on. -/
theorem activateReported_spec (hlaw : backend.Lawful free watched) {o : Outcome} (ho : o.Sized)
    (h : Serves free watched channels (fd :: todo) r.state) (hnot : fd ∉ todo)
    (readable writable : Bool) :
    (o.Crashes (channels fd) readable writable →
      r.activateReported backend o readable writable fd = .error .nullChannel) ∧
    (o.Hangs (channels fd) readable writable →
      r.activateReported backend o readable writable fd = .error .hung) ∧
    (¬ o.Crashes (channels fd) readable writable → ¬ o.Hangs (channels fd) readable writable →
      ∃ r', r.activateReported backend o readable writable fd = .ok r' ∧
        Serves free watched channels todo r'.state ∧
        r.Effect backend fd ((channels fd).invokes readable writable)
          (if readable then o.establishes (channels fd) else []) r') := by
  have hlook := h.entry fd List.mem_cons_self
  have hkept : Kept (channels fd) fd r.state := ⟨_,hlook,h.descriptor fd _ hlook,rfl,rfl⟩
  cases readable with
  | false =>
    have hno : ¬ (false = true ∧ o.closes (channels fd)) := fun hr => by cases hr.1
    refine ⟨fun hcrash => absurd hcrash.1 (by decide),?_,fun _ hback => ?_⟩
    · rintro (⟨hr,-⟩ | ⟨rfl,hhang,-⟩)
      · cases hr
      · exact activate_write_hung backend hkept hhang
    · cases writable with
      | false => exact ⟨r,rfl,h.tail,by simpa [Channel.invokes] using Effect.refl backend fd r⟩
      | true =>
        obtain ⟨r',hr',hserves,heffect⟩ := activate_write_spec backend hkept h.tail hnot
          fun hhang => hback (.inr ⟨rfl,hhang,hno⟩)
        exact ⟨r',hr',hserves,by simpa [Channel.invokes] using heffect⟩
  | true =>
    by_cases hreading : o.HangsOn (channels fd) .read
    · -- the connection has sent data, so it has not ended
      have hstop : r.activateReported backend o true writable fd = .error .hung := by
        simp only [activateReported, if_true, activate_read_hung h hreading]
        rfl
      refine ⟨fun hcrash => ?_,fun _ => hstop,fun _ hback => absurd (.inl ⟨rfl,hreading⟩) hback⟩
      exact absurd (hreading.2.1.symm.trans hcrash.2.2.2) (by decide)
    obtain ⟨r₁,hr₁,hserves₁,heffect₁,hclosed,hopen⟩ := activate_read_spec hlaw ho h hnot hreading
    have hread : ∀ writable, r.activateReported backend o true writable fd =
        if writable then r₁.channelEventActivate backend o fd .write else .ok r₁ := by
      intro writable
      simp only [activateReported, if_true, hr₁]
      rfl
    cases writable with
    | false =>
      refine ⟨fun hcrash => absurd hcrash.2.1 (by decide),?_,
        fun _ _ => ⟨r₁,hread false,hserves₁,?_⟩⟩
      · rintro (⟨-,hhang⟩ | ⟨hw,-⟩)
        · exact absurd hhang hreading
        · cases hw
      · simpa [Channel.invokes] using heffect₁
    | true =>
      rw [hread, if_pos rfl]
      refine ⟨?_,?_,?_⟩
      · rintro ⟨-,-,hcloses⟩
        obtain ⟨hlt,hnull⟩ := hclosed hcloses
        rw [channelEventActivate, if_neg (by omega), hnull]
      · rintro (⟨-,hhang⟩ | ⟨-,hhang,hno⟩)
        · exact absurd hhang hreading
        · exact activate_write_hung backend (hopen fun hcloses => hno ⟨rfl,hcloses⟩) hhang
      · intro hcrash hback
        have hne : ¬ o.closes (channels fd) := fun hcloses => hcrash ⟨rfl,rfl,hcloses⟩
        obtain ⟨r₂,hr₂,hserves₂,heffect₂⟩ := activate_write_spec backend (hopen hne) hserves₁ hnot
          fun hhang => hback (.inr ⟨rfl,hhang,fun hr => hne hr.2⟩)
        exact ⟨r₂,hr₂,hserves₂,by simpa [Channel.invokes] using heffect₁.trans heffect₂⟩

end Round
end CppExamples.HttpTest
