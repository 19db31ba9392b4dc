import CppExamples.HttpTest.EpollLoop
import CppExamples.Library.Machine

/-! # Descriptors and registered channels

A descriptor should be open for a connection exactly when that connection's channel
is in the channel map.  The pending list adds the connections that are open and not
yet registered; every accepted connection is in one of the two places as long as no
read ends a connection and epoll reports no error.  A read that ends a connection
unregisters it and leaves it open; a reported error closes it and leaves it
registered.
-/
namespace CppExamples.HttpTest
open PendingList Machine

def fileOf : CallbackData → File
  | .eventLoop _ => .wakeup
  | .tcpServer _ => .listening
  | .tcpConnection addr => .connection addr

/-- The channel map has the connection's channel under the descriptor. -/
def Registered (s : LoopState EpollData) (fd addr : ℕ) : Prop :=
  ∃ channel, s.map.lookup fd = some channel ∧ channel.data = .tcpConnection addr

/-- A descriptor is open for a connection if and only if it is registered. -/
def Bookkept (s : LoopState EpollData) : Prop :=
  ∀ fd addr, s.data.openFiles fd = some (.connection addr) ↔ Registered s fd addr

/-- Every registered connection is watched, so its events are reported. -/
def Watched (s : LoopState EpollData) : Prop :=
  ∀ fd addr, Registered s fd addr → s.data.interest fd ≠ none

/-- The descriptor is open for a connection that is not registered. -/
def Unserved (s : LoopState EpollData) (channel : Channel) : Prop :=
  channel.fd < 2 ^ 27 ∧ s.data.openFiles channel.fd.toNat = some (fileOf channel.data) ∧
    s.map.lookup channel.fd.toNat = none

/-- The waiting operations add exactly the open connections that are not registered. -/
structure Consistent (s : LoopState EpollData) (waiting : List (ChannelOp × Channel)) : Prop where
  entries : ∀ fd channel, s.map.lookup fd = some channel →
    channel.fd = fd ∧ s.data.openFiles fd = some (fileOf channel.data)
  watched : ∀ fd, s.data.interest fd ≠ none ↔ s.map.lookup fd ≠ none
  adds : ∀ e ∈ waiting, e.1 = .add ∧ (0 ≤ e.2.fd → Unserved s e.2)
  distinct : waiting.Pairwise fun a b => a.2.fd < 0 ∨ a.2.fd ≠ b.2.fd
  served : ∀ fd addr, s.data.openFiles fd = some (.connection addr) →
    s.map.lookup fd ≠ none ∨ ∃ e ∈ waiting, e.2.fd = fd

theorem Consistent.bookkept {s : LoopState EpollData} (h : Consistent s []) : Bookkept s := by
  intro fd addr
  constructor
  · intro hopen
    rcases h.served fd addr hopen with hlook | ⟨e,he,_⟩
    · obtain ⟨channel,hchannel⟩ := Option.ne_none_iff_exists'.mp hlook
      have hfile := (h.entries fd channel hchannel).2
      rw [hopen] at hfile
      refine ⟨channel,hchannel,?_⟩
      cases hdata : channel.data with
      | eventLoop a => simp [hdata, fileOf] at hfile
      | tcpServer a => simp [hdata, fileOf] at hfile
      | tcpConnection a =>
        simp only [hdata, fileOf, Option.some.injEq, File.connection.injEq] at hfile
        rw [hfile]
    · cases he
  · rintro ⟨channel,hchannel,hdata⟩
    rw [(h.entries fd channel hchannel).2, hdata]
    rfl

theorem Consistent.registered_watched {s : LoopState EpollData}
    {waiting : List (ChannelOp × Channel)} (h : Consistent s waiting) : Watched s := by
  rintro fd addr ⟨channel,hchannel,_⟩
  exact (h.watched fd).mpr (by simp [hchannel])

theorem handlePendingAdd_spec {s : LoopState EpollData} {channel : Channel}
    (hfd : 0 ≤ channel.fd) (hun : Unserved s channel)
    (hwatch : s.data.interest channel.fd.toNat = none) :
    ∃ s', eventLoopHandlePendingAdd epollDispatcher s channel.fd channel true = some (s', 1) ∧
      s'.data.openFiles = s.data.openFiles ∧
      (∀ x, s'.map.lookup x = if x = channel.fd.toNat then some channel else s.map.lookup x) ∧
      ∀ x, s'.data.interest x =
        if x = channel.fd.toNat then some (epollEvents channel) else s.data.interest x := by
  obtain ⟨hslot,hopen,hfree⟩ := hun
  have hadd : epollAdd s.data channel = some ({ s.data with
      interest := Function.update s.data.interest channel.fd.toNat (epollEvents channel) }, 0) := by
    simp [epollAdd, hfd, hopen, hwatch]
  rcases handlePendingAdd_cases epollDispatcher s channel true channel.fd.toNat (by omega)
      (by omega) with ⟨hfalse,-⟩ | ⟨hlook,-⟩ | ⟨-,map',hlookup,hstep⟩
  · cases hfalse
  · exact absurd hfree hlook
  · rw [show epollDispatcher.add = epollAdd from rfl, hadd, Option.map_some] at hstep
    exact ⟨_,hstep,rfl,hlookup,fun x => Function.update_apply ..⟩

theorem Consistent.drop {s : LoopState EpollData} {waiting : List (ChannelOp × Channel)}
    {type : ChannelOp} {channel : Channel} (h : Consistent s ((type, channel) :: waiting))
    (hfd : channel.fd < 0) : Consistent s waiting := by
  constructor
  · exact h.entries
  · exact h.watched
  · exact fun e he => h.adds e (List.mem_cons_of_mem _ he)
  · exact (List.pairwise_cons.mp h.distinct).2
  · intro fd addr hopen
    rcases h.served fd addr hopen with hlook | ⟨e,he,hefd⟩
    · exact .inl hlook
    · rcases List.mem_cons.mp he with rfl | he
      · simp only at hefd
        omega
      · exact .inr ⟨e,he,hefd⟩

/-- The channel that waited first gets its entry and its interest. -/
theorem Consistent.register {s s' : LoopState EpollData} {waiting : List (ChannelOp × Channel)}
    {type : ChannelOp} {channel : Channel} (h : Consistent s ((type, channel) :: waiting))
    (hfd : 0 ≤ channel.fd) (hopen : s'.data.openFiles = s.data.openFiles)
    (hlookup : ∀ x, s'.map.lookup x =
      if x = channel.fd.toNat then some channel else s.map.lookup x)
    (hinterest : ∀ x, s'.data.interest x =
      if x = channel.fd.toNat then some (epollEvents channel) else s.data.interest x) :
    Consistent s' waiting := by
  have hun := (h.adds _ List.mem_cons_self).2 hfd
  have hpair := List.pairwise_cons.mp h.distinct
  constructor
  · intro fd c hc
    rw [hopen]
    rw [hlookup] at hc
    split at hc
    · rename_i hx
      obtain rfl := Option.some.inj hc
      subst hx
      exact ⟨by omega,hun.2.1⟩
    · exact h.entries fd c hc
  · intro fd
    rw [hlookup, hinterest]
    split
    · simp
    · exact h.watched fd
  · intro e he
    obtain ⟨hetype,heun⟩ := h.adds e (List.mem_cons_of_mem _ he)
    refine ⟨hetype,fun hefd => ?_⟩
    obtain ⟨hsmall,heopen,hefree⟩ := heun hefd
    have hne : e.2.fd.toNat ≠ channel.fd.toNat := by
      have := hpair.1 e he
      simp only at this
      omega
    exact ⟨hsmall,by rw [hopen]; exact heopen,by rw [hlookup, if_neg hne]; exact hefree⟩
  · exact hpair.2
  · intro fd addr hopen'
    rw [hopen] at hopen'
    rw [hlookup]
    split
    · exact .inl (by simp)
    · rename_i hx
      rcases h.served fd addr hopen' with hlook | ⟨e,he,hefd⟩
      · exact .inl hlook
      · rcases List.mem_cons.mp he with rfl | he
        · simp only at hefd
          omega
        · exact .inr ⟨e,he,hefd⟩

theorem Consistent.add {s : LoopState EpollData} {waiting : List (ChannelOp × Channel)}
    {type : ChannelOp} {channel : Channel} (h : Consistent s ((type, channel) :: waiting)) :
    ∃ s', handleChannelOp epollDispatcher (fun _ => true) (some s) type channel = some s' ∧
      Consistent s' waiting := by
  obtain ⟨htype,hun⟩ := h.adds _ List.mem_cons_self
  obtain rfl : type = .add := htype
  by_cases hfd : channel.fd < 0
  · exact ⟨s,by simp [handleChannelOp, eventLoopHandlePendingAdd, hfd],h.drop hfd⟩
  · rw [not_lt] at hfd
    have hun := hun hfd
    have hwatch : s.data.interest channel.fd.toNat = none := by
      by_contra hne
      exact (h.watched _).mp hne hun.2.2
    obtain ⟨s',hadd,hopen,hlookup,hinterest⟩ := handlePendingAdd_spec hfd hun hwatch
    exact ⟨s',by simp [handleChannelOp, hadd],h.register hfd hopen hlookup hinterest⟩

theorem Consistent.distinct_concat {s : LoopState EpollData} {waiting : List (ChannelOp × Channel)}
    (h : Consistent s waiting) {type : ChannelOp} {channel : Channel}
    (hnew : ∀ e ∈ waiting, 0 ≤ e.2.fd → e.2.fd ≠ channel.fd) :
    (waiting ++ [(type, channel)]).Pairwise fun a b => a.2.fd < 0 ∨ a.2.fd ≠ b.2.fd := by
  refine List.pairwise_append.mpr ⟨h.distinct,List.pairwise_singleton _ _,?_⟩
  intro a ha b hb
  obtain rfl := List.mem_singleton.mp hb
  rcases lt_or_ge a.2.fd 0 with hneg | hpos
  · exact .inl hneg
  · exact .inr (hnew a ha hpos)

theorem Consistent.refused {s : LoopState EpollData} {waiting : List (ChannelOp × Channel)}
    (h : Consistent s waiting) (channel : Channel) (hfd : channel.fd = -1) :
    Consistent s (waiting ++ [(.add, channel)]) := by
  refine ⟨h.entries,h.watched,?_,?_,?_⟩
  · intro e he
    rcases List.mem_append.mp he with he | he
    · exact h.adds e he
    · obtain rfl := List.mem_singleton.mp he
      refine ⟨rfl,fun h0 => ?_⟩
      simp only at h0
      omega
  · refine h.distinct_concat fun e _ hpos => ?_
    omega
  · intro fd addr hopen
    rcases h.served fd addr hopen with hlook | ⟨e,he,hefd⟩
    · exact .inl hlook
    · exact .inr ⟨e,List.mem_append_left _ he,hefd⟩

/-- A connection that gets a free descriptor waits to be registered. -/
theorem Consistent.opened {s : LoopState EpollData} {waiting : List (ChannelOp × Channel)}
    {fd : ℤ} {addr : ℕ} (h : Consistent s waiting) (hpos : 0 ≤ fd) (hsmall : fd < 2 ^ 27)
    (hfree : s.data.openFiles fd.toNat = none) :
    Consistent { s with data := s.data.opened fd.toNat (.connection addr) }
      (waiting ++ [(.add, connectionChannel fd addr)]) := by
  -- the descriptor was free, so nothing that was known is about it
  have hne : ∀ {x file}, s.data.openFiles x = some file → x ≠ fd.toNat := by
    rintro x file hx rfl
    rw [hfree] at hx
    cases hx
  have hlookup : s.map.lookup fd.toNat = none := by
    by_contra hl
    obtain ⟨channel,hchannel⟩ := Option.ne_none_iff_exists'.mp hl
    exact hne (h.entries _ _ hchannel).2 rfl
  refine ⟨?_,h.watched,?_,?_,?_⟩
  · intro x channel hchannel
    obtain ⟨hx,hopen⟩ := h.entries x channel hchannel
    exact ⟨hx,by simpa [hne hopen] using hopen⟩
  · intro e he
    rcases List.mem_append.mp he with he | he
    · obtain ⟨htype,hun⟩ := h.adds e he
      refine ⟨htype,fun hefd => ?_⟩
      obtain ⟨hsm,hopen,hfree'⟩ := hun hefd
      exact ⟨hsm,by simpa [hne hopen] using hopen,hfree'⟩
    · obtain rfl := List.mem_singleton.mp he
      exact ⟨rfl,fun _ => ⟨hsmall,by simp [connectionChannel, channelNew, fileOf],hlookup⟩⟩
  · refine h.distinct_concat fun e he hefd heq => ?_
    have hopen := ((h.adds e he).2 hefd).2.1
    refine hne hopen ?_
    rw [heq]
    rfl
  · intro x addr' hopen
    by_cases hx : x = fd.toNat
    · refine .inr ⟨(.add, connectionChannel fd addr),by simp,?_⟩
      simp only [connectionChannel, channelNew]
      omega
    · rcases h.served x addr' (by simpa [hx] using hopen) with hlook | ⟨e,he,hefd⟩
      · exact .inl hlook
      · exact .inr ⟨e,List.mem_append_left _ he,hefd⟩

theorem Consistent.setEntry {s : LoopState EpollData} {waiting : List (ChannelOp × Channel)}
    {fd : ℕ} {channel channel' : Channel} (h : Consistent s waiting)
    (hl : s.map.lookup fd = some channel) (hfd : channel'.fd = channel.fd)
    (hdata : channel'.data = channel.data) : Consistent (s.setEntry fd (some channel')) waiting := by
  have hlt : fd < s.map.nentries := by
    by_contra hge
    simp [ChannelMap.lookup, hge] at hl
  have hlookup := s.lookup_setEntry hlt (some channel')
  have hnone : ∀ x, (s.setEntry fd (some channel')).map.lookup x ≠ none ↔ s.map.lookup x ≠ none := by
    intro x
    rw [hlookup]
    split
    · rename_i hx
      subst hx
      simp [hl]
    · rfl
  refine ⟨?_,fun x => (h.watched x).trans (hnone x).symm,?_,h.distinct,?_⟩
  · intro x c hc
    rw [hlookup] at hc
    split at hc
    · rename_i hx
      obtain rfl := Option.some.inj hc
      subst hx
      rw [hfd, hdata]
      exact h.entries x channel hl
    · exact h.entries x c hc
  · intro e he
    obtain ⟨htype,hun⟩ := h.adds e he
    refine ⟨htype,fun hefd => ?_⟩
    obtain ⟨hsm,hopen,hfree⟩ := hun hefd
    refine ⟨hsm,hopen,?_⟩
    by_contra hne
    exact (hnone _).mp hne hfree
  · intro x addr hopen
    rcases h.served x addr hopen with hlook | hwait
    · exact .inl ((hnone x).mpr hlook)
    · exact .inr hwait

namespace EpollLoop

/-- The process lives and its pending list holds what is open and not registered. -/
def Good (w : EpollLoop) : Prop :=
  ∃ s addrs waiting, w.state = some s ∧ w.pending.Holds addrs waiting ∧ Consistent s waiting

/-- No read ends a connection, epoll reports no error, and the map can grow. -/
def StepAllowed (_ : EpollLoop) : LoopStep → Prop
  | .accept connectedFd => connectedFd < 2 ^ 27
  | .event e _ => e.err = false ∧ e.hup = false ∧ (e.readable = true → e.received = true)
  | .handlePending realloc => ∀ fd, realloc fd = true

theorem foldl_handleChannelOp {s : LoopState EpollData} {waiting : List (ChannelOp × Channel)}
    (h : Consistent s waiting) :
    ∃ s', waiting.foldl (fun m e => handleChannelOp epollDispatcher (fun _ => true) m e.1 e.2)
      (some s) = some s' ∧ Consistent s' [] := by
  induction waiting generalizing s with
  | nil => exact ⟨s,rfl,h⟩
  | cons e waiting ih =>
    obtain ⟨s₁,hs₁,h₁⟩ := h.add
    obtain ⟨s',hs',h'⟩ := ih h₁
    refine ⟨s',?_,h'⟩
    rw [List.foldl_cons, hs₁]
    exact hs'

theorem good_handlePending {w : EpollLoop} (h : w.Good) : (w.handlePending fun _ => true).Good := by
  obtain ⟨s,addrs,waiting,hs,hholds,hc⟩ := h
  obtain ⟨pending,hhandle,hempty⟩ :=
    hholds.handlePending (handleChannelOp epollDispatcher fun _ => true) w.state
  obtain ⟨s',hs',hc'⟩ := foldl_handleChannelOp hc
  rw [hs, hs'] at hhandle
  refine ⟨s',[],[],?_,?_,hc'⟩
  · simp [handlePending, hs, hhandle]
  · simpa [handlePending, hs, hhandle] using hempty

theorem good_initial {wakeFd : ℕ} (hfd : wakeFd < 2 ^ 27) : (initial wakeFd).Good := by
  let s₀ : LoopState EpollData := {
    map := mapInit
    data := EpollData.opened ⟨fun _ => none,fun _ => none⟩ wakeFd .wakeup }
  have hlookup : ∀ x, s₀.map.lookup x = none := by
    intro x
    simp [s₀, ChannelMap.lookup, mapInit]
  have hc : Consistent s₀
      [(.add, channelNew wakeFd eventRead (some .handleWakeup) none (.eventLoop 0))] := by
    refine ⟨?_,?_,?_,?_,?_⟩
    · intro fd channel hchannel
      rw [hlookup] at hchannel
      cases hchannel
    · intro fd
      rw [hlookup]
      simp [s₀]
    · intro e he
      obtain rfl := List.mem_singleton.mp he
      refine ⟨rfl,fun _ => ⟨?_,?_,hlookup _⟩⟩
      · simp only [channelNew]
        omega
      · simp [s₀, channelNew, fileOf]
    · exact List.pairwise_singleton _ _
    · intro fd addr hopen
      by_cases hx : fd = wakeFd <;> simp [s₀, hx] at hopen
  obtain ⟨s',hs',hc'⟩ := hc.add
  exact ⟨s',[],[],hs',holds_empty,hc'⟩

theorem good_accept {w : EpollLoop} {s : LoopState EpollData} {connectedFd : ℤ} (h : w.Good)
    (hs : w.state = some s) (hsmall : connectedFd < 2 ^ 27)
    (hfree : connectedFd = -1 ∨ (0 ≤ connectedFd ∧ s.data.openFiles connectedFd.toNat = none)) :
    (w.accept connectedFd).Good := by
  obtain ⟨s₁,addrs,waiting,hs₁,hholds,hc⟩ := h
  obtain rfl : s₁ = s := Option.some.inj (hs₁.symm.trans hs)
  have hpost := hholds.doChannelEvent .add (connectionChannel connectedFd w.accepted)
  have hbuffer := hholds.buffer .add (connectionChannel connectedFd w.accepted)
  simp only [accept, hpost, hs, Option.map_some]
  rcases hfree with rfl | ⟨hpos,hfree⟩
  · exact ⟨_,_,_,rfl,hbuffer,hc.refused (connectionChannel (-1) w.accepted) rfl⟩
  · rw [if_neg (not_lt.mpr hpos)]
    exact ⟨_,_,_,rfl,hbuffer,hc.opened hpos hsmall hfree⟩

/-- The loop is good and has a channel for the descriptor. -/
def Serves (w : EpollLoop) (fd : ℕ) : Prop :=
  ∃ s addrs waiting channel, w.state = some s ∧ w.pending.Holds addrs waiting ∧
    Consistent s waiting ∧ s.map.lookup fd = some channel

theorem Serves.good {w : EpollLoop} {fd : ℕ} (h : w.Serves fd) : w.Good := by
  obtain ⟨s,addrs,waiting,_,hs,hholds,hc,_⟩ := h
  exact ⟨s,addrs,waiting,hs,hholds,hc⟩

/-- A callback that at most switches the write event of the channel it is called for. -/
def OnlyToggles (callback : Channel → EpollLoop → EpollLoop) : Prop :=
  ∀ channel w, callback channel w = w ∨ ∃ enable, callback channel w = w.toggle channel (some enable)

theorem Serves.toggle {w : EpollLoop} {s : LoopState EpollData} {fd : ℕ} {channel : Channel}
    {addrs : List ℕ} {waiting : List (ChannelOp × Channel)} (hs : w.state = some s)
    (hholds : w.pending.Holds addrs waiting) (hc : Consistent s waiting)
    (hl : s.map.lookup fd = some channel) (enable : Bool) :
    (w.toggle channel (some enable)).Serves fd := by
  obtain ⟨hfd,_⟩ := hc.entries fd channel hl
  have hlt : fd < s.map.nentries := by
    by_contra hge
    simp [ChannelMap.lookup, hge] at hl
  have hnat : channel.fd.toNat = fd := by omega
  let r := if enable then channelWriteEventEnable channel else channelWriteEventDisable channel
  have hr : r.1.fd = channel.fd ∧ r.1.data = channel.data := by
    cases enable <;> exact ⟨rfl,rfl⟩
  refine ⟨s.setEntry fd (some r.1),addrs,waiting,r.1,?_,hholds,hc.setEntry hl hr.1 hr.2,?_⟩
  · simp [EpollLoop.toggle, hs, hnat, r]
  · rw [s.lookup_setEntry hlt, if_pos rfl]

theorem Serves.activate {w : EpollLoop} {fd : ℕ} {callback : Channel → EpollLoop → EpollLoop}
    (h : w.Serves fd) (hcall : OnlyToggles callback) :
    (w.channelEventActivate fd callback).Serves fd := by
  obtain ⟨s,addrs,waiting,channel,hs,hholds,hc,hl⟩ := h
  obtain ⟨hfd,_⟩ := hc.entries fd channel hl
  have hlt : fd < s.map.nentries := by
    by_contra hge
    simp [ChannelMap.lookup, hge] at hl
  have hentry : s.map.entries fd = some channel := by simpa [ChannelMap.lookup, hlt] using hl
  have hrun : w.channelEventActivate fd callback = callback channel w := by
    simp [channelEventActivate, hs, not_le.mpr hlt, hentry, hfd]
  rw [hrun]
  rcases hcall channel w with he | ⟨enable,he⟩
  · rw [he]
    exact ⟨s,addrs,waiting,channel,hs,hholds,hc,hl⟩
  · rw [he]
    exact Serves.toggle hs hholds hc hl enable

theorem readCallback_onlyToggles {e : EpollEvent} (realloc : ℤ → Bool) (h : e.received = true) :
    OnlyToggles (readCallback e realloc) := by
  intro channel w
  by_cases hc : channel.eventReadCallback = some .handleRead
  · cases hon : e.onRead with
    | none => simp [readCallback, hc, h, hon, toggle]
    | some enable => exact .inr ⟨enable,by simp [readCallback, hc, h, hon]⟩
  · simp [readCallback, hc]

theorem writeCallback_onlyToggles (e : EpollEvent) : OnlyToggles (writeCallback e) := by
  intro channel w
  by_cases hc : channel.eventWriteCallback = some .handleWrite
  · cases hon : e.onWrite with
    | none => simp [writeCallback, hc, hon, toggle]
    | some enable => exact .inr ⟨enable,by simp [writeCallback, hc, hon]⟩
  · simp [writeCallback, hc]

theorem good_dispatchEvent {w : EpollLoop} {e : EpollEvent} (realloc : ℤ → Bool)
    (h : w.Serves e.fd) (herr : e.err = false) (hhup : e.hup = false)
    (hread : e.readable = true → e.received = true) : (w.dispatchEvent e realloc).Good := by
  simp only [dispatchEvent, herr, hhup, Bool.or_self, Bool.false_eq_true, if_false]
  have hafter : (if e.readable = true then w.channelEventActivate e.fd (readCallback e realloc)
      else w).Serves e.fd := by
    split
    · rename_i hr
      exact h.activate (readCallback_onlyToggles realloc (hread hr))
    · exact h
  split
  · exact (hafter.activate (writeCallback_onlyToggles e)).good
  · exact hafter.good

theorem good_step {w w' : EpollLoop} {label : LoopStep} {o : Unit} (h : w.Good)
    (hok : w.StepAllowed label) (hstep : w.step label = some (w', o)) : w'.Good := by
  have hgood := h
  obtain ⟨s,addrs,waiting,hs,hholds,hc⟩ := h
  simp only [step, hs, Option.bind_some] at hstep
  cases label with
  | accept connectedFd =>
    simp only at hstep
    split at hstep
    · rename_i hfree
      obtain ⟨rfl,_⟩ := Prod.mk.inj (Option.some.inj hstep)
      exact good_accept hgood hs hok hfree
    · cases hstep
  | event e realloc =>
    simp only at hstep
    split at hstep
    · rename_i hwatched
      obtain ⟨rfl,_⟩ := Prod.mk.inj (Option.some.inj hstep)
      obtain ⟨channel,hchannel⟩ := Option.ne_none_iff_exists'.mp ((hc.watched e.fd).mp hwatched)
      exact good_dispatchEvent realloc ⟨s,addrs,waiting,channel,hs,hholds,hc,hchannel⟩
        hok.1 hok.2.1 hok.2.2
    · cases hstep
  | handlePending realloc =>
    obtain ⟨rfl,_⟩ := Prod.mk.inj (Option.some.inj hstep)
    obtain rfl : realloc = fun _ => true := funext hok
    exact good_handlePending hgood

def readEvent (fd : ℕ) (received : Bool) : EpollEvent where
  fd := fd
  err := false
  hup := false
  readable := true
  writable := false
  received := received
  onRead := none
  onWrite := none

def hangUpEvent (fd : ℕ) : EpollEvent := { readEvent fd false with hup := true }

end EpollLoop
end CppExamples.HttpTest
