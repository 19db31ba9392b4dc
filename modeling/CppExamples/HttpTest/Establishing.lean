import CppExamples.HttpTest.HttpRequest
import CppExamples.HttpTest.EpollLoop
import CppExamples.HttpTest.PollLoop
import CppExamples.Library.Machine

/-! # Handing a connection to a sub-reactor

The acceptor thread constructs a connection, posts its channel to the loop it has chosen
and sets `data` behind that.  The threads of the other loops handle their pending lists
and dispatch read events at any time in between; when they are woken is left open.  The
loop 0 is the acceptor's own.
-/
namespace CppExamples.HttpTest
open PendingList Machine
variable {δ : Type*}

/-- The fields of a `tcp_connection` that are set on the way; none is what `malloc` left. -/
structure Established where
  channel : Channel
  eventLoop : ℕ
  httpRequest : Option HttpRequest
  data : Option ℕ

structure TcpServer where
  threadNum : ℕ
  data : Option ℕ

/-- The server that `http_server_new` makes of itself. -/
def httpServerNew (addr threadNum : ℕ) : TcpServer := ⟨threadNum,some addr⟩

/-- `thread_pool_get_loop`: the loop and the new position. -/
def threadPoolGetLoop (threadNumber position : ℕ) : ℕ × ℕ :=
  if 0 < threadNumber then (position + 1, if threadNumber ≤ position + 1 then 0 else position + 1)
  else (0, position)

/-- Where the acceptor is in `handle_connection_established`: `tcp_connection_new` has
made the channel, its completion callback has run, the channel has been posted, the call
has returned. -/
inductive Acceptor where
  | idle
  | constructed (addr : ℕ)
  | completed (addr : ℕ)
  | posted (addr : ℕ)
  | returned (addr : ℕ)
deriving DecidableEq

def Acceptor.current : Acceptor → Option ℕ
  | .idle => none
  | .constructed addr | .completed addr | .posted addr | .returned addr => some addr

structure ThreadLoop (δ : Type*) where
  pending : PendingList Channel
  state : LoopState δ

namespace ThreadLoop

/-- The locked section of `event_loop_do_channel_event`. -/
def post (w : ThreadLoop δ) (type : ChannelOp) (channel : Channel) : Option (ThreadLoop δ) :=
  (w.pending.eventLoopDoChannelEvent type channel).map fun pending => { w with pending := pending }

def handlePending (dispatcher : Dispatcher δ) (realloc : ℤ → Bool) (w : ThreadLoop δ) :
    Option (ThreadLoop δ) :=
  (w.pending.eventLoopHandlePendingChannel (handleChannelOp dispatcher realloc)
    (some w.state)).bind fun r => r.2.map fun state => ⟨r.1,state⟩

def toggle (w : ThreadLoop δ) (channel : Channel) : Option Bool → ThreadLoop δ
  | none => w
  | some enable =>
    let r := if enable then channelWriteEventEnable channel else channelWriteEventDisable channel
    { w with state := w.state.setEntry channel.fd.toNat (some r.1) }

end ThreadLoop

/-- A call of `http_onMessage`, with the connection as it finds it. -/
structure MessageCall where
  addr : ℕ
  connection : Established

def MessageCall.Initialised (m : MessageCall) : Prop :=
  m.connection.httpRequest ≠ none ∧ m.connection.data ≠ none

structure Establishing (δ : Type*) where
  acceptor : Acceptor
  position : ℕ
  allocated : ℕ
  connections : ℕ → Option Established
  loops : ℕ → ThreadLoop δ

/-- The atomic steps.  Of a read event it is given whether `buffer_socket_read` returns
more than 0 and what becomes of the write event. -/
inductive EstablishAct where
  | accept (connectedFd : ℤ)
  | connectionCompleted
  | addChannel
  | wakeup (realloc : ℤ → Bool)
  | setData
  | handlePending (loop : ℕ) (realloc : ℤ → Bool)
  | readEvent (loop fd : ℕ) (received : Bool) (onRead : Option Bool) (realloc : ℤ → Bool)

namespace Establishing

def setLoop (w : Establishing δ) (loop : ℕ) (l : ThreadLoop δ) : Establishing δ :=
  { w with loops := Function.update w.loops loop l }

def setConnection (w : Establishing δ) (addr : ℕ) (c : Established) (acceptor : Acceptor) :
    Establishing δ :=
  { w with connections := Function.update w.connections addr (some c), acceptor := acceptor }

/-- The thread of a loop is in it, and not in `handle_connection_established`. -/
def Turns (w : Establishing δ) (loop : ℕ) : Prop := loop = 0 → w.acceptor = .idle

instance (w : Establishing δ) (loop : ℕ) : Decidable (w.Turns loop) :=
  inferInstanceAs (Decidable (loop = 0 → w.acceptor = .idle))

/-- A read event: `channel_event_activate` and, for a connection, `handle_read`. -/
def readEvent (dispatcher : Dispatcher δ) (w : Establishing δ) (loop fd : ℕ) (received : Bool)
    (onRead : Option Bool) (realloc : ℤ → Bool) : Option (Establishing δ × Option MessageCall) :=
  let l := w.loops loop
  if l.state.map.nentries ≤ fd then some (w, none)
  else
    (l.state.map.entries fd).bind fun channel =>
      if channel.fd ≠ fd then none
      else if channel.eventReadCallback = some .handleRead then
        if received then
          match channel.data with
          | .tcpConnection addr => (w.connections addr).map fun c =>
            (w.setLoop loop (l.toggle channel onRead), some ⟨addr,c⟩)
          | _ => none
        else
          ((l.post .remove channel).bind (ThreadLoop.handlePending dispatcher realloc)).map fun l =>
            (w.setLoop loop l, none)
      else some (w, none)

/-- None when the thread is not at that point, and when the process is gone. -/
def step (tcpServer : TcpServer) (dispatcher : Dispatcher δ) (w : Establishing δ) :
    EstablishAct → Option (Establishing δ × Option MessageCall)
  | .accept connectedFd =>
    match w.acceptor with
    | .idle =>
      let r := threadPoolGetLoop tcpServer.threadNum w.position
      let c : Established := ⟨connectionChannel connectedFd w.allocated,r.1,none,none⟩
      some ({ w.setConnection w.allocated c (.constructed w.allocated) with
        position := r.2
        allocated := w.allocated + 1 }, none)
    | _ => none
  | .connectionCompleted =>
    match w.acceptor with
    | .constructed addr => (w.connections addr).map fun c =>
      (w.setConnection addr { c with httpRequest := some httpRequestNew } (.completed addr), none)
    | _ => none
  | .addChannel =>
    match w.acceptor with
    | .completed addr => (w.connections addr).bind fun c =>
      ((w.loops c.eventLoop).post .add c.channel).map fun l =>
        ({ w.setLoop c.eventLoop l with acceptor := .posted addr }, none)
    | _ => none
  | .wakeup realloc =>
    match w.acceptor with
    | .posted addr => (w.connections addr).bind fun c =>
      if c.eventLoop = 0 then
        ((w.loops 0).handlePending dispatcher realloc).map fun l =>
          ({ w.setLoop 0 l with acceptor := .returned addr }, none)
      else some ({ w with acceptor := .returned addr }, none)
    | _ => none
  | .setData =>
    match w.acceptor with
    | .returned addr => (w.connections addr).map fun c =>
      if tcpServer.data ≠ none then
        (w.setConnection addr { c with data := tcpServer.data } .idle, none)
      else ({ w with acceptor := .idle }, none)
    | _ => none
  | .handlePending loop realloc =>
    if w.Turns loop then
      ((w.loops loop).handlePending dispatcher realloc).map fun l => (w.setLoop loop l, none)
    else none
  | .readEvent loop fd received onRead realloc =>
    if w.Turns loop then readEvent dispatcher w loop fd received onRead realloc else none

def initial (start : ℕ → LoopState δ) : Establishing δ :=
  ⟨.idle,0,0,fun _ => none,fun loop => ⟨.empty,start loop⟩⟩

end Establishing

theorem mapMakeSpace_lookup {map map' : ChannelMap} {slot fd : ℕ} {realloc : Bool} {r : ℤ}
    {channel : Channel} (h : mapMakeSpace map slot realloc = some (map', r))
    (hlook : map'.lookup fd = some channel) : map.lookup fd = some channel := by
  by_cases hle : map.nentries ≤ slot
  · simp only [mapMakeSpace, if_pos hle] at h
    generalize doubleEntries 31 slot _ = n at h
    split_ifs at h
    · cases h
      simp only [ChannelMap.lookup] at hlook ⊢
      split_ifs at hlook ⊢
      exact hlook
    · cases h
      exact hlook
  · simp only [mapMakeSpace, if_neg hle] at h
    cases h
    exact hlook

section Registered
variable {dispatcher : Dispatcher δ} {s s' : LoopState δ} {channel c : Channel} {fd : ℕ} {r : ℤ}

theorem setEntry_lookup {x : ℕ} {entry : Option Channel}
    (h : (s.setEntry x entry).map.lookup fd = some c) : s.map.lookup fd = some c ∨ entry = some c := by
  by_cases hx : fd = x
  · subst hx
    simp only [ChannelMap.lookup, LoopState.setEntry, Function.update_self] at h
    split at h
    · exact Or.inr h
    · cases h
  · exact Or.inl (by simpa [ChannelMap.lookup, LoopState.setEntry, hx] using h)

theorem handlePendingAdd_lookup {realloc : Bool}
    (h : eventLoopHandlePendingAdd dispatcher s channel.fd channel realloc = some (s', r))
    (hlook : s'.map.lookup fd = some c) : s.map.lookup fd = some c ∨ c = channel := by
  simp only [eventLoopHandlePendingAdd] at h
  split at h
  · cases h
    exact Or.inl hlook
  · obtain ⟨⟨map',q⟩,hroom,hadd⟩ := Option.bind_eq_some_iff.mp h
    have hgrow : ∀ c, map'.lookup fd = some c → s.map.lookup fd = some c := by
      intro c hc
      split at hroom
      · exact mapMakeSpace_lookup hroom hc
      · cases hroom
        exact hc
    dsimp only at hadd
    split at hadd
    · cases hadd
      exact Or.inl hlook
    · split at hadd
      · obtain ⟨q,-,he⟩ := Option.map_eq_some_iff.mp hadd
        obtain ⟨rfl,-⟩ := Prod.mk.inj he
        rcases setEntry_lookup hlook with hold | hnew
        · exact Or.inl (hgrow c hold)
        · exact Or.inr (Option.some.inj hnew).symm
      · cases hadd
        exact Or.inl (hgrow c hlook)

theorem handlePendingRemove_lookup
    (h : eventLoopHandlePendingRemove dispatcher s channel.fd channel = some (s', r))
    (hlook : s'.map.lookup fd = some c) : s.map.lookup fd = some c := by
  simp only [eventLoopHandlePendingRemove] at h
  split_ifs at h
  · cases h
    exact hlook
  · cases h
    exact hlook
  · obtain ⟨channel2,-,hdel⟩ := Option.bind_eq_some_iff.mp h
    obtain ⟨q,-,he⟩ := Option.map_eq_some_iff.mp hdel
    obtain ⟨rfl,-⟩ := Prod.mk.inj he
    rcases setEntry_lookup hlook with hold | hnew
    · exact hold
    · cases hnew

theorem handlePendingUpdate_lookup {r : Option ℤ}
    (h : eventLoopHandlePendingUpdate dispatcher s channel.fd channel = some (s', r))
    (hlook : s'.map.lookup fd = some c) : s.map.lookup fd = some c := by
  simp only [eventLoopHandlePendingUpdate] at h
  split_ifs at h
  · cases h
    exact hlook
  · cases h
    exact hlook
  · obtain ⟨q,-,he⟩ := Option.map_eq_some_iff.mp h
    obtain ⟨rfl,-⟩ := Prod.mk.inj he
    exact hlook

/-- A channel that is registered after an operation was so before, or is the one that the
operation adds. -/
theorem handleChannelOp_lookup {realloc : ℤ → Bool} {type : ChannelOp}
    (h : handleChannelOp dispatcher realloc (some s) type channel = some s')
    (hlook : s'.map.lookup fd = some c) : s.map.lookup fd = some c ∨ c = channel := by
  cases type with
  | add =>
    obtain ⟨⟨t,r⟩,hadd,rfl⟩ := Option.map_eq_some_iff.mp h
    exact handlePendingAdd_lookup hadd hlook
  | remove =>
    obtain ⟨⟨t,r⟩,hremove,rfl⟩ := Option.map_eq_some_iff.mp h
    exact Or.inl (handlePendingRemove_lookup hremove hlook)
  | update =>
    obtain ⟨⟨t,r⟩,hupdate,rfl⟩ := Option.map_eq_some_iff.mp h
    exact Or.inl (handlePendingUpdate_lookup hupdate hlook)

end Registered

/-- Every channel that a loop has registered, or will find in its pending list, is good. -/
structure ThreadLoop.All (good : Channel → Prop) (l : ThreadLoop δ) : Prop where
  pending : ∃ addrs entries, l.pending.Holds addrs entries ∧ ∀ e ∈ entries, good e.2
  registered : ∀ fd channel, l.state.map.lookup fd = some channel → good channel

namespace ThreadLoop
variable {good : Channel → Prop} {l l' : ThreadLoop δ}

theorem All.mono {good' : Channel → Prop} (h : l.All good)
    (himp : ∀ channel, good channel → good' channel) : l.All good' := by
  obtain ⟨addrs,entries,hholds,hgood⟩ := h.pending
  exact ⟨⟨addrs,entries,hholds,fun e he => himp _ (hgood e he)⟩,
    fun fd channel hlook => himp _ (h.registered fd channel hlook)⟩

theorem All.post (h : l.All good) {type : ChannelOp} {channel : Channel} (hgood : good channel)
    (hpost : l.post type channel = some l') : l'.All good := by
  obtain ⟨addrs,entries,hholds,hall⟩ := h.pending
  obtain ⟨pending,hpending,rfl⟩ := Option.map_eq_some_iff.mp hpost
  rw [hholds.doChannelEvent] at hpending
  obtain rfl := Option.some.inj hpending
  refine ⟨⟨_,_,hholds.buffer type channel,?_⟩,h.registered⟩
  intro e he
  rcases List.mem_append.mp he with he | he
  · exact hall e he
  · rw [List.mem_singleton.mp he]
    exact hgood

theorem foldl_handle_none (dispatcher : Dispatcher δ) (realloc : ℤ → Bool)
    (entries : List (ChannelOp × Channel)) :
    entries.foldl (fun m e => handleChannelOp dispatcher realloc m e.1 e.2) none = none := by
  induction entries with
  | nil => rfl
  | cons e entries ih => exact ih

theorem foldl_handle_lookup {dispatcher : Dispatcher δ} {realloc : ℤ → Bool}
    {entries : List (ChannelOp × Channel)} {s s' : LoopState δ}
    (hs : ∀ fd channel, s.map.lookup fd = some channel → good channel)
    (hentries : ∀ e ∈ entries, good e.2)
    (h : entries.foldl (fun m e => handleChannelOp dispatcher realloc m e.1 e.2) (some s) =
      some s') :
    ∀ fd channel, s'.map.lookup fd = some channel → good channel := by
  induction entries generalizing s with
  | nil =>
    obtain rfl := Option.some.inj h
    exact hs
  | cons e entries ih =>
    rw [List.foldl_cons] at h
    cases hop : handleChannelOp dispatcher realloc (some s) e.1 e.2 with
    | none =>
      rw [hop, foldl_handle_none] at h
      cases h
    | some t =>
      rw [hop] at h
      refine ih (fun fd channel hlook => ?_) (fun e' he' => hentries e' (List.mem_cons_of_mem _ he')) h
      rcases handleChannelOp_lookup hop hlook with hold | rfl
      · exact hs fd channel hold
      · exact hentries e List.mem_cons_self

theorem All.handlePending (h : l.All good) {dispatcher : Dispatcher δ} {realloc : ℤ → Bool}
    (hhandle : l.handlePending dispatcher realloc = some l') : l'.All good := by
  obtain ⟨addrs,entries,hholds,hall⟩ := h.pending
  obtain ⟨pending,hpending,hempty⟩ :=
    hholds.handlePending (handleChannelOp dispatcher realloc) (some l.state)
  obtain ⟨r,hr,hstate⟩ := Option.bind_eq_some_iff.mp hhandle
  rw [hpending] at hr
  obtain rfl := Option.some.inj hr
  obtain ⟨state,hfold,rfl⟩ := Option.map_eq_some_iff.mp hstate
  exact ⟨⟨[],[],hempty,by simp⟩,foldl_handle_lookup h.registered hall hfold⟩

theorem All.toggle (h : l.All good) {channel : Channel} (hgood : ∀ events,
    good { channel with events := events }) (onRead : Option Bool) :
    (l.toggle channel onRead).All good := by
  cases onRead with
  | none => exact h
  | some enable =>
    refine ⟨h.pending,fun fd c hlook => ?_⟩
    by_cases hfd : fd = channel.fd.toNat
    · subst hfd
      simp only [ThreadLoop.toggle, ChannelMap.lookup, LoopState.setEntry,
        Function.update_self] at hlook
      split at hlook
      · cases enable <;> exact Option.some.inj hlook ▸ hgood _
      · cases hlook
    · exact h.registered fd c
        (by simpa [ThreadLoop.toggle, ChannelMap.lookup, LoopState.setEntry, hfd] using hlook)

end ThreadLoop

namespace Establishing
variable {w w' : Establishing δ} {dispatcher : Dispatcher δ} {server threadNum : ℕ}

/-- A connection whose channel has been posted: it has its request, and its data once the
acceptor has left it. -/
structure Published (w : Establishing δ) (addr : ℕ) : Prop where
  posted : w.acceptor ≠ .constructed addr ∧ w.acceptor ≠ .completed addr
  fields : ∃ c, w.connections addr = some c ∧ c.httpRequest ≠ none ∧
    (c.data ≠ none ↔ w.acceptor.current ≠ some addr)

/-- A channel of a connection is that of a published one. -/
def Knows (w : Establishing δ) (channel : Channel) : Prop :=
  channel.eventReadCallback = some .handleRead →
    ∃ addr, channel.data = .tcpConnection addr ∧ w.Published addr

/-- The connection that the acceptor is at, as far as it has come. -/
structure Constructs (w : Establishing δ) (addr : ℕ) : Prop where
  fields : ∃ c, w.connections addr = some c ∧ c.data = none ∧
    c.channel.data = .tcpConnection addr ∧ (w.acceptor ≠ .constructed addr → c.httpRequest ≠ none)

structure Invariant (w : Establishing δ) : Prop where
  loops : ∀ loop, (w.loops loop).All w.Knows
  fresh : ∀ addr, w.allocated ≤ addr → w.connections addr = none
  constructs : ∀ addr, w.acceptor.current = some addr → w.Constructs addr

theorem invariant_initial {start : ℕ → LoopState δ}
    (hstart : ∀ loop fd channel, (start loop).map.lookup fd = some channel →
      channel.eventReadCallback ≠ some .handleRead) : (initial start).Invariant where
  loops loop := ⟨⟨[],[],holds_empty,by simp⟩,fun fd channel hlook hread =>
    absurd hread (hstart loop fd channel hlook)⟩
  fresh _ _ := rfl
  constructs addr haddr := by cases haddr

theorem Knows.imp {channel : Channel} (h : w.Knows channel)
    (himp : ∀ addr, w.Published addr → w'.Published addr) : w'.Knows channel := by
  intro hread
  obtain ⟨addr,hdata,hp⟩ := h hread
  exact ⟨addr,hdata,himp addr hp⟩

theorem Invariant.setLoop (h : w.Invariant) {loop : ℕ} {l : ThreadLoop δ} (hl : l.All w.Knows) :
    (w.setLoop loop l).Invariant where
  loops i := by
    have himp : ∀ channel, w.Knows channel → (w.setLoop loop l).Knows channel :=
      fun channel hk => hk.imp fun addr hp => ⟨hp.posted,hp.fields⟩
    by_cases hi : i = loop
    · subst hi
      simpa [Establishing.setLoop] using hl.mono himp
    · simpa [Establishing.setLoop, hi] using (h.loops i).mono himp
  fresh := h.fresh
  constructs addr haddr := ⟨(h.constructs addr haddr).fields⟩

theorem Invariant.knows (h : w.Invariant) (hloops : w'.loops = w.loops)
    (hpublished : ∀ addr, w.Published addr → w'.Published addr) (loop : ℕ) :
    (w'.loops loop).All w'.Knows := by
  rw [hloops]
  exact (h.loops loop).mono fun channel hknows => hknows.imp hpublished

theorem Invariant.accept (h : w.Invariant) {connectedFd : ℤ} {o : Option MessageCall}
    (hs : w.step (httpServerNew server threadNum) dispatcher (.accept connectedFd) =
      some (w', o)) : w'.Invariant ∧ o = none := by
  cases hpc : w.acceptor with
  | idle =>
    simp only [step, hpc, Option.some.injEq, Prod.mk.injEq] at hs
    obtain ⟨rfl,rfl⟩ := hs
    refine ⟨?_,rfl⟩
    refine ⟨h.knows rfl fun addr hp => ?_,fun addr haddr => ?_,fun addr haddr => ?_⟩
    · obtain ⟨c,hc,hrequest,hdata⟩ := hp.fields
      have hne : addr ≠ w.allocated := by
        rintro rfl
        rw [h.fresh _ le_rfl] at hc
        cases hc
      have hne' : w.allocated ≠ addr := hne.symm
      refine ⟨by simp [setConnection, hne'],c,?_,hrequest,?_⟩
      · simpa [setConnection, hne] using hc
      · rw [hdata, hpc]
        simp [setConnection, Acceptor.current, hne']
    · have hle : w.allocated + 1 ≤ addr := haddr
      have hne : addr ≠ w.allocated := by omega
      simpa [setConnection, hne] using h.fresh addr (by omega)
    · have he : w.allocated = addr := Option.some.inj haddr
      subst he
      exact ⟨_,by simp [setConnection]; rfl,rfl,rfl,fun hne => absurd rfl hne⟩
  | constructed | completed | posted | returned => simp [step, hpc] at hs

theorem Invariant.connectionCompleted (h : w.Invariant) {o : Option MessageCall}
    (hs : w.step (httpServerNew server threadNum) dispatcher .connectionCompleted =
      some (w', o)) : w'.Invariant ∧ o = none := by
  cases hpc : w.acceptor with
  | constructed addr =>
    obtain ⟨c,hc,hdata,hchannel,-⟩ := (h.constructs addr (by rw [hpc]; rfl)).fields
    simp only [step, hpc, hc, Option.map_some, Option.some.injEq, Prod.mk.injEq] at hs
    obtain ⟨rfl,rfl⟩ := hs
    refine ⟨?_,rfl⟩
    refine ⟨h.knows rfl fun x hp => ?_,fun x hx => ?_,fun x hx => ?_⟩
    · have hne : addr ≠ x := by
        rintro rfl
        exact hp.posted.1 hpc
      obtain ⟨cx,hcx,hrequest,hiff⟩ := hp.fields
      refine ⟨by simp [setConnection, hne],cx,?_,hrequest,?_⟩
      · simpa [setConnection, hne.symm] using hcx
      · rw [hiff, hpc]
        simp [setConnection, Acceptor.current]
    · have hne : x ≠ addr := by
        rintro rfl
        rw [h.fresh _ hx] at hc
        cases hc
      simpa [setConnection, hne] using h.fresh x hx
    · obtain rfl : addr = x := Option.some.inj hx
      exact ⟨{ c with httpRequest := some httpRequestNew },Function.update_self ..,hdata,hchannel,
        fun _ => Option.some_ne_none _⟩
  | idle | completed | posted | returned => simp [step, hpc] at hs

theorem Invariant.addChannel (h : w.Invariant) {o : Option MessageCall}
    (hs : w.step (httpServerNew server threadNum) dispatcher .addChannel = some (w', o)) :
    w'.Invariant ∧ o = none := by
  cases hpc : w.acceptor with
  | completed addr =>
    obtain ⟨c,hc,hdata,hchannel,hrequest⟩ := (h.constructs addr (by rw [hpc]; rfl)).fields
    have hset := hrequest (by rw [hpc]; simp)
    simp only [step, hpc, hc, Option.bind_some, Option.map_eq_some_iff, Prod.mk.injEq] at hs
    obtain ⟨l,hpost,rfl,rfl⟩ := hs
    -- the connection is published with its request and without its data
    set w' : Establishing δ := { w.setLoop c.eventLoop l with acceptor := .posted addr } with hw'
    have hnew : w'.Published addr := ⟨by simp [hw'],c,hc,hset,by simp [hdata, hw', Acceptor.current]⟩
    have himp : ∀ channel, w.Knows channel → w'.Knows channel := fun channel hk =>
      hk.imp fun x hp => by
        have hne : addr ≠ x := by
          rintro rfl
          exact hp.posted.2 hpc
        obtain ⟨cx,hcx,hrx,hiff⟩ := hp.fields
        refine ⟨by simp [hw'],cx,hcx,hrx,?_⟩
        rw [hiff, hpc]
        simp [hw', Acceptor.current]
    refine ⟨⟨fun i => ?_,h.fresh,fun x hx => ?_⟩,rfl⟩
    · by_cases hi : i = c.eventLoop
      · subst hi
        have hl := ((h.loops c.eventLoop).mono himp).post (fun _ => ⟨addr,hchannel,hnew⟩) hpost
        simpa [hw', Establishing.setLoop] using hl
      · simpa [hw', Establishing.setLoop, hi] using (h.loops i).mono himp
    · obtain rfl : addr = x := Option.some.inj hx
      exact ⟨c,hc,hdata,hchannel,fun _ => hset⟩
  | idle | constructed | posted | returned => simp [step, hpc] at hs

theorem Invariant.returned (h : w.Invariant) {addr : ℕ} (hpc : w.acceptor = .posted addr) :
    ({ w with acceptor := .returned addr } : Establishing δ).Invariant := by
  obtain ⟨c,hc,hdata,hchannel,hrequest⟩ := (h.constructs addr (by rw [hpc]; rfl)).fields
  have hset := hrequest (by rw [hpc]; simp)
  refine ⟨h.knows rfl fun x hp => ?_,h.fresh,fun x hx => ?_⟩
  · obtain ⟨cx,hcx,hrx,hiff⟩ := hp.fields
    refine ⟨by simp,cx,hcx,hrx,?_⟩
    rw [hiff, hpc]
    simp [Acceptor.current]
  · obtain rfl : addr = x := Option.some.inj hx
    exact ⟨c,hc,hdata,hchannel,fun _ => hset⟩

theorem Invariant.wakeup (h : w.Invariant) {o : Option MessageCall} {realloc : ℤ → Bool}
    (hs : w.step (httpServerNew server threadNum) dispatcher (.wakeup realloc) = some (w', o)) :
    w'.Invariant ∧ o = none := by
  cases hpc : w.acceptor with
  | posted addr =>
    obtain ⟨c,hc,-⟩ := (h.constructs addr (by rw [hpc]; rfl)).fields
    simp only [step, hpc, hc, Option.bind_some] at hs
    split at hs
    · obtain ⟨l,hhandle,he⟩ := Option.map_eq_some_iff.mp hs
      obtain ⟨rfl,rfl⟩ := Prod.mk.inj he
      have hl : (w.setLoop 0 l).Invariant := h.setLoop ((h.loops 0).handlePending hhandle)
      exact ⟨hl.returned hpc,rfl⟩
    · obtain ⟨rfl,rfl⟩ := Prod.mk.inj (Option.some.inj hs)
      exact ⟨h.returned hpc,rfl⟩
  | idle | constructed | completed | returned => simp [step, hpc] at hs

theorem Invariant.setData (h : w.Invariant) {o : Option MessageCall}
    (hs : w.step (httpServerNew server threadNum) dispatcher .setData = some (w', o)) :
    w'.Invariant ∧ o = none := by
  cases hpc : w.acceptor with
  | returned addr =>
    obtain ⟨c,hc,hdata,hchannel,hrequest⟩ := (h.constructs addr (by rw [hpc]; rfl)).fields
    have hset := hrequest (by rw [hpc]; simp)
    simp only [step, hpc, hc, Option.map_some, httpServerNew, ne_eq, reduceCtorEq,
      not_false_eq_true, if_true, Option.some.injEq, Prod.mk.injEq] at hs
    obtain ⟨rfl,rfl⟩ := hs
    refine ⟨⟨h.knows rfl fun x hp => ?_,fun x hx => ?_,fun x hx => by cases hx⟩,rfl⟩
    · by_cases hx : x = addr
      · subst hx
        exact ⟨by simp [setConnection],{ c with data := some server },Function.update_self ..,hset,
          by simp [setConnection, Acceptor.current]⟩
      · obtain ⟨cx,hcx,hrx,hiff⟩ := hp.fields
        have hne : addr ≠ x := fun he => hx he.symm
        refine ⟨by simp [setConnection],cx,by simpa [setConnection, hx] using hcx,hrx,?_⟩
        rw [hiff, hpc]
        simp [setConnection, Acceptor.current, hne]
    · have hne : x ≠ addr := by
        rintro rfl
        rw [h.fresh _ hx] at hc
        cases hc
      simpa [setConnection, hne] using h.fresh x hx
  | idle | constructed | completed | posted => simp [step, hpc] at hs

/-- A read event keeps the invariant; a message it starts finds the request set, and the
data exactly when the acceptor has left the connection. -/
theorem Invariant.readEvent (h : w.Invariant) {o : Option MessageCall} {loop fd : ℕ}
    {received : Bool} {onRead : Option Bool} {realloc : ℤ → Bool}
    (hs : Establishing.readEvent dispatcher w loop fd received onRead realloc = some (w', o)) :
    w'.Invariant ∧ ∀ m, o = some m → (m.Initialised ↔ w.acceptor.current ≠ some m.addr) := by
  simp only [Establishing.readEvent] at hs
  split at hs
  · obtain ⟨rfl,rfl⟩ := Prod.mk.inj (Option.some.inj hs)
    exact ⟨h,by simp⟩
  rename_i hlt
  obtain ⟨channel,hentry,hs⟩ := Option.bind_eq_some_iff.mp hs
  have hlook : (w.loops loop).state.map.lookup fd = some channel := by
    simp [ChannelMap.lookup, not_le.mp hlt, hentry]
  have hknows := (h.loops loop).registered fd channel hlook
  split_ifs at hs with hfd hread hreceived
  · obtain ⟨addr,hdata,hp⟩ := hknows hread
    obtain ⟨c,hc,hrequest,hiff⟩ := hp.fields
    simp only [hdata, hc, Option.map_some, Option.some.injEq, Prod.mk.injEq] at hs
    obtain ⟨rfl,rfl⟩ := hs
    refine ⟨h.setLoop ((h.loops loop).toggle (fun events => hknows) onRead),fun m hm => ?_⟩
    obtain rfl := Option.some.inj hm
    rw [← hiff]
    exact ⟨fun hm => hm.2,fun hm => ⟨hrequest,hm⟩⟩
  · obtain ⟨l,hhandle,he⟩ := Option.map_eq_some_iff.mp hs
    obtain ⟨rfl,rfl⟩ := Prod.mk.inj he
    obtain ⟨l₁,hpost,hpending⟩ := Option.bind_eq_some_iff.mp hhandle
    exact ⟨h.setLoop (((h.loops loop).post hknows hpost).handlePending hpending),by simp⟩
  · obtain ⟨rfl,rfl⟩ := Prod.mk.inj (Option.some.inj hs)
    exact ⟨h,by simp⟩

theorem Invariant.step (h : w.Invariant) {act : EstablishAct} {o : Option MessageCall}
    (hs : w.step (httpServerNew server threadNum) dispatcher act = some (w', o)) :
    w'.Invariant ∧ ∀ m, o = some m → (m.Initialised ↔ w.acceptor.current ≠ some m.addr) := by
  have hsilent : w'.Invariant ∧ o = none →
      w'.Invariant ∧ ∀ m, o = some m → (m.Initialised ↔ w.acceptor.current ≠ some m.addr) := by
    rintro ⟨hinv,rfl⟩
    exact ⟨hinv,by simp⟩
  cases act with
  | accept connectedFd => exact hsilent (h.accept hs)
  | connectionCompleted => exact hsilent (h.connectionCompleted hs)
  | addChannel => exact hsilent (h.addChannel hs)
  | wakeup realloc => exact hsilent (h.wakeup hs)
  | setData => exact hsilent (h.setData hs)
  | handlePending loop realloc =>
    obtain ⟨-,hs⟩ := Option.ite_none_right_eq_some.mp hs
    obtain ⟨l,hhandle,he⟩ := Option.map_eq_some_iff.mp hs
    obtain ⟨rfl,rfl⟩ := Prod.mk.inj he
    exact hsilent ⟨h.setLoop ((h.loops loop).handlePending hhandle),rfl⟩
  | readEvent loop fd received onRead realloc =>
    obtain ⟨-,hs⟩ := Option.ite_none_right_eq_some.mp hs
    exact h.readEvent hs

/-- In every interleaving, a message that a read event starts finds its connection
initialised exactly when the acceptor is no longer establishing that connection. -/
theorem message_initialised {start : ℕ → LoopState δ} {acts : List EstablishAct}
    {os : List (Option MessageCall)}
    (hstart : ∀ loop fd channel, (start loop).map.lookup fd = some channel →
      channel.eventReadCallback ≠ some .handleRead)
    (hrun : run (step (httpServerNew server threadNum) dispatcher) (initial start) acts =
      some (w, os)) :
    ∀ before act after, acts = before ++ act :: after → ∃ u os' v o,
      run (Establishing.step (httpServerNew server threadNum) dispatcher) (initial start) before =
        some (u, os') ∧
      u.step (httpServerNew server threadNum) dispatcher act = some (v, o) ∧
      ∀ m, o = some m → (m.Initialised ↔ u.acceptor.current ≠ some m.addr) := by
  intro before act after he
  obtain ⟨u,os',v,o,hu,hinv,hstep⟩ := run_keeps_steps Invariant (invariant_initial hstart) hrun
    (fun _ _ _ _ h hs => (h.step hs).1) he
  exact ⟨u,os',v,o,hu,hstep,(hinv.step hstep).2⟩

/-- A sub-reactor registers a posted channel and reads from it at once. -/
def earlyRead : List EstablishAct :=
  [.accept 5,.connectionCompleted,.addChannel,.handlePending 1 fun _ => true,
    .readEvent 1 5 true none fun _ => true]

def pollLoops (_ : ℕ) : LoopState PollData := ⟨mapInit,pollInit fun _ => ⟨0,0,0⟩⟩

theorem pollLoops_unread (loop fd : ℕ) (channel : Channel)
    (hlook : (pollLoops loop).map.lookup fd = some channel) :
    channel.eventReadCallback ≠ some .handleRead := by
  simp [pollLoops, ChannelMap.lookup, mapInit] at hlook

theorem message_initialised_early :
    ∃ w os, run (step (httpServerNew 1 1) pollDispatcher) (initial pollLoops) earlyRead =
        some (w, os) ∧
      ∀ before act after, earlyRead = before ++ act :: after → ∃ u os' v o,
        run (step (httpServerNew 1 1) pollDispatcher) (initial pollLoops) before =
          some (u, os') ∧
        u.step (httpServerNew 1 1) pollDispatcher act = some (v, o) ∧
        ∀ m, o = some m → (m.Initialised ↔ u.acceptor.current ≠ some m.addr) :=
  ⟨_,_,rfl,message_initialised pollLoops_unread rfl⟩

/-- The message finds no data: the acceptor has not come to it. -/
theorem message_uninitialised :
    ∃ w m, run (step (httpServerNew 1 1) pollDispatcher) (initial pollLoops) earlyRead =
        some (w, [none,none,none,none,some m]) ∧
      m.connection.httpRequest ≠ none ∧ m.connection.data = none :=
  ⟨_,_,rfl,Option.some_ne_none _,rfl⟩

end Establishing
end CppExamples.HttpTest
