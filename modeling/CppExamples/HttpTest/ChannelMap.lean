import CppExamples.HttpTest.Channel
import CppExamples.HttpTest.PendingList
import CppExamples.HttpTest.Buffer

/-! # The channel map and the handlers of pending operations

The map has `nentries` entries, of which the pointer is null or a channel.  A
dispatcher is its table of functions on the data it keeps.  Without result are an
assertion that fails, a null or wild pointer that is followed and a failure that
ends the process; otherwise the state comes with the returned `int`.
-/
namespace CppExamples.HttpTest
variable {δ : Type*}

structure ChannelMap where
  entries : ℕ → Option Channel
  nentries : ℕ

def mapInit : ChannelMap := ⟨fun _ => none,0⟩

def sizeofPointer : ℕ := 8

/-- `nentries <<= 1` while the slot is not below it. -/
def doubleEntries : ℕ → ℕ → ℕ → ℕ
  | 0, _, nentries => nentries
  | k + 1, slot, nentries =>
    if nentries ≤ slot then doubleEntries k slot (2 * nentries) else nentries

/-- `map_make_space`; the flag is the outcome of `realloc`.  An `int` has room for
31 doublings, and the size in bytes is an `int` too. -/
def mapMakeSpace (map : ChannelMap) (slot : ℕ) (realloc : Bool) : Option (ChannelMap × ℤ) :=
  if map.nentries ≤ slot then
    let nentries := doubleEntries 31 slot (if map.nentries = 0 then 32 else map.nentries)
    if nentries * sizeofPointer ≤ intMax then
      if realloc then
        some (⟨fun i => if i < map.nentries then map.entries i else none,nentries⟩, 0)
      else some (map, -1)
    else none
  else some (map, 0)

structure Dispatcher (δ : Type*) where
  add : δ → Channel → Option (δ × ℤ)
  del : δ → Channel → Option (δ × ℤ)
  update : δ → Channel → Option (δ × ℤ)

/-- What the handlers of the loop thread change. -/
structure LoopState (δ : Type*) where
  map : ChannelMap
  data : δ

def LoopState.setEntry (s : LoopState δ) (fd : ℕ) (entry : Option Channel) : LoopState δ :=
  { s with map := { s.map with entries := Function.update s.map.entries fd entry } }

def eventLoopHandlePendingAdd (dispatcher : Dispatcher δ) (s : LoopState δ) (fd : ℤ)
    (channel : Channel) (realloc : Bool) : Option (LoopState δ × ℤ) :=
  if fd < 0 then some (s, 0)
  else
    let room := if s.map.nentries ≤ fd then mapMakeSpace s.map fd.toNat realloc else some (s.map, 0)
    room.bind fun r =>
      if r.2 = -1 then some (s, -1)
      else
        let s := { s with map := r.1 }
        if s.map.entries fd.toNat = none then
          (dispatcher.add s.data channel).map fun q =>
            ({ s.setEntry fd.toNat (some channel) with data := q.1 }, 1)
        else some (s, 0)

def eventLoopHandlePendingRemove (dispatcher : Dispatcher δ) (s : LoopState δ) (fd : ℤ)
    (channel1 : Channel) : Option (LoopState δ × ℤ) :=
  if fd ≠ channel1.fd then none
  else if fd < 0 then some (s, 0)
  else if s.map.nentries ≤ fd then some (s, -1)
  else
    -- a null entry is handed to the dispatcher, which reads its descriptor
    (s.map.entries fd.toNat).bind fun channel2 =>
      (dispatcher.del s.data channel2).map fun q =>
        ({ s.setEntry fd.toNat none with data := q.1 }, if q.2 = -1 then -1 else 1)

/-- The function ends without a `return` behind the update. -/
def eventLoopHandlePendingUpdate (dispatcher : Dispatcher δ) (s : LoopState δ) (fd : ℤ)
    (channel : Channel) : Option (LoopState δ × Option ℤ) :=
  if fd < 0 then some (s, some 0)
  else if s.map.nentries ≤ fd then none
  else if s.map.entries fd.toNat = none then some (s, some (-1))
  else (dispatcher.update s.data channel).map fun q => ({ s with data := q.1 }, none)

/-- The handler that the loop over the pending elements calls; `realloc` is the
outcome of growing the map for a descriptor. -/
def handleChannelOp (dispatcher : Dispatcher δ) (realloc : ℤ → Bool) (s : Option (LoopState δ))
    (type : ChannelOp) (channel : Channel) : Option (LoopState δ) :=
  s.bind fun s =>
    match type with
    | .add =>
      (eventLoopHandlePendingAdd dispatcher s channel.fd channel (realloc channel.fd)).map Prod.fst
    | .remove => (eventLoopHandlePendingRemove dispatcher s channel.fd channel).map Prod.fst
    | .update => (eventLoopHandlePendingUpdate dispatcher s channel.fd channel).map Prod.fst

def ChannelMap.lookup (map : ChannelMap) (fd : ℕ) : Option Channel :=
  if fd < map.nentries then map.entries fd else none

theorem doubleEntries_spec {k slot n : ℕ} (hn : 0 < n) (hk : slot < n * 2 ^ k) :
    slot < doubleEntries k slot n ∧ (doubleEntries k slot n = n ∨ doubleEntries k slot n ≤ 2 * slot) := by
  induction k generalizing n with
  | zero => exact ⟨by simpa [doubleEntries] using hk,.inl rfl⟩
  | succ k ih =>
    simp only [doubleEntries]
    split
    · rename_i hle
      have hk' : slot < 2 * n * 2 ^ k := by
        calc slot < n * 2 ^ (k + 1) := hk
          _ = 2 * n * 2 ^ k := by ring
      obtain ⟨hlt,heq | hle'⟩ := ih (by omega) hk'
      · exact ⟨hlt,.inr (by omega)⟩
      · exact ⟨hlt,.inr hle'⟩
    · rename_i hgt
      exact ⟨by omega,.inl rfl⟩

theorem mapMakeSpace_spec (map : ChannelMap) {slot : ℕ} (hslot : slot < 2 ^ 27) :
    ∃ map', mapMakeSpace map slot true = some (map', 0) ∧ slot < map'.nentries ∧
      map'.lookup = map.lookup := by
  by_cases hle : map.nentries ≤ slot
  · set n := if map.nentries = 0 then 32 else map.nentries with hn
    have hpos : 0 < n := by
      rw [hn]
      split <;> omega
    have hk : slot < n * 2 ^ 31 := by
      have : 1 * 2 ^ 31 ≤ n * 2 ^ 31 := Nat.mul_le_mul_right _ hpos
      omega
    obtain ⟨hlt,hsize⟩ := doubleEntries_spec hpos hk
    have hbytes : doubleEntries 31 slot n * sizeofPointer ≤ intMax := by
      have hn32 : n ≤ 32 ∨ n ≤ slot := by
        rw [hn]
        split <;> omega
      simp only [sizeofPointer, intMax]
      omega
    refine ⟨_,by simp only [mapMakeSpace, if_pos hle, ← hn, if_pos hbytes]; rfl,hlt,?_⟩
    funext fd
    have hgrow : fd < map.nentries → fd < doubleEntries 31 slot n := by omega
    by_cases hfd : fd < map.nentries
    · simp [ChannelMap.lookup, hfd, hgrow hfd]
    · simp [ChannelMap.lookup, hfd]
  · exact ⟨map,by simp [mapMakeSpace, hle],by omega,rfl⟩

theorem mapMakeSpace_fails (map : ChannelMap) {slot : ℕ} (hslot : slot < 2 ^ 27)
    (hle : map.nentries ≤ slot) : mapMakeSpace map slot false = some (map, -1) := by
  obtain ⟨map',hroom,-,-⟩ := mapMakeSpace_spec map hslot
  simp only [mapMakeSpace, if_pos hle] at hroom ⊢
  by_cases hbytes : doubleEntries 31 slot (if map.nentries = 0 then 32 else map.nentries) *
      sizeofPointer ≤ intMax
  · simp [if_pos hbytes]
  · simp [if_neg hbytes] at hroom

theorem LoopState.lookup_setEntry (s : LoopState δ) {fd : ℕ} (hfd : fd < s.map.nentries)
    (entry : Option Channel) (x : ℕ) :
    (s.setEntry fd entry).map.lookup x = if x = fd then entry else s.map.lookup x := by
  by_cases hx : x = fd
  · subst hx
    simp [ChannelMap.lookup, LoopState.setEntry, hfd]
  · simp [ChannelMap.lookup, LoopState.setEntry, hx]

theorem handlePendingAdd_cases (dispatcher : Dispatcher δ) (s : LoopState δ) (channel : Channel)
    (realloc : Bool) (fd : ℕ) (hfd : channel.fd = fd) (hsmall : fd < 2 ^ 27) :
    (realloc = false ∧ s.map.lookup fd = none ∧
      eventLoopHandlePendingAdd dispatcher s channel.fd channel realloc = some (s, -1)) ∨
    (s.map.lookup fd ≠ none ∧
      eventLoopHandlePendingAdd dispatcher s channel.fd channel realloc = some (s, 0)) ∨
    s.map.lookup fd = none ∧ ∃ map' : ChannelMap,
      (∀ x, map'.lookup x = if x = fd then some channel else s.map.lookup x) ∧
      eventLoopHandlePendingAdd dispatcher s channel.fd channel realloc =
        (dispatcher.add s.data channel).map fun q => (⟨map',q.1⟩, 1) := by
  have hpos : ¬ (fd : ℤ) < 0 := by omega
  simp only [eventLoopHandlePendingAdd, hfd, hpos, if_false, Int.toNat_natCast, Nat.cast_le]
  by_cases hle : s.map.nentries ≤ fd
  · have hfree : s.map.lookup fd = none := by simp [ChannelMap.lookup, not_lt.mpr hle]
    cases realloc with
    | false =>
      left
      exact ⟨rfl,hfree,by simp [if_pos hle, mapMakeSpace_fails s.map hsmall hle]⟩
    | true =>
      obtain ⟨map',hroom,hlt,hlookup⟩ := mapMakeSpace_spec s.map hsmall
      have hentry : map'.entries fd = none := by
        have h0 := congrFun hlookup fd
        rw [hfree] at h0
        simpa [ChannelMap.lookup, hlt] using h0
      refine Or.inr (Or.inr ⟨hfree,_,?_,by simp [if_pos hle, hroom, hentry]; rfl⟩)
      intro x
      rw [← hlookup]
      exact LoopState.lookup_setEntry { s with map := map' } hlt (some channel) x
  · have hlt : fd < s.map.nentries := by omega
    have hlook : s.map.lookup fd = s.map.entries fd := by simp [ChannelMap.lookup, hlt]
    rw [hlook, if_neg hle]
    cases hentry : s.map.entries fd with
    | none =>
      exact Or.inr (Or.inr ⟨rfl,_,s.lookup_setEntry hlt (some channel),by simp [hentry]⟩)
    | some c => exact Or.inr (Or.inl ⟨by simp,by simp [hentry]⟩)

end CppExamples.HttpTest
