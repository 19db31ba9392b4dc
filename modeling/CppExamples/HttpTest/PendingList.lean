import CppExamples.Library.Linked

/-! # The pending list of an event loop

Channel operations wait in a list of `channel_element` nodes linked from
`pending_head` to `pending_tail` until the loop thread handles them.  Nodes are
addresses, handed out by `malloc` in increasing order and never freed; address 0
is the null pointer.  A list `Holds` the operations found along its links.
-/
namespace CppExamples.HttpTest
open Linked
variable {χ σ : Type*}

/-- The types 1, 2 and 3 of a `channel_element`. -/
inductive ChannelOp where
  | add
  | remove
  | update
deriving DecidableEq

structure ChannelElement (χ : Type*) where
  type : ChannelOp
  channel : χ
  next : ℕ

structure PendingList (χ : Type*) where
  elements : ℕ → Option (ChannelElement χ)
  allocated : ℕ
  isHandlePending : ℕ
  pendingHead : ℕ
  pendingTail : ℕ

namespace PendingList

def empty : PendingList χ := ⟨fun _ => none,0,0,0,0⟩

def setNext (s : PendingList χ) (a b : ℕ) : ℕ → Option (ChannelElement χ) :=
  Function.update s.elements a ((s.elements a).map fun e => { e with next := b })

def eventLoopChannelBufferNolock (s : PendingList χ) (type : ChannelOp) (channel : χ) :
    PendingList χ :=
  let a := s.allocated + 1
  let s' := { s with
    allocated := a
    elements := Function.update s.elements a (some { type := type, channel := channel, next := 0 }) }
  if s'.pendingHead = 0 then { s' with pendingHead := a, pendingTail := a }
  else { s' with elements := s'.setNext s'.pendingTail a, pendingTail := a }

/-- The locked section of `event_loop_do_channel_event`; none when its assertion fails. -/
def eventLoopDoChannelEvent (s : PendingList χ) (type : ChannelOp) (channel : χ) :
    Option (PendingList χ) :=
  if s.isHandlePending = 0 then some (s.eventLoopChannelBufferNolock type channel) else none

/-- The loop over the pending elements, with a bound on the number of turns. -/
def handleEach (apply : σ → ChannelOp → χ → σ) (s : PendingList χ) : ℕ → ℕ → σ → Option σ
  | 0, p, m => if p = 0 then some m else none
  | n + 1, p, m =>
    if p = 0 then some m
    else (s.elements p).bind fun e => s.handleEach apply n e.next (apply m e.type e.channel)

/-- The locked section of `event_loop_handle_pending_channel`: `apply` stands for
the three handlers of the loop thread, `m` for what they change. -/
def eventLoopHandlePendingChannel (apply : σ → ChannelOp → χ → σ) (s : PendingList χ) (m : σ) :
    Option (PendingList χ × σ) :=
  let s' := { s with isHandlePending := 1 }
  (s'.handleEach apply s'.allocated s'.pendingHead m).map fun m' =>
    ({ s' with pendingHead := 0, pendingTail := 0, isHandlePending := 0 }, m')

def nextOf (s : PendingList χ) (a : ℕ) : ℕ := (s.elements a).elim 0 ChannelElement.next

def entryAt (s : PendingList χ) (a : ℕ) : Option (ChannelOp × χ) :=
  (s.elements a).map fun e => (e.type, e.channel)

/-- The nodes of the list and the operations they hold, from head to tail. -/
structure Holds (s : PendingList χ) (addrs : List ℕ) (entries : List (ChannelOp × χ)) : Prop where
  path : Path s.nextOf s.pendingHead addrs 0
  mem : ∀ a ∈ addrs, 0 < a ∧ a ≤ s.allocated
  tail : s.pendingTail = addrs.getLastD 0
  entries : addrs.map s.entryAt = entries.map some
  unlocked : s.isHandlePending = 0

theorem holds_empty : Holds (empty : PendingList χ) [] [] := ⟨rfl,by simp,rfl,rfl,rfl⟩

theorem Holds.notMem_zero {s : PendingList χ} {addrs : List ℕ} {entries : List (ChannelOp × χ)}
    (h : s.Holds addrs entries) : 0 ∉ addrs := fun h0 => lt_irrefl 0 (h.mem 0 h0).1

theorem Holds.length_le {s : PendingList χ} {addrs : List ℕ} {entries : List (ChannelOp × χ)}
    (h : s.Holds addrs entries) : addrs.length ≤ s.allocated := by
  have hsub : addrs.toFinset ⊆ Finset.Icc 1 s.allocated := by
    intro a ha
    have := h.mem a (List.mem_toFinset.mp ha)
    exact Finset.mem_Icc.mpr ⟨this.1,this.2⟩
  have hcard := Finset.card_le_card hsub
  rw [List.toFinset_card_of_nodup (h.path.nodup h.notMem_zero), Nat.card_Icc] at hcard
  omega

theorem Holds.eq_nil_iff {s : PendingList χ} {addrs : List ℕ} {entries : List (ChannelOp × χ)}
    (h : s.Holds addrs entries) : s.pendingHead = 0 ↔ entries = [] := by
  have hlen := congrArg List.length h.entries
  cases addrs with
  | nil =>
    have h0 : s.pendingHead = 0 := h.path
    have he : entries = [] := by simpa using hlen.symm
    simp [h0, he]
  | cons a addrs =>
    have hpos := (h.mem a List.mem_cons_self).1
    have hhead : s.pendingHead = a := h.path.1
    have he : entries ≠ [] := by
      rintro rfl
      simp at hlen
    simp only [he, iff_false]
    omega

theorem Holds.notMem_new {s : PendingList χ} {addrs : List ℕ} {entries : List (ChannelOp × χ)}
    (h : s.Holds addrs entries) : s.allocated + 1 ∉ addrs := by
  intro hm
  have := (h.mem _ hm).2
  omega

theorem Holds.isSome {s : PendingList χ} {addrs : List ℕ} {entries : List (ChannelOp × χ)}
    (h : s.Holds addrs entries) {a : ℕ} (ha : a ∈ addrs) : ∃ e, s.elements a = some e := by
  have hm := List.mem_map_of_mem (f := s.entryAt) ha
  rw [h.entries] at hm
  obtain ⟨entry,_,he⟩ := List.mem_map.mp hm
  obtain ⟨e,he',_⟩ := Option.map_eq_some_iff.mp he.symm
  exact ⟨e,he'⟩

theorem entryAt_buffer (s : PendingList χ) (type : ChannelOp) (channel : χ) (a : ℕ) :
    (s.eventLoopChannelBufferNolock type channel).entryAt a =
      if a = s.allocated + 1 then some (type, channel) else s.entryAt a := by
  by_cases hhead : s.pendingHead = 0
  · by_cases ha : a = s.allocated + 1 <;> simp [eventLoopChannelBufferNolock, hhead, entryAt, ha]
  · by_cases ha : a = s.pendingTail
    · subst ha
      by_cases hnew : s.pendingTail = s.allocated + 1 <;>
        simp [eventLoopChannelBufferNolock, hhead, entryAt, setNext, hnew, Function.comp_def]
    · by_cases hnew : a = s.allocated + 1
      · subst hnew
        simp [eventLoopChannelBufferNolock, hhead, entryAt, setNext, Function.update_apply, ha]
      · simp [eventLoopChannelBufferNolock, hhead, entryAt, setNext, ha, hnew]

theorem nextOf_buffer {s : PendingList χ} (type : ChannelOp) (channel : χ) {e : ChannelElement χ}
    (hhead : s.pendingHead ≠ 0) (htail : s.elements s.pendingTail = some e)
    (hne : s.pendingTail ≠ s.allocated + 1) (a : ℕ) :
    (s.eventLoopChannelBufferNolock type channel).nextOf a =
      if a = s.allocated + 1 then 0
      else Function.update s.nextOf s.pendingTail (s.allocated + 1) a := by
  by_cases hnew : a = s.allocated + 1
  · subst hnew
    simp [eventLoopChannelBufferNolock, hhead, nextOf, setNext, Function.update_apply, hne.symm]
  · by_cases ha : a = s.pendingTail
    · subst ha
      simp [eventLoopChannelBufferNolock, hhead, nextOf, setNext, hne, htail]
    · simp [eventLoopChannelBufferNolock, hhead, nextOf, setNext, ha, hnew]

theorem Holds.entries_buffer {s : PendingList χ} {addrs : List ℕ} {entries : List (ChannelOp × χ)}
    (h : s.Holds addrs entries) (type : ChannelOp) (channel : χ) :
    (addrs ++ [s.allocated + 1]).map (s.eventLoopChannelBufferNolock type channel).entryAt =
      (entries ++ [(type, channel)]).map some := by
  have hold : addrs.map (s.eventLoopChannelBufferNolock type channel).entryAt =
      addrs.map s.entryAt := by
    refine List.map_congr_left fun a ha => ?_
    have hne : a ≠ s.allocated + 1 := fun he => h.notMem_new (he ▸ ha)
    rw [entryAt_buffer, if_neg hne]
  rw [List.map_append, hold, h.entries, List.map_singleton, entryAt_buffer, if_pos rfl]
  simp

theorem Holds.buffer {s : PendingList χ} {addrs : List ℕ} {entries : List (ChannelOp × χ)}
    (h : s.Holds addrs entries) (type : ChannelOp) (channel : χ) :
    (s.eventLoopChannelBufferNolock type channel).Holds (addrs ++ [s.allocated + 1])
      (entries ++ [(type, channel)]) := by
  have hnew := h.notMem_new
  have hmem : ∀ a ∈ addrs ++ [s.allocated + 1], 0 < a ∧ a ≤ s.allocated + 1 := by
    intro a ha
    rcases List.mem_append.mp ha with ha | ha
    · have := h.mem a ha
      omega
    · obtain rfl := List.mem_singleton.mp ha
      omega
  have hentries := h.entries_buffer type channel
  rcases List.eq_nil_or_concat addrs with rfl | ⟨front,last,rfl⟩
  · have hhead : s.pendingHead = 0 := h.path
    refine ⟨?_,?_,?_,hentries,?_⟩
    · simp [eventLoopChannelBufferNolock, hhead, nextOf]
    · simp [eventLoopChannelBufferNolock, hhead]
    · simp [eventLoopChannelBufferNolock, hhead]
    · simpa [eventLoopChannelBufferNolock, hhead] using h.unlocked
  · rw [List.concat_eq_append] at *
    have hhead : s.pendingHead ≠ 0 := by
      intro h0
      have hlen := congrArg List.length h.entries
      rw [h.eq_nil_iff.mp h0] at hlen
      simp at hlen
    have htail : s.pendingTail = last := by simpa using h.tail
    have hlast : last ∉ front := fun hm =>
      List.disjoint_of_nodup_append (h.path.nodup h.notMem_zero) hm (List.mem_singleton_self last)
    have hne : s.pendingTail ≠ s.allocated + 1 := by
      rw [htail]
      rintro rfl
      exact hnew (by simp)
    obtain ⟨e,he⟩ := h.isSome (show s.pendingTail ∈ front ++ [last] by simp [htail])
    have hnext := nextOf_buffer type channel hhead he hne
    have hhead' : (s.eventLoopChannelBufferNolock type channel).pendingHead = s.pendingHead := by
      simp [eventLoopChannelBufferNolock, hhead]
    refine ⟨?_,?_,?_,hentries,?_⟩
    · rw [hhead']
      refine path_append.mpr ⟨s.allocated + 1,(h.path.redirect hlast).congr fun b hb => ?_,rfl,?_⟩
      · have hb' : b ≠ s.allocated + 1 := fun he => hnew (he ▸ hb)
        rw [hnext b, if_neg hb', htail]
      · rw [hnext, if_pos rfl]
        rfl
    · simpa [eventLoopChannelBufferNolock, hhead] using hmem
    · simp [eventLoopChannelBufferNolock, hhead]
    · simpa [eventLoopChannelBufferNolock, hhead] using h.unlocked

theorem Holds.doChannelEvent {s : PendingList χ} {addrs : List ℕ}
    {entries : List (ChannelOp × χ)} (h : s.Holds addrs entries) (type : ChannelOp) (channel : χ) :
    s.eventLoopDoChannelEvent type channel = some (s.eventLoopChannelBufferNolock type channel) :=
  if_pos h.unlocked

theorem handleEach_eq (apply : σ → ChannelOp → χ → σ) (s : PendingList χ) {addrs : List ℕ}
    {entries : List (ChannelOp × χ)} {p n : ℕ} (m : σ) (hp : Path s.nextOf p addrs 0)
    (h0 : 0 ∉ addrs) (he : addrs.map s.entryAt = entries.map some) (hn : addrs.length ≤ n) :
    s.handleEach apply n p m = some (entries.foldl (fun m e => apply m e.1 e.2) m) := by
  induction addrs generalizing p n m entries with
  | nil =>
    obtain rfl : p = 0 := hp
    have hnil : entries = [] := by simpa using he.symm
    subst hnil
    cases n <;> simp [handleEach]
  | cons a addrs ih =>
    obtain ⟨rfl,hrest⟩ := hp
    have hne : p ≠ 0 := fun h => h0 (h ▸ List.mem_cons_self)
    cases entries with
    | nil => simp at he
    | cons entry entries =>
      obtain ⟨hentry,he'⟩ := List.cons.inj he
      obtain ⟨e,helem,rfl⟩ := Option.map_eq_some_iff.mp hentry
      have hnext : s.nextOf p = e.next := by simp [nextOf, helem]
      cases n with
      | zero => simp at hn
      | succ n =>
        rw [hnext] at hrest
        have hloop := ih (apply m e.type e.channel) hrest
          (fun h => h0 (List.mem_cons_of_mem p h)) he' (by simpa using hn)
        simp only [handleEach, if_neg hne, helem, Option.bind_some, hloop, List.foldl_cons]

/-- Handling the pending list applies what it holds, in order, and empties it. -/
theorem Holds.handlePending {s : PendingList χ} {addrs : List ℕ}
    {entries : List (ChannelOp × χ)} (h : s.Holds addrs entries)
    (apply : σ → ChannelOp → χ → σ) (m : σ) :
    ∃ s', s.eventLoopHandlePendingChannel apply m =
        some (s', entries.foldl (fun m e => apply m e.1 e.2) m) ∧ s'.Holds [] [] := by
  have hloop := handleEach_eq apply { s with isHandlePending := 1 } m h.path h.notMem_zero
    h.entries h.length_le
  refine ⟨{ s with isHandlePending := 0, pendingHead := 0, pendingTail := 0 },?_,
    ⟨rfl,by simp,rfl,rfl,rfl⟩⟩
  simp only [eventLoopHandlePendingChannel]
  rw [hloop]
  rfl

end PendingList
end CppExamples.HttpTest
