import CppExamples.HttpTest.ChannelMap
import CppExamples.HttpTest.BufferLimits

/-! # Room in the channel map

The number of entries is an `int` that is doubled until it exceeds the slot, and then
multiplied by the size of a pointer.  The loop is followed here on the bits of the `int`;
it and the product are as meant just where some doubling exceeds the slot and has a size
in bytes that is an `int`.
-/
namespace CppExamples.HttpTest

/-- `nentries <<= 1` while it is not above the slot, for as many turns as given. -/
def growLoop (slot : ℤ) : ℕ → BitVec 32 → Option (BitVec 32)
  | 0, _ => none
  | turns + 1, nentries =>
    if nentries.toInt ≤ slot then growLoop slot turns (nentries <<< 1) else some nentries

def ChannelMap.startEntries (map : ChannelMap) : ℕ := if map.nentries = 0 then 32 else map.nentries

/-- There is an entry for the slot, old entries are unchanged, and new ones are null. -/
structure Enlarged (map map' : ChannelMap) (slot : ℕ) : Prop where
  slot_lt : slot < map'.nentries
  old_le : map.nentries ≤ map'.nentries
  old : ∀ i < map.nentries, map'.entries i = map.entries i
  new : ∀ i, map.nentries ≤ i → i < map'.nentries → map'.entries i = none

/-- The loop ends, the sizes passed to `realloc` and `memset` are `int`s, and the map is
enlarged to the number that the loop ends with, or unchanged at -1. -/
def MakesSpace (map : ChannelMap) (slot : ℕ) (realloc : Bool) : Prop :=
  (slot < map.nentries → mapMakeSpace map slot realloc = some (map, 0)) ∧
    (map.nentries ≤ slot → ∃ turns nentries,
      growLoop slot turns (BitVec.ofNat 32 map.startEntries) = some nentries ∧
      InInt (nentries.toInt * sizeofPointer) ∧
      InInt ((nentries.toInt - map.nentries) * sizeofPointer) ∧
      (mapMakeSpace map slot realloc = some (map, -1) ∨
        ∃ map', mapMakeSpace map slot realloc = some (map', 0) ∧ map'.nentries = nentries.toInt ∧
          Enlarged map map' slot))

/-- Some doubling exceeds the slot and is not too large. -/
def Sizeable (map : ChannelMap) (slot : ℕ) : Prop :=
  slot < map.nentries ∨ ∃ k, slot < map.startEntries * 2 ^ k ∧
    map.startEntries * 2 ^ k * sizeofPointer ≤ intMax

variable {map : ChannelMap} {slot k fuel n : ℕ}

theorem toInt_ofNat_of_le (hn : n ≤ intMax) : (BitVec.ofNat 32 n).toInt = n := by
  unfold intMax at hn
  rw [BitVec.toInt_ofNat', Int.bmod_eq_of_le (by omega) (by omega)]

theorem ofNat_shiftLeft_one (n : ℕ) : BitVec.ofNat 32 n <<< 1 = BitVec.ofNat 32 (2 * n) := by
  apply BitVec.eq_of_toNat_eq
  simp [Nat.shiftLeft_eq, Nat.mul_comm]

theorem startEntries_pos (map : ChannelMap) : 0 < map.startEntries := by
  unfold ChannelMap.startEntries
  split <;> omega

/-- As long as no doubling reaches the sign, the loop computes the number of entries. -/
theorem growLoop_eq (hn : 0 < n) (hmax : n ≤ 2 ^ 29) (hslot : slot < 2 ^ 28) (hk : slot < n * 2 ^ k) :
    growLoop slot (k + 1) (BitVec.ofNat 32 n) = some (BitVec.ofNat 32 (doubleEntries k slot n)) := by
  have hint : (BitVec.ofNat 32 n).toInt = n := toInt_ofNat_of_le (by unfold intMax; omega)
  induction k generalizing n with
  | zero =>
    rw [pow_zero, mul_one] at hk
    rw [growLoop, hint, if_neg (by omega), doubleEntries]
  | succ k ih =>
    rw [growLoop, hint, doubleEntries]
    simp only [Nat.cast_le]
    split
    · rw [ofNat_shiftLeft_one]
      have hk' : slot < 2 * n * 2 ^ k := by
        calc slot < n * 2 ^ (k + 1) := hk
          _ = 2 * n * 2 ^ k := by ring
      exact ih (by omega) (by omega) hk' (toInt_ofNat_of_le (by unfold intMax; omega))
    · rfl

theorem growLoop_never {nentries : BitVec 32} {slot : ℤ} (hle : ∀ j : ℕ, (nentries <<< j).toInt ≤ slot)
    (turns j : ℕ) : growLoop slot turns (nentries <<< j) = none := by
  induction turns generalizing j with
  | zero => rfl
  | succ turns ih =>
    rw [growLoop, if_pos (hle j), ← BitVec.shiftLeft_add]
    exact ih (j + 1)

/-- From 32 on the doublings reach 2^30, the sign, and then nothing but 0. -/
theorem growLoop_diverges {slot : ℤ} (hslot : 2 ^ 30 ≤ slot) (turns : ℕ) :
    growLoop slot turns 32 = none := by
  have hsmall : ∀ j < 32, ((32 : BitVec 32) <<< j).toInt ≤ 2 ^ 30 := by decide
  have hle : ∀ j : ℕ, ((32 : BitVec 32) <<< j).toInt ≤ slot := by
    intro j
    refine le_trans ?_ hslot
    rcases lt_or_ge j 32 with hj | hj
    · exact hsmall j hj
    · rw [BitVec.shiftLeft_eq_zero hj]
      decide
  exact growLoop_never hle turns 0

theorem doubleEntries_power (fuel slot n : ℕ) :
    ∃ k, doubleEntries fuel slot n = n * 2 ^ k ∧ (k = fuel ∨ slot < n * 2 ^ k) := by
  induction fuel generalizing n with
  | zero => exact ⟨0,(mul_one n).symm,.inl rfl⟩
  | succ fuel ih =>
    unfold doubleEntries
    split
    · obtain ⟨k,hk,hend⟩ := ih (2 * n)
      have hdouble : n * 2 ^ (k + 1) = 2 * n * 2 ^ k := by ring
      refine ⟨k + 1,hk.trans hdouble.symm,hend.imp (congrArg (· + 1)) ?_⟩
      exact fun hlt => hdouble.symm ▸ hlt
    · exact ⟨0,(mul_one n).symm,.inr (by omega)⟩

theorem doubleEntries_le (hk : slot < n * 2 ^ k) : doubleEntries fuel slot n ≤ n * 2 ^ k := by
  induction fuel generalizing n k with
  | zero => exact Nat.le_mul_of_pos_right n (Nat.two_pow_pos k)
  | succ fuel ih =>
    unfold doubleEntries
    split
    · cases k with
      | zero => omega
      | succ k =>
        have hdouble : n * 2 ^ (k + 1) = 2 * n * 2 ^ k := by ring
        rw [hdouble] at hk ⊢
        exact ih hk
    · exact Nat.le_mul_of_pos_right n (Nat.two_pow_pos k)

theorem mapMakeSpace_eq (hle : map.nentries ≤ slot) (realloc : Bool) :
    mapMakeSpace map slot realloc =
      if doubleEntries 31 slot map.startEntries * sizeofPointer ≤ intMax then
        if realloc then
          some (⟨fun i => if i < map.nentries then map.entries i else none,
            doubleEntries 31 slot map.startEntries⟩, 0)
        else some (map, -1)
      else none := if_pos hle

theorem sizeable_of_le (hbytes : doubleEntries 31 slot map.startEntries * sizeofPointer ≤ intMax) :
    Sizeable map slot := by
  obtain ⟨k,hk,hend⟩ := doubleEntries_power 31 slot map.startEntries
  rw [hk] at hbytes
  refine .inr ⟨k,hend.resolve_left ?_,hbytes⟩
  rintro rfl
  have hpos := startEntries_pos map
  unfold sizeofPointer intMax at hbytes
  omega

theorem sizeable_of_mapMakeSpace {realloc : Bool} {r : ChannelMap × ℤ} (hle : map.nentries ≤ slot)
    (hrun : mapMakeSpace map slot realloc = some r) : Sizeable map slot := by
  rw [mapMakeSpace_eq hle] at hrun
  split at hrun
  next hbytes => exact sizeable_of_le hbytes
  next => cases hrun

theorem makesSpace_of_sizeable (hsize : Sizeable map slot) (realloc : Bool) :
    MakesSpace map slot realloc := by
  refine ⟨fun hin => by simp [mapMakeSpace, not_le.mpr hin],fun hle => ?_⟩
  obtain ⟨k,hk,hbytes⟩ := hsize.resolve_left (not_lt.mpr hle)
  have hpos := startEntries_pos map
  have hgrown : doubleEntries 31 slot map.startEntries * sizeofPointer ≤ intMax :=
    (Nat.mul_le_mul_right sizeofPointer (doubleEntries_le hk)).trans hbytes
  have hslot : slot < 2 ^ 28 := by
    unfold sizeofPointer intMax at hbytes
    omega
  have hstart : map.startEntries ≤ 2 ^ 29 := by
    unfold ChannelMap.startEntries
    split <;> omega
  have hreaches : slot < map.startEntries * 2 ^ 31 := by omega
  have hlt := (doubleEntries_spec hpos hreaches).1
  have hint := toInt_ofNat_of_le (n := doubleEntries 31 slot map.startEntries)
    (by unfold sizeofPointer at hgrown; omega)
  refine ⟨_,_,growLoop_eq hpos hstart hslot hreaches,?_,?_,?_⟩
  · rw [hint]
    exact ⟨by positivity,by exact_mod_cast hgrown⟩
  · rw [hint]
    unfold InInt
    unfold sizeofPointer at hgrown ⊢
    omega
  · rw [mapMakeSpace_eq hle, if_pos hgrown, hint]
    cases realloc with
    | false => exact .inl rfl
    | true =>
      refine .inr ⟨_,rfl,rfl,hlt,(hle.trans_lt hlt).le,?_,?_⟩
      · exact fun i hi => if_pos hi
      · exact fun i hi _ => if_neg (not_lt.mpr hi)

theorem Enlarged.lookup_eq {map' : ChannelMap} (h : Enlarged map map' slot) (fd : ℕ) :
    map'.lookup fd = map.lookup fd := by
  have hle := h.old_le
  unfold ChannelMap.lookup
  by_cases hold : fd < map.nentries
  · rw [if_pos hold, if_pos (hold.trans_le hle), h.old fd hold]
  · rw [if_neg hold]
    split
    next hin => exact h.new fd (not_lt.mp hold) hin
    next => rfl

theorem mapMakeSpace_cases (map : ChannelMap) (slot : ℕ) (realloc : Bool) :
    (mapMakeSpace map slot realloc = none ∨ mapMakeSpace map slot realloc = some (map, -1)) ∧
        ¬ (slot < map.nentries ∨ realloc = true ∧ Sizeable map slot) ∨
      (slot < map.nentries ∨ realloc = true ∧ Sizeable map slot) ∧
        ∃ map', mapMakeSpace map slot realloc = some (map', 0) ∧ Enlarged map map' slot := by
  by_cases hin : slot < map.nentries
  · refine .inr ⟨.inl hin,map,by simp [mapMakeSpace, not_le.mpr hin],hin,le_rfl,fun _ _ => rfl,?_⟩
    exact fun i hi hlt => absurd hlt (not_lt.mpr hi)
  · by_cases hsize : Sizeable map slot
    · obtain ⟨-,hout⟩ := makesSpace_of_sizeable hsize realloc
      obtain ⟨turns,nentries,-,-,-,hresult⟩ := hout (not_lt.mp hin)
      cases realloc with
      | true =>
        rcases hresult with hrun | ⟨map',hrun,-,henlarged⟩
        · rw [mapMakeSpace_eq (not_lt.mp hin)] at hrun
          split at hrun <;> simp at hrun
        · exact .inr ⟨.inr ⟨rfl,hsize⟩,map',hrun,henlarged⟩
      | false =>
        refine .inl ⟨.inr ?_,by simp [hin]⟩
        rcases hresult with hrun | ⟨map',hrun,-,henlarged⟩
        · exact hrun
        · rw [mapMakeSpace_eq (not_lt.mp hin)] at hrun
          split at hrun <;> simp at hrun
    · refine .inl ⟨.inl ?_,by simp [hin, hsize]⟩
      cases hrun : mapMakeSpace map slot realloc with
      | none => rfl
      | some r => exact absurd (sizeable_of_mapMakeSpace (not_lt.mp hin) hrun) hsize

/-- For every map and every slot: room is made, or refused, as it should just when the
slot has an entry or a doubling that exceeds it has a size in `int`. -/
theorem makesSpace_iff (map : ChannelMap) (slot : ℕ) (realloc : Bool) :
    MakesSpace map slot realloc ↔ Sizeable map slot := by
  constructor
  · rintro ⟨-,hout⟩
    by_cases hle : map.nentries ≤ slot
    · obtain ⟨turns,nentries,-,-,-,hrun | ⟨map',hrun,-⟩⟩ := hout hle
      · exact sizeable_of_mapMakeSpace hle hrun
      · exact sizeable_of_mapMakeSpace hle hrun
    · exact .inl (not_le.mp hle)
  · exact fun hsize => makesSpace_of_sizeable hsize realloc

/-- In the empty map, the loop for slot 2^30 has no end, and the number of entries for
slot 2^27 takes 2^31 bytes. -/
theorem makeSpace_fails :
    (∀ turns, growLoop (2 ^ 30) turns (BitVec.ofNat 32 mapInit.startEntries) = none) ∧
      ¬ MakesSpace mapInit (2 ^ 30) true ∧ ¬ MakesSpace mapInit (2 ^ 27) true := by
  have hends : ∀ turns, growLoop (2 ^ 30) turns (BitVec.ofNat 32 mapInit.startEntries) = none :=
    growLoop_diverges le_rfl
  have hlarge : ¬ Sizeable mapInit (2 ^ 27) := by
    rintro (hin | ⟨k,hk,hbytes⟩)
    · exact Nat.not_lt_zero _ hin
    · change 2 ^ 27 < 32 * 2 ^ k at hk
      change 32 * 2 ^ k * 8 ≤ intMax at hbytes
      unfold intMax at hbytes
      rcases le_or_gt k 22 with hle | hgt
      · have hpow : 2 ^ k ≤ 2 ^ 22 := Nat.pow_le_pow_right Nat.two_pos hle
        omega
      · have hpow : 2 ^ 23 ≤ 2 ^ k := Nat.pow_le_pow_right Nat.two_pos hgt
        omega
  refine ⟨hends,?_,?_⟩
  · rintro ⟨-,hout⟩
    obtain ⟨turns,nentries,hloop,-⟩ := hout (Nat.zero_le _)
    rw [Nat.cast_pow, Nat.cast_ofNat, hends turns] at hloop
    cases hloop
  · rintro ⟨-,hout⟩
    obtain ⟨turns,nentries,-,-,-,hrun | ⟨map',hrun,-⟩⟩ := hout (Nat.zero_le _)
    · exact hlarge (sizeable_of_mapMakeSpace (Nat.zero_le _) hrun)
    · exact hlarge (sizeable_of_mapMakeSpace (Nat.zero_le _) hrun)

variable {δ : Type*}

/-- The descriptor is free and its channel comes into the map. -/
def AddsChannel (s : LoopState δ) (fd : ℕ) (realloc : Bool) : Prop :=
  s.map.lookup fd = none ∧ (fd < s.map.nentries ∨ realloc = true ∧ Sizeable s.map fd)

/-- Adding a channel registers it, or changes nothing if it has a result. -/
theorem handlePendingAdd_outcomes (dispatcher : Dispatcher δ) (s : LoopState δ) (fd : ℕ)
    (channel : Channel) (realloc : Bool) :
    (¬ AddsChannel s fd realloc ∧
      ∀ r, eventLoopHandlePendingAdd dispatcher s fd channel realloc = some r → r.1 = s) ∨
    AddsChannel s fd realloc ∧ ∃ map' : ChannelMap,
      (∀ x, map'.lookup x = if x = fd then some channel else s.map.lookup x) ∧
      eventLoopHandlePendingAdd dispatcher s fd channel realloc =
        (dispatcher.add s.data channel).map fun q => (⟨map',q.1⟩,1) := by
  have hpos : ¬ (fd : ℤ) < 0 := by omega
  simp only [eventLoopHandlePendingAdd, hpos, if_false, Int.toNat_natCast, Nat.cast_le]
  by_cases hle : s.map.nentries ≤ fd
  · have hfree : s.map.lookup fd = none := by simp [ChannelMap.lookup, not_lt.mpr hle]
    rw [if_pos hle]
    rcases mapMakeSpace_cases s.map fd realloc with ⟨hrun,hno⟩ | ⟨hroom,map',hrun,henlarged⟩
    · refine .inl ⟨fun hreg => hno hreg.2,fun r hr => ?_⟩
      rcases hrun with hrun | hrun
      · simp [hrun] at hr
      · simp only [hrun, Option.bind_some, if_true, Option.some.injEq] at hr
        exact hr ▸ rfl
    · have hentry : map'.entries fd = none := henlarged.new fd hle henlarged.slot_lt
      refine .inr ⟨⟨hfree,hroom⟩,_,?_,by simp [hrun, hentry]; rfl⟩
      intro x
      rw [← henlarged.lookup_eq]
      exact LoopState.lookup_setEntry { s with map := map' } henlarged.slot_lt (some channel) x
  · have hlt : fd < s.map.nentries := not_le.mp hle
    have hlook : s.map.lookup fd = s.map.entries fd := by simp [ChannelMap.lookup, hlt]
    rw [if_neg hle, AddsChannel, hlook]
    cases hentry : s.map.entries fd with
    | none =>
      exact .inr ⟨⟨rfl,.inl hlt⟩,_,s.lookup_setEntry hlt (some channel),by simp [hentry]⟩
    | some c =>
      refine .inl ⟨by simp,fun r hr => ?_⟩
      simp [hentry] at hr
      exact hr ▸ rfl

end CppExamples.HttpTest
