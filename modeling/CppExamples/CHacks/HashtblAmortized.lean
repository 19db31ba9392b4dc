import CppExamples.CHacks.HashtblInvariant

/-! # What growing costs over a whole run

A transfer takes a turn for every slot of the old table and one for every entry.  The
thresholds keep the entries of a growing table near its size, so that the new slots pay
for the transfer, and the transfers of a run take no more turns together than the table
has slots at its end, but for a constant factor.
-/
namespace CppExamples.HashTable
open Buckets Machine
variable {K V : Type*}

/-- The slots from `i` on and the entries that hang there. -/
def turnsLeft (n i : ℕ) (p : Slots K V × Slots K V) : ℕ :=
  ∑ k ∈ Finset.Ico i n, ((p.1.table k).length + 1)

variable {n i turns : ℕ} {p : Slots K V × Slots K V} {chain : List (Entry K V)} {entry : Entry K V}

theorem turnsLeft_slot (hi : i < n) :
    turnsLeft n i p = (p.1.table i).length + 1 + turnsLeft n (i + 1) p :=
  Finset.sum_eq_sum_Ico_succ_bot hi _

theorem turnsLeft_unlink (hi : i < n) (ht : p.1.table i = entry :: chain) (target : Slots K V) :
    turnsLeft n i p = turnsLeft n i (p.1.unlinkEntry i chain,target) + 1 := by
  have hcut : (p.1.unlinkEntry i chain).table i = chain := Function.update_self ..
  have hlater : turnsLeft n (i + 1) (p.1.unlinkEntry i chain,target) = turnsLeft n (i + 1) p := by
    refine Finset.sum_congr rfl fun k hk => ?_
    have hne : k ≠ i := by
      have := (Finset.mem_Ico.mp hk).1
      omega
    have hsame : (p.1.unlinkEntry i chain).table k = p.1.table k := Function.update_of_ne hne ..
    rw [hsame]
  rw [turnsLeft_slot hi, turnsLeft_slot hi, hlater, ht, hcut, List.length_cons]
  omega

theorem moveSlot_unlink (ht : p.1.table i = entry :: chain) :
    moveSlot (p.1.unlinkEntry i chain,p.2.linkEntry entry) i = moveSlot p i := by
  have hcut : (p.1.unlinkEntry i chain).table i = chain := Function.update_self ..
  rw [moveSlot, hcut, moveSlot, ht, moveChain]

theorem moveSlot_empty (ht : p.1.table i = []) : moveSlot p i = p := by
  rw [moveSlot, ht, moveChain]

/-- The loops take a turn for every slot, one for every entry, and a last one. -/
theorem transferLoop_eq (n : ℕ) : transferLoop n turns i p =
    if turnsLeft n i p < turns then some ((List.range' i (n - i)).foldl moveSlot p) else none := by
  induction turns generalizing i p with
  | zero => rw [transferLoop, if_neg (Nat.not_lt_zero _)]
  | succ turns ih =>
    rw [transferLoop]
    by_cases hi : i < n
    · rw [if_pos hi]
      have hrange : List.range' i (n - i) = i :: List.range' (i + 1) (n - (i + 1)) := by
        rw [show n - i = n - (i + 1) + 1 by omega, List.range'_succ]
      cases ht : p.1.table i with
      | nil =>
        simp only [ih, turnsLeft_slot hi (p := p), ht, List.length_nil, hrange, List.foldl_cons,
          moveSlot_empty ht]
        exact if_congr (by omega) rfl rfl
      | cons entry chain =>
        simp only [ih, turnsLeft_unlink hi ht (p.2.linkEntry entry), hrange, List.foldl_cons,
          moveSlot_unlink ht]
        exact if_congr (by omega) rfl rfl
    · have hnone : turnsLeft n i p = 0 := by
        rw [turnsLeft, Finset.Ico_eq_empty hi, Finset.sum_empty]
      rw [if_neg hi, hnone, if_pos (Nat.succ_pos _), show n - i = 0 by omega]
      rfl

variable {cfg : Config K} {h h' : Hashtbl K V} {op : Op K V} {answer : Answer V}

theorem transferLoop_turns {s : Slots K V} (hs : WellFormed cfg s) (capacity turns : ℕ) :
    transferLoop s.tableSize turns 0 (s,⟨fun _ => [],capacity,0⟩) =
      if s.tableSize + s.nentries < turns then some (transfer s capacity) else none := by
  have hcount : turnsLeft s.tableSize 0 (s,⟨fun _ => [],capacity,0⟩) = s.tableSize + s.nentries := by
    simp only [turnsLeft, hs.count, Slots.content, content, ← Finset.range_eq_Ico,
      Finset.sum_add_distrib, Multiset.card_sum, Multiset.coe_card, Finset.sum_const,
      Finset.card_range, smul_eq_mul, mul_one]
    exact Nat.add_comm ..
  rw [transferLoop_eq, hcount, transfer, List.range_eq_range', Nat.sub_zero]

/-- The turns of the transfer that a call makes, if it makes one. -/
def growthTurns (cfg : Config K) (h : Hashtbl K V) (op : Op K V) (_ : Answer V) : ℕ :=
  (hashtblStep cfg h op).elim 0 fun r =>
    if r.1.tableSize = h.tableSize then 0 else h.tableSize + h.nentries + 1

def Grows : Op K V → Prop
  | .insert _ _ tableAlloc _ => tableAlloc.isSome
  | .resize _ _ => False
  | _ => True

def Hashtbl.worth (h : Hashtbl K V) : ℕ := 2 * h.tableSize + 31 * Nat.log 2 h.tableSize

/-- The size is a power of two with its threshold, and a growing table that can still grow
holds few more entries than it has slots. -/
structure Light (cfg : Config K) (h : Hashtbl K V) : Prop where
  power : ∃ j ≤ 30, h.tableSize = 2 ^ j
  threshold : h.resizeThreshold = cfg.thresholdOf h.tableSize
  entries : cfg.autoResize = true → h.tableSize = 2 ^ 30 ∨
    h.nentries ≤ h.tableSize + Nat.log 2 h.tableSize

def Thresholds (cfg : Config K) : Prop :=
  ∀ j ≤ 30, 0 ≤ cfg.thresholdOf (2 ^ j) ∧ cfg.thresholdOf (2 ^ j) ≤ 2 ^ j

theorem not_atThreshold {cfg : Config K} (hcfg : Thresholds cfg) {j : ℕ} (hj : j ≤ 30)
    (h : atThreshold n (cfg.thresholdOf (2 ^ j)) = false) : n < 2 ^ j := by
  obtain ⟨hlow,hhigh⟩ := hcfg j hj
  have hpow : (2 : ℤ) ^ j ≤ 2 ^ 30 := pow_le_pow_right₀ one_le_two hj
  rw [atThreshold, decide_eq_false_iff_not, Int.emod_eq_of_lt hlow (by omega)] at h
  have hlt := lt_of_lt_of_le (not_le.mp h) hhigh
  exact_mod_cast hlt

theorem Light.keep (hl : Light cfg h) (hsize : h'.tableSize = h.tableSize)
    (hthreshold : h'.resizeThreshold = h.resizeThreshold) (hentries : h'.nentries ≤ h.nentries) :
    Light cfg h' where
  power := hsize ▸ hl.power
  threshold := by rw [hthreshold, hsize, hl.threshold]
  entries hauto := by
    rw [hsize]
    exact (hl.entries hauto).imp_right hentries.trans

theorem autoResized_spec {m : KeyMap cfg.toHashFns V} (hr : Represents cfg h m) (hl : Light cfg h)
    (hcfg : Thresholds cfg) (block : ℕ) :
    (autoResized cfg h (some block)).nentries = h.nentries ∧
    ((autoResized cfg h (some block)).tableSize = h.tableSize ∧
        (cfg.autoResize = true → h.tableSize = 2 ^ 30 ∨ h.nentries + 1 ≤ h.tableSize) ∨
      cfg.autoResize = true ∧ h.tableSize < 2 ^ 30 ∧
        (autoResized cfg h (some block)).tableSize = 2 * h.tableSize) := by
  refine ⟨(hr.autoResized (some block)).card.symm.trans hr.card,?_⟩
  obtain ⟨j,hj,hsize⟩ := hl.power
  unfold autoResized
  split
  next hat =>
    obtain ⟨hauto,-⟩ := Bool.and_eq_true_iff.mp hat
    have hround := roundedCapacity_doubled hj
    rw [← hsize] at hround
    by_cases hlast : j = 30
    · rw [if_pos hlast] at hround
      have hsmall : roundedCapacity (doubled h.tableSize) ≤ h.tableSize := hround ▸ hr.size
      rw [hashtblResize, if_pos hsmall]
      exact .inl ⟨rfl,fun _ => .inl (hlast ▸ hsize)⟩
    · rw [if_neg hlast] at hround
      have hpow : 2 ^ j < 2 ^ 30 := Nat.pow_lt_pow_right Nat.one_lt_two (by omega)
      have hgrow : ¬ roundedCapacity (doubled h.tableSize) ≤ h.tableSize := by
        have hpos := Nat.two_pow_pos j
        rw [hround, hsize, pow_succ]
        omega
      rw [hashtblResize, if_neg hgrow]
      refine .inr ⟨hauto,hsize ▸ hpow,?_⟩
      rw [transfer_tableSize, hround, pow_succ', hsize]
  next hat =>
    refine .inl ⟨rfl,fun hauto => .inr ?_⟩
    rw [hauto, Bool.true_and, Bool.not_eq_true, hl.threshold, hsize] at hat
    rw [hsize]
    exact not_atThreshold hcfg hj hat

theorem growthTurns_eq (hstep : hashtblStep cfg h op = some (h', answer)) :
    growthTurns cfg h op answer =
      if h'.tableSize = h.tableSize then 0 else h.tableSize + h.nentries + 1 := by
  rw [growthTurns, hstep]
  rfl

theorem Light.stay (hl : Light cfg h) (hstep : hashtblStep cfg h op = some (h', answer))
    (hsize : h'.tableSize = h.tableSize) (hthreshold : h'.resizeThreshold = h.resizeThreshold)
    (hentries : h'.nentries ≤ h.nentries) :
    Light cfg h' ∧ growthTurns cfg h op answer + h.worth ≤ h'.worth := by
  refine ⟨hl.keep hsize hthreshold hentries,?_⟩
  rw [growthTurns_eq hstep, if_pos hsize, Hashtbl.worth, Hashtbl.worth, hsize, Nat.zero_add]

theorem hashtblInsert_new {k : K} (v : Option V) (tableAlloc entryAlloc : Option ℕ)
    (hf : findEntry cfg h.toSlots (cfg.hashFn k) k = none) :
    (hashtblInsert cfg h k v tableAlloc entryAlloc).1.tableSize = (autoResized cfg h tableAlloc).tableSize ∧
    (hashtblInsert cfg h k v tableAlloc entryAlloc).1.resizeThreshold =
      (autoResized cfg h tableAlloc).resizeThreshold ∧
    (hashtblInsert cfg h k v tableAlloc entryAlloc).1.nentries ≤
      (autoResized cfg h tableAlloc).nentries + 1 := by
  cases entryAlloc with
  | none =>
    simp only [hashtblInsert, hf]
    exact ⟨trivial,trivial,Nat.le_succ _⟩
  | some block =>
    simp only [hashtblInsert, hf]
    exact ⟨rfl,trivial,le_rfl⟩

/-- An insertion keeps the table light, and the new slots pay for the turns. -/
theorem hashtblInsert_light {m : KeyMap cfg.toHashFns V} (hr : Represents cfg h m) (hl : Light cfg h)
    (hcfg : Thresholds cfg) {k : K} {v : Option V} {tableAlloc entryAlloc : Option ℕ}
    (halloc : tableAlloc.isSome)
    (hstep : hashtblStep cfg h (.insert k v tableAlloc entryAlloc) = some (h', answer)) :
    Light cfg h' ∧
      growthTurns cfg h (.insert k v tableAlloc entryAlloc) answer + h.worth ≤ h'.worth := by
  obtain ⟨block,rfl⟩ := Option.isSome_iff_exists.mp halloc
  obtain ⟨rfl,-⟩ := Prod.mk.inj (Option.some.inj hstep)
  cases hf : findEntry cfg h.toSlots (cfg.hashFn k) k with
  | some entry =>
    refine hl.stay hstep ?_ ?_ ?_ <;> simp only [hashtblInsert, hf, le_refl]
  | none =>
    obtain ⟨hsize,hthreshold,hentries⟩ := hashtblInsert_new v (some block) entryAlloc hf
    obtain ⟨hcount,hgrown⟩ := autoResized_spec hr hl hcfg block
    have hresizes := autoResized_resizes cfg h (some block)
    have hpower := hresizes.power hl.power
    have hthreshold' : (autoResized cfg h (some block)).resizeThreshold =
        cfg.thresholdOf (autoResized cfg h (some block)).tableSize := by
      rcases hresizes with ⟨hs,ht⟩ | ⟨requested,-,-,hs,ht⟩
      · rw [ht, hs, hl.threshold]
      · rw [ht, hs]
    rw [hcount] at hentries
    rw [growthTurns_eq hstep, Hashtbl.worth, Hashtbl.worth, hsize]
    rcases hgrown with ⟨hsame,hroom⟩ | ⟨hauto,hlt,hdouble⟩
    · rw [if_pos hsame, hsame, Nat.zero_add]
      refine ⟨⟨hsize ▸ hpower,by rw [hthreshold, hthreshold', hsize],fun hauto => ?_⟩,le_rfl⟩
      rw [hsize, hsame]
      exact (hroom hauto).imp_right fun hle => hentries.trans (hle.trans (Nat.le_add_right ..))
    · have hpos := hr.size
      have hlog : Nat.log 2 (2 * h.tableSize) = Nat.log 2 h.tableSize + 1 := by
        rw [Nat.mul_comm, Nat.log_mul_base Nat.one_lt_two hpos.ne']
      have hload := (hl.entries hauto).resolve_left hlt.ne
      have hsmall : Nat.log 2 h.tableSize < 30 := Nat.log_lt_of_lt_pow hpos.ne' hlt
      rw [if_neg (by omega), hdouble, hlog]
      refine ⟨⟨hsize ▸ hpower,by rw [hthreshold, hthreshold', hsize],fun _ => .inr ?_⟩,by omega⟩
      rw [hsize, hdouble, hlog]
      omega

theorem hashtblStep_light {m : KeyMap cfg.toHashFns V} (hr : Represents cfg h m) (hl : Light cfg h)
    (hcfg : Thresholds cfg) (hop : Grows op) (hstep : hashtblStep cfg h op = some (h', answer)) :
    Light cfg h' ∧ growthTurns cfg h op answer + h.worth ≤ h'.worth := by
  cases op with
  | insert k v tableAlloc entryAlloc => exact hashtblInsert_light hr hl hcfg hop hstep
  | resize capacity tableAlloc => exact absurd hop id
  | lookup k =>
    obtain ⟨rfl,-⟩ := Prod.mk.inj (Option.some.inj hstep)
    exact hl.stay hstep rfl rfl le_rfl
  | count =>
    obtain ⟨rfl,-⟩ := Prod.mk.inj (Option.some.inj hstep)
    exact hl.stay hstep rfl rfl le_rfl
  | remove k =>
    obtain ⟨rfl,-⟩ := Prod.mk.inj (Option.some.inj hstep)
    cases hf : findEntry cfg h.toSlots (cfg.hashFn k) k with
    | some entry =>
      refine hl.stay hstep ?_ ?_ ?_ <;>
        simp only [hashtblRemove, removeKey, hf, Slots.unlinkEntry, Nat.sub_le]
    | none =>
      refine hl.stay hstep ?_ ?_ ?_ <;> simp only [hashtblRemove, removeKey, hf, le_refl]
  | clear =>
    obtain ⟨rfl,-⟩ := Prod.mk.inj (Option.some.inj hstep)
    obtain ⟨hsize,hthreshold⟩ := clearSlots_size cfg (List.range h.tableSize) h
    refine hl.stay hstep hsize hthreshold ?_
    have hnone : (hashtblClear cfg h).nentries = 0 := hr.clear.card.symm
    exact hnone.trans_le (Nat.zero_le _)

theorem thresholds_atFactor {R : Rounding} {factor : ℚ} (hdouble : R.round factor = factor)
    (cfg : Config K) : Thresholds (atFactor R factor cfg) := by
  intro j hj
  have hnonneg := storedFactor_nonneg factor
  have hle := storedFactor_le_one factor
  have hstored := round_storedFactor hdouble
  refine ⟨(resizeThreshold_bounds hnonneg hle hstored hj).2.1,?_⟩
  have hprod : 2 ^ j * storedFactor factor ≤ 2 ^ j := mul_le_of_le_one_right (by positivity) hle
  have hsmall : 2 ^ (j + 1) + 1 ≤ 2 ^ 53 := by
    have := Nat.pow_le_pow_right Nat.two_pos (show j + 1 ≤ 31 by omega)
    omega
  have hhalf := R.fraction (2 ^ (j + 1) + 1) 1 hsmall (by norm_num)
  have hhigh := R.mono (show 2 ^ j * storedFactor factor + 1 / 2 ≤
    ((2 ^ (j + 1) + 1 : ℕ) : ℚ) / 2 ^ 1 by push_cast; rw [pow_succ]; linarith)
  rw [hhalf] at hhigh
  simp only [atFactor, resizeThreshold, Nat.cast_pow, Nat.cast_ofNat,
    R.scale _ j hnonneg hle hj hstored]
  refine Int.floor_le_iff.mpr ?_
  push_cast at hhigh ⊢
  rw [pow_succ] at hhigh
  linarith

theorem hashtblCreate_light {capacity : ℤ} {handleAlloc tableAlloc : Option ℕ}
    (hcreate : hashtblCreate cfg capacity handleAlloc tableAlloc = .ok h) : Light cfg h := by
  have hsized := hashtblCreate_sized hcreate
  refine ⟨hsized.power,hsized.threshold_eq,fun _ => .inr ?_⟩
  have hnone : h.nentries = 0 := (hashtblCreate_represents hcreate).card.symm
  rw [hnone]
  exact Nat.zero_le _

theorem hashtblRun_worth {R : Rounding} {factor : ℚ} (hdouble : R.round factor = factor)
    {cfg : Config K} {capacity : ℤ} {handleAlloc tableAlloc : Option ℕ}
    (hcreate : hashtblCreate (atFactor R factor cfg) capacity handleAlloc tableAlloc = .ok h)
    {ops : List (Op K V)} (hops : ∀ op ∈ ops, Grows op) :
    ∃ h' answers, run (hashtblStep (atFactor R factor cfg)) h ops = some (h', answers) ∧
      Light (atFactor R factor cfg) h' ∧
      accrued (hashtblStep (atFactor R factor cfg)) (growthTurns (atFactor R factor cfg)) h ops
        + h.worth ≤ h'.worth := by
  have hgrows : Admits (hashtblStep (atFactor R factor cfg)) (fun _ op => True ∧ Grows op) h ops :=
    (admits_of_forall (fun _ _ => trivial) h ops).restrict hops
  have hstep : ∀ (t : Hashtbl K V) (op : Op K V),
      (∃ m, Represents (atFactor R factor cfg) t m) ∧ Light (atFactor R factor cfg) t →
      True ∧ Grows op → ∃ t' answer, hashtblStep (atFactor R factor cfg) t op = some (t', answer) ∧
        ((∃ m, Represents (atFactor R factor cfg) t' m) ∧ Light (atFactor R factor cfg) t') ∧
        growthTurns (atFactor R factor cfg) t op answer + t.worth ≤ t'.worth := by
    rintro t op ⟨⟨m,hr⟩,hl⟩ ⟨-,hop⟩
    obtain ⟨t',m',answer,-,hstep,-,-,hr'⟩ := hashtblStep_refines t m op hr
    obtain ⟨hl',hpaid⟩ := hashtblStep_light hr hl (thresholds_atFactor hdouble cfg) hop hstep
    exact ⟨t',answer,hstep,⟨⟨m',hr'⟩,hl'⟩,hpaid⟩
  obtain ⟨h',answers,hrun,⟨-,hlight⟩,hworth⟩ := run_accrues
    (fun (s : Hashtbl K V) turns (t : Hashtbl K V) => turns + s.worth ≤ t.worth)
    (fun s => (Nat.zero_add _).le) (fun s a t b u hfirst hrest => by omega) hstep
    ⟨⟨∅,hashtblCreate_represents hcreate⟩,hashtblCreate_light hcreate⟩ hgrows
  exact ⟨h',answers,hrun,hlight,hworth⟩

theorem Light.worth_le (hl : Light cfg h) : h.worth ≤ 2 * h.tableSize + 930 := by
  obtain ⟨j,hj,hsize⟩ := hl.power
  rw [Hashtbl.worth, hsize, Nat.log_pow Nat.one_lt_two]
  omega

/-- The transfers of a run take a constant number of turns for each slot that the table has
in the end, and unless the load factor is 0.0, for each entry that it ever held at once. -/
theorem growing_amortized {R : Rounding} {factor : ℚ} (hdouble : R.round factor = factor)
    (cfg : Config K) {capacity : ℤ} {handleAlloc tableAlloc : Option ℕ}
    (hcreate : hashtblCreate (atFactor R factor cfg) capacity handleAlloc tableAlloc = .ok h)
    {ops : List (Op K V)} (hops : ∀ op ∈ ops, Grows op) :
    ∃ h' answers, run (hashtblStep (atFactor R factor cfg)) h ops = some (h', answers) ∧
      accrued (hashtblStep (atFactor R factor cfg)) (growthTurns (atFactor R factor cfg)) h ops
        + 2 * h.tableSize ≤ 2 * h'.tableSize + 930 ∧
      (factor ≠ 0 ∨ 2 ^ 29 < capacity →
        ((accrued (hashtblStep (atFactor R factor cfg)) (growthTurns (atFactor R factor cfg)) h ops : ℕ) : ℚ) ≤
          2 * capacityBound capacity factor (peak (hashtblStep (atFactor R factor cfg)) hashtblCount h ops)
            + 930) := by
  obtain ⟨h',answers,hrun,hlight,hworth⟩ := hashtblRun_worth hdouble hcreate hops
  have hpaid := (Nat.add_le_add_left (Nat.le_add_right _ _) _).trans (hworth.trans hlight.worth_le)
  refine ⟨h',answers,hrun,hpaid,fun hfactor => ?_⟩
  have hautomatic : ∀ op ∈ ops, Automatic op := by
    intro op hop
    cases op with
    | resize capacity tableAlloc => exact absurd (hops _ hop) id
    | insert k v tableAlloc entryAlloc => trivial
    | lookup k => trivial
    | remove k => trivial
    | clear => trivial
    | count => trivial
  obtain ⟨t,os,hrun',hsized⟩ := hashtblRun_sized hdouble hfactor hcreate hautomatic le_rfl
  obtain ⟨rfl,-⟩ := Prod.mk.inj (Option.some.inj (hrun.symm.trans hrun'))
  have hle : accrued (hashtblStep (atFactor R factor cfg)) (growthTurns (atFactor R factor cfg)) h ops
      ≤ 2 * h'.tableSize + 930 := by omega
  have hcast := Nat.cast_le (α := ℚ).mpr hle
  push_cast at hcast
  linarith [hsized.le]

theorem growing_amortized_sample :
    ∃ h' answers, run (hashtblStep (atFactor exactly (3 / 4) collidingKeys))
        { collidingTable with resizeThreshold := (atFactor exactly (3 / 4) collidingKeys).thresholdOf 1 }
        [.insert 1 (some 10) (some 3) (some 4), .insert 2 (some 20) (some 5) (some 6), .remove 1]
          = some (h', answers) ∧
      accrued (hashtblStep (atFactor exactly (3 / 4) collidingKeys))
          (growthTurns (atFactor exactly (3 / 4) collidingKeys))
        { collidingTable with resizeThreshold := (atFactor exactly (3 / 4) collidingKeys).thresholdOf 1 }
        [.insert 1 (some 10) (some 3) (some 4), .insert 2 (some 20) (some 5) (some 6), .remove 1]
          + 2 * 1 ≤ 2 * h'.tableSize + 930 := by
  have hops : ∀ op ∈ ([.insert 1 (some 10) (some 3) (some 4), .insert 2 (some 20) (some 5) (some 6),
      .remove 1] : List (Op ℕ ℕ)), Grows op := by
    simp [Grows]
  have hdouble : exactly.round (3 / 4) = 3 / 4 := rfl
  have hcreate : hashtblCreate (atFactor exactly (3 / 4) collidingKeys) 1 (some 1) (some 2) = .ok
      { collidingTable with
        resizeThreshold := (atFactor exactly (3 / 4) collidingKeys).thresholdOf 1 } := rfl
  obtain ⟨h',answers,hrun,hpaid,-⟩ := growing_amortized hdouble collidingKeys hcreate hops
  exact ⟨h',answers,hrun,hpaid⟩

end CppExamples.HashTable
