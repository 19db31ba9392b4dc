import Mathlib
import CppExamples.Library.Machine
import CppExamples.Library.Buckets
import CppExamples.CHacks.Hashtbl

/-! # The chained hash table is a finite map

The entries of a table form a multiset that no resize changes, whichever of its
entries are still in the old table.  Up to equality of keys they are the entries
of a finite map, on which every call acts as its header says.
-/
namespace CppExamples.HashTable
open Buckets Machine

variable {K V : Type*}

abbrev KeyMap (fns : HashFns K) (V : Type*) := Finmap fun _ : fns.Key => Option V

/-- The map does not determine the code of a resize, so that answer is left open. -/
def mapStep (fns : HashFns K) (m : KeyMap fns V) :
    Op K V → Option (KeyMap fns V × Option (Answer V))
  | .insert k v _ entryAlloc =>
    if fns.toKey k ∈ m ∨ entryAlloc.isSome then some (m.insert (fns.toKey k) v,some (.code 0))
    else some (m,some (.code 1))
  | .lookup k => some (m,some (.val (m.lookup (fns.toKey k)).join))
  | .remove k =>
    if fns.toKey k ∈ m then some (m.erase (fns.toKey k),some (.code 0))
    else some (m,some (.code 1))
  | .clear => some (∅,some .done)
  | .resize _ _ => some (m,none)
  | .count => some (m,some (.count m.keys.card))

variable {cfg : Config K} {s : Slots K V} {i n c : ℕ} {k : K} {entry : Entry K V}
variable {chain l l' : List (Entry K V)} {p : Slots K V × Slots K V}

def Slots.content (s : Slots K V) : Multiset (Entry K V) := Buckets.content s.tableSize s.table

variable (cfg) in
structure WellFormed (s : Slots K V) : Prop where
  placed : Placed (fun entry => slotOf s.tableSize entry.hash) s.table
  hashed : ∀ entry ∈ s.content, entry.hash = cfg.hashFn entry.key
  count : s.nentries = s.content.card

theorem content_empty (size : ℕ) : (⟨fun _ => [],size,0⟩ : Slots K V).content = 0 :=
  content_eq_zero fun _ _ => rfl

theorem wellFormed_empty (size : ℕ) : WellFormed cfg (⟨fun _ => [],size,0⟩ : Slots K V) := by
  constructor
  · intro i entry he
    exact absurd he List.not_mem_nil
  · rw [content_empty]
    intro entry he
    exact absurd he (Multiset.notMem_zero entry)
  · rw [content_empty, Multiset.card_zero]

theorem Slots.content_linkEntry (hs : 0 < s.tableSize) :
    (s.linkEntry entry).content = entry ::ₘ s.content :=
  content_push (slotOf_lt hs entry.hash)

theorem Slots.content_unlinkEntry (hi : i < s.tableSize) (h : s.table i = l ++ entry :: l') :
    entry ::ₘ (s.unlinkEntry i (l ++ l')).content = s.content :=
  content_cut hi h

theorem Slots.content_relink (l l' : List (Entry K V)) (entry : Entry K V)
    (hi : i < s.tableSize) :
    ({ s with table := Function.update s.table i (l ++ entry :: l') } : Slots K V).content
      = entry ::ₘ (s.unlinkEntry i (l ++ l')).content :=
  content_insert l l' entry hi

theorem WellFormed.linkEntry (h : WellFormed cfg s) (hs : 0 < s.tableSize)
    (hhash : entry.hash = cfg.hashFn entry.key) : WellFormed cfg (s.linkEntry entry) := by
  constructor
  · exact h.placed.push entry
  · rw [Slots.content_linkEntry hs]
    intro e he
    rcases Multiset.mem_cons.mp he with rfl | he
    · exact hhash
    · exact h.hashed e he
  · rw [Slots.content_linkEntry hs, Multiset.card_cons, ← h.count]
    rfl

theorem WellFormed.unlinkEntry (h : WellFormed cfg s) (hi : i < s.tableSize)
    (ht : s.table i = l ++ entry :: l') : WellFormed cfg (s.unlinkEntry i (l ++ l')) := by
  have hcontent := Slots.content_unlinkEntry hi ht
  constructor
  · refine h.placed.shrink ?_
    rw [ht]
    exact List.append_subset.mpr ⟨List.subset_append_left l _,fun e he => by simp [he]⟩
  · intro e he
    exact h.hashed e (hcontent ▸ Multiset.mem_cons_of_mem he)
  · have hcount := h.count
    rw [← hcontent, Multiset.card_cons] at hcount
    simp [Slots.unlinkEntry] at hcount ⊢
    omega

variable (cfg) in
/-- Both tables are well formed in the middle of a transfer, and no entry is lost. -/
structure Moving (all : Multiset (Entry K V)) (n c : ℕ) (p : Slots K V × Slots K V) : Prop where
  source : WellFormed cfg p.1
  target : WellFormed cfg p.2
  sourceSize : p.1.tableSize = n
  targetSize : p.2.tableSize = c
  content : p.1.content + p.2.content = all

variable {all : Multiset (Entry K V)}

theorem Moving.move (h : Moving cfg all n c p) (hc : 0 < c) (hi : i < n)
    (ht : p.1.table i = entry :: chain) :
    Moving cfg all n c (p.1.unlinkEntry i chain,p.2.linkEntry entry) := by
  have hi' : i < p.1.tableSize := h.sourceSize ▸ hi
  have hc' : 0 < p.2.tableSize := h.targetSize ▸ hc
  have ht' : p.1.table i = [] ++ entry :: chain := ht
  have hfrom := Slots.content_unlinkEntry hi' ht'
  have hmem : entry ∈ p.1.content := hfrom ▸ Multiset.mem_cons_self entry _
  constructor
  · exact h.source.unlinkEntry hi' ht'
  · exact h.target.linkEntry hc' (h.source.hashed entry hmem)
  · exact h.sourceSize
  · exact h.targetSize
  · rw [Slots.content_linkEntry hc', Multiset.add_cons, ← Multiset.cons_add]
    exact (congrArg (· + p.2.content) hfrom).trans h.content

theorem moveChain_table (ht : p.1.table i = chain) :
    (moveChain i chain p).1.table = Function.update p.1.table i [] := by
  induction chain generalizing p with
  | nil =>
    have hsame := Function.update_eq_self i p.1.table
    rw [ht] at hsame
    exact hsame.symm
  | cons entry chain ih =>
    have hcut : (p.1.unlinkEntry i chain).table i = chain := Function.update_self ..
    have htable := ih (p := (p.1.unlinkEntry i chain,p.2.linkEntry entry)) hcut
    exact htable.trans (Function.update_idem ..)

theorem Moving.moveChain (h : Moving cfg all n c p) (hc : 0 < c) (hi : i < n)
    (ht : p.1.table i = chain) : Moving cfg all n c (moveChain i chain p) := by
  induction chain generalizing p with
  | nil => exact h
  | cons entry chain ih => exact ih (h.move hc hi ht) (Function.update_self ..)

theorem Moving.moveSlots (h : Moving cfg all n c p) (hc : 0 < c) {j : ℕ} (hj : j ≤ n) :
    Moving cfg all n c ((List.range j).foldl moveSlot p) ∧
      ∀ i < j, ((List.range j).foldl moveSlot p).1.table i = [] := by
  induction j with
  | zero => exact ⟨h,fun i hi => absurd hi (Nat.not_lt_zero i)⟩
  | succ j ih =>
    obtain ⟨hmoving,hempty⟩ := ih (by omega)
    have hnext := hmoving.moveChain hc (i := j) (by omega) rfl
    rw [List.range_succ, List.foldl_append]
    refine ⟨hnext,fun i hi => ?_⟩
    have hstep : (moveSlot ((List.range j).foldl moveSlot p) j).1.table
        = Function.update ((List.range j).foldl moveSlot p).1.table j [] := moveChain_table rfl
    rw [List.foldl_cons, List.foldl_nil, hstep]
    rcases eq_or_ne i j with rfl | hij
    · exact Function.update_self ..
    · rw [Function.update_of_ne hij]
      exact hempty i (by omega)

theorem transfer_spec (h : WellFormed cfg s) (hc : 0 < c) :
    WellFormed cfg (transfer s c).2 ∧ (transfer s c).2.tableSize = c ∧
      (transfer s c).2.content = s.content := by
  have hstart : Moving cfg s.content s.tableSize c (s,⟨fun _ => [],c,0⟩) :=
    ⟨h,wellFormed_empty c,rfl,rfl,by rw [content_empty, add_zero]⟩
  obtain ⟨hend,hempty⟩ := hstart.moveSlots hc le_rfl
  refine ⟨hend.target,hend.targetSize,?_⟩
  have hnone : (transfer s c).1.content = 0 :=
    content_eq_zero fun i hi => hempty i (hend.sourceSize ▸ hi)
  have hall := hend.content
  unfold transfer at hnone ⊢
  rwa [hnone, zero_add] at hall

theorem findEntry_some (h : findEntry cfg s (cfg.hashFn k) k = some entry) :
    cfg.toKey entry.key = cfg.toKey k ∧
    matchesKey cfg (cfg.hashFn k) k entry = true ∧
    ∃ l l', s.table (slotOf s.tableSize (cfg.hashFn k)) = l ++ entry :: l' ∧
      ∀ e ∈ l, matchesKey cfg (cfg.hashFn k) k e = false := by
  obtain ⟨hmatch,l,l',hsplit,hbefore⟩ := List.find?_eq_some_iff_append.mp h
  have heq := (Bool.and_eq_true_iff.mp hmatch).2
  exact ⟨cfg.toKey_eq_iff.mpr heq,hmatch,l,l',hsplit,fun e he => by simpa using hbefore e he⟩

theorem findEntry_none (hs : WellFormed cfg s) (h : findEntry cfg s (cfg.hashFn k) k = none)
    (he : entry ∈ s.content) : cfg.toKey entry.key ≠ cfg.toKey k := by
  intro hkey
  have heq := cfg.toKey_eq_iff.mp hkey
  have hhash : entry.hash = cfg.hashFn k := (hs.hashed entry he).trans (cfg.hash_eq heq)
  have hmem := hs.placed.mem_slot he
  rw [hhash] at hmem
  have hno := List.find?_eq_none.mp h entry hmem
  simp [matchesKey, hhash, heq] at hno

theorem setVal_append {q : Entry K V → Bool} {v : Option V} (hl : ∀ e ∈ l, q e = false)
    (he : q entry = true) :
    setVal q v (l ++ entry :: l') = l ++ { entry with val := v } :: l' := by
  induction l with
  | nil => simp [setVal, he]
  | cons e l ih =>
    have hrest := ih fun x hx => hl x (List.mem_cons_of_mem e hx)
    simp [setVal, hl e List.mem_cons_self, hrest]

theorem eraseP_append {q : Entry K V → Bool} (hl : ∀ e ∈ l, q e = false) (he : q entry = true) :
    (l ++ entry :: l').eraseP q = l ++ l' := by
  rw [List.eraseP_append_right _ fun e hm => by simp [hl e hm], List.eraseP_cons_of_pos he]

def pair (fns : HashFns K) (entry : Entry K V) : Σ _ : fns.Key, Option V :=
  ⟨fns.toKey entry.key,entry.val⟩

variable (cfg) in
structure Represents (h : Hashtbl K V) (m : KeyMap cfg.toHashFns V) : Prop where
  size : 0 < h.tableSize
  wellFormed : WellFormed cfg h.toSlots
  entries : m.entries = h.content.map (pair cfg.toHashFns)

variable {h : Hashtbl K V} {m : KeyMap cfg.toHashFns V} {v : Option V}

theorem Represents.mem_iff (hr : Represents cfg h m) {key : cfg.Key} :
    key ∈ m ↔ ∃ entry ∈ h.content, cfg.toKey entry.key = key := by
  rw [Finmap.mem_def, hr.entries]
  simp [Multiset.keys, pair]

theorem Represents.card (hr : Represents cfg h m) : m.keys.card = h.nentries := by
  have hkeys : m.keys.card = m.entries.card := Multiset.card_map _ _
  rw [hkeys, hr.entries, Multiset.card_map, hr.wellFormed.count]

/-- What finding an entry says about the chain, the whole content and the map. -/
theorem Represents.found (hr : Represents cfg h m)
    (hf : findEntry cfg h.toSlots (cfg.hashFn k) k = some entry) :
    ∃ l l', h.table (slotOf h.tableSize (cfg.hashFn k)) = l ++ entry :: l' ∧
      (∀ e ∈ l, matchesKey cfg (cfg.hashFn k) k e = false) ∧
      matchesKey cfg (cfg.hashFn k) k entry = true ∧
      m.entries = ⟨cfg.toKey k,entry.val⟩ ::ₘ
        (h.toSlots.unlinkEntry (slotOf h.tableSize (cfg.hashFn k)) (l ++ l')).content.map
          (pair cfg.toHashFns) := by
  obtain ⟨hkey,hmatch,l,l',hsplit,hbefore⟩ := findEntry_some hf
  refine ⟨l,l',hsplit,hbefore,hmatch,?_⟩
  rw [hr.entries, ← Slots.content_unlinkEntry (slotOf_lt hr.size _) hsplit, Multiset.map_cons,
    pair, hkey]

theorem Represents.lookup_found (hr : Represents cfg h m)
    (hf : findEntry cfg h.toSlots (cfg.hashFn k) k = some entry) :
    m.lookup (cfg.toKey k) = some entry.val := by
  obtain ⟨l,l',_,_,_,hentries⟩ := hr.found hf
  apply Finmap.mem_lookup_iff.mpr
  rw [hentries]
  exact Multiset.mem_cons_self _ _

theorem Represents.notMem (hr : Represents cfg h m)
    (hf : findEntry cfg h.toSlots (cfg.hashFn k) k = none) : cfg.toKey k ∉ m := by
  intro hmem
  obtain ⟨entry,he,hkey⟩ := hr.mem_iff.mp hmem
  exact findEntry_none hr.wellFormed hf he hkey

theorem Represents.lookup (hr : Represents cfg h m) (k : K) :
    hashtblLookup cfg h k = (m.lookup (cfg.toKey k)).join := by
  unfold hashtblLookup
  cases hf : findEntry cfg h.toSlots (cfg.hashFn k) k with
  | some entry => rw [hr.lookup_found hf]; rfl
  | none => rw [Finmap.lookup_eq_none.mpr (hr.notMem hf)]; rfl

theorem Represents.resize (hr : Represents cfg h m) (requested : ℤ) (tableAlloc : Option ℕ) :
    Represents cfg (hashtblResize cfg h requested tableAlloc).1 m := by
  have hpos := roundedCapacity_pos requested
  by_cases hsmall : roundedCapacity requested ≤ h.tableSize
  · simpa only [hashtblResize, if_pos hsmall] using hr
  · simp only [hashtblResize, if_neg hsmall]
    cases tableAlloc with
    | none => exact ⟨hr.size,hr.wellFormed,hr.entries⟩
    | some block =>
      obtain ⟨hwf,hsize,hcontent⟩ := transfer_spec hr.wellFormed hpos
      have hentries := hr.entries
      rw [← hcontent] at hentries
      exact ⟨hpos.trans_eq hsize.symm,hwf,hentries⟩

theorem Represents.autoResized (hr : Represents cfg h m) (tableAlloc : Option ℕ) :
    Represents cfg (autoResized cfg h tableAlloc) m := by
  unfold HashTable.autoResized
  split
  · exact hr.resize _ tableAlloc
  · exact hr

theorem WellFormed.replace (hs : WellFormed cfg s) (hi : i < s.tableSize)
    (ht : s.table i = l ++ entry :: l') (v : Option V) :
    WellFormed cfg { s with
      table := Function.update s.table i (l ++ { entry with val := v } :: l') } := by
  have hold := Slots.content_unlinkEntry hi ht
  have hnew : Buckets.content s.tableSize
      (Function.update s.table i (l ++ { entry with val := v } :: l'))
        = { entry with val := v } ::ₘ (s.unlinkEntry i (l ++ l')).content :=
    content_insert l l' _ hi
  constructor
  · refine hs.placed.assign fun e he => ?_
    have hplaced := hs.placed i
    rw [ht] at hplaced
    simp only [List.mem_append, List.mem_cons] at he hplaced
    rcases he with he | rfl | he
    · exact hplaced e (Or.inl he)
    · exact hplaced entry (Or.inr (Or.inl rfl))
    · exact hplaced e (Or.inr (Or.inr he))
  · intro e he
    unfold Slots.content at he
    rcases Multiset.mem_cons.mp (hnew ▸ he) with rfl | he
    · exact hs.hashed entry (hold ▸ Multiset.mem_cons_self entry _)
    · exact hs.hashed e (hold ▸ Multiset.mem_cons_of_mem he)
  · have hcount := hs.count
    rw [← hold, Multiset.card_cons] at hcount
    unfold Slots.content
    rw [hnew, Multiset.card_cons]
    exact hcount

theorem Represents.replace (hr : Represents cfg h m)
    (hf : findEntry cfg h.toSlots (cfg.hashFn k) k = some entry) (calls : List (Call K V)) :
    Represents cfg { h with
      table := Function.update h.table (slotOf h.tableSize (cfg.hashFn k))
        (setVal (matchesKey cfg (cfg.hashFn k) k) v (h.table (slotOf h.tableSize (cfg.hashFn k))))
      calls := calls } (m.insert (cfg.toKey k) v) := by
  obtain ⟨l,l',hsplit,hbefore,hmatch,hentries⟩ := hr.found hf
  obtain ⟨hkey,_⟩ := findEntry_some hf
  have hi := slotOf_lt hr.size (cfg.hashFn k)
  rw [hsplit, setVal_append hbefore hmatch]
  refine ⟨hr.size,hr.wellFormed.replace hi hsplit v,?_⟩
  rw [entries_replace hentries]
  unfold Slots.content
  rw [content_insert l l' _ hi, Multiset.map_cons, pair, hkey]
  rfl

theorem Represents.insert (hr : Represents cfg h m) (hk : cfg.toKey k ∉ m) (block : ℕ)
    (calls : List (Call K V)) :
    Represents cfg { h with
      toSlots := h.toSlots.linkEntry ⟨k,v,cfg.hashFn k,block⟩
      calls := calls } (m.insert (cfg.toKey k) v) := by
  refine ⟨hr.size,hr.wellFormed.linkEntry hr.size rfl,?_⟩
  rw [Finmap.entries_insert_of_notMem hk, hr.entries]
  change _ = (h.toSlots.linkEntry _).content.map _
  rw [Slots.content_linkEntry hr.size, Multiset.map_cons, pair]

theorem Represents.remove (hr : Represents cfg h m)
    (hf : findEntry cfg h.toSlots (cfg.hashFn k) k = some entry) (calls : List (Call K V)) :
    Represents cfg { h with
      toSlots := h.toSlots.unlinkEntry (slotOf h.tableSize (cfg.hashFn k))
        ((h.table (slotOf h.tableSize (cfg.hashFn k))).eraseP (matchesKey cfg (cfg.hashFn k) k))
      calls := calls } (m.erase (cfg.toKey k)) := by
  obtain ⟨l,l',hsplit,hbefore,hmatch,hentries⟩ := hr.found hf
  have hi := slotOf_lt hr.size (cfg.hashFn k)
  rw [hsplit, eraseP_append hbefore hmatch]
  exact ⟨hr.size,hr.wellFormed.unlinkEntry hi hsplit,entries_erase hentries⟩

/-- After an attempt to grow the entry is linked, if there is room for one. -/
theorem hashtblInsert_spec (hr : Represents cfg h m) (k : K) (v : Option V)
    (tableAlloc entryAlloc : Option ℕ) :
    ∃ m', Represents cfg (hashtblInsert cfg h k v tableAlloc entryAlloc).1 m' ∧
      mapStep cfg.toHashFns m (.insert k v tableAlloc entryAlloc) =
        some (m',some (.code (hashtblInsert cfg h k v tableAlloc entryAlloc).2)) := by
  cases hf : findEntry cfg h.toSlots (cfg.hashFn k) k with
  | some entry =>
    have hmem := Finmap.mem_of_lookup_eq_some (hr.lookup_found hf)
    refine ⟨m.insert (cfg.toKey k) v,?_,?_⟩
    · simp only [hashtblInsert, hf]
      exact hr.replace hf _
    · simp [mapStep, hmem, hashtblInsert, hf]
  | none =>
    have habsent := hr.notMem hf
    have hgrown := hr.autoResized tableAlloc
    cases entryAlloc with
    | none =>
      refine ⟨m,?_,?_⟩
      · simp only [hashtblInsert, hf]
        exact ⟨hgrown.size,hgrown.wellFormed,hgrown.entries⟩
      · simp [mapStep, habsent, hashtblInsert, hf]
    | some block =>
      refine ⟨m.insert (cfg.toKey k) v,?_,?_⟩
      · simp only [hashtblInsert, hf]
        exact hgrown.insert habsent block _
      · simp [mapStep, hashtblInsert, hf]

theorem hashtblRemove_spec (hr : Represents cfg h m) (k : K) :
    ∃ m', Represents cfg (hashtblRemove cfg h k).1 m' ∧
      mapStep cfg.toHashFns m (.remove k) = some (m',some (.code (hashtblRemove cfg h k).2)) := by
  cases hf : findEntry cfg h.toSlots (cfg.hashFn k) k with
  | some entry =>
    have hmem := Finmap.mem_of_lookup_eq_some (hr.lookup_found hf)
    refine ⟨m.erase (cfg.toKey k),?_,?_⟩
    · simp only [hashtblRemove, removeKey, hf]
      exact hr.remove hf _
    · simp [mapStep, hmem, hashtblRemove, removeKey, hf]
  | none =>
    have habsent := hr.notMem hf
    refine ⟨m,?_,?_⟩
    · simpa only [hashtblRemove, removeKey, hf] using hr
    · simp [mapStep, habsent, hashtblRemove, removeKey, hf]

theorem clearChain_slots (chain : List (Entry K V)) (h : Hashtbl K V) :
    (clearChain cfg chain h).toSlots =
      { h.toSlots with nentries := h.nentries - chain.length } := by
  induction chain generalizing h with
  | nil => rfl
  | cons entry chain ih =>
    rw [clearChain, ih, List.length_cons, Nat.sub_sub, Nat.add_comm 1]

theorem WellFormed.clearSlot (hs : WellFormed cfg h.toSlots) (hi : i < h.tableSize) :
    WellFormed cfg (clearSlot cfg h i).toSlots := by
  have hcontent : Buckets.content h.tableSize (Function.update h.table i []) + h.table i
      = h.content := (content_update hi).trans (add_zero _)
  have hslots : (HashTable.clearSlot cfg h i).toSlots = { h.toSlots with
      table := Function.update h.table i []
      nentries := h.nentries - (h.table i).length } := by
    simp only [HashTable.clearSlot, clearChain_slots]
  rw [hslots]
  constructor
  · exact hs.placed.shrink (List.nil_subset _)
  · intro e he
    refine hs.hashed e ?_
    rw [← hcontent]
    exact Multiset.mem_add.mpr (Or.inl he)
  · have hcount := hs.count
    rw [← hcontent, Multiset.card_add, Multiset.coe_card] at hcount
    exact Nat.sub_eq_of_eq_add hcount

theorem clearSlots_spec (hs : WellFormed cfg h.toSlots) {j : ℕ} (hj : j ≤ h.tableSize) :
    WellFormed cfg ((List.range j).foldl (clearSlot cfg) h).toSlots ∧
      ((List.range j).foldl (clearSlot cfg) h).tableSize = h.tableSize ∧
      ∀ i < j, ((List.range j).foldl (clearSlot cfg) h).table i = [] := by
  induction j with
  | zero => exact ⟨hs,rfl,fun i hi => absurd hi (Nat.not_lt_zero i)⟩
  | succ j ih =>
    obtain ⟨hwf,hsize,hempty⟩ := ih (by omega)
    rw [List.range_succ, List.foldl_append, List.foldl_cons, List.foldl_nil]
    refine ⟨hwf.clearSlot (by omega),?_,fun i hi => ?_⟩
    · simp only [clearSlot, clearChain_slots, hsize]
    · simp only [clearSlot, clearChain_slots]
      rcases eq_or_ne i j with rfl | hij
      · exact Function.update_self ..
      · rw [Function.update_of_ne hij]
        exact hempty i (by omega)

theorem Represents.clear (hr : Represents cfg h m) : Represents cfg (hashtblClear cfg h) ∅ := by
  obtain ⟨hwf,hsize,hempty⟩ := clearSlots_spec hr.wellFormed le_rfl
  have hnone : (hashtblClear cfg h).content = 0 :=
    content_eq_zero fun i hi => hempty i (hsize ▸ hi)
  refine ⟨hr.size.trans_eq hsize.symm,hwf,?_⟩
  rw [hnone]
  rfl

theorem hashtblCreate_ok {capacity : ℤ} {handleAlloc tableAlloc : Option ℕ}
    (hcreate : hashtblCreate cfg capacity handleAlloc tableAlloc = .ok h) :
    ∃ handle block, h =
      { toSlots := (transfer ⟨fun _ => [],0,0⟩ (roundedCapacity capacity)).2
        resizeThreshold := cfg.thresholdOf (roundedCapacity capacity)
        handle := handle
        tableBlock := some block
        calls := [.malloc (some handle), .malloc (some block)] } := by
  have hgrow : ¬ roundedCapacity capacity ≤ 0 := Nat.not_le.mpr (roundedCapacity_pos capacity)
  cases handleAlloc with
  | none => cases hcreate
  | some handle =>
    cases tableAlloc with
    | none => simp [hashtblCreate, hashtblResize, hgrow] at hcreate
    | some block =>
      simp only [hashtblCreate, hashtblResize, if_neg hgrow] at hcreate
      cases hcreate
      exact ⟨handle,block,rfl⟩

theorem hashtblCreate_represents {capacity : ℤ} {handleAlloc tableAlloc : Option ℕ}
    (hcreate : hashtblCreate cfg capacity handleAlloc tableAlloc = .ok h) :
    Represents cfg h ∅ := by
  obtain ⟨handle,block,rfl⟩ := hashtblCreate_ok hcreate
  have hpos := roundedCapacity_pos capacity
  have hstart : WellFormed cfg (⟨fun _ => [],0,0⟩ : Slots K V) := wellFormed_empty 0
  obtain ⟨hwf,hsize,hcontent⟩ := transfer_spec hstart hpos
  refine ⟨hpos.trans_eq hsize.symm,hwf,?_⟩
  rw [hcontent, content_empty]
  rfl

theorem hashtblStep_refines (h : Hashtbl K V) (m : KeyMap cfg.toHashFns V) (op : Op K V)
    (hr : Represents cfg h m) :
    ∃ h' m' answer determined, hashtblStep cfg h op = some (h', answer) ∧
      mapStep cfg.toHashFns m op = some (m', determined) ∧ Agrees answer determined ∧
      Represents cfg h' m' := by
  cases op with
  | insert k v tableAlloc entryAlloc =>
    obtain ⟨m',hr',hm⟩ := hashtblInsert_spec hr k v tableAlloc entryAlloc
    exact ⟨_,m',_,_,rfl,hm,fun a ha => Option.some.inj ha,hr'⟩
  | lookup k =>
    refine ⟨h,m,_,_,rfl,rfl,fun a ha => ?_,hr⟩
    rw [hr.lookup k]
    exact Option.some.inj ha
  | remove k =>
    obtain ⟨m',hr',hm⟩ := hashtblRemove_spec hr k
    exact ⟨_,m',_,_,rfl,hm,fun a ha => Option.some.inj ha,hr'⟩
  | clear => exact ⟨_,∅,_,_,rfl,rfl,fun a ha => Option.some.inj ha,hr.clear⟩
  | resize capacity tableAlloc =>
    exact ⟨_,m,_,_,rfl,rfl,fun a ha => absurd ha (Option.not_mem_none a),
      hr.resize capacity tableAlloc⟩
  | count =>
    refine ⟨h,m,_,_,rfl,rfl,fun a ha => ?_,hr⟩
    rw [hashtblCount, ← hr.card]
    exact Option.some.inj ha

/-- Whatever is allocated and whenever the table grows, every answer is the one of
the finite map, and so is the table at the end of the run. -/
theorem hashtblRun_refines (capacity : ℤ) (handleAlloc tableAlloc : Option ℕ)
    (hcreate : hashtblCreate cfg capacity handleAlloc tableAlloc = .ok h) (ops : List (Op K V)) :
    ∃ h' m answers determined, run (hashtblStep cfg) h ops = some (h', answers) ∧
      run (mapStep cfg.toHashFns) ∅ ops = some (m, determined) ∧
      List.Forall₂ Agrees answers determined ∧
      (∀ k, hashtblLookup cfg h' k = (m.lookup (cfg.toKey k)).join) ∧
      hashtblCount h' = m.keys.card := by
  obtain ⟨h',m,answers,determined,hrun,hmap,hagree,hr⟩ := run_refines
    (fun h m op hr (_ : True) => hashtblStep_refines h m op hr)
    (hashtblCreate_represents hcreate) (admits_of_forall (fun _ _ => trivial) h ops)
  exact ⟨h',m,answers,determined,hrun,hmap,hagree,hr.lookup,hr.card.symm⟩

/-- Every insertion tries to grow the table. -/
def collidingKeys : Config ℕ where
  toHashFns := collidingFns
  thresholdOf _ := 0
  autoResize := true
  keyFreeFn := true
  valFreeFn := true

/-- The second insertion grows the table and then finds no room for the entry. -/
def collidingOps : List (Op ℕ ℕ) :=
  [.insert 1 (some 10) none (some 3), .insert 2 (some 20) (some 4) none, .lookup 1, .remove 2]

def collidingTable : Hashtbl ℕ ℕ :=
  ⟨⟨fun _ => [],1,0⟩,0,1,some 2,[.malloc (some 1), .malloc (some 2)]⟩

theorem hashtblRun_refines_sample :
    ∃ h' m answers determined,
      run (hashtblStep collidingKeys) collidingTable collidingOps = some (h', answers) ∧
      run (mapStep collidingKeys.toHashFns) ∅ collidingOps = some (m, determined) ∧
      List.Forall₂ Agrees answers determined ∧
      (∀ k, hashtblLookup collidingKeys h' k = (m.lookup (collidingKeys.toKey k)).join) ∧
      hashtblCount h' = m.keys.card :=
  hashtblRun_refines 1 (some 1) (some 2) rfl collidingOps

end CppExamples.HashTable
