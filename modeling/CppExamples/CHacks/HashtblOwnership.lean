import Mathlib
import CppExamples.CHacks.Ownership
import CppExamples.CHacks.HashtblMap

/-! # What the chained hash table owns

Each function of the table is a sequence of transactions on its books, whether or
not the allocations that it asks for succeed.
-/
namespace CppExamples.HashTable
open Buckets Machine

variable {K V : Type*}

def holding (entry : Entry K V) : Holding K V := ⟨entry.key,entry.val,entry.block⟩

def Hashtbl.books (h : Hashtbl K V) : Books K V :=
  ⟨h.content.map holding,h.handle ::ₘ ↑h.tableBlock.toList,h.calls⟩

def hashtblHolds (cfg : Config K) (h : Hashtbl K V) (k : K) : Bool :=
  (findEntry cfg h.toSlots (cfg.hashFn k) k).isSome

def observedHashtbl (cfg : Config K) (V : Type*) : Observed (Hashtbl K V) K V where
  step := hashtblStep cfg
  holds := hashtblHolds cfg
  books := Hashtbl.books
  delete := hashtblDelete cfg

variable {cfg : Config K} {h : Hashtbl K V} {m : KeyMap cfg.toHashFns V} {k : K} {v : Option V}

theorem hashtblResize_ledger (hs : WellFormed cfg h.toSlots) (requested : ℤ)
    (tableAlloc : Option ℕ) :
    Ledger cfg h.books 0 (hashtblResize cfg h requested tableAlloc).1.books := by
  have hpos := roundedCapacity_pos requested
  by_cases hsmall : roundedCapacity requested ≤ h.tableSize
  · simp only [hashtblResize, if_pos hsmall]
    exact .nothing _
  · simp only [hashtblResize, if_neg hsmall]
    cases tableAlloc with
    | none => exact .refused ..
    | some block =>
      obtain ⟨_,_,hcontent⟩ := transfer_spec hs hpos
      have hledger : Ledger cfg h.books 0 _ := .newTable _ _ h.tableBlock block _
      rw [← hcontent] at hledger
      exact hledger

theorem autoResized_ledger (hs : WellFormed cfg h.toSlots) (tableAlloc : Option ℕ) :
    Ledger cfg h.books 0 (autoResized cfg h tableAlloc).books := by
  unfold autoResized
  split
  · exact hashtblResize_ledger hs _ tableAlloc
  · exact .nothing _

theorem Represents.books_found (hr : Represents cfg h m) {entry : Entry K V}
    (hf : findEntry cfg h.toSlots (cfg.hashFn k) k = some entry) :
    ∃ l l', h.table (slotOf h.tableSize (cfg.hashFn k)) = l ++ entry :: l' ∧
      (∀ e ∈ l, matchesKey cfg (cfg.hashFn k) k e = false) ∧
      matchesKey cfg (cfg.hashFn k) k entry = true ∧
      h.content = entry ::ₘ
        (h.toSlots.unlinkEntry (slotOf h.tableSize (cfg.hashFn k)) (l ++ l')).content := by
  obtain ⟨_,hmatch,l,l',hsplit,hbefore⟩ := findEntry_some hf
  exact ⟨l,l',hsplit,hbefore,hmatch,
    (Slots.content_unlinkEntry (slotOf_lt hr.size _) hsplit).symm⟩

theorem hashtblInsert_replaces (hr : Represents cfg h m) (v : Option V)
    (tableAlloc entryAlloc : Option ℕ) {entry : Entry K V}
    (hf : findEntry cfg h.toSlots (cfg.hashFn k) k = some entry) :
    (hashtblInsert cfg h k v tableAlloc entryAlloc).2 = 0 ∧
      Replaces cfg v h.books (hashtblInsert cfg h k v tableAlloc entryAlloc).1.books := by
  obtain ⟨l,l',hsplit,hbefore,hmatch,hcontent⟩ := hr.books_found hf
  have hi := slotOf_lt hr.size (cfg.hashFn k)
  have hnew := Slots.content_relink l l' { entry with val := v } hi
  simp only [hashtblInsert, hf, hsplit, setVal_append hbefore hmatch, Hashtbl.books, hcontent, hnew,
    Multiset.map_cons]
  exact ⟨trivial,holding entry,_,_,_,rfl,rfl⟩

theorem hashtblInsert_ledger (hr : Represents cfg h m) (k : K) (v : Option V)
    (tableAlloc entryAlloc : Option ℕ) :
    Ledger cfg h.books
      ((observedHashtbl cfg V).gain h (.insert k v tableAlloc entryAlloc)
        (.code (hashtblInsert cfg h k v tableAlloc entryAlloc).2))
      (hashtblInsert cfg h k v tableAlloc entryAlloc).1.books := by
  cases hf : findEntry cfg h.toSlots (cfg.hashFn k) k with
  | some entry =>
    obtain ⟨hcode,hreplaces⟩ := hashtblInsert_replaces hr v tableAlloc entryAlloc hf
    have hholds : hashtblHolds cfg h k = true := by rw [hashtblHolds, hf]; rfl
    simp only [hcode, Observed.gain, observedHashtbl, hholds, if_true]
    exact hreplaces.ledger
  | none =>
    have hgrown := autoResized_ledger hr.wellFormed tableAlloc
    have hholds : hashtblHolds cfg h k = false := by rw [hashtblHolds, hf]; rfl
    cases entryAlloc with
    | none =>
      simp only [hashtblInsert, hf, Observed.gain]
      exact hgrown.andThen (.refused ..)
    | some block =>
      simp only [hashtblInsert, hf, Observed.gain, observedHashtbl, hholds]
      have hlinked := hgrown.trans (.linked _ _ _ ⟨k,v,block⟩)
      rw [zero_add] at hlinked
      unfold Hashtbl.books at hlinked ⊢
      rw [Slots.content_linkEntry (hr.autoResized tableAlloc).size, Multiset.map_cons]
      exact hlinked

theorem autoResized_keysKept (hs : WellFormed cfg h.toSlots) (tableAlloc : Option ℕ) :
    KeysKept h.books (autoResized cfg h tableAlloc).books := by
  unfold autoResized
  split
  · have hpos := roundedCapacity_pos (doubled h.tableSize)
    by_cases hsmall : roundedCapacity (doubled h.tableSize) ≤ h.tableSize
    · simp only [hashtblResize, if_pos hsmall]
      exact .refl _
    · simp only [hashtblResize, if_neg hsmall]
      cases tableAlloc with
      | none => exact keysKept_malloc _ _ _ _ none []
      | some block =>
        obtain ⟨_,_,hcontent⟩ := transfer_spec hs hpos
        unfold Hashtbl.books
        rw [hcontent]
        exact keysKept_malloc ..
  · exact .refl _

theorem hashtblInsert_keysKept (hr : Represents cfg h m) {tableAlloc entryAlloc : Option ℕ}
    (hkept : hashtblHolds cfg h k = true ∨ (hashtblInsert cfg h k v tableAlloc entryAlloc).2 = 1) :
    KeysKept h.books (hashtblInsert cfg h k v tableAlloc entryAlloc).1.books := by
  cases hf : findEntry cfg h.toSlots (cfg.hashFn k) k with
  | some entry => exact (hashtblInsert_replaces hr v tableAlloc entryAlloc hf).2.keysKept
  | none =>
    cases entryAlloc with
    | none =>
      simp only [hashtblInsert, hf]
      exact (autoResized_keysKept hr.wellFormed tableAlloc).trans
        (keysKept_malloc _ _ _ _ none [])
    | some block => simp [hashtblHolds, hashtblInsert, hf] at hkept

theorem hashtblRemove_ledger (hr : Represents cfg h m) (k : K) :
    Ledger cfg h.books 0 (hashtblRemove cfg h k).1.books := by
  cases hf : findEntry cfg h.toSlots (cfg.hashFn k) k with
  | some entry =>
    obtain ⟨l,l',hsplit,hbefore,hmatch,hcontent⟩ := hr.books_found hf
    simp only [hashtblRemove, removeKey, hf, hsplit, eraseP_append hbefore hmatch, Hashtbl.books,
      hcontent, Multiset.map_cons, List.append_assoc]
    have hledger : Ledger cfg _ 0 _ := .removed
      ((h.toSlots.unlinkEntry (slotOf h.tableSize (cfg.hashFn k)) (l ++ l')).content.map holding)
      (h.handle ::ₘ ↑h.tableBlock.toList) h.calls (holding entry)
    rw [removeCalls, List.append_assoc] at hledger
    exact hledger
  | none =>
    simp only [hashtblRemove, removeKey, hf]
    exact .nothing _

theorem clearChain_eq (chain : List (Entry K V)) (h : Hashtbl K V) :
    clearChain cfg chain h = { h with
      nentries := h.nentries - chain.length
      calls := h.calls ++ (chain.map holding).flatMap (clearCalls cfg) } := by
  induction chain generalizing h with
  | nil => simp [clearChain]
  | cons entry chain ih =>
    rw [clearChain, ih, List.length_cons, Nat.sub_sub, Nat.add_comm 1]
    simp [clearCalls, holding]

theorem clearSlot_ledger {i : ℕ} (hi : i < h.tableSize) :
    Ledger cfg h.books 0 (clearSlot cfg h i).books := by
  have hcontent : (clearSlot cfg h i).content + h.table i = h.content := by
    simp only [clearSlot, clearChain_eq]
    exact (content_update hi).trans (add_zero _)
  have hbooks : h.books = ⟨↑((h.table i).map holding) + (clearSlot cfg h i).content.map holding,
      h.handle ::ₘ ↑h.tableBlock.toList,h.calls⟩ := by
    rw [Hashtbl.books, ← hcontent, Multiset.map_add, add_comm, Multiset.map_coe]
  have hledger : Ledger cfg _ 0 _ := .clearAll ((h.table i).map holding)
    ((clearSlot cfg h i).content.map holding) (h.handle ::ₘ ↑h.tableBlock.toList) h.calls
  rw [← hbooks] at hledger
  simpa only [Hashtbl.books, clearSlot, clearChain_eq] using hledger

theorem hashtblClear_ledger (hr : Represents cfg h m) :
    Ledger cfg h.books 0 (hashtblClear cfg h).books := by
  have hslots : ∀ j ≤ h.tableSize,
      Ledger cfg h.books 0 ((List.range j).foldl (clearSlot cfg) h).books := by
    intro j hj
    induction j with
    | zero => exact .nothing _
    | succ j ih =>
      obtain ⟨_,hsize,_⟩ := clearSlots_spec (j := j) hr.wellFormed (by omega)
      rw [List.range_succ, List.foldl_append, List.foldl_cons, List.foldl_nil]
      exact (ih (by omega)).andThen (clearSlot_ledger (by omega))
  exact hslots _ le_rfl

theorem hashtblClear_tableBlock (cfg : Config K) (h : Hashtbl K V) :
    (hashtblClear cfg h).tableBlock = h.tableBlock := by
  unfold hashtblClear
  generalize List.range h.tableSize = slots
  induction slots generalizing h with
  | nil => rfl
  | cons i slots ih =>
    rw [List.foldl_cons, ih]
    simp only [clearSlot, clearChain_eq]

theorem hashtblDelete_ledger (hr : Represents cfg h m) (htable : h.tableBlock.isSome = true) :
    ∃ calls, hashtblDelete cfg h = some calls ∧ Ledger cfg h.books 0 ⟨0,0,calls⟩ := by
  obtain ⟨block,hblock⟩ := Option.isSome_iff_exists.mp htable
  rw [← hashtblClear_tableBlock cfg h] at hblock
  refine ⟨_,by rw [hashtblDelete, hblock]; rfl,?_⟩
  have hcleared := hashtblClear_ledger hr
  have hnone : (hashtblClear cfg h).content = 0 := by
    have hentries := hr.clear.entries
    exact Multiset.map_eq_zero.mp hentries.symm
  rw [Hashtbl.books, Hashtbl.books, hnone, Multiset.map_zero, hblock] at hcleared
  exact hcleared.andThen (.deleteAll ..)

theorem hashtblResize_tableBlock (htable : h.tableBlock.isSome = true) (requested : ℤ)
    (tableAlloc : Option ℕ) :
    (hashtblResize cfg h requested tableAlloc).1.tableBlock.isSome = true := by
  unfold hashtblResize
  by_cases hsmall : roundedCapacity requested ≤ h.tableSize
  · simpa only [if_pos hsmall] using htable
  · simp only [if_neg hsmall]
    cases tableAlloc with
    | none => exact htable
    | some block => rfl

theorem hashtblInsert_tableBlock (htable : h.tableBlock.isSome = true) (k : K) (v : Option V)
    (tableAlloc entryAlloc : Option ℕ) :
    (hashtblInsert cfg h k v tableAlloc entryAlloc).1.tableBlock.isSome = true := by
  have hgrown : (autoResized cfg h tableAlloc).tableBlock.isSome = true := by
    unfold autoResized
    split
    · exact hashtblResize_tableBlock htable _ tableAlloc
    · exact htable
  cases hf : findEntry cfg h.toSlots (cfg.hashFn k) k with
  | some entry => simpa only [hashtblInsert, hf] using htable
  | none => cases entryAlloc <;> simpa only [hashtblInsert, hf] using hgrown

theorem hashtblRemove_tableBlock (h : Hashtbl K V) (k : K) :
    (hashtblRemove cfg h k).1.tableBlock = h.tableBlock := by
  cases hf : findEntry cfg h.toSlots (cfg.hashFn k) k <;> simp only [hashtblRemove, removeKey, hf]

theorem hashtblStep_ledger (h : Hashtbl K V) (op : Op K V)
    (hinv : (∃ m, Represents cfg h m) ∧ h.tableBlock.isSome = true) :
    ∃ h' answer, hashtblStep cfg h op = some (h', answer) ∧
      ((∃ m, Represents cfg h' m) ∧ h'.tableBlock.isSome = true) ∧
      Ledger cfg h.books ((observedHashtbl cfg V).gain h op answer) h'.books := by
  obtain ⟨⟨m,hr⟩,htable⟩ := hinv
  obtain ⟨h',m',answer,_,hstep,_,_,hr'⟩ := hashtblStep_refines h m op hr
  refine ⟨h',answer,hstep,?_⟩
  cases op with
  | insert k v tableAlloc entryAlloc =>
    cases hstep
    exact ⟨⟨⟨m',hr'⟩,hashtblInsert_tableBlock htable ..⟩,hashtblInsert_ledger hr ..⟩
  | lookup k =>
    cases hstep
    exact ⟨⟨⟨m',hr'⟩,htable⟩,.nothing _⟩
  | remove k =>
    cases hstep
    exact ⟨⟨⟨m',hr'⟩,by rwa [hashtblRemove_tableBlock]⟩,hashtblRemove_ledger hr k⟩
  | clear =>
    cases hstep
    exact ⟨⟨⟨m',hr'⟩,by rwa [hashtblClear_tableBlock]⟩,hashtblClear_ledger hr⟩
  | resize capacity tableAlloc =>
    cases hstep
    exact ⟨⟨⟨m',hr'⟩,hashtblResize_tableBlock htable ..⟩,hashtblResize_ledger hr.wellFormed ..⟩
  | count =>
    cases hstep
    exact ⟨⟨⟨m',hr'⟩,htable⟩,.nothing _⟩

theorem hashtblCreate_null {capacity : ℤ} {handleAlloc tableAlloc : Option ℕ}
    {calls : List (Call K V)}
    (hcreate : hashtblCreate cfg capacity handleAlloc tableAlloc = .error calls) :
    Accounted cfg 0 ⟨0,0,calls⟩ := by
  have hgrow : ¬ roundedCapacity capacity ≤ 0 := Nat.not_le.mpr (roundedCapacity_pos capacity)
  cases handleAlloc with
  | none =>
    cases hcreate
    exact accounted_refused
  | some handle =>
    cases tableAlloc with
    | none =>
      simp only [hashtblCreate, hashtblResize, if_neg hgrow] at hcreate
      cases hcreate
      exact accounted_noTable handle
    | some block => simp [hashtblCreate, hashtblResize, hgrow] at hcreate

theorem hashtblCreate_accounted {capacity : ℤ} {handleAlloc tableAlloc : Option ℕ}
    (hcreate : hashtblCreate cfg capacity handleAlloc tableAlloc = .ok h) :
    Accounted cfg 0 h.books ∧ h.tableBlock.isSome = true := by
  obtain ⟨handle,block,rfl⟩ := hashtblCreate_ok hcreate
  have hstart : WellFormed cfg (⟨fun _ => [],0,0⟩ : Slots K V) := wellFormed_empty 0
  obtain ⟨-,-,hcontent⟩ := transfer_spec hstart (roundedCapacity_pos capacity)
  rw [Hashtbl.books, hcontent, content_empty]
  exact ⟨(accounted_handle handle).ledger (.newTable 0 handle none block _),rfl⟩

/-- Whatever is allocated, every run from a table that was created balances. -/
theorem hashtbl_balances {capacity : ℤ} {handleAlloc tableAlloc : Option ℕ}
    (hcreate : hashtblCreate cfg capacity handleAlloc tableAlloc = .ok h) (ops : List (Op K V)) :
    (observedHashtbl cfg V).Balances cfg h ops := by
  obtain ⟨hstart,htable⟩ := hashtblCreate_accounted hcreate
  refine (observedHashtbl cfg V).balances (fun s op hs (_ : True) => hashtblStep_ledger s op hs)
    ?_ (fun t ht => ?_) ⟨⟨∅,hashtblCreate_represents hcreate⟩,htable⟩ hstart
    (admits_of_forall (fun _ _ => trivial) h ops)
  · intro t k v tableAlloc entryAlloc u code ht hstep hkept
    obtain ⟨⟨m,hr⟩,_⟩ := ht
    cases hstep
    exact hashtblInsert_keysKept hr hkept
  · obtain ⟨⟨m,hr⟩,htable⟩ := ht
    exact hashtblDelete_ledger hr htable

end CppExamples.HashTable
