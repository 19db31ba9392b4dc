import CppExamples.CHacks.HashtblGrowth

/-! # The pointers of the linked table

An entry is threaded through the ring of all entries and the chain of its slot.  What
holds of the links `next`, `prev` and `chain` is said here by following them, and is
restored by each of the functions that assign them.
-/
namespace CppExamples.LinkedTable
open HashTable Buckets Linked Machine

variable {K V : Type*}

/-- The entry is met behind `all_entries` within the counted number of steps. -/
def OnRing (h : LHashtbl K V) (entry : ℕ) : Prop :=
  ∃ i, 0 < i ∧ i ≤ h.nentries ∧ h.next^[i] 0 = entry

/-- The entry is met on the chain of slot `i` in front of NULL. -/
def OnChain (h : LHashtbl K V) (i entry : ℕ) : Prop :=
  ∃ n, h.chain^[n] (h.table i) = entry ∧ ∀ m ≤ n, h.chain^[m] (h.table i) ≠ 0

structure PointerInvariant (h : LHashtbl K V) : Prop where
  returns : h.next^[h.nentries + 1] 0 = 0
  apart : ∀ i j, i ≤ h.nentries → j ≤ h.nentries → h.next^[i] 0 = h.next^[j] 0 → i = j
  prev_next : ∀ entry, entry = 0 ∨ OnRing h entry → h.prev (h.next entry) = entry
  next_prev : ∀ entry, entry = 0 ∨ OnRing h entry → h.next (h.prev entry) = entry
  finite : ∀ i < h.tableSize, ∃ n, h.chain^[n] (h.table i) = 0
  disjoint : ∀ i j entry, i < h.tableSize → j < h.tableSize → OnChain h i entry →
    OnChain h j entry → i = j
  slot : ∀ i entry, i < h.tableSize → OnChain h i entry →
    ∃ e, h.data entry = some e ∧ (i : ℤ) = Int.land e.hash.toInt (h.tableSize - 1)
  same : ∀ entry, OnRing h entry ↔ ∃ i < h.tableSize, OnChain h i entry

variable {cfg : LConfig K} {h h' : LHashtbl K V} {L : List ℕ} {pairs : List (K × Option V)}
variable {k : K} {entry : ℕ}

theorem Represents.onRing_iff (hr : Represents cfg h L pairs) : OnRing h entry ↔ entry ∈ L := by
  rw [hr.ring.forward.2.mem_iff, OnRing, hr.count]
  constructor
  · rintro ⟨i,hpos,hle,he⟩
    obtain ⟨j,rfl⟩ := Nat.exists_eq_add_of_le' hpos
    exact ⟨j,hle,he⟩
  · rintro ⟨i,hi,he⟩
    exact ⟨i + 1,i.succ_pos,hi,he⟩

theorem Represents.mem_ring_iff (hr : Represents cfg h L pairs) :
    entry = 0 ∨ OnRing h entry ↔ entry ∈ 0 :: L := by
  rw [hr.onRing_iff, List.mem_cons]

/-- What the lists of nodes say about the links between them. -/
theorem Represents.pointers (hr : Represents cfg h L pairs) (hsize : h.tableSize ≤ maxTableSize) :
    PointerInvariant h := by
  obtain ⟨C,hC,hcontent⟩ := hr.chained
  have honChain : ∀ i entry, i < h.tableSize → (OnChain h i entry ↔ entry ∈ C i) :=
    fun i entry hi => ((hC.path i hi).mem_iff_before (hC.null_notMem i)).symm
  have hmem : ∀ entry, entry ∈ L ↔ ∃ i < h.tableSize, entry ∈ C i := by
    intro entry
    rw [← Multiset.mem_coe, ← hcontent, mem_content]
  have hlen : (0 :: L).length = h.nentries + 1 := by rw [List.length_cons, hr.count]
  constructor
  · rw [← hlen]
    exact hr.ring.forward.iterate_length
  · intro i j hi hj he
    have hi' : i < (0 :: L).length := by omega
    have hj' : j < (0 :: L).length := by omega
    rw [hr.ring.forward.iterate hi', hr.ring.forward.iterate hj'] at he
    exact (hr.ring.nodup.getElem_inj_iff).mp he
  · exact fun entry hon => hr.ring.prev_next (hr.mem_ring_iff.mp hon)
  · exact fun entry hon => hr.ring.next_prev (hr.mem_ring_iff.mp hon)
  · exact fun i hi => ⟨(C i).length,(hC.path i hi).iterate_length⟩
  · intro i j entry hi hj hin hjn
    rw [honChain i entry hi] at hin
    rw [honChain j entry hj] at hjn
    exact (hC.placed i entry hin).symm.trans (hC.placed j entry hjn)
  · intro i entry hi hin
    rw [honChain i entry hi] at hin
    obtain ⟨e,he⟩ := exists_data hr.data entry ((hmem entry).mpr ⟨i,hi,hin⟩)
    have hslot := hC.placed i entry hin
    rw [slotAt, he, Option.elim_some] at hslot
    exact ⟨e,he,by rw [← slotOf_signed hr.size hsize, hslot]⟩
  · intro entry
    rw [hr.onRing_iff, hmem]
    exact exists_congr fun i => and_congr_right fun hi => (honChain i entry hi).symm

/-- The nodes are those of lists, and the size is one that a table can have. -/
structure Threaded (cfg : LConfig K) (h : LHashtbl K V) : Prop where
  represents : ∃ L pairs, Represents cfg h L pairs
  power : ∃ j ≤ 30, h.tableSize = 2 ^ j

theorem Threaded.pointers (ht : Threaded cfg h) : PointerInvariant h := by
  obtain ⟨⟨L,pairs,hr⟩,j,hj,hsize⟩ := ht
  exact hr.pointers (hsize ▸ Nat.pow_le_pow_right Nat.two_pos hj)

theorem Threaded.of_sameSize (ht : Threaded cfg h) (hsame : SameSize h h')
    (hr : Represents cfg h' L pairs) : Threaded cfg h' :=
  ⟨⟨L,pairs,hr⟩,hsame.1.symm ▸ ht.power⟩

theorem Threaded.of_resizes {cause : ℤ → Prop} (ht : Threaded cfg h)
    (hresizes : TableResizes cfg cause h h') (hr : Represents cfg h' L pairs) : Threaded cfg h' :=
  ⟨⟨L,pairs,hr⟩,hresizes.power ht.power⟩

theorem Threaded.recordAccess (ht : Threaded cfg h) (hon : OnRing h entry) :
    Threaded cfg (recordAccess cfg h entry) := by
  obtain ⟨L,pairs,hr⟩ := ht.represents
  have hsame : SameSize h (LinkedTable.recordAccess cfg h entry) := recordAccess_sameSize h entry
  obtain ⟨l,m,rfl⟩ := List.append_of_mem (hr.onRing_iff.mp hon)
  obtain ⟨p,kv,q,rfl,hbefore,hentry,hafter⟩ := exists_pairs hr.data
  cases haccess : cfg.accessOrder with
  | true =>
    have hmoved : Represents cfg (LinkedTable.recordAccess cfg h entry) (entry :: (l ++ m))
        (kv :: (p ++ q)) := by
      rw [LinkedTable.recordAccess, if_pos haccess]
      exact hr.moveToFront hbefore hentry hafter
    exact ht.of_sameSize hsame hmoved
  | false =>
    rw [LinkedTable.recordAccess, haccess]
    exact ht

theorem Threaded.removeKey (ht : Threaded cfg h) (k : K) :
    ∃ r, removeKey cfg h k = some r ∧ Threaded cfg r.1 := by
  obtain ⟨L,pairs,hr⟩ := ht.represents
  rcases hr.find_cases k with ⟨ref,hfind,-⟩ | ⟨ref,a,l,m,p,q,kv,rfl,rfl,hf⟩
  · refine ⟨(h, 0),?_,ht⟩
    rw [LinkedTable.removeKey, hfind]
    rfl
  · obtain ⟨h',hremove,hr',-⟩ := removeKey_found hr hf
    exact ⟨(h', a),hremove,ht.of_sameSize (removeKey_sameSize hremove) hr'⟩

theorem Threaded.linkNew (ht : Threaded cfg h) (hmiss : findEntry cfg h k = some 0) (h0 : entry ≠ 0)
    (hfree : h.data entry = none) (v : Option V) : Threaded cfg (linkNew cfg h k v entry) := by
  obtain ⟨L,pairs,hr⟩ := ht.represents
  rcases hr.find_cases k with ⟨ref,-,habsent⟩ | ⟨ref,a,l,m,p,q,kv,-,-,hf⟩
  · exact ⟨⟨_,_,hr.linkNew habsent h0 hfree v⟩,ht.power⟩
  · rw [findEntry, hf.find] at hmiss
    exact absurd (Option.some.inj hmiss) hf.nonnull

theorem Threaded.evict (ht : Threaded cfg h) (hne : 0 < h.nentries) :
    ∃ h', evict cfg h = some h' ∧ Threaded cfg h' := by
  obtain ⟨L,pairs,hr⟩ := ht.represents
  have hpairs : pairs ≠ [] := by
    rintro rfl
    rw [hr.count, hr.length] at hne
    exact lt_irrefl 0 hne
  obtain ⟨h',L',hevict,hr'⟩ := evict_spec hr hpairs
  exact ⟨h',hevict,ht.of_sameSize (evict_sameSize hevict) hr'⟩

theorem Threaded.insert (ht : Threaded cfg h) {v : Option V} {tableAlloc entryAlloc : Option ℕ}
    (hfresh : FreshBlock h (.insert k v tableAlloc entryAlloc)) :
    ∃ r, lHashtblInsert cfg h k v tableAlloc entryAlloc = some r ∧ Threaded cfg r.1 := by
  obtain ⟨L,pairs,hr⟩ := ht.represents
  obtain ⟨h',L',pairs',code,hr',hrun,-⟩ := lHashtblInsert_spec hr hfresh
  exact ⟨(h', code),hrun,ht.of_resizes (lHashtblInsert_resizes hrun) hr'⟩

theorem Threaded.clear (ht : Threaded cfg h) :
    ∃ h', lHashtblClear cfg h = some h' ∧ Threaded cfg h' := by
  obtain ⟨L,pairs,hr⟩ := ht.represents
  obtain ⟨h',hrun,hr'⟩ := lHashtblClear_spec hr
  exact ⟨h',hrun,ht.of_sameSize (lHashtblClear_sameSize hrun) hr'⟩

theorem Threaded.resize (ht : Threaded cfg h) (requested : ℤ) (tableAlloc : Option ℕ) :
    ∃ r, lHashtblResize cfg h requested tableAlloc = some r ∧ Threaded cfg r.1 := by
  obtain ⟨L,pairs,hr⟩ := ht.represents
  obtain ⟨h',code,hrun,hr'⟩ := lHashtblResize_spec hr requested tableAlloc
  exact ⟨(h', code),hrun,ht.of_resizes (lHashtblResize_resizes hrun).1 hr'⟩

theorem Threaded.step {op : Op K V} (ht : Threaded cfg h) (hfresh : FreshBlock h op) :
    ∃ h' answer, lHashtblStep cfg h op = some (h', answer) ∧ Threaded cfg h' := by
  obtain ⟨L,pairs,hr⟩ := ht.represents
  obtain ⟨h',pairs',answer,-,hrun,-,-,L',hr'⟩ := lHashtblStep_refines h pairs op ⟨L,hr⟩ hfresh
  exact ⟨h',answer,hrun,ht.of_resizes (lHashtblStep_resizes hrun) hr'⟩

theorem lHashtblCreate_threaded {capacity : ℤ} {handleAlloc tableAlloc : Option ℕ}
    (hcreate : lHashtblCreate cfg capacity handleAlloc tableAlloc = some (.ok h)) : Threaded cfg h :=
  ⟨⟨[],[],lHashtblCreate_represents hcreate⟩,(lHashtblCreate_sized hcreate).power⟩

/-- Each function that assigns links restores the invariant; the eviction is the one that
follows the link of a new entry. -/
structure Restores (cfg : LConfig K) (h : LHashtbl K V) : Prop where
  recordAccess : ∀ entry, OnRing h entry → PointerInvariant (recordAccess cfg h entry)
  removeKey : ∀ k, ∃ r, removeKey cfg h k = some r ∧ PointerInvariant r.1
  evict : ∀ k v entry, findEntry cfg h k = some 0 → entry ≠ 0 → h.data entry = none →
    PointerInvariant (linkNew cfg h k v entry) ∧
      ∃ h', evict cfg (linkNew cfg h k v entry) = some h' ∧ PointerInvariant h'
  insert : ∀ k v tableAlloc entryAlloc, FreshBlock h (.insert k v tableAlloc entryAlloc) →
    ∃ r, lHashtblInsert cfg h k v tableAlloc entryAlloc = some r ∧ PointerInvariant r.1
  clear : ∃ h', lHashtblClear cfg h = some h' ∧ PointerInvariant h'
  resize : ∀ requested tableAlloc, ∃ r, lHashtblResize cfg h requested tableAlloc = some r ∧
    PointerInvariant r.1

theorem Threaded.restores (ht : Threaded cfg h) : Restores cfg h := by
  constructor
  · exact fun entry hon => (ht.recordAccess hon).pointers
  · intro k
    obtain ⟨r,hrun,hr⟩ := ht.removeKey k
    exact ⟨r,hrun,hr.pointers⟩
  · intro k v entry hmiss h0 hfree
    have hlinked := ht.linkNew hmiss h0 hfree v
    obtain ⟨h',hrun,hevicted⟩ := hlinked.evict (Nat.succ_pos _)
    exact ⟨hlinked.pointers,h',hrun,hevicted.pointers⟩
  · intro k v tableAlloc entryAlloc hfresh
    obtain ⟨r,hrun,hr⟩ := ht.insert hfresh
    exact ⟨r,hrun,hr.pointers⟩
  · obtain ⟨h',hrun,hcleared⟩ := ht.clear
    exact ⟨h',hrun,hcleared.pointers⟩
  · intro requested tableAlloc
    obtain ⟨r,hrun,hr⟩ := ht.resize requested tableAlloc
    exact ⟨r,hrun,hr.pointers⟩

/-- As long as `malloc_fn` returns blocks that are not in use, every table that a run
reaches has the invariant, and so has what each function makes of that table. -/
theorem lHashtblRun_pointers (capacity : ℤ) (handleAlloc tableAlloc : Option ℕ)
    (hcreate : lHashtblCreate cfg capacity handleAlloc tableAlloc = some (.ok h))
    (ops : List (Op K V)) (hfresh : Admits (lHashtblStep cfg) FreshBlock h ops) :
    ∃ h' answers, run (lHashtblStep cfg) h ops = some (h', answers) ∧ PointerInvariant h' ∧
      Restores cfg h' := by
  have hstep : ∀ (h : LHashtbl K V) (op : Op K V), Threaded cfg h → FreshBlock h op →
      ∃ h' answer, lHashtblStep cfg h op = some (h', answer) ∧ Threaded cfg h' ∧ True := by
    intro h op ht hfresh
    obtain ⟨h',answer,hrun,ht'⟩ := ht.step hfresh
    exact ⟨h',answer,hrun,ht',trivial⟩
  obtain ⟨h',answers,hrun,ht,-⟩ := run_total hstep (lHashtblCreate_threaded hcreate) hfresh
  exact ⟨h',answers,hrun,ht.pointers,ht.restores⟩

theorem lHashtblRun_pointers_sample :
    ∃ h' answers, run (lHashtblStep lruConfig) lruTable lruOps = some (h', answers) ∧
      PointerInvariant h' ∧ Restores lruConfig h' := by
  refine lHashtblRun_pointers 1 (some 1) (some 2) rfl lruOps ?_
  refine ⟨⟨by decide,rfl⟩,fun r hr => ?_⟩
  cases hr
  exact ⟨⟨by decide,rfl⟩,fun _ _ => ⟨trivial,fun _ _ => ⟨trivial,fun _ _ => trivial⟩⟩⟩

end CppExamples.LinkedTable
