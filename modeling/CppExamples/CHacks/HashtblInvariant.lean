import CppExamples.CHacks.HashtblGrowth

/-! # The representation invariant of the chained table

What the functions of the table rely on and keep, in the terms of the array of chains:
its size, where an entry hangs and with which hash, and the count.  The loops of the
transfer end, and move every entry once.
-/
namespace CppExamples.HashTable
open Buckets Machine

variable {K V : Type*}

def Slots.chained (s : Slots K V) : List (Entry K V) := (List.range s.tableSize).flatMap s.table

structure TableInvariant (cfg : Config K) (h : Hashtbl K V) : Prop where
  power : ∃ j ≤ 30, h.tableSize = 2 ^ j
  hashed : ∀ i, ∀ entry ∈ h.table i, entry.hash = cfg.hashFn entry.key
  inside : ∀ i, ∀ entry ∈ h.table i, i < h.tableSize
  slot : ∀ i, ∀ entry ∈ h.table i, (i : ℤ) = Int.land entry.hash.toInt (h.tableSize - 1)
  distinct : h.chained.Pairwise fun e f => cfg.equalsFn e.key f.key = false
  count : h.nentries = ((List.range h.tableSize).map fun i => (h.table i).length).sum

variable {cfg : Config K} {h : Hashtbl K V} {i : ℕ} {chain : List (Entry K V)}
variable {p : Slots K V × Slots K V}

/-- The turns of the two loops; each reads the head of the chain again. -/
def transferLoop (tableSize : ℕ) : ℕ → ℕ → Slots K V × Slots K V → Option (Slots K V × Slots K V)
  | 0, _, _ => none
  | turns + 1, i, p =>
    if i < tableSize then
      match p.1.table i with
      | [] => transferLoop tableSize turns (i + 1) p
      | entry :: chain =>
        transferLoop tableSize turns i (p.1.unlinkEntry i chain,p.2.linkEntry entry)
    else some p

theorem transferLoop_chain {n : ℕ} (hi : i < n) (ht : p.1.table i = chain) (turns : ℕ) :
    transferLoop n (turns + chain.length) i p = transferLoop n turns i (moveChain i chain p) := by
  induction chain generalizing p with
  | nil => rfl
  | cons entry chain ih =>
    rw [List.length_cons, ← Nat.add_assoc, transferLoop, if_pos hi, ht]
    exact ih (Function.update_self ..)

theorem transferLoop_slots (n : ℕ) (p : Slots K V × Slots K V) {j : ℕ} (hj : j ≤ n) :
    ∃ spent, ∀ turns, transferLoop n (turns + spent) 0 p =
      transferLoop n turns j ((List.range j).foldl moveSlot p) := by
  induction j with
  | zero => exact ⟨0,fun turns => rfl⟩
  | succ j ih =>
    obtain ⟨spent,hspent⟩ := ih (by omega)
    set q := (List.range j).foldl moveSlot p with hq
    have hnext : (List.range (j + 1)).foldl moveSlot p = moveSlot q j := by
      rw [List.range_succ, List.foldl_append, ← hq, List.foldl_cons, List.foldl_nil]
    have hempty : (moveSlot q j).1.table j = [] := by
      rw [moveSlot, moveChain_table rfl]
      exact Function.update_self ..
    refine ⟨(q.1.table j).length + 1 + spent,fun turns => ?_⟩
    calc transferLoop n (turns + ((q.1.table j).length + 1 + spent)) 0 p
        = transferLoop n (turns + 1 + (q.1.table j).length) j q := by
          rw [← hspent]
          congr 1
          omega
      _ = transferLoop n (turns + 1) j (moveSlot q j) := transferLoop_chain hj rfl (turns + 1)
      _ = transferLoop n turns (j + 1) ((List.range (j + 1)).foldl moveSlot p) := by
          rw [transferLoop, if_pos (Nat.lt_of_succ_le hj), hempty, hnext]

theorem transferLoop_ends (s : Slots K V) (capacity : ℕ) :
    ∃ turns, transferLoop s.tableSize turns 0 (s,⟨fun _ => [],capacity,0⟩) =
      some (transfer s capacity) := by
  obtain ⟨spent,hspent⟩ := transferLoop_slots s.tableSize (s,⟨fun _ => [],capacity,0⟩) le_rfl
  refine ⟨1 + spent,?_⟩
  rw [hspent, transferLoop, if_neg (lt_irrefl _)]
  rfl

theorem Slots.coe_chained (s : Slots K V) : (s.chained : Multiset (Entry K V)) = s.content :=
  coe_flatMap_range s.tableSize s.table

theorem Represents.invariant {m : KeyMap cfg.toHashFns V} (hr : Represents cfg h m)
    (hpower : ∃ j ≤ 30, h.tableSize = 2 ^ j) : TableInvariant cfg h := by
  obtain ⟨hsize,⟨hplaced,hhashed,hcount⟩,hentries⟩ := hr
  have hmax : h.tableSize ≤ maxTableSize := by
    obtain ⟨j,hj,he⟩ := hpower
    exact he ▸ Nat.pow_le_pow_right Nat.two_pos hj
  have hinside : ∀ i, ∀ entry ∈ h.table i, i < h.tableSize := by
    intro i entry hin
    rw [← hplaced i entry hin]
    exact slotOf_lt hsize entry.hash
  constructor
  · exact hpower
  · intro i entry hin
    exact hhashed entry (mem_content.mpr ⟨i,hinside i entry hin,hin⟩)
  · exact hinside
  · intro i entry hin
    rw [← slotOf_signed hsize hmax]
    exact congrArg Nat.cast (hplaced i entry hin).symm
  · have hkeys : (m.entries.keys).Nodup := Multiset.nodup_keys.mpr m.nodupKeys
    rw [hentries, ← Slots.coe_chained] at hkeys
    have hnodup : (h.chained.map fun entry => cfg.toKey entry.key).Nodup := by
      simpa [Multiset.keys, pair, Function.comp_def] using hkeys
    refine (List.pairwise_map.mp hnodup).imp fun hne => ?_
    rw [← Bool.not_eq_true, ← cfg.toKey_eq_iff]
    exact hne
  · rw [hcount, ← Slots.coe_chained, Multiset.coe_card, Slots.chained, List.length_flatMap]

theorem hashtblResize_content {m : KeyMap cfg.toHashFns V} (hr : Represents cfg h m) (requested : ℤ)
    (tableAlloc : Option ℕ) : (hashtblResize cfg h requested tableAlloc).1.content = h.content := by
  by_cases hsmall : roundedCapacity requested ≤ h.tableSize
  · simp only [hashtblResize, if_pos hsmall]
  · simp only [hashtblResize, if_neg hsmall]
    cases tableAlloc with
    | none => rfl
    | some block => exact (transfer_spec hr.wellFormed (roundedCapacity_pos requested)).2.2

/-- Every table that a run reaches has the invariant; no further call makes it smaller,
and a resize comes to an end and permutes its entries. -/
theorem hashtblRun_invariant (capacity : ℤ) (handleAlloc tableAlloc : Option ℕ)
    (hcreate : hashtblCreate cfg capacity handleAlloc tableAlloc = .ok h) (ops : List (Op K V)) :
    ∃ h' answers, run (hashtblStep cfg) h ops = some (h', answers) ∧ TableInvariant cfg h' ∧
      (∀ op h'' answer, hashtblStep cfg h' op = some (h'', answer) → h'.tableSize ≤ h''.tableSize) ∧
      (∀ size, ∃ turns, transferLoop h'.tableSize turns 0 (h'.toSlots,⟨fun _ => [],size,0⟩) =
        some (transfer h'.toSlots size)) ∧
      ∀ requested tableAlloc, (hashtblResize cfg h' requested tableAlloc).1.chained.Perm h'.chained := by
  have hstep : ∀ (h : Hashtbl K V) (op : Op K V),
      ((∃ m, Represents cfg h m) ∧ ∃ j ≤ 30, h.tableSize = 2 ^ j) → True →
        ∃ h' answer, hashtblStep cfg h op = some (h', answer) ∧
          ((∃ m, Represents cfg h' m) ∧ ∃ j ≤ 30, h'.tableSize = 2 ^ j) ∧ True := by
    rintro h op ⟨⟨m,hr⟩,hpower⟩ -
    obtain ⟨h',m',answer,-,hs,-,-,hr'⟩ := hashtblStep_refines h m op hr
    exact ⟨h',answer,hs,⟨⟨m',hr'⟩,(hashtblStep_resizes hs).power hpower⟩,trivial⟩
  have hstart := hashtblCreate_represents hcreate
  obtain ⟨h',answers,hrun,⟨⟨m,hr⟩,hpower⟩,-⟩ := run_total hstep
    ⟨⟨∅,hstart⟩,(hashtblCreate_sized hcreate).power⟩ (admits_of_forall (fun _ _ => trivial) h ops)
  refine ⟨h',answers,hrun,hr.invariant hpower,?_,transferLoop_ends h'.toSlots,?_⟩
  · exact fun op h'' answer hs => (hashtblStep_resizes hs).le
  · intro requested tableAlloc
    rw [← Multiset.coe_eq_coe, Slots.coe_chained, Slots.coe_chained]
    exact hashtblResize_content hr requested tableAlloc

theorem hashtblRun_invariant_sample :
    ∃ h' answers, run (hashtblStep collidingKeys) collidingTable collidingOps = some (h', answers) ∧
      TableInvariant collidingKeys h' := by
  have hcreate : hashtblCreate collidingKeys 1 (some 1) (some 2) = .ok collidingTable := rfl
  obtain ⟨h',answers,hrun,hinvariant,-⟩ :=
    hashtblRun_invariant 1 (some 1) (some 2) hcreate collidingOps
  exact ⟨h',answers,hrun,hinvariant⟩

end CppExamples.HashTable
