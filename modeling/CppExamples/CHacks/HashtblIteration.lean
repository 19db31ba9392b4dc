import CppExamples.CHacks.HashtblMap

/-! # Visiting all entries of the chained hash table

A pointer to an entry is the rest of its chain from that entry on.  What an iterator
has not returned yet is a list that its fields determine: the chain behind its entry
and the slots behind its position, or all slots from the position on when it has no
entry.  One call takes the first entry off that list.
-/
namespace CppExamples.HashTable
open Machine

variable {K V : Type*}

/-- The entries of one chain; the error is the early return. -/
def applyChain {σ : Type*} (apply : σ → K → Option V → σ × ℤ) :
    List (Entry K V) → σ × ℕ → Except (σ × ℕ) (σ × ℕ)
  | [], p => .ok p
  | entry :: chain, (s, nentries) =>
    let r := apply s entry.key entry.val
    if r.2 = 0 then .error (r.1, nentries + 1) else applyChain apply chain (r.1, nentries + 1)

/-- A callback reads an entry and the client's data, which it may change. -/
def hashtblApply {σ : Type*} (h : Hashtbl K V) (apply : σ → K → Option V → σ × ℤ) (s : σ) : σ × ℕ :=
  match (List.range h.tableSize).foldlM (fun p i => applyChain apply (h.table i) p) (s, 0) with
  | .ok p => p
  | .error p => p

structure Iter (K V : Type*) where
  key : Option K
  val : Option V
  pos : ℕ
  entry : List (Entry K V)

def hashtblIterInit : Iter K V := ⟨none,none,0,[]⟩

def iterSlots (h : Hashtbl K V) (i : ℕ) (iter : Iter K V) : Iter K V × ℕ :=
  if i < h.tableSize then
    match h.table i with
    | [] => iterSlots h (i + 1) { iter with pos := i, entry := [] }
    | entry :: chain => (⟨some entry.key,entry.val,i,entry :: chain⟩, 1)
  else (iter, 0)
termination_by h.tableSize - i

def hashtblIterNext (h : Hashtbl K V) (iter : Iter K V) : Iter K V × ℕ :=
  match iter.entry with
  | [] => iterSlots h iter.pos iter
  | [_] => iterSlots h (iter.pos + 1) { iter with pos := iter.pos + 1, entry := [] }
  | _ :: entry :: chain => (⟨some entry.key,entry.val,iter.pos,entry :: chain⟩, 1)

/-- What successive calls return, with the key and the value in the iterator. -/
def iterCalls (h : Hashtbl K V) : ℕ → Iter K V → List (ℕ × Option K × Option V)
  | 0, _ => []
  | calls + 1, iter =>
    let r := hashtblIterNext h iter
    (r.2, r.1.key, r.1.val) :: iterCalls h calls r.1

/-- The keys and values that `hashtbl_apply` hands to its callback, as the client's data. -/
def visitedByApply (h : Hashtbl K V) : List (K × Option V) :=
  (hashtblApply h (fun seen k v => (seen ++ [(k, v)], 1)) []).1

def callbacks {σ : Type*} (apply : σ → K → Option V → σ × ℤ) (pairs : List (K × Option V)) (s : σ) :
    Option σ :=
  pairs.foldlM (fun s kv => if (apply s kv.1 kv.2).2 = 0 then none else some (apply s kv.1 kv.2).1) s

variable {cfg : Config K} {h : Hashtbl K V} {i : ℕ} {iter : Iter K V}

def slotsFrom (h : Hashtbl K V) (i : ℕ) : List (Entry K V) :=
  (List.range' i (h.tableSize - i)).flatMap h.table

theorem slotsFrom_of_lt (hi : i < h.tableSize) : slotsFrom h i = h.table i ++ slotsFrom h (i + 1) := by
  obtain ⟨n,hn⟩ : ∃ n, h.tableSize - i = n + 1 := ⟨h.tableSize - i - 1,by omega⟩
  have hrest : h.tableSize - (i + 1) = n := by omega
  rw [slotsFrom, hn, List.range'_succ, List.flatMap_cons, slotsFrom, hrest]

theorem slotsFrom_of_ge (hi : h.tableSize ≤ i) : slotsFrom h i = [] := by
  rw [slotsFrom, Nat.sub_eq_zero_of_le hi]
  rfl

def Iter.remaining (h : Hashtbl K V) (iter : Iter K V) : List (Entry K V) :=
  match iter.entry with
  | [] => slotsFrom h iter.pos
  | _ :: chain => chain ++ slotsFrom h (iter.pos + 1)

/-- A call returns the first entry of a list and leaves the others, or it returns 0 and
leaves nothing. -/
def Takes (h : Hashtbl K V) (entries : List (Entry K V)) (iter : Iter K V)
    (result : Iter K V × ℕ) : Prop :=
  match entries with
  | [] => result.2 = 0 ∧ result.1.remaining h = [] ∧ result.1.key = iter.key ∧ result.1.val = iter.val
  | entry :: rest => result.2 = 1 ∧ result.1.remaining h = rest ∧ result.1.key = some entry.key ∧
      result.1.val = entry.val

/-- The loop may run through empty slots, which the iterator has then behind it. -/
theorem iterSlots_takes (h : Hashtbl K V) (i : ℕ) (iter : Iter K V) (hentry : iter.entry = [])
    (hpos : slotsFrom h iter.pos = slotsFrom h i) : Takes h (slotsFrom h i) iter (iterSlots h i iter) := by
  fun_induction iterSlots h i iter with
  | case1 i iter hi hslot ih =>
    have hskip : slotsFrom h i = slotsFrom h (i + 1) := by
      rw [slotsFrom_of_lt hi, hslot, List.nil_append]
    rw [hskip]
    exact ih rfl hskip
  | case2 i iter hi entry chain hslot =>
    rw [slotsFrom_of_lt hi, hslot]
    exact ⟨rfl,rfl,rfl,rfl⟩
  | case3 i iter hi =>
    have hnone := slotsFrom_of_ge (Nat.le_of_not_lt hi)
    rw [hnone] at hpos ⊢
    refine ⟨rfl,?_,rfl,rfl⟩
    rw [Iter.remaining, hentry]
    exact hpos

theorem iterNext_takes (h : Hashtbl K V) (iter : Iter K V) :
    Takes h (iter.remaining h) iter (hashtblIterNext h iter) := by
  obtain ⟨key,val,pos,entry⟩ := iter
  rcases entry with _ | ⟨entry,_ | ⟨next,chain⟩⟩
  · exact iterSlots_takes h pos ⟨key,val,pos,[]⟩ rfl rfl
  · exact iterSlots_takes h (pos + 1) ⟨key,val,pos + 1,[]⟩ rfl rfl
  · exact ⟨rfl,rfl,rfl,rfl⟩

theorem iterCalls_exhausted (calls : ℕ) (hnone : iter.remaining h = []) :
    iterCalls h calls iter = List.replicate calls (0, iter.key, iter.val) := by
  induction calls generalizing iter with
  | zero => rfl
  | succ calls ih =>
    obtain ⟨hcode,hrest,hkey,hval⟩ := hnone ▸ iterNext_takes h iter
    rw [iterCalls, ih hrest, hcode, hkey, hval, List.replicate_succ]

theorem iterCalls_spec (extra : ℕ) {entries : List (Entry K V)} (hrest : iter.remaining h = entries) :
    ∃ last, iterCalls h (entries.length + extra) iter =
      entries.map (fun entry => (1, some entry.key, entry.val)) ++ List.replicate extra (0, last) := by
  induction entries generalizing iter with
  | nil =>
    refine ⟨(iter.key, iter.val),?_⟩
    rw [List.length_nil, Nat.zero_add, iterCalls_exhausted extra hrest]
    rfl
  | cons entry entries ih =>
    obtain ⟨hcode,hrest,hkey,hval⟩ := hrest ▸ iterNext_takes h iter
    obtain ⟨last,hcalls⟩ := ih hrest
    refine ⟨last,?_⟩
    rw [List.length_cons, Nat.add_right_comm, iterCalls, hcalls, hcode, hkey, hval]
    rfl

theorem applyChain_append {σ : Type*} (apply : σ → K → Option V → σ × ℤ)
    (l m : List (Entry K V)) (p : σ × ℕ) :
    applyChain apply (l ++ m) p = applyChain apply l p >>= applyChain apply m := by
  induction l generalizing p with
  | nil => rfl
  | cons entry l ih =>
    obtain ⟨s,n⟩ := p
    simp only [List.cons_append, applyChain]
    split
    · rfl
    · exact ih _

theorem foldlM_applyChain {σ : Type*} (apply : σ → K → Option V → σ × ℤ)
    (table : ℕ → List (Entry K V)) (slots : List ℕ) (p : σ × ℕ) :
    slots.foldlM (fun p i => applyChain apply (table i) p) p =
      applyChain apply (slots.flatMap table) p := by
  induction slots generalizing p with
  | nil => rfl
  | cons i slots ih =>
    rw [List.foldlM_cons, List.flatMap_cons, applyChain_append]
    exact congrArg _ (funext fun q => ih q)

theorem hashtblApply_eq {σ : Type*} (h : Hashtbl K V) (apply : σ → K → Option V → σ × ℤ) (s : σ) :
    hashtblApply h apply s =
      match applyChain apply (slotsFrom h 0) (s, 0) with
      | .ok p => p
      | .error p => p := by
  rw [hashtblApply, foldlM_applyChain, slotsFrom, Nat.sub_zero, List.range_eq_range']

theorem applyChain_record (entries : List (Entry K V)) (seen : List (K × Option V)) (n : ℕ) :
    applyChain (fun seen k v => (seen ++ [(k, v)], 1)) entries (seen, n) =
      .ok (seen ++ entries.map (fun entry => (entry.key, entry.val)), n + entries.length) := by
  induction entries generalizing seen n with
  | nil => simp [applyChain]
  | cons entry entries ih =>
    rw [applyChain, if_neg one_ne_zero, ih, List.append_assoc, List.length_cons, Nat.add_assoc,
      Nat.add_comm 1]
    rfl

theorem applyChain_stops {σ : Type*} {apply : σ → K → Option V → σ × ℤ}
    {l m : List (Entry K V)} {entry : Entry K V} {s s' : σ} (n : ℕ)
    (hbefore : callbacks apply (l.map fun entry => (entry.key, entry.val)) s = some s')
    (hstop : (apply s' entry.key entry.val).2 = 0) :
    applyChain apply (l ++ entry :: m) (s, n) =
      .error ((apply s' entry.key entry.val).1, n + l.length + 1) := by
  induction l generalizing s n with
  | nil =>
    obtain rfl : s = s' := Option.some.inj hbefore
    simp [applyChain, hstop]
  | cons e l ih =>
    simp only [callbacks, List.map_cons, List.foldlM_cons] at hbefore
    split at hbefore
    · simp at hbefore
    · rename_i hgo
      rw [List.cons_append, applyChain, if_neg hgo, ih (n + 1) hbefore, List.length_cons]
      congr 2
      omega

theorem visitedByApply_eq (h : Hashtbl K V) :
    visitedByApply h = (slotsFrom h 0).map fun entry => (entry.key, entry.val) := by
  rw [visitedByApply, hashtblApply_eq, applyChain_record]
  simp

theorem slotsFrom_content (h : Hashtbl K V) : (↑(slotsFrom h 0) : Multiset (Entry K V)) = h.content := by
  rw [slotsFrom, Nat.sub_zero, ← List.range_eq_range']
  exact Buckets.coe_flatMap_range h.tableSize h.table

/-- An iterator returns what the callback of `hashtbl_apply` sees, every entry of the map
once, and then 0 at every call; a callback that returns 0 stops at its entry. -/
structure VisitsAll (cfg : Config K) (h : Hashtbl K V) (m : KeyMap cfg.toHashFns V) : Prop where
  entries : m.entries = ↑((visitedByApply h).map fun kv =>
    (⟨cfg.toKey kv.1,kv.2⟩ : Σ _ : cfg.Key, Option V))
  count : (visitedByApply h).length = hashtblCount h
  iterator : ∀ extra, ∃ last, iterCalls h (hashtblCount h + extra) hashtblIterInit =
    (visitedByApply h).map (fun kv => (1, some kv.1, kv.2)) ++ List.replicate extra (0, last)
  stops : ∀ {σ : Type*} (apply : σ → K → Option V → σ × ℤ) (s s' : σ)
    (before after : List (K × Option V)) (k : K) (v : Option V),
    visitedByApply h = before ++ (k, v) :: after → callbacks apply before s = some s' →
    (apply s' k v).2 = 0 → hashtblApply h apply s = ((apply s' k v).1, before.length + 1)

/-- The table at the end of any run is visited as a whole. -/
theorem hashtbl_iteration (capacity : ℤ) (handleAlloc tableAlloc : Option ℕ)
    (hcreate : hashtblCreate cfg capacity handleAlloc tableAlloc = .ok h) (ops : List (Op K V)) :
    ∃ h' m answers determined, run (hashtblStep cfg) h ops = some (h', answers) ∧
      run (mapStep cfg.toHashFns) ∅ ops = some (m, determined) ∧ VisitsAll cfg h' m := by
  obtain ⟨h',m,answers,determined,hrun,hmap,-,hr⟩ := run_refines
    (fun h m op hr (_ : True) => hashtblStep_refines h m op hr)
    (hashtblCreate_represents hcreate) (admits_of_forall (fun _ _ => trivial) h ops)
  have hcontent := slotsFrom_content h'
  have hcount : (slotsFrom h' 0).length = hashtblCount h' := by
    rw [hashtblCount, hr.wellFormed.count, ← hcontent, Multiset.coe_card]
  refine ⟨h',m,answers,determined,hrun,hmap,?_⟩
  constructor
  · rw [hr.entries, ← hcontent, visitedByApply_eq, Multiset.map_coe, List.map_map]
    rfl
  · rw [visitedByApply_eq, List.length_map, hcount]
  · intro extra
    have hstart : (hashtblIterInit : Iter K V).remaining h' = slotsFrom h' 0 := rfl
    obtain ⟨last,hcalls⟩ := iterCalls_spec extra hstart
    rw [hcount] at hcalls
    exact ⟨last,by rw [hcalls, visitedByApply_eq, List.map_map]; rfl⟩
  · intro σ apply s s' before after k v hvisited hbefore hstop
    rw [visitedByApply_eq] at hvisited
    obtain ⟨l,r,hsplit,rfl,hr'⟩ := List.map_eq_append_iff.mp hvisited
    obtain ⟨entry,m,rfl,hentry,-⟩ := List.map_eq_cons_iff.mp hr'
    obtain ⟨rfl,rfl⟩ := Prod.mk.inj hentry
    rw [hashtblApply_eq, hsplit, applyChain_stops 0 hbefore hstop, Nat.zero_add, List.length_map]

/-- Keys that are hashed by their parity. -/
def parityFns : HashFns ℕ where
  hashFn k := BitVec.ofNat 32 (k % 2)
  equalsFn k l := k == l
  refl := collidingFns.refl
  symm := collidingFns.symm
  trans := collidingFns.trans
  hash_eq h := congrArg (fun k => BitVec.ofNat 32 (k % 2)) (beq_iff_eq.mp h)

def parityKeys : Config ℕ where
  toHashFns := parityFns
  thresholdOf _ := 9
  autoResize := false
  keyFreeFn := true
  valFreeFn := true

def parityTable : Hashtbl ℕ ℕ :=
  ⟨⟨fun _ => [],2,0⟩,9,1,some 2,[.malloc (some 1), .malloc (some 2)]⟩

/-- Two keys for the one slot, and one for the other. -/
def parityOps : List (Op ℕ ℕ) :=
  [.insert 1 (some 10) none (some 3), .insert 2 (some 20) none (some 4), .insert 3 (some 30) none (some 5)]

theorem hashtbl_iteration_sample :
    ∃ h' m answers determined,
      run (hashtblStep parityKeys) parityTable parityOps = some (h', answers) ∧
      run (mapStep parityKeys.toHashFns) ∅ parityOps = some (m, determined) ∧
      VisitsAll parityKeys h' m ∧
      visitedByApply h' = [(2, some 20), (3, some 30), (1, some 10)] := by
  obtain ⟨h',m,answers,determined,hrun,hmap,hvisits⟩ :=
    hashtbl_iteration 2 (some 1) (some 2) (show hashtblCreate parityKeys 2 (some 1) (some 2) =
      .ok parityTable from rfl) parityOps
  refine ⟨h',m,answers,determined,hrun,hmap,hvisits,?_⟩
  obtain ⟨rfl,-⟩ := Prod.mk.inj (Option.some.inj hrun)
  decide +kernel

end CppExamples.HashTable
