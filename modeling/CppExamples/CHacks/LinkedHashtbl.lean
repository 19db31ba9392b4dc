import Mathlib
import CppExamples.CHacks.HashtblFuncs

/-! # The linked hash table

Nodes are addresses.  Address 0 is the list head `all_entries` for the links `next`
and `prev` of the ring of all entries, and NULL for the link `chain` of the entries
of one slot.  An entry that has been freed, or never was allocated, has no data, and
reading one has no result.  A walk of a link stops without a result when it is longer
than its bound; every walk is bounded by the number of entries.
-/
namespace CppExamples.LinkedTable
open HashTable

structure LConfig (K : Type*) extends Config K where
  accessOrder : Bool
  evictorFn : ℕ → Bool

structure LEntry (K V : Type*) where
  key : K
  val : Option V
  hash : BitVec 32

structure LHashtbl (K V : Type*) where
  next : ℕ → ℕ
  prev : ℕ → ℕ
  chain : ℕ → ℕ
  data : ℕ → Option (LEntry K V)
  table : ℕ → ℕ
  tableSize : ℕ
  nentries : ℕ
  resizeThreshold : ℤ
  handle : ℕ
  tableBlock : Option ℕ
  calls : List (Call K V)

variable {K V : Type*}

def listInit (h : LHashtbl K V) : LHashtbl K V :=
  { h with next := Function.update h.next 0 0, prev := Function.update h.prev 0 0 }

/-- Despite its name it adds the node behind the head. -/
def listAddBefore (h : LHashtbl K V) (node head : ℕ) : LHashtbl K V :=
  let next := h.next head
  { h with
    next := Function.update (Function.update h.next node next) head node
    prev := Function.update (Function.update h.prev node head) next node }

def listRemove (h : LHashtbl K V) (node : ℕ) : LHashtbl K V :=
  let next := Function.update h.next (h.prev node) (h.next node)
  { h with next := next, prev := Function.update h.prev (next node) (h.prev node) }

variable (cfg : LConfig K)

def recordAccess (h : LHashtbl K V) (entry : ℕ) : LHashtbl K V :=
  if cfg.accessOrder then listAddBefore (listRemove h entry) entry 0 else h

def matchesKey (hv : BitVec 32) (k : K) (e : LEntry K V) : Bool :=
  e.hash == hv && cfg.equalsFn e.key k

/-- The walk of `find_entry` and `remove_key`: what points to the entry where it
stops (nothing for the slot itself), and that entry. -/
def walkChain (h : LHashtbl K V) (hv : BitVec 32) (k : K) :
    ℕ → Option ℕ → ℕ → Option (Option ℕ × ℕ)
  | 0, ref, entry => if entry = 0 then some (ref, 0) else none
  | fuel + 1, ref, entry =>
    if entry = 0 then some (ref, 0)
    else (h.data entry).bind fun e =>
      if matchesKey cfg hv k e then some (ref, entry)
      else walkChain h hv k fuel (some entry) (h.chain entry)

def findRef (h : LHashtbl K V) (k : K) : Option (Option ℕ × ℕ) :=
  let hv := cfg.hashFn k
  walkChain cfg h hv k h.nentries none (h.table (slotOf h.tableSize hv))

def findEntry (h : LHashtbl K V) (k : K) : Option ℕ := (findRef cfg h k).map Prod.snd

/-- `*slot_ref = entry->next`. -/
def unlinkChain (h : LHashtbl K V) (i : ℕ) (ref : Option ℕ) (entry : ℕ) : LHashtbl K V :=
  match ref with
  | none => { h with table := Function.update h.table i (h.chain entry) }
  | some p => { h with chain := Function.update h.chain p (h.chain entry) }

def removeKey (h : LHashtbl K V) (k : K) : Option (LHashtbl K V × ℕ) :=
  (findRef cfg h k).map fun r =>
    if r.2 = 0 then (h, 0)
    else
      let cut := unlinkChain h (slotOf h.tableSize (cfg.hashFn k)) r.1 r.2
      (listRemove { cut with nentries := cut.nentries - 1 } r.2, r.2)

def lHashtblRemove (h : LHashtbl K V) (k : K) : Option (LHashtbl K V × ℕ) :=
  (removeKey cfg h k).bind fun r =>
    if r.2 = 0 then some (r.1, 1)
    else (r.1.data r.2).map fun e =>
      let valCalls := if e.val.isSome then valFreed cfg.toConfig e.val else []
      ({ r.1 with
         data := Function.update r.1.data r.2 none
         calls := r.1.calls ++ keyFreed cfg.toConfig e.key ++ valCalls ++ [.free r.2] }, 0)

/-- The transfer: the entries in the order of the ring go to the chains of the new table. -/
def relink (h : LHashtbl K V) (capacity : ℕ) :
    ℕ → ℕ → (ℕ → ℕ) × (ℕ → ℕ) → Option ((ℕ → ℕ) × (ℕ → ℕ))
  | 0, node, links => if node = 0 then some links else none
  | fuel + 1, node, (chain, table) =>
    if node = 0 then some (chain, table)
    else (h.data node).bind fun e =>
      let i := slotOf capacity e.hash
      relink h capacity fuel (h.next node)
        (Function.update chain node (table i), Function.update table i node)

def lHashtblResize (h : LHashtbl K V) (requested : ℤ) (tableAlloc : Option ℕ) :
    Option (LHashtbl K V × ℕ) :=
  let capacity := roundedCapacity requested
  if capacity ≤ h.tableSize then some (h, 0)
  else match tableAlloc with
    | none => some ({ h with calls := h.calls ++ [.malloc none] }, 1)
    | some block =>
      (relink h capacity h.nentries (h.next 0) (h.chain, fun _ => 0)).map fun links =>
        ({ h with
           chain := links.1
           table := links.2
           tableSize := capacity
           resizeThreshold := cfg.thresholdOf capacity
           tableBlock := some block
           calls := h.calls ++ .malloc (some block) :: h.tableBlock.toList.map .free }, 0)

def linkNew (h : LHashtbl K V) (k : K) (v : Option V) (entry : ℕ) : LHashtbl K V :=
  let hv := cfg.hashFn k
  let i := slotOf h.tableSize hv
  let linked := listAddBefore { h with
    data := Function.update h.data entry (some ⟨k,v,hv⟩)
    chain := Function.update h.chain entry (h.table i)
    table := Function.update h.table i entry
    calls := h.calls ++ [.malloc (some entry)] } entry 0
  { linked with nentries := linked.nentries + 1 }

def evict (h : LHashtbl K V) : Option (LHashtbl K V) :=
  if cfg.evictorFn h.nentries then
    (h.data (h.prev 0)).bind fun e => (lHashtblRemove cfg h e.key).map Prod.fst
  else some h

/-- Growing after an insertion; a failure to grow is ignored. -/
def autoResized (h : LHashtbl K V) (tableAlloc : Option ℕ) : Option (LHashtbl K V) :=
  if cfg.autoResize && atThreshold h.nentries h.resizeThreshold then
    (lHashtblResize cfg h (doubled h.tableSize) tableAlloc).map Prod.fst
  else some h

def lHashtblInsert (h : LHashtbl K V) (k : K) (v : Option V)
    (tableAlloc entryAlloc : Option ℕ) : Option (LHashtbl K V × ℕ) :=
  (findEntry cfg h k).bind fun entry =>
    if entry ≠ 0 then
      (h.data entry).map fun e =>
        ({ h with
           data := Function.update h.data entry (some { e with val := v })
           calls := h.calls ++ valFreed cfg.toConfig e.val }, 0)
    else match entryAlloc with
      | none => some ({ h with calls := h.calls ++ [.malloc none] }, 1)
      | some entry =>
        (evict cfg (linkNew cfg h k v entry)).bind fun evicted =>
          (autoResized cfg evicted tableAlloc).map fun grown => (grown, 0)

/-- A key that is absent and a value that is NULL look alike. -/
def lHashtblLookup (h : LHashtbl K V) (k : K) : Option (LHashtbl K V × Option V) :=
  (findEntry cfg h k).bind fun entry =>
    if entry = 0 then some (h, none)
    else (h.data entry).map fun e => (recordAccess cfg h entry, e.val)

/-- `tmp` is read before its predecessor is freed. -/
def clearLoop : ℕ → ℕ → ℕ → LHashtbl K V → Option (LHashtbl K V)
  | 0, node, _, h => if node = 0 then some h else none
  | fuel + 1, node, tmp, h =>
    if node = 0 then some h
    else (h.data node).bind fun e =>
      let removed := listRemove { h with
        calls := h.calls ++ keyFreed cfg.toConfig e.key ++ valFreed cfg.toConfig e.val ++
          [.free node] } node
      let freed := { removed with
        data := Function.update removed.data node none
        nentries := removed.nentries - 1 }
      clearLoop fuel tmp (freed.next tmp) freed

def lHashtblClear (h : LHashtbl K V) : Option (LHashtbl K V) :=
  let first := h.next 0
  (clearLoop cfg h.nentries first (h.next first) h).map fun cleared =>
    listInit { cleared with table := fun _ => 0 }

/-- `free_fn` is called for the table array without a test for NULL; freeing NULL has no
result here. -/
def lHashtblDelete (h : LHashtbl K V) : Option (List (Call K V)) :=
  (lHashtblClear cfg h).bind fun cleared =>
    cleared.tableBlock.map fun block => cleared.calls ++ [.free block, .free cleared.handle]

def lHashtblCount (h : LHashtbl K V) : ℕ := h.nentries

/-- The error is a NULL result, with the calls made before it. -/
def lHashtblCreate (capacity : ℤ) (handleAlloc tableAlloc : Option ℕ) :
    Option (Except (List (Call K V)) (LHashtbl K V)) :=
  match handleAlloc with
  | none => some (.error [.malloc none])
  | some handle =>
    (lHashtblResize cfg (listInit ⟨id,id,id,fun _ => none,fun _ => 0,0,0,0,handle,none,
      [.malloc (some handle)]⟩) capacity tableAlloc).map fun r =>
        match r with
        | (h,0) => .ok h
        | (h,_) => .error (h.calls ++ [.free handle])

/-- A callback reads an entry and the client's data, which it may change. -/
def applyFrom {σ : Type*} (h : LHashtbl K V) (apply : σ → K → Option V → σ × ℤ) :
    ℕ → ℕ → σ → ℕ → Option (σ × ℕ)
  | 0, node, s, visited => if node = 0 then some (s, visited) else none
  | fuel + 1, node, s, visited =>
    if node = 0 then some (s, visited)
    else (h.data node).bind fun e =>
      let r := apply s e.key e.val
      if r.2 ≠ 1 then some (r.1, visited + 1)
      else applyFrom h apply fuel (h.next node) r.1 (visited + 1)

def lHashtblApply {σ : Type*} (h : LHashtbl K V) (apply : σ → K → Option V → σ × ℤ) (s : σ) :
    Option (σ × ℕ) :=
  applyFrom h apply h.nentries (h.next 0) s 0

structure LIter (K V : Type*) where
  pos : ℕ
  direction : ℤ
  key : Option K
  val : Option V

def lHashtblIterInit (h : LHashtbl K V) (direction : ℤ) : LIter K V :=
  ⟨if direction ≥ 1 then h.next 0 else h.prev 0,direction,none,none⟩

def lHashtblIterNext (h : LHashtbl K V) (iter : LIter K V) : Option (LIter K V × ℕ) :=
  if iter.pos = 0 then some (iter, 0)
  else (h.data iter.pos).map fun e =>
    ({ iter with
       pos := if iter.direction ≥ 1 then h.next iter.pos else h.prev iter.pos
       key := some e.key
       val := e.val }, 1)

/-- The keys and values that a client reads until there is no next entry. -/
def iterate (h : LHashtbl K V) : ℕ → LIter K V → Option (List (Option K × Option V))
  | 0, _ => none
  | fuel + 1, iter =>
    (lHashtblIterNext h iter).bind fun r =>
      if r.2 = 0 then some []
      else (iterate h fuel r.1).map fun rest => (r.1.key, r.1.val) :: rest

def lHashtblStep (h : LHashtbl K V) : Op K V → Option (LHashtbl K V × Answer V)
  | .insert k v tableAlloc entryAlloc =>
    (lHashtblInsert cfg h k v tableAlloc entryAlloc).map fun r => (r.1, .code r.2)
  | .lookup k => (lHashtblLookup cfg h k).map fun r => (r.1, .val r.2)
  | .remove k => (lHashtblRemove cfg h k).map fun r => (r.1, .code r.2)
  | .clear => (lHashtblClear cfg h).map fun cleared => (cleared, .done)
  | .resize capacity tableAlloc =>
    (lHashtblResize cfg h capacity tableAlloc).map fun r => (r.1, .code r.2)
  | .count => some (h, .count (lHashtblCount h))

end CppExamples.LinkedTable
