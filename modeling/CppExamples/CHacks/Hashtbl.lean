import Mathlib
import CppExamples.CHacks.HashtblFuncs

/-! # The chained hash table

The chain of a slot is the list of its entries from the head on.  Every allocation
of a call is an argument, in the order in which the call asks for it: the block
that `malloc_fn` returns, or nothing.  Calls of the functions that the caller
passed to `hashtbl_create` are recorded in order.
-/
namespace CppExamples.HashTable

structure Entry (K V : Type*) where
  key : K
  val : Option V
  hash : BitVec 32
  block : ℕ

/-- The fields that `hashtbl_resize` also needs of its temporary table. -/
structure Slots (K V : Type*) where
  table : ℕ → List (Entry K V)
  tableSize : ℕ
  nentries : ℕ

structure Hashtbl (K V : Type*) extends Slots K V where
  resizeThreshold : ℤ
  handle : ℕ
  tableBlock : Option ℕ
  calls : List (Call K V)

variable {K V : Type*}

namespace Slots

/-- `*head = entry->next` in the chain of slot `i`, which becomes `chain`. -/
def unlinkEntry (s : Slots K V) (i : ℕ) (chain : List (Entry K V)) : Slots K V :=
  { s with table := Function.update s.table i chain, nentries := s.nentries - 1 }

def linkEntry (s : Slots K V) (entry : Entry K V) : Slots K V :=
  let i := slotOf s.tableSize entry.hash
  { s with table := Function.update s.table i (entry :: s.table i), nentries := s.nentries + 1 }

end Slots

variable (cfg : Config K)

/-- The test of both chain walks. -/
def matchesKey (hv : BitVec 32) (k : K) (entry : Entry K V) : Bool :=
  entry.hash == hv && cfg.equalsFn entry.key k

def findEntry (h : Slots K V) (hv : BitVec 32) (k : K) : Option (Entry K V) :=
  (h.table (slotOf h.tableSize hv)).find? (matchesKey cfg hv k)

def removeKey (h : Slots K V) (k : K) : Slots K V × Option (Entry K V) :=
  let hv := cfg.hashFn k
  let i := slotOf h.tableSize hv
  match findEntry cfg h hv k with
  | some entry => (h.unlinkEntry i ((h.table i).eraseP (matchesKey cfg hv k)),some entry)
  | none => (h,none)

/-- `entry->val = v` for the first entry that matches. -/
def setVal (p : Entry K V → Bool) (v : Option V) : List (Entry K V) → List (Entry K V)
  | [] => []
  | entry :: chain =>
    if p entry then { entry with val := v } :: chain else entry :: setVal p v chain

/-- The inner loop of the transfer: the rest of the chain of slot `i` moves entry by entry. -/
def moveChain (i : ℕ) : List (Entry K V) → Slots K V × Slots K V → Slots K V × Slots K V
  | [], p => p
  | entry :: chain, p => moveChain i chain (p.1.unlinkEntry i chain,p.2.linkEntry entry)

def moveSlot (p : Slots K V × Slots K V) (i : ℕ) : Slots K V × Slots K V :=
  moveChain i (p.1.table i) p

def transfer (h : Slots K V) (capacity : ℕ) : Slots K V × Slots K V :=
  (List.range h.tableSize).foldl moveSlot (h,⟨fun _ => [],capacity,0⟩)

def hashtblResize (h : Hashtbl K V) (requested : ℤ) (tableAlloc : Option ℕ) :
    Hashtbl K V × ℕ :=
  let capacity := roundedCapacity requested
  if capacity ≤ h.tableSize then (h,0)
  else match tableAlloc with
    | none => ({ h with calls := h.calls ++ [.malloc none] },1)
    | some block =>
      ({ toSlots := (transfer h.toSlots capacity).2
         resizeThreshold := cfg.thresholdOf capacity
         handle := h.handle
         tableBlock := some block
         calls := h.calls ++ .malloc (some block) :: h.tableBlock.toList.map .free },0)

/-- Growing before an insertion; a failure to grow is ignored. -/
def autoResized (h : Hashtbl K V) (tableAlloc : Option ℕ) : Hashtbl K V :=
  if cfg.autoResize && atThreshold h.nentries h.resizeThreshold then
    (hashtblResize cfg h (doubled h.tableSize) tableAlloc).1
  else h

def hashtblInsert (h : Hashtbl K V) (k : K) (v : Option V) (tableAlloc entryAlloc : Option ℕ) :
    Hashtbl K V × ℕ :=
  let hv := cfg.hashFn k
  let i := slotOf h.tableSize hv
  match findEntry cfg h.toSlots hv k with
  | some entry =>
    ({ h with
       table := Function.update h.table i (setVal (matchesKey cfg hv k) v (h.table i))
       calls := h.calls ++ valFreed cfg entry.val },0)
  | none =>
    let grown := autoResized cfg h tableAlloc
    match entryAlloc with
    | none => ({ grown with calls := grown.calls ++ [.malloc none] },1)
    | some block =>
      ({ grown with
         toSlots := grown.toSlots.linkEntry ⟨k,v,hv,block⟩
         calls := grown.calls ++ [.malloc (some block)] },0)

/-- A key that is absent and a value that is NULL look alike. -/
def hashtblLookup (h : Hashtbl K V) (k : K) : Option V :=
  match findEntry cfg h.toSlots (cfg.hashFn k) k with
  | some entry => entry.val
  | none => none

def hashtblRemove (h : Hashtbl K V) (k : K) : Hashtbl K V × ℕ :=
  match removeKey cfg h.toSlots k with
  | (slots,some entry) =>
    let valCalls := if entry.val.isSome then valFreed cfg entry.val else []
    ({ h with
       toSlots := slots
       calls := h.calls ++ keyFreed cfg entry.key ++ valCalls ++ [.free entry.block] },0)
  | (_,none) => (h,1)

/-- The inner loop of `hashtbl_clear`; here a NULL value is freed as well. -/
def clearChain : List (Entry K V) → Hashtbl K V → Hashtbl K V
  | [], h => h
  | entry :: chain, h =>
    clearChain chain { h with
      nentries := h.nentries - 1
      calls := h.calls ++ keyFreed cfg entry.key ++ valFreed cfg entry.val ++ [.free entry.block] }

def clearSlot (h : Hashtbl K V) (i : ℕ) : Hashtbl K V :=
  let h' := clearChain cfg (h.table i) h
  { h' with table := Function.update h'.table i [] }

def hashtblClear (h : Hashtbl K V) : Hashtbl K V :=
  (List.range h.tableSize).foldl (clearSlot cfg) h

/-- `free_fn` is called for the table array without a test for NULL; freeing NULL has no
result here. -/
def hashtblDelete (h : Hashtbl K V) : Option (List (Call K V)) :=
  let cleared := hashtblClear cfg h
  cleared.tableBlock.map fun block => cleared.calls ++ [.free block, .free cleared.handle]

def hashtblCount (h : Hashtbl K V) : ℕ := h.nentries

/-- The error is a NULL result, with the calls made before it. -/
def hashtblCreate (capacity : ℤ) (handleAlloc tableAlloc : Option ℕ) :
    Except (List (Call K V)) (Hashtbl K V) :=
  match handleAlloc with
  | none => .error [.malloc none]
  | some handle =>
    match hashtblResize cfg ⟨⟨fun _ => [],0,0⟩,0,handle,none,[.malloc (some handle)]⟩
        capacity tableAlloc with
    | (h,0) => .ok h
    | (h,_) => .error (h.calls ++ [.free handle])

def hashtblStep (h : Hashtbl K V) : Op K V → Option (Hashtbl K V × Answer V)
  | .insert k v tableAlloc entryAlloc =>
    let r := hashtblInsert cfg h k v tableAlloc entryAlloc
    some (r.1,.code r.2)
  | .lookup k => some (h,.val (hashtblLookup cfg h k))
  | .remove k =>
    let r := hashtblRemove cfg h k
    some (r.1,.code r.2)
  | .clear => some (hashtblClear cfg h,.done)
  | .resize capacity tableAlloc =>
    let r := hashtblResize cfg h capacity tableAlloc
    some (r.1,.code r.2)
  | .count => some (h,.count (hashtblCount h))

end CppExamples.HashTable
