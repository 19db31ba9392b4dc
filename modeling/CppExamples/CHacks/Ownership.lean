import Mathlib
import CppExamples.Library.Machine
import CppExamples.CHacks.HashtblFuncs

/-! # What the hash tables own

A table is handed keys, values and blocks, and gives each of them back through the
function that the caller passed for it.  The books of a table are what it keeps and
the calls it has made; every call of the interface is a sequence of the transactions
of `Ledger`, under which nothing is lost and nothing is given back twice.
-/
namespace CppExamples.HashTable
open Machine

structure Holding (K V : Type*) where
  key : K
  val : Option V
  block : ℕ

/-- The entries, the blocks of the handle and the table array, and the calls so far. -/
structure Books (K V : Type*) where
  entries : Multiset (Holding K V)
  frame : Multiset ℕ
  calls : List (Call K V)

variable {K V : Type*}

namespace Books
variable (b : Books K V)

def keys : Multiset K := b.entries.map Holding.key

def vals : Multiset V := b.entries.filterMap Holding.val

def blocks : Multiset ℕ := b.entries.map Holding.block + b.frame

variable (E : Multiset (Holding K V)) (F : Multiset ℕ) (c : List (Call K V))

@[simp] theorem keys_mk : (mk E F c).keys = E.map Holding.key := rfl

@[simp] theorem vals_mk : (mk E F c).vals = E.filterMap Holding.val := rfl

@[simp] theorem blocks_mk : (mk E F c).blocks = E.map Holding.block + F := rfl

end Books

@[simp] theorem filterMap_val_cons (e : Holding K V) (E : Multiset (Holding K V)) :
    (e ::ₘ E).filterMap Holding.val = e.val.toList + E.filterMap Holding.val := by
  cases hv : e.val with
  | none => simp [Multiset.filterMap_cons_none _ _ hv]
  | some v => simp [Multiset.filterMap_cons_some _ _ _ hv]

def keysFreed (calls : List (Call K V)) : Multiset K :=
  calls.filterMap fun | .keyFree k => some k | _ => none

def valsPassed (calls : List (Call K V)) : Multiset (Option V) :=
  calls.filterMap fun | .valFree v => some v | _ => none

def valsFreed (calls : List (Call K V)) : Multiset V := (valsPassed calls).filterMap id

def blocksObtained (calls : List (Call K V)) : Multiset ℕ :=
  calls.filterMap fun | .malloc block => block | _ => none

def blocksFreed (calls : List (Call K V)) : Multiset ℕ :=
  calls.filterMap fun | .free block => some block | _ => none

/-- Whenever a block is freed it has been obtained more often than freed before. -/
def ReleasedOnce (calls : List (Call K V)) : Prop :=
  ∀ before block after, calls = before ++ .free block :: after →
    (blocksFreed before).count block < (blocksObtained before).count block

variable (calls more : List (Call K V))

@[simp] theorem keysFreed_append :
    keysFreed (calls ++ more) = keysFreed calls + keysFreed more := by
  simp [keysFreed]

@[simp] theorem valsFreed_append :
    valsFreed (calls ++ more) = valsFreed calls + valsFreed more := by
  simp [valsFreed, valsPassed]

@[simp] theorem blocksObtained_append :
    blocksObtained (calls ++ more) = blocksObtained calls + blocksObtained more := by
  simp [blocksObtained]

@[simp] theorem blocksFreed_append :
    blocksFreed (calls ++ more) = blocksFreed calls + blocksFreed more := by
  simp [blocksFreed]

section Single
variable (block : ℕ) (result : Option ℕ)

@[simp] theorem keysFreed_free : keysFreed [(.free block : Call K V)] = 0 := rfl

@[simp] theorem valsFreed_free : valsFreed [(.free block : Call K V)] = 0 := rfl

@[simp] theorem blocksObtained_free : blocksObtained [(.free block : Call K V)] = 0 := rfl

@[simp] theorem blocksFreed_free : blocksFreed [(.free block : Call K V)] = {block} := rfl

@[simp] theorem keysFreed_malloc : keysFreed [(.malloc result : Call K V)] = 0 := rfl

@[simp] theorem valsFreed_malloc : valsFreed [(.malloc result : Call K V)] = 0 := rfl

@[simp] theorem blocksObtained_malloc :
    blocksObtained [(.malloc result : Call K V)] = result.toList := by
  cases result <;> rfl

@[simp] theorem blocksFreed_malloc : blocksFreed [(.malloc result : Call K V)] = 0 := rfl

end Single

theorem ReleasedOnce.append {calls more : List (Call K V)} (h : ReleasedOnce calls)
    (hmore : blocksFreed more = 0) : ReleasedOnce (calls ++ more) := by
  have hnone : ∀ block, .free block ∉ more := by
    intro block hm
    have hmem : block ∈ blocksFreed more := List.mem_filterMap.mpr ⟨_,hm,rfl⟩
    rw [hmore] at hmem
    exact Multiset.notMem_zero block hmem
  intro before block after he
  rcases List.append_eq_append_iff.mp he with ⟨l,rfl,hl⟩ | ⟨l,hcalls,hl⟩
  · exact absurd (hl ▸ List.mem_append_right l List.mem_cons_self) (hnone block)
  · cases l with
    | nil =>
      rw [List.nil_append] at hl
      exact absurd (hl ▸ List.mem_cons_self) (hnone block)
    | cons c l =>
      obtain ⟨rfl,-⟩ := List.cons.inj hl
      exact h before block l hcalls

theorem ReleasedOnce.free {calls : List (Call K V)} (h : ReleasedOnce calls) {block : ℕ}
    (hlive : (blocksFreed calls).count block < (blocksObtained calls).count block) :
    ReleasedOnce (calls ++ [.free block]) := by
  intro before b after he
  rcases List.eq_nil_or_concat after with rfl | ⟨rest,c,rfl⟩
  · obtain ⟨rfl,hlast⟩ := List.append_inj' he rfl
    cases hlast
    exact hlive
  · rw [List.concat_eq_append, ← List.cons_append, ← List.append_assoc] at he
    exact h before b rest (List.append_inj' he rfl).1

/-- Keys and values that the table has taken over. -/
abbrev Gain (K V : Type*) := Multiset K × Multiset V

def clearCalls (cfg : Config K) (e : Holding K V) : List (Call K V) :=
  keyFreed cfg e.key ++ valFreed cfg e.val ++ [.free e.block]

/-- The calls that removing makes for an entry: a NULL value is passed over. -/
def removeCalls (cfg : Config K) (e : Holding K V) : List (Call K V) :=
  keyFreed cfg e.key ++ (if e.val.isSome then valFreed cfg e.val else []) ++ [.free e.block]

/-- What a table may do with what it owns. -/
inductive Ledger (cfg : Config K) : Books K V → Gain K V → Books K V → Prop
  | nothing (b) : Ledger cfg b 0 b
  | refused (E F c) : Ledger cfg ⟨E,F,c⟩ 0 ⟨E,F,c ++ [.malloc none]⟩
  | obtained (E F c block) : Ledger cfg ⟨E,F,c⟩ 0 ⟨E,block ::ₘ F,c ++ [.malloc (some block)]⟩
  | released (E F c block) : Ledger cfg ⟨E,block ::ₘ F,c⟩ 0 ⟨E,F,c ++ [.free block]⟩
  | linked (E F c) (e : Holding K V) :
    Ledger cfg ⟨E,F,c⟩ ({e.key},e.val.toList) ⟨e ::ₘ E,F,c ++ [.malloc (some e.block)]⟩
  | replaced (E F c) (e : Holding K V) (v : Option V) :
    Ledger cfg ⟨e ::ₘ E,F,c⟩ (0,v.toList) ⟨{ e with val := v } ::ₘ E,F,c ++ valFreed cfg e.val⟩
  | removed (E F c) (e : Holding K V) : Ledger cfg ⟨e ::ₘ E,F,c⟩ 0 ⟨E,F,c ++ removeCalls cfg e⟩
  | cleared (E F c) (e : Holding K V) : Ledger cfg ⟨e ::ₘ E,F,c⟩ 0 ⟨E,F,c ++ clearCalls cfg e⟩
  | trans {b b' b'' g g'} : Ledger cfg b g b' → Ledger cfg b' g' b'' → Ledger cfg b (g + g') b''

/-- What has been taken over is kept or was given back, and what has been obtained
is live or was freed. -/
structure Accounted (cfg : Config K) (given : Gain K V) (b : Books K V) : Prop where
  vals : cfg.valFreeFn = true → given.2 = b.vals + valsFreed b.calls
  keys : cfg.keyFreeFn = true → given.1 = b.keys + keysFreed b.calls
  blocks : blocksObtained b.calls = b.blocks + blocksFreed b.calls
  once : ReleasedOnce b.calls

variable {cfg : Config K}

theorem valsFreed_valFreed (hcfg : cfg.valFreeFn = true) (v : Option V) :
    valsFreed (valFreed cfg v) = v.toList := by
  rw [valFreed, if_pos hcfg]
  cases v <;> rfl

section Freed
variable (cfg : Config K) (k : K) (v : Option V)

@[simp] theorem keysFreed_valFreed : keysFreed (valFreed (K := K) cfg v) = 0 := by
  unfold valFreed
  split <;> rfl

@[simp] theorem valsFreed_keyFreed : valsFreed (keyFreed (V := V) cfg k) = 0 := by
  unfold keyFreed
  split <;> rfl

@[simp] theorem blocksObtained_keyFreed : blocksObtained (keyFreed (V := V) cfg k) = 0 := by
  unfold keyFreed
  split <;> rfl

@[simp] theorem blocksObtained_valFreed : blocksObtained (valFreed (K := K) cfg v) = 0 := by
  unfold valFreed
  split <;> rfl

@[simp] theorem blocksFreed_keyFreed : blocksFreed (keyFreed (V := V) cfg k) = 0 := by
  unfold keyFreed
  split <;> rfl

@[simp] theorem blocksFreed_valFreed : blocksFreed (valFreed (K := K) cfg v) = 0 := by
  unfold valFreed
  split <;> rfl

end Freed

theorem keysFreed_keyFreed (hcfg : cfg.keyFreeFn = true) (k : K) :
    keysFreed (keyFreed (V := V) cfg k) = {k} := by
  rw [keyFreed, if_pos hcfg]
  rfl

variable {g : Gain K V} {E : Multiset (Holding K V)} {F : Multiset ℕ} {c : List (Call K V)}

theorem Accounted.live {b : Books K V} (h : Accounted cfg g b) (block : ℕ)
    (hb : block ∈ b.blocks) :
    (blocksFreed b.calls).count block < (blocksObtained b.calls).count block := by
  have hpos := Multiset.count_pos.mpr hb
  rw [h.blocks, Multiset.count_add]
  omega

theorem Accounted.release {e : Holding K V} (h : Accounted cfg g ⟨e ::ₘ E,F,c⟩)
    {valCalls : List (Call K V)}
    (hvals : cfg.valFreeFn = true → valsFreed valCalls = e.val.toList)
    (hquiet : keysFreed valCalls = 0 ∧ blocksObtained valCalls = 0 ∧ blocksFreed valCalls = 0) :
    Accounted cfg g ⟨E,F,c ++ (keyFreed cfg e.key ++ valCalls ++ [.free e.block])⟩ := by
  obtain ⟨hk,ho,hf⟩ := hquiet
  have hblocks := h.blocks
  have hlive := h.live e.block (by simp)
  constructor
  · intro hcfg
    rw [h.vals hcfg]
    simp [hvals hcfg]
    abel
  · intro hcfg
    rw [h.keys hcfg]
    simp [hk, keysFreed_keyFreed hcfg, ← Multiset.singleton_add]
    abel
  · simp [ho, hf, ← Multiset.singleton_add] at hblocks ⊢
    rw [hblocks]
    abel
  · rw [← List.append_assoc]
    refine (h.once.append ?_).free ?_
    · simp [hf]
    · simpa [ho, hf] using hlive

/-- No transaction upsets the accounts. -/
theorem Accounted.ledger {b b' : Books K V} {gain : Gain K V} (h : Accounted cfg g b)
    (hl : Ledger cfg b gain b') : Accounted cfg (g + gain) b' := by
  induction hl generalizing g with
  | nothing b => rwa [add_zero]
  | refused E F c =>
    have hblocks := h.blocks
    rw [add_zero]
    constructor
    · simpa using h.vals
    · simpa using h.keys
    · simpa using hblocks
    · exact h.once.append (blocksFreed_malloc none)
  | obtained E F c block =>
    have hblocks := h.blocks
    rw [add_zero]
    constructor
    · simpa using h.vals
    · simpa using h.keys
    · simp [← Multiset.singleton_add] at hblocks ⊢
      rw [hblocks]
      abel
    · exact h.once.append (blocksFreed_malloc _)
  | released E F c block =>
    have hblocks := h.blocks
    have hlive := h.live block (by simp)
    rw [add_zero]
    constructor
    · simpa using h.vals
    · simpa using h.keys
    · simp [← Multiset.singleton_add] at hblocks ⊢
      rw [hblocks]
      abel
    · exact h.once.free hlive
  | linked E F c e =>
    have hblocks := h.blocks
    constructor
    · intro hcfg
      simp [h.vals hcfg]
      abel
    · intro hcfg
      simp [h.keys hcfg, ← Multiset.singleton_add]
      abel
    · simp [← Multiset.singleton_add] at hblocks ⊢
      rw [hblocks]
      abel
    · exact h.once.append (blocksFreed_malloc _)
  | replaced E F c e v =>
    have hblocks := h.blocks
    constructor
    · intro hcfg
      simp [h.vals hcfg, valsFreed_valFreed hcfg]
      abel
    · simpa using h.keys
    · simpa using hblocks
    · exact h.once.append (blocksFreed_valFreed cfg e.val)
  | removed E F c e =>
    rw [add_zero]
    refine h.release (fun hcfg => ?_) ⟨?_,?_,?_⟩
    · cases hv : e.val with
      | none => rfl
      | some v => exact valsFreed_valFreed hcfg (some v)
    all_goals split <;> first | rfl | simp
  | cleared E F c e =>
    rw [add_zero]
    exact h.release (fun hcfg => valsFreed_valFreed hcfg e.val) (by simp)
  | trans _ _ ih ih' =>
    rw [← add_assoc]
    exact ih' (ih h)

theorem accounted_nothing : Accounted cfg 0 (⟨0,0,[]⟩ : Books K V) := by
  refine ⟨fun _ => rfl,fun _ => rfl,rfl,fun before block after he => ?_⟩
  simp at he

theorem accounted_handle (handle : ℕ) :
    Accounted cfg 0 (⟨0,{handle},[.malloc (some handle)]⟩ : Books K V) :=
  accounted_nothing.ledger (.obtained 0 0 [] handle)

theorem accounted_refused : Accounted cfg 0 (⟨0,0,[.malloc none]⟩ : Books K V) :=
  accounted_nothing.ledger (.refused 0 0 [])

theorem accounted_noTable (handle : ℕ) :
    Accounted cfg 0 (⟨0,0,[.malloc (some handle), .malloc none, .free handle]⟩ : Books K V) :=
  ((accounted_handle handle).ledger (.refused _ _ _)).ledger (.released 0 0 _ handle)

theorem Ledger.andThen {b b' b'' : Books K V} {g : Gain K V} (h : Ledger cfg b g b')
    (h' : Ledger cfg b' 0 b'') : Ledger cfg b g b'' := by
  have hboth := h.trans h'
  rwa [add_zero] at hboth

theorem Ledger.newTable (E : Multiset (Holding K V)) (handle : ℕ) (old : Option ℕ) (block : ℕ)
    (c : List (Call K V)) :
    Ledger cfg ⟨E,handle ::ₘ ↑old.toList,c⟩ 0
      ⟨E,{handle, block},c ++ .malloc (some block) :: old.toList.map .free⟩ := by
  have hobtained : Ledger cfg _ 0 _ := .obtained E (handle ::ₘ ↑old.toList) c block
  cases old with
  | none =>
    have hframe : block ::ₘ handle ::ₘ (0 : Multiset ℕ) = {handle, block} :=
      Multiset.cons_swap block handle 0
    exact hframe ▸ hobtained
  | some o =>
    have hframe : block ::ₘ handle ::ₘ ({o} : Multiset ℕ) = o ::ₘ {handle, block} := by
      simp only [← Multiset.singleton_add, Multiset.insert_eq_cons]
      abel
    have hreleased : Ledger cfg _ 0 _ := .released E {handle, block}
      (c ++ [.malloc (some block)]) o
    rw [← hframe, List.append_assoc] at hreleased
    exact hobtained.andThen hreleased

theorem Ledger.clearAll (l : List (Holding K V)) (E : Multiset (Holding K V)) (F : Multiset ℕ)
    (c : List (Call K V)) :
    Ledger cfg ⟨(l : Multiset (Holding K V)) + E,F,c⟩ 0 ⟨E,F,c ++ l.flatMap (clearCalls cfg)⟩ := by
  induction l generalizing c with
  | nil =>
    simp only [Multiset.coe_nil, zero_add, List.flatMap_nil, List.append_nil]
    exact .nothing _
  | cons e l ih =>
    have hrest := ih (c ++ clearCalls cfg e)
    rw [List.append_assoc, ← List.flatMap_cons] at hrest
    rw [← Multiset.cons_coe, Multiset.cons_add]
    exact (Ledger.cleared _ F c e).andThen hrest

theorem Ledger.deleteAll (handle block : ℕ) (c : List (Call K V)) :
    Ledger cfg ⟨0,{handle, block},c⟩ 0 ⟨0,0,c ++ [.free block, .free handle]⟩ := by
  have htable : Ledger cfg _ 0 _ := .released 0 {handle} c block
  have hhandle : Ledger cfg _ 0 _ := .released 0 0 (c ++ [.free block]) handle
  rw [List.append_assoc] at hhandle
  have hframe : block ::ₘ ({handle} : Multiset ℕ) = {handle, block} :=
    Multiset.cons_swap block handle 0
  exact (hframe ▸ htable).andThen hhandle

def KeysKept (b b' : Books K V) : Prop :=
  b'.keys = b.keys ∧ keysFreed b'.calls = keysFreed b.calls

theorem KeysKept.refl (b : Books K V) : KeysKept b b := ⟨rfl,rfl⟩

theorem KeysKept.trans {b b' b'' : Books K V} (h : KeysKept b b') (h' : KeysKept b' b'') :
    KeysKept b b'' :=
  ⟨h'.1.trans h.1,h'.2.trans h.2⟩

theorem keysKept_malloc (E : Multiset (Holding K V)) (F F' : Multiset ℕ) (c : List (Call K V))
    (result : Option ℕ) (old : List ℕ) :
    KeysKept ⟨E,F,c⟩ ⟨E,F',c ++ .malloc result :: old.map .free⟩ := by
  have hnone : keysFreed (.malloc result :: old.map .free : List (Call K V)) = 0 := by
    induction old <;> simp_all [keysFreed]
  refine ⟨rfl,?_⟩
  rw [keysFreed_append, hnone, add_zero]

/-- One entry gets another value, and the value that it had is handed back. -/
def Replaces (cfg : Config K) (v : Option V) (b b' : Books K V) : Prop :=
  ∃ e E F c, b = ⟨e ::ₘ E,F,c⟩ ∧ b' = ⟨{ e with val := v } ::ₘ E,F,c ++ valFreed cfg e.val⟩

theorem Replaces.ledger {v : Option V} {b b' : Books K V} (h : Replaces cfg v b b') :
    Ledger cfg b (0,v.toList) b' := by
  obtain ⟨e,E,F,c,rfl,rfl⟩ := h
  exact .replaced E F c e v

theorem Replaces.keysKept {v : Option V} {b b' : Books K V} (h : Replaces cfg v b b') :
    KeysKept b b' := by
  obtain ⟨e,E,F,c,rfl,rfl⟩ := h
  constructor <;> simp

/-- What the accounts see of a table. -/
structure Observed (σ K V : Type*) where
  step : σ → Op K V → Option (σ × Answer V)
  holds : σ → K → Bool
  books : σ → Books K V
  delete : σ → Option (List (Call K V))

variable {σ : Type*}

namespace Observed
variable (T : Observed σ K V)

/-- A successful insertion takes over its value, and its key where that is a new one. -/
def gain (s : σ) : Op K V → Answer V → Gain K V
  | .insert k v _ _, .code 0 => (if T.holds s k then 0 else {k},v.toList)
  | _, _ => 0

def given (s : σ) (ops : List (Op K V)) : Gain K V := accrued T.step T.gain s ops

/-- The accounts of a table at the end of a run, and of its caller if it is deleted then. -/
def Balances (cfg : Config K) (s : σ) (ops : List (Op K V)) : Prop :=
  ∃ t answers, run T.step s ops = some (t, answers) ∧ Accounted cfg (T.given s ops) (T.books t) ∧
    (∀ k v tableAlloc entryAlloc u code,
      T.step t (.insert k v tableAlloc entryAlloc) = some (u, .code code) →
      T.holds t k = true ∨ code = 1 → KeysKept (T.books t) (T.books u)) ∧
    ∃ calls, T.delete t = some calls ∧ Accounted cfg (T.given s ops) ⟨0,0,calls⟩

/-- Where each call is a sequence of transactions every run balances. -/
theorem balances {inv : σ → Prop} {ok : σ → Op K V → Prop}
    (hstep : ∀ s op, inv s → ok s op → ∃ s' answer, T.step s op = some (s', answer) ∧ inv s' ∧
      Ledger cfg (T.books s) (T.gain s op answer) (T.books s'))
    (hkeys : ∀ t k v tableAlloc entryAlloc u code, inv t →
      T.step t (.insert k v tableAlloc entryAlloc) = some (u, .code code) →
      T.holds t k = true ∨ code = 1 → KeysKept (T.books t) (T.books u))
    (hdelete : ∀ t, inv t → ∃ calls, T.delete t = some calls ∧
      Ledger cfg (T.books t) 0 ⟨0,0,calls⟩)
    {s : σ} {ops : List (Op K V)} (hs : inv s) (hstart : Accounted cfg 0 (T.books s))
    (hok : Admits T.step ok s ops) : T.Balances cfg s ops := by
  obtain ⟨t,answers,hrun,ht,hledger⟩ := run_accrues
    (fun s g s' => Ledger cfg (T.books s) g (T.books s')) (fun s => .nothing _)
    (fun _ _ _ _ _ h h' => h.trans h') hstep hs hok
  have hend : Accounted cfg (T.given s ops) (T.books t) := zero_add (T.given s ops) ▸
    hstart.ledger hledger
  obtain ⟨calls,hcalls,hgone⟩ := hdelete t ht
  refine ⟨t,answers,hrun,hend,fun k v tableAlloc entryAlloc u code => hkeys t k v _ _ u code ht,
    calls,hcalls,?_⟩
  exact add_zero (T.given s ops) ▸ hend.ledger hgone

end Observed

end CppExamples.HashTable
