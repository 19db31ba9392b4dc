import Mathlib
import CppExamples.CHacks.HashtblOwnership
import CppExamples.CHacks.LinkedHashtblOrder

/-! # What the linked hash table owns

The entries are the nodes on the ring.  As for the chained table, each function is a
sequence of transactions; an insertion may be followed by an eviction and by a new
table array.
-/
namespace CppExamples.LinkedTable
open HashTable Buckets Linked Machine

variable {K V : Type*}

def ringNodes (h : LHashtbl K V) : List ℕ := (walk h.next 0 h.nentries (h.next 0)).getD []

def nodeHolding (data : ℕ → Option (LEntry K V)) (a : ℕ) : Option (Holding K V) :=
  (data a).map fun e => ⟨e.key,e.val,a⟩

def LHashtbl.books (h : LHashtbl K V) : Books K V :=
  ⟨(ringNodes h).filterMap (nodeHolding h.data),h.handle ::ₘ ↑h.tableBlock.toList,h.calls⟩

def lHashtblHolds (cfg : LConfig K) (h : LHashtbl K V) (k : K) : Bool :=
  (findEntry cfg h k).any (· ≠ 0)

def observedLHashtbl (cfg : LConfig K) (V : Type*) : Observed (LHashtbl K V) K V where
  step := lHashtblStep cfg
  holds := lHashtblHolds cfg
  books := LHashtbl.books
  delete := lHashtblDelete cfg

variable {cfg : LConfig K} {h h' : LHashtbl K V} {L l m : List ℕ} {a : ℕ} {k : K} {v : Option V}
variable {p q pairs : List (K × Option V)} {kv : K × Option V} {code : ℕ}
variable {data : ℕ → Option (LEntry K V)}

theorem books_eq (hring : Ring h.next h.prev 0 L) (hcount : L.length ≤ h.nentries) :
    h.books = ⟨L.filterMap (nodeHolding h.data),h.handle ::ₘ ↑h.tableBlock.toList,h.calls⟩ := by
  rw [LHashtbl.books, ringNodes, Path.walk hring.forward.2 hring.head_notMem hcount,
    Option.getD_some]

theorem Represents.books (hr : Represents cfg h L pairs) :
    h.books = ⟨L.filterMap (nodeHolding h.data),h.handle ::ₘ ↑h.tableBlock.toList,h.calls⟩ :=
  books_eq hr.ring hr.count.ge

theorem filterMap_middle {e : Holding K V} (he : nodeHolding data a = some e) :
    (((l ++ a :: m).filterMap (nodeHolding data) : List (Holding K V)) : Multiset (Holding K V))
      = e ::ₘ ↑((l ++ m).filterMap (nodeHolding data)) := by
  rw [List.filterMap_append, List.filterMap_cons_some he, List.filterMap_append, coe_middle]

theorem filterMap_update_of_notMem (x : Option (LEntry K V)) (ha : a ∉ l) :
    l.filterMap (nodeHolding (Function.update data a x)) = l.filterMap (nodeHolding data) := by
  refine List.filterMap_congr fun b hb => ?_
  rw [nodeHolding, Function.update_of_ne (ne_of_mem_of_not_mem hb ha), nodeHolding]

theorem Found.holding {ref : Option ℕ} (hf : Found cfg h k ref a l m p q kv) :
    nodeHolding h.data a = some ⟨kv.1,kv.2,a⟩ := by
  rw [nodeHolding, hf.entry_eq, Option.map_some]

theorem lHashtblRemove_ledger (hr : Represents cfg h L pairs)
    (hrun : lHashtblRemove cfg h k = some (h', code)) :
    Ledger cfg.toConfig h.books 0 h'.books ∧ h'.tableBlock = h.tableBlock := by
  rcases hr.find_cases k with ⟨ref,hfind,hmiss⟩ | ⟨ref,a,l,m,p,q,kv,rfl,rfl,hf⟩
  · simp only [lHashtblRemove, removeKey, hfind, Option.map_some, if_true, Option.bind_some,
      Option.some.injEq, Prod.mk.injEq] at hrun
    obtain ⟨rfl,-⟩ := hrun
    exact ⟨.nothing _,rfl⟩
  · obtain ⟨t,ht,hr',hdata,hhandle,htable,hcalls⟩ := lHashtblRemove_found hr hf
    obtain ⟨rfl,-⟩ := Prod.mk.inj (Option.some.inj (ht.symm.trans hrun))
    have hremoved : t.calls = h.calls ++ removeCalls cfg.toConfig ⟨kv.1,kv.2,a⟩ := by
      rw [hcalls]
      simp [removeCalls]
    rw [hr.books, hr'.books, filterMap_middle hf.holding, hdata,
      filterMap_update_of_notMem none hr.notMem, hhandle, htable, hremoved]
    exact ⟨.removed _ _ _ ⟨kv.1,kv.2,a⟩,rfl⟩

theorem evict_ledger (hr : Represents cfg h L pairs) (hrun : evict cfg h = some h') :
    Ledger cfg.toConfig h.books 0 h'.books ∧ h'.tableBlock = h.tableBlock := by
  unfold evict at hrun
  split at hrun
  · simp only [Option.bind_eq_some_iff, Option.map_eq_some_iff] at hrun
    obtain ⟨e,_,⟨t,code⟩,hremove,rfl⟩ := hrun
    exact lHashtblRemove_ledger hr hremove
  · obtain rfl := Option.some.inj hrun
    exact ⟨.nothing _,rfl⟩

theorem lHashtblResize_ledger {requested : ℤ} {tableAlloc : Option ℕ}
    (hrun : lHashtblResize cfg h requested tableAlloc = some (h', code)) :
    Ledger cfg.toConfig h.books 0 h'.books ∧
      (h.tableBlock.isSome = true → h'.tableBlock.isSome = true) := by
  by_cases hsmall : roundedCapacity requested ≤ h.tableSize
  · simp only [lHashtblResize, if_pos hsmall, Option.some.injEq, Prod.mk.injEq] at hrun
    obtain ⟨rfl,-⟩ := hrun
    exact ⟨.nothing _,id⟩
  · simp only [lHashtblResize, if_neg hsmall] at hrun
    cases tableAlloc with
    | none =>
      simp only [Option.some.injEq, Prod.mk.injEq] at hrun
      obtain ⟨rfl,-⟩ := hrun
      exact ⟨.refused ..,id⟩
    | some block =>
      simp only [Option.map_eq_some_iff, Prod.mk.injEq] at hrun
      obtain ⟨links,_,rfl,-⟩ := hrun
      exact ⟨.newTable _ _ h.tableBlock block _,fun _ => rfl⟩

theorem autoResized_ledger {tableAlloc : Option ℕ} (hrun : autoResized cfg h tableAlloc = some h') :
    Ledger cfg.toConfig h.books 0 h'.books ∧
      (h.tableBlock.isSome = true → h'.tableBlock.isSome = true) := by
  unfold autoResized at hrun
  split at hrun
  · simp only [Option.map_eq_some_iff] at hrun
    obtain ⟨⟨t,code⟩,hresize,rfl⟩ := hrun
    exact lHashtblResize_ledger hresize
  · obtain rfl := Option.some.inj hrun
    exact ⟨.nothing _,id⟩

theorem lHashtblInsert_replaces (hr : Represents cfg h (l ++ a :: m) (p ++ kv :: q))
    {ref : Option ℕ} (hf : Found cfg h k ref a l m p q kv) (v : Option V)
    (tableAlloc entryAlloc : Option ℕ) :
    ∃ h', lHashtblInsert cfg h k v tableAlloc entryAlloc = some (h', 0) ∧
      Replaces cfg.toConfig v h.books h'.books ∧ h'.tableBlock = h.tableBlock := by
  have hstored := hf.entry_eq
  have hnew := (hr.replace (v := v) hf (h.calls ++ valFreed cfg.toConfig kv.2)).books
  have hholding : nodeHolding (Function.update h.data a (some ⟨kv.1,v,cfg.hashFn kv.1⟩)) a
      = some ⟨kv.1,v,a⟩ := by
    rw [nodeHolding, Function.update_self, Option.map_some]
  have hrun : lHashtblInsert cfg h k v tableAlloc entryAlloc = some ({ h with
      data := Function.update h.data a (some ⟨kv.1,v,cfg.hashFn kv.1⟩)
      calls := h.calls ++ valFreed cfg.toConfig kv.2 }, 0) := by
    simp only [lHashtblInsert, findEntry, hf.find, Option.map_some, Option.bind_some, ne_eq,
      hf.nonnull, not_false_eq_true, if_true, hstored]
  refine ⟨_,hrun,?_,rfl⟩
  rw [filterMap_middle hholding, filterMap_update_of_notMem _ hr.notMem] at hnew
  refine ⟨⟨kv.1,kv.2,a⟩,_,_,_,?_,hnew⟩
  rw [hr.books, filterMap_middle hf.holding]

theorem linkNew_ledger (hr : Represents cfg h L pairs)
    (hmiss : ∀ kv ∈ pairs, sameKey cfg k kv = false) {entry : ℕ} (h0 : entry ≠ 0)
    (hfree : h.data entry = none) (v : Option V) :
    Ledger cfg.toConfig h.books ({k},v.toList) (linkNew cfg h k v entry).books := by
  have hentry : entry ∉ L := hr.notMem_of_free hfree
  have hnew := (hr.linkNew hmiss h0 hfree v).books
  have hholding : nodeHolding (Function.update h.data entry (some ⟨k,v,cfg.hashFn k⟩)) entry
      = some ⟨k,v,entry⟩ := by
    rw [nodeHolding, Function.update_self, Option.map_some]
  have hdata : (linkNew cfg h k v entry).data
      = Function.update h.data entry (some ⟨k,v,cfg.hashFn k⟩) := rfl
  rw [hdata, List.filterMap_cons_some hholding, filterMap_update_of_notMem _ hentry,
    ← Multiset.cons_coe] at hnew
  rw [hr.books, hnew]
  exact .linked _ _ _ ⟨k,v,entry⟩

theorem lHashtblInsert_ledger (hr : Represents cfg h L pairs) {tableAlloc entryAlloc : Option ℕ}
    (hfresh : FreshBlock h (.insert k v tableAlloc entryAlloc))
    (hrun : lHashtblInsert cfg h k v tableAlloc entryAlloc = some (h', code)) :
    Ledger cfg.toConfig h.books
        ((observedLHashtbl cfg V).gain h (.insert k v tableAlloc entryAlloc) (.code code)) h'.books ∧
      (h.tableBlock.isSome = true → h'.tableBlock.isSome = true) := by
  rcases hr.find_cases k with ⟨ref,hfind,hmiss⟩ | ⟨ref,a,l,m,p,q,kv,rfl,rfl,hf⟩
  · have hholds : lHashtblHolds cfg h k = false := by simp [lHashtblHolds, findEntry, hfind]
    cases entryAlloc with
    | none =>
      simp only [lHashtblInsert, findEntry, hfind, Option.map_some, Option.bind_some, ne_eq,
        not_true_eq_false, if_false, Option.some.injEq, Prod.mk.injEq] at hrun
      obtain ⟨rfl,rfl⟩ := hrun
      exact ⟨.refused ..,id⟩
    | some entry =>
      simp only [lHashtblInsert, findEntry, hfind, Option.map_some, Option.bind_some, ne_eq,
        not_true_eq_false, if_false, Option.bind_eq_some_iff, Option.map_eq_some_iff,
        Prod.mk.injEq] at hrun
      obtain ⟨evicted,hevict,grown,hgrow,rfl,rfl⟩ := hrun
      have hlinked := linkNew_ledger hr hmiss hfresh.1 hfresh.2 v
      obtain ⟨hgone,htable⟩ := evict_ledger (hr.linkNew hmiss hfresh.1 hfresh.2 v) hevict
      obtain ⟨hgrown,hsome⟩ := autoResized_ledger hgrow
      simp only [Observed.gain, observedLHashtbl, hholds]
      refine ⟨(hlinked.andThen hgone).andThen hgrown,fun ht => hsome ?_⟩
      rw [htable]
      exact ht
  · obtain ⟨t,ht,hreplaces,htable⟩ := lHashtblInsert_replaces hr hf v tableAlloc entryAlloc
    have hholds : lHashtblHolds cfg h k = true := by
      simp [lHashtblHolds, findEntry, hf.find, hf.nonnull]
    obtain ⟨rfl,rfl⟩ := Prod.mk.inj (Option.some.inj (ht.symm.trans hrun))
    simp only [Observed.gain, observedLHashtbl, hholds, if_true]
    exact ⟨hreplaces.ledger,fun hsome => htable ▸ hsome⟩

theorem lHashtblInsert_keysKept (hr : Represents cfg h L pairs) {tableAlloc entryAlloc : Option ℕ}
    (hrun : lHashtblInsert cfg h k v tableAlloc entryAlloc = some (h', code))
    (hkept : lHashtblHolds cfg h k = true ∨ code = 1) : KeysKept h.books h'.books := by
  rcases hr.find_cases k with ⟨ref,hfind,hmiss⟩ | ⟨ref,a,l,m,p,q,kv,rfl,rfl,hf⟩
  · have hholds : lHashtblHolds cfg h k = false := by simp [lHashtblHolds, findEntry, hfind]
    simp only [lHashtblInsert, findEntry, hfind, Option.map_some, Option.bind_some, ne_eq,
      not_true_eq_false, if_false] at hrun
    cases entryAlloc with
    | none =>
      simp only [Option.some.injEq, Prod.mk.injEq] at hrun
      obtain ⟨rfl,rfl⟩ := hrun
      exact keysKept_malloc _ _ _ _ none []
    | some entry =>
      simp only [Option.bind_eq_some_iff, Option.map_eq_some_iff, Prod.mk.injEq] at hrun
      obtain ⟨_,_,_,_,_,rfl⟩ := hrun
      simp [hholds] at hkept
  · obtain ⟨t,ht,hreplaces,_⟩ := lHashtblInsert_replaces hr hf v tableAlloc entryAlloc
    obtain ⟨rfl,-⟩ := Prod.mk.inj (Option.some.inj (ht.symm.trans hrun))
    exact hreplaces.keysKept

theorem clearLoop_calls (cfg : LConfig K) (hring : Ring h.next h.prev 0 L)
    (hdata : ∀ a ∈ L, ∃ e, h.data a = some e) {fuel : ℕ} (hfuel : L.length ≤ fuel)
    (hrun : clearLoop cfg fuel (h.next 0) (h.next (h.next 0)) h = some h') :
    h'.handle = h.handle ∧ h'.tableBlock = h.tableBlock ∧
      h'.calls = h.calls ++
        (L.filterMap (nodeHolding h.data)).flatMap (clearCalls cfg.toConfig) := by
  induction L generalizing h fuel with
  | nil =>
    have hend : h.next 0 = 0 := hring.forward.2
    have hsame : h = h' := by cases fuel <;> simpa [clearLoop, hend] using hrun
    subst hsame
    exact ⟨rfl,rfl,(List.append_nil _).symm⟩
  | cons a l ih =>
    obtain ⟨e,he⟩ := hdata a List.mem_cons_self
    obtain ⟨hrest,ha⟩ := freedNode_ring (e := e) cfg hring
    cases fuel with
    | zero => simp at hfuel
    | succ fuel =>
      have hholding : nodeHolding h.data a = some ⟨e.key,e.val,a⟩ := by
        rw [nodeHolding, he, Option.map_some]
      have hleft : l.filterMap (nodeHolding (freedNode cfg h a e).data)
          = l.filterMap (nodeHolding h.data) := filterMap_update_of_notMem none ha
      rw [clearLoop_cons cfg hring he] at hrun
      obtain ⟨hhandle,htable,hcalls⟩ := ih hrest (freedNode_data cfg ha hdata) (by simpa using hfuel) hrun
      refine ⟨hhandle,htable,?_⟩
      rw [hcalls, hleft, List.filterMap_cons_some hholding, List.flatMap_cons, ← List.append_assoc]
      simp [freedNode, listRemove, clearCalls]

theorem lHashtblClear_ledger (hr : Represents cfg h L pairs) (hrun : lHashtblClear cfg h = some h') :
    Ledger cfg.toConfig h.books 0 h'.books ∧ h'.tableBlock = h.tableBlock := by
  obtain ⟨t,ht,hempty⟩ := lHashtblClear_spec hr
  obtain rfl := Option.some.inj (ht.symm.trans hrun)
  rw [lHashtblClear, Option.map_eq_some_iff] at hrun
  obtain ⟨cleared,hloop,hcleared⟩ := hrun
  obtain ⟨hhandle,htable,hcalls⟩ :=
    clearLoop_calls cfg hr.ring (exists_data hr.data) hr.count.ge hloop
  have hhandle' : t.handle = h.handle := by rw [← hcleared]; exact hhandle
  have htable' : t.tableBlock = h.tableBlock := by rw [← hcleared]; exact htable
  have hcalls' : t.calls = cleared.calls := by rw [← hcleared]; rfl
  have hall : Ledger cfg.toConfig _ 0 _ := .clearAll (L.filterMap (nodeHolding h.data)) 0
    (h.handle ::ₘ ↑h.tableBlock.toList) h.calls
  rw [add_zero] at hall
  rw [hr.books, hempty.books, hhandle', htable', hcalls', hcalls]
  exact ⟨hall,rfl⟩

theorem lHashtblDelete_ledger (hr : Represents cfg h L pairs) (hsome : h.tableBlock.isSome = true) :
    ∃ calls, lHashtblDelete cfg h = some calls ∧ Ledger cfg.toConfig h.books 0 ⟨0,0,calls⟩ := by
  obtain ⟨cleared,hclear,hempty⟩ := lHashtblClear_spec hr
  obtain ⟨hledger,htable⟩ := lHashtblClear_ledger hr hclear
  obtain ⟨block,hblock⟩ := Option.isSome_iff_exists.mp hsome
  rw [← htable] at hblock
  refine ⟨_,by rw [lHashtblDelete, hclear, Option.bind_some, hblock]; rfl,?_⟩
  rw [hempty.books, hblock] at hledger
  exact hledger.andThen (.deleteAll ..)

theorem recordAccess_ledger (hr : Represents cfg h L pairs)
    (hrun : lHashtblLookup cfg h k = some (h', v)) :
    Ledger cfg.toConfig h.books 0 h'.books ∧ h'.tableBlock = h.tableBlock := by
  rcases hr.find_cases k with ⟨ref,hfind,hmiss⟩ | ⟨ref,a,l,m,p,q,kv,rfl,rfl,hf⟩
  · simp only [lHashtblLookup, findEntry, hfind, Option.map_some, Option.bind_some, if_true,
      Option.some.injEq, Prod.mk.injEq] at hrun
    obtain ⟨rfl,-⟩ := hrun
    exact ⟨.nothing _,rfl⟩
  · simp only [lHashtblLookup, findEntry, hf.find, Option.map_some, Option.bind_some, hf.nonnull,
      if_false, hf.entry_eq, Option.some.injEq, Prod.mk.injEq] at hrun
    obtain ⟨rfl,-⟩ := hrun
    unfold recordAccess
    split
    · have hmoved := (hr.moveToFront hf.before hf.entry hf.after).books
      have hperm : (((a :: (l ++ m)).filterMap (nodeHolding h.data) : List (Holding K V)) :
          Multiset (Holding K V)) = ↑((l ++ a :: m).filterMap (nodeHolding h.data)) :=
        Multiset.coe_eq_coe.mpr (List.perm_middle.symm.filterMap _)
      have hsame : (listAddBefore (listRemove h a) a 0).books = h.books := by
        rw [hmoved, hr.books]
        exact congrArg (Books.mk · _ _) hperm
      rw [hsame]
      exact ⟨.nothing _,rfl⟩
    · exact ⟨.nothing _,rfl⟩

theorem lHashtblStep_ledger (h : LHashtbl K V) (op : Op K V)
    (hinv : (∃ L pairs, Represents cfg h L pairs) ∧ h.tableBlock.isSome = true)
    (hfresh : FreshBlock h op) :
    ∃ h' answer, lHashtblStep cfg h op = some (h', answer) ∧
      ((∃ L pairs, Represents cfg h' L pairs) ∧ h'.tableBlock.isSome = true) ∧
      Ledger cfg.toConfig h.books ((observedLHashtbl cfg V).gain h op answer) h'.books := by
  obtain ⟨⟨L,pairs,hr⟩,hsome⟩ := hinv
  obtain ⟨h',pairs',answer,_,hstep,_,_,L',hr'⟩ := lHashtblStep_refines h pairs op ⟨L,hr⟩ hfresh
  refine ⟨h',answer,hstep,?_⟩
  have hinv' : ∃ L pairs, Represents cfg h' L pairs := ⟨L',pairs',hr'⟩
  cases op with
  | insert k v tableAlloc entryAlloc =>
    simp only [lHashtblStep, Option.map_eq_some_iff, Prod.mk.injEq] at hstep
    obtain ⟨⟨t,code⟩,hrun,rfl,rfl⟩ := hstep
    obtain ⟨hledger,htable⟩ := lHashtblInsert_ledger hr hfresh hrun
    exact ⟨⟨hinv',htable hsome⟩,hledger⟩
  | lookup k =>
    simp only [lHashtblStep, Option.map_eq_some_iff, Prod.mk.injEq] at hstep
    obtain ⟨⟨t,v⟩,hrun,rfl,rfl⟩ := hstep
    obtain ⟨hledger,htable⟩ := recordAccess_ledger hr hrun
    exact ⟨⟨hinv',htable ▸ hsome⟩,hledger⟩
  | remove k =>
    simp only [lHashtblStep, Option.map_eq_some_iff, Prod.mk.injEq] at hstep
    obtain ⟨⟨t,code⟩,hrun,rfl,rfl⟩ := hstep
    obtain ⟨hledger,htable⟩ := lHashtblRemove_ledger hr hrun
    exact ⟨⟨hinv',htable ▸ hsome⟩,hledger⟩
  | clear =>
    simp only [lHashtblStep, Option.map_eq_some_iff, Prod.mk.injEq] at hstep
    obtain ⟨t,hrun,rfl,rfl⟩ := hstep
    obtain ⟨hledger,htable⟩ := lHashtblClear_ledger hr hrun
    exact ⟨⟨hinv',htable ▸ hsome⟩,hledger⟩
  | resize capacity tableAlloc =>
    simp only [lHashtblStep, Option.map_eq_some_iff, Prod.mk.injEq] at hstep
    obtain ⟨⟨t,code⟩,hrun,rfl,rfl⟩ := hstep
    obtain ⟨hledger,htable⟩ := lHashtblResize_ledger hrun
    exact ⟨⟨hinv',htable hsome⟩,hledger⟩
  | count =>
    cases hstep
    exact ⟨⟨hinv',hsome⟩,.nothing _⟩

theorem lHashtblCreate_null {capacity : ℤ} {handleAlloc tableAlloc : Option ℕ}
    {calls : List (Call K V)}
    (hcreate : lHashtblCreate cfg capacity handleAlloc tableAlloc = some (.error calls)) :
    Accounted cfg.toConfig 0 ⟨0,0,calls⟩ := by
  have hgrow : ¬ roundedCapacity capacity ≤ 0 := Nat.not_le.mpr (roundedCapacity_pos capacity)
  cases handleAlloc with
  | none =>
    cases hcreate
    exact accounted_refused
  | some handle =>
    cases tableAlloc with
    | none =>
      simp [lHashtblCreate, lHashtblResize, listInit, hgrow] at hcreate
      exact hcreate ▸ accounted_noTable handle
    | some block =>
      simp [lHashtblCreate, lHashtblResize, listInit, hgrow] at hcreate

theorem lHashtblCreate_accounted {capacity : ℤ} {handleAlloc tableAlloc : Option ℕ}
    (hcreate : lHashtblCreate cfg capacity handleAlloc tableAlloc = some (.ok h)) :
    Accounted cfg.toConfig 0 h.books ∧ h.tableBlock.isSome = true := by
  have hempty := lHashtblCreate_represents hcreate
  obtain ⟨handle,block,rfl⟩ := lHashtblCreate_ok hcreate
  rw [hempty.books]
  exact ⟨(accounted_handle handle).ledger (.newTable 0 handle none block _),rfl⟩

/-- As long as `malloc_fn` returns blocks that are not in use, every run from a table
that was created balances. -/
theorem lHashtbl_balances {capacity : ℤ} {handleAlloc tableAlloc : Option ℕ}
    (hcreate : lHashtblCreate cfg capacity handleAlloc tableAlloc = some (.ok h))
    {ops : List (Op K V)} (hfresh : Admits (lHashtblStep cfg) FreshBlock h ops) :
    (observedLHashtbl cfg V).Balances cfg.toConfig h ops := by
  obtain ⟨hstart,htable⟩ := lHashtblCreate_accounted hcreate
  refine (observedLHashtbl cfg V).balances lHashtblStep_ledger ?_ (fun t ht => ?_)
    ⟨⟨[],[],lHashtblCreate_represents hcreate⟩,htable⟩ hstart hfresh
  · intro t k v tableAlloc entryAlloc u code ht hstep hkept
    obtain ⟨⟨L,pairs,hr⟩,_⟩ := ht
    simp only [observedLHashtbl, lHashtblStep, Option.map_eq_some_iff, Prod.mk.injEq,
      Answer.code.injEq] at hstep
    obtain ⟨⟨t',code'⟩,hrun,rfl,rfl⟩ := hstep
    exact lHashtblInsert_keysKept hr hrun hkept
  · obtain ⟨⟨L,pairs,hr⟩,htable⟩ := ht
    exact lHashtblDelete_ledger hr htable

theorem lHashtblCreate_isSome (cfg : LConfig K) (V : Type*) (capacity : ℤ)
    (handleAlloc tableAlloc : Option ℕ) :
    (lHashtblCreate (V := V) cfg capacity handleAlloc tableAlloc).isSome = true := by
  cases handleAlloc with
  | none => rfl
  | some handle =>
    by_cases hgrow : roundedCapacity capacity ≤ 0
    · simp [lHashtblCreate, lHashtblResize, listInit, hgrow]
    · cases tableAlloc <;> simp [lHashtblCreate, lHashtblResize, listInit, hgrow, relink]

/-- Ownership in both tables: one that is not created owes nothing, and at the end of
every run of one that is, as well as after deleting it there, the accounts balance. -/
theorem hashtables_balance (cfg : Config K) (lcfg : LConfig K) (V : Type*) (capacity : ℤ)
    (handleAlloc tableAlloc : Option ℕ) :
    (∀ calls, hashtblCreate (V := V) cfg capacity handleAlloc tableAlloc = .error calls →
      Accounted cfg 0 ⟨0,0,calls⟩) ∧
    (∀ h, hashtblCreate cfg capacity handleAlloc tableAlloc = .ok h →
      ∀ ops, (observedHashtbl cfg V).Balances cfg h ops) ∧
    (lHashtblCreate (V := V) lcfg capacity handleAlloc tableAlloc).isSome = true ∧
    (∀ calls, lHashtblCreate (V := V) lcfg capacity handleAlloc tableAlloc = some (.error calls) →
      Accounted lcfg.toConfig 0 ⟨0,0,calls⟩) ∧
    ∀ h, lHashtblCreate lcfg capacity handleAlloc tableAlloc = some (.ok h) →
      ∀ ops, Admits (lHashtblStep lcfg) FreshBlock h ops →
        (observedLHashtbl lcfg V).Balances lcfg.toConfig h ops :=
  ⟨fun _ => hashtblCreate_null,fun _ => hashtbl_balances,
    lHashtblCreate_isSome lcfg V capacity handleAlloc tableAlloc,fun _ => lHashtblCreate_null,
    fun _ hcreate _ => lHashtbl_balances hcreate⟩

theorem hashtables_balance_sample :
    (observedHashtbl collidingKeys ℕ).Balances collidingKeys collidingTable collidingOps ∧
    (observedLHashtbl lruConfig ℕ).Balances lruConfig.toConfig lruTable lruOps := by
  obtain ⟨_,hchained,_,_,hlinked⟩ :=
    hashtables_balance collidingKeys lruConfig ℕ 1 (some 1) (some 2)
  refine ⟨hchained collidingTable rfl collidingOps,hlinked lruTable rfl lruOps ?_⟩
  refine ⟨⟨by decide,rfl⟩,fun r hr => ?_⟩
  cases hr
  exact ⟨⟨by decide,rfl⟩,fun _ _ => ⟨trivial,fun _ _ => ⟨trivial,fun _ _ => trivial⟩⟩⟩

/-- A table that does not grow, with functions to free keys and values or without. -/
def fixedKeys (freeFns : Bool) : Config ℕ where
  toHashFns := collidingFns
  thresholdOf _ := 0
  autoResize := false
  keyFreeFn := freeFns
  valFreeFn := freeFns

/-- Clearing passes a NULL value to `val_free_fn`; and what is removed from a table
without such functions is neither stored nor passed to one. -/
theorem hashtables_balance_unguarded :
    (∃ h answers, run (hashtblStep (fixedKeys true)) collidingTable
        [.insert 1 none none (some 3), .clear] = some (h, answers) ∧
      (((observedHashtbl (fixedKeys true) ℕ).given collidingTable
        [.insert 1 none none (some 3), .clear]).2.map some ≠
          h.books.vals.map some + valsPassed h.calls)) ∧
    ∃ h answers, run (hashtblStep (fixedKeys false)) collidingTable
        [.insert 1 (some 10) none (some 3), .remove 1] = some (h, answers) ∧
      (((observedHashtbl (fixedKeys false) ℕ).given collidingTable
        [.insert 1 (some 10) none (some 3), .remove 1]).2.map some ≠
          h.books.vals.map some + valsPassed h.calls) ∧
      (((observedHashtbl (fixedKeys false) ℕ).given collidingTable
        [.insert 1 (some 10) none (some 3), .remove 1]).1 ≠
          h.books.keys + keysFreed h.calls) := by
  refine ⟨⟨_,_,rfl,?_⟩,_,_,rfl,?_,?_⟩ <;> decide

end CppExamples.LinkedTable
