import CppExamples.Library.Progress
import CppExamples.CHacks.HashtblIteration

/-! # Removing from the chained hash table while it is visited

A client calls `hashtbl_iter_next` and `hashtbl_remove` in any order.  The iterator keeps a
pointer to the entry that it returned last and reads `next` from it at the next call, from
memory as it is then.  Keys in a table differ, so the key of an entry stands for the pointer
to it; an entry that has been removed has been freed, and reading it has no result.
-/
namespace CppExamples.HashTable
open Machine Progress
variable {K V : Type*}

/-- The fields of an iterator, with the entry as a pointer. -/
structure Cursor (K V : Type*) where
  key : Option K
  val : Option V
  pos : ℕ
  entry : Option K

structure Visit (K V : Type*) where
  table : Hashtbl K V
  cursor : Cursor K V
  returned : List (Option K × Option V)
  ended : Bool

inductive VisitOp (K : Type*) where
  | next
  | remove (k : K)

def Iter.cursor (iter : Iter K V) : Cursor K V :=
  ⟨iter.key,iter.val,iter.pos,iter.entry.head?.map Entry.key⟩

def visitStart (h : Hashtbl K V) : Visit K V := ⟨h,hashtblIterInit.cursor,[],false⟩

variable (cfg : Config K)

/-- A chain from the entry with this key on. -/
def chainFrom (k : K) (chain : List (Entry K V)) : List (Entry K V) :=
  chain.dropWhile fun entry => !cfg.equalsFn entry.key k

/-- What the pointer leads to; none when the entry is no longer there. -/
def Cursor.iter (c : Cursor K V) (h : Hashtbl K V) : Option (Iter K V) :=
  match c.entry with
  | none => some ⟨c.key,c.val,c.pos,[]⟩
  | some k =>
    match chainFrom cfg k (h.table c.pos) with
    | [] => none
    | entry :: chain => some ⟨c.key,c.val,c.pos,entry :: chain⟩

/-- One call of the client, with a log of what the iterator returned. -/
def visitStep (s : Visit K V) : VisitOp K → Option (Visit K V)
  | .next => (s.cursor.iter cfg s.table).map fun iter =>
    let r := hashtblIterNext s.table iter
    { s with
      cursor := r.1.cursor
      returned := if r.2 = 0 then s.returned else s.returned ++ [(r.1.key,r.1.val)]
      ended := r.2 = 0 }
  | .remove k => some { s with table := (hashtblRemove cfg s.table k).1 }

def iterPairs (h : Hashtbl K V) : List (Option K × Option V) :=
  (visitedByApply h).map fun kv => (some kv.1,kv.2)

def stays (k : K) (entry : Entry K V) : Bool := !cfg.equalsFn entry.key k

variable {cfg} {h origin : Hashtbl K V} {m : KeyMap cfg.toHashFns V} {k : K} {i : ℕ} {iter : Iter K V}
variable {s t : Visit K V} {chain l l' : List (Entry K V)} {entry : Entry K V}

def Entry.returned (entry : Entry K V) : Option K × Option V := (some entry.key,entry.val)

theorem iterPairs_eq (h : Hashtbl K V) : iterPairs h = (slotsFrom h 0).map Entry.returned := by
  rw [iterPairs, visitedByApply_eq, List.map_map]
  rfl

theorem Represents.distinct (hr : Represents cfg h m) :
    (slotsFrom h 0).Pairwise fun a b => cfg.equalsFn a.key b.key = false := by
  have hkeys : (m.entries.keys).Nodup := Multiset.nodup_keys.mpr m.nodupKeys
  rw [hr.entries, ← slotsFrom_content] at hkeys
  have hnodup : ((slotsFrom h 0).map fun entry => cfg.toKey entry.key).Nodup := by
    simpa [Multiset.keys, pair, Function.comp_def] using hkeys
  refine (List.pairwise_map.mp hnodup).imp fun hne => ?_
  rw [← Bool.not_eq_true, ← cfg.toKey_eq_iff]
  exact hne

theorem Represents.lt_tableSize (hr : Represents cfg h m) (he : entry ∈ h.table i) : i < h.tableSize := by
  rw [← hr.wellFormed.placed i entry he]
  exact slotOf_lt hr.size entry.hash

theorem Represents.content_of_slot (hr : Represents cfg h m) (he : entry ∈ h.table i) :
    entry ∈ h.content :=
  Buckets.mem_content.mpr ⟨i,hr.lt_tableSize he,he⟩

theorem Represents.slot_eq (hr : Represents cfg h m) (he : entry ∈ h.table i)
    (hk : cfg.equalsFn entry.key k = true) : i = slotOf h.tableSize (cfg.hashFn k) := by
  have hplaced : slotOf h.tableSize entry.hash = i := hr.wellFormed.placed i entry he
  rw [← hplaced, hr.wellFormed.hashed entry (hr.content_of_slot he), cfg.hash_eq hk]

theorem Represents.distinct_slot (hr : Represents cfg h m) (hi : i < h.tableSize) :
    (h.table i).Pairwise fun a b => cfg.equalsFn a.key b.key = false := by
  have hsub : (h.table i).Sublist (slotsFrom h 0) := by
    have hone := (List.singleton_sublist.mpr (List.mem_range.mpr hi)).flatMap h.table
    rw [List.flatMap_singleton] at hone
    rwa [slotsFrom, Nat.sub_zero, ← List.range_eq_range']
  exact hr.distinct.sublist hsub

theorem stays_eq_false (hk : cfg.equalsFn entry.key k = true) : stays cfg k entry = false := by
  rw [stays, hk]
  rfl

theorem filter_stays (hne : ∀ entry ∈ chain, cfg.equalsFn entry.key k = false) :
    chain.filter (stays cfg k) = chain := by
  rw [List.filter_eq_self]
  intro entry he
  rw [stays, hne entry he]
  rfl

theorem Represents.remove_table (hr : Represents cfg h m) (k : K) (i : ℕ) :
    (hashtblRemove cfg h k).1.table i = (h.table i).filter (stays cfg k) := by
  cases hf : findEntry cfg h.toSlots (cfg.hashFn k) k with
  | none =>
    simp only [hashtblRemove, removeKey, hf]
    refine (filter_stays fun entry he => ?_).symm
    have hne := findEntry_none hr.wellFormed hf (hr.content_of_slot he)
    rwa [ne_eq, cfg.toKey_eq_iff, Bool.not_eq_true] at hne
  | some entry =>
    obtain ⟨hkey,hmatch,l,l',hsplit,hbefore⟩ := findEntry_some hf
    have heq : cfg.equalsFn entry.key k = true := cfg.toKey_eq_iff.mp hkey
    simp only [hashtblRemove, removeKey, hf, hsplit, eraseP_append hbefore hmatch, Slots.unlinkEntry]
    by_cases hi : i = slotOf h.tableSize (cfg.hashFn k)
    · subst hi
      have hdistinct := hr.distinct_slot (slotOf_lt hr.size (cfg.hashFn k))
      rw [hsplit, List.pairwise_append, List.pairwise_cons] at hdistinct
      obtain ⟨-,⟨hafter,-⟩,hfront⟩ := hdistinct
      have hl : ∀ e ∈ l, cfg.equalsFn e.key k = false := by
        intro e he
        rw [Bool.eq_false_iff]
        intro hk
        have hboth := hfront e he entry List.mem_cons_self
        rw [cfg.trans hk (cfg.symm heq)] at hboth
        cases hboth
      have hl' : ∀ e ∈ l', cfg.equalsFn e.key k = false := by
        intro e he
        rw [Bool.eq_false_iff]
        intro hk
        have hboth := hafter e he
        rw [cfg.trans heq (cfg.symm hk)] at hboth
        cases hboth
      rw [Function.update_self, hsplit, List.filter_append, List.filter_cons, stays_eq_false heq,
        filter_stays hl, filter_stays hl']
      rfl
    · rw [Function.update_of_ne hi, filter_stays]
      intro e he
      rw [Bool.eq_false_iff]
      intro hk
      exact hi (hr.slot_eq he hk)

theorem hashtblRemove_tableSize (h : Hashtbl K V) (k : K) :
    (hashtblRemove cfg h k).1.tableSize = h.tableSize := by
  cases hf : findEntry cfg h.toSlots (cfg.hashFn k) k <;>
    simp only [hashtblRemove, removeKey, hf, Slots.unlinkEntry]

theorem Represents.remove_slotsFrom (hr : Represents cfg h m) (k : K) (i : ℕ) :
    slotsFrom (hashtblRemove cfg h k).1 i = (slotsFrom h i).filter (stays cfg k) := by
  rw [slotsFrom, slotsFrom, hashtblRemove_tableSize, List.filter_flatMap]
  congr 1
  funext j
  exact hr.remove_table k j

theorem chainFrom_filter {c : K} (hne : cfg.equalsFn c k = false) (chain : List (Entry K V)) :
    chainFrom cfg c (chain.filter (stays cfg k)) = (chainFrom cfg c chain).filter (stays cfg k) := by
  induction chain with
  | nil => rfl
  | cons entry chain ih =>
    by_cases hc : cfg.equalsFn entry.key c = true
    · have hstays : stays cfg k entry = true := by
        rw [stays, Bool.not_eq_true', Bool.eq_false_iff]
        intro hk
        rw [cfg.trans (cfg.symm hc) hk] at hne
        cases hne
      simp [chainFrom, hc, hstays]
    · unfold chainFrom at ih ⊢
      by_cases hstays : stays cfg k entry = true
      · simp [hc, hstays, ih]
      · simp [hc, hstays, ih]

theorem chainFrom_removed {c : K} (heq : cfg.equalsFn c k = true) (chain : List (Entry K V)) :
    chainFrom cfg c (chain.filter (stays cfg k)) = [] := by
  rw [chainFrom, List.dropWhile_eq_nil_iff]
  intro entry he
  have hstays := (List.mem_filter.mp he).2
  by_contra hc
  rw [Bool.not_eq_true', Bool.not_eq_false] at hc
  rw [stays_eq_false (cfg.trans hc heq)] at hstays
  cases hstays

theorem chainFrom_eq_nil : chainFrom cfg k chain = [] ↔ ∀ entry ∈ chain, cfg.equalsFn entry.key k = false := by
  rw [chainFrom, List.dropWhile_eq_nil_iff]
  simp

theorem chainFrom_suffix (chain : List (Entry K V)) : chainFrom cfg k chain <:+ chain :=
  List.dropWhile_suffix _

theorem chainFrom_append (hfront : ∀ e ∈ l, cfg.equalsFn e.key entry.key = false) :
    chainFrom cfg entry.key (l ++ entry :: l') = entry :: l' := by
  rw [chainFrom, List.dropWhile_append_of_pos]
  · simp [cfg.refl]
  · intro e he
    rw [hfront e he]
    rfl

theorem Represents.iter_cursor (hr : Represents cfg h m) (hchain : iter.entry <:+ h.table iter.pos) :
    iter.cursor.iter cfg h = some iter := by
  obtain ⟨key,val,pos,chain⟩ := iter
  cases chain with
  | nil => rfl
  | cons entry chain =>
    obtain ⟨l,hl⟩ : ∃ l, l ++ entry :: chain = h.table pos := hchain
    have hin : entry ∈ h.table pos := by
      rw [← hl]
      simp
    have hdistinct := hr.distinct_slot (hr.lt_tableSize hin)
    rw [← hl, List.pairwise_append] at hdistinct
    have hfrom : chainFrom cfg entry.key (h.table pos) = entry :: chain := by
      rw [← hl]
      exact chainFrom_append fun e he => hdistinct.2.2 e he entry List.mem_cons_self
    simp only [Iter.cursor, Cursor.iter, List.head?_cons, Option.map_some, hfrom]

theorem chainFrom_head (hchain : chainFrom cfg k chain = entry :: l) :
    cfg.equalsFn entry.key k = true := by
  have hhead := List.head?_dropWhile_not (fun entry => !cfg.equalsFn entry.key k) chain
  rw [chainFrom] at hchain
  rw [hchain] at hhead
  simpa using hhead

theorem Cursor.iter_chain {c : Cursor K V} (hiter : c.iter cfg h = some iter) :
    iter.entry <:+ h.table iter.pos := by
  unfold Cursor.iter at hiter
  split at hiter
  next =>
    obtain rfl := Option.some.inj hiter
    exact List.nil_suffix
  next k hk =>
    split at hiter
    next => cases hiter
    next entry chain hchain =>
      obtain rfl := Option.some.inj hiter
      rw [← hchain]
      exact chainFrom_suffix _

/-- What an iterator has ahead of it after a removal, if it still leads anywhere: the same
without the entry that is gone. -/
theorem Cursor.iter_remove (hr : Represents cfg h m) {c : Cursor K V}
    (hiter : c.iter cfg (hashtblRemove cfg h k).1 = some iter) :
    ∃ old, c.iter cfg h = some old ∧
      iter.remaining (hashtblRemove cfg h k).1 = (old.remaining h).filter (stays cfg k) := by
  obtain ⟨key,val,pos,pointer⟩ := c
  cases pointer with
  | none =>
    obtain rfl := Option.some.inj hiter
    exact ⟨_,rfl,hr.remove_slotsFrom k pos⟩
  | some c =>
    simp only [Cursor.iter, hr.remove_table] at hiter ⊢
    cases hck : cfg.equalsFn c k with
    | true =>
      rw [chainFrom_removed hck] at hiter
      cases hiter
    | false =>
      rw [chainFrom_filter hck] at hiter
      cases hchain : chainFrom cfg c (h.table pos) with
      | nil =>
        rw [hchain] at hiter
        cases hiter
      | cons entry chain =>
        have hstays : stays cfg k entry = true := by
          rw [stays, Bool.not_eq_true', Bool.eq_false_iff]
          intro hk
          rw [cfg.trans (cfg.symm (chainFrom_head hchain)) hk] at hck
          cases hck
        rw [hchain, List.filter_cons, if_pos hstays] at hiter
        obtain rfl := Option.some.inj hiter
        refine ⟨_,rfl,?_⟩
        simp only [Iter.remaining, hr.remove_slotsFrom, List.filter_append]

theorem iterSlots_chain (h : Hashtbl K V) (i : ℕ) (iter : Iter K V) (hentry : iter.entry = []) :
    (iterSlots h i iter).1.entry <:+ h.table (iterSlots h i iter).1.pos ∧
      ((iterSlots h i iter).2 = 0 → (iterSlots h i iter).1.entry = []) := by
  fun_induction iterSlots h i iter with
  | case1 i iter hi hslot ih => exact ih rfl
  | case2 i iter hi entry chain hslot =>
    rw [hslot]
    exact ⟨List.suffix_rfl,fun hcode => absurd hcode one_ne_zero⟩
  | case3 i iter hi =>
    rw [hentry]
    exact ⟨List.nil_suffix,fun _ => rfl⟩

theorem iterNext_chain (hchain : iter.entry <:+ h.table iter.pos) :
    (hashtblIterNext h iter).1.entry <:+ h.table (hashtblIterNext h iter).1.pos ∧
      ((hashtblIterNext h iter).2 = 0 → (hashtblIterNext h iter).1.entry = []) := by
  obtain ⟨key,val,pos,entry⟩ := iter
  rcases entry with _ | ⟨entry,_ | ⟨next,chain⟩⟩
  · exact iterSlots_chain h pos _ rfl
  · exact iterSlots_chain h (pos + 1) _ rfl
  · refine ⟨?_,fun hcode => absurd hcode one_ne_zero⟩
    exact (List.suffix_cons entry (next :: chain)).trans hchain

variable (cfg) in
/-- Of the entries of the table those in front of the iterator have been returned, and what
has been returned and what is ahead of it come in the order of the table at the start. -/
structure Visiting (origin : Hashtbl K V) (s : Visit K V) : Prop where
  table : ∃ m, Represents cfg s.table m
  returned : s.returned.Sublist (iterPairs origin)
  slot : ∀ k, s.cursor.entry = some k → s.cursor.pos = slotOf s.table.tableSize (cfg.hashFn k)
  ended : s.ended = true → s.cursor.entry = none ∧ slotsFrom s.table s.cursor.pos = []
  ahead : ∀ iter, s.cursor.iter cfg s.table = some iter →
    ∃ gone, slotsFrom s.table 0 = gone ++ iter.remaining s.table ∧
      (gone.map Entry.returned).Sublist s.returned ∧
      (s.returned ++ (iter.remaining s.table).map Entry.returned).Sublist (iterPairs origin)

theorem Visiting.start (hr : Represents cfg h m) : Visiting cfg h (visitStart h) where
  table := ⟨m,hr⟩
  returned := List.nil_sublist _
  slot k hk := by cases hk
  ended hended := by cases hended
  ahead iter hiter := by
    obtain rfl := Option.some.inj hiter
    refine ⟨[],rfl,List.nil_sublist _,?_⟩
    rw [iterPairs_eq]
    exact List.Sublist.refl _

theorem Visiting.remove (hv : Visiting cfg origin s) (k : K) :
    Visiting cfg origin { s with table := (hashtblRemove cfg s.table k).1 } := by
  obtain ⟨m,hr⟩ := hv.table
  obtain ⟨m',hr',-⟩ := hashtblRemove_spec hr k
  refine ⟨⟨m',hr'⟩,hv.returned,?_,?_,?_⟩
  · intro c hc
    rw [hashtblRemove_tableSize]
    exact hv.slot c hc
  · intro hended
    obtain ⟨hentry,hnone⟩ := hv.ended hended
    refine ⟨hentry,?_⟩
    rw [hr.remove_slotsFrom, hnone, List.filter_nil]
  · intro iter hiter
    obtain ⟨old,hold,hremaining⟩ := Cursor.iter_remove hr hiter
    obtain ⟨gone,hslots,hgone,hahead⟩ := hv.ahead old hold
    refine ⟨gone.filter (stays cfg k),?_,?_,?_⟩
    · rw [hr.remove_slotsFrom, hslots, List.filter_append, hremaining]
    · exact (List.filter_sublist.map _).trans hgone
    · rw [hremaining]
      exact ((List.filter_sublist.map _).append_left _).trans hahead

/-- A call of the iterator takes the first entry ahead of it, or it ends the iteration. -/
theorem Visiting.next (hv : Visiting cfg origin s) (hiter : s.cursor.iter cfg s.table = some iter)
    (hs : visitStep cfg s .next = some t) :
    Visiting cfg origin t ∧ t.table = s.table ∧
      ((iter.remaining s.table = [] ∧ t.ended = true ∧ t.returned = s.returned) ∨
        ∃ entry rest, iter.remaining s.table = entry :: rest ∧ t.ended = false ∧
          t.returned = s.returned ++ [entry.returned]) := by
  obtain ⟨m,hr⟩ := hv.table
  obtain ⟨gone,hslots,hgone,hahead⟩ := hv.ahead iter hiter
  obtain ⟨hchain,hnone⟩ := iterNext_chain (Cursor.iter_chain hiter)
  have hcursor := hr.iter_cursor hchain
  have htakes := iterNext_takes s.table iter
  simp only [visitStep, hiter, Option.map_some, Option.some.injEq] at hs
  have hslot : ∀ k, t.cursor.entry = some k →
      t.cursor.pos = slotOf t.table.tableSize (cfg.hashFn k) := by
    subst hs
    intro k hk
    obtain ⟨entry,hhead,rfl⟩ := Option.map_eq_some_iff.mp hk
    have hin : entry ∈ s.table.table (hashtblIterNext s.table iter).1.pos :=
      hchain.subset (List.mem_of_head? hhead)
    exact hr.slot_eq hin (cfg.refl entry.key)
  cases hremaining : iter.remaining s.table with
  | nil =>
    rw [hremaining] at htakes hslots hahead
    obtain ⟨hcode,hrest,-,-⟩ := htakes
    have hempty := hnone hcode
    simp only [hcode, if_true, decide_true] at hs
    subst hs
    refine ⟨⟨⟨m,hr⟩,hv.returned,hslot,?_,?_⟩,rfl,.inl ⟨rfl,rfl,rfl⟩⟩
    · intro _
      rw [Iter.remaining, hempty] at hrest
      exact ⟨by simp [Iter.cursor, hempty],hrest⟩
    · intro after hafter
      obtain rfl := Option.some.inj (hcursor.symm.trans hafter)
      rw [hrest]
      exact ⟨gone,hslots,hgone,hahead⟩
  | cons entry rest =>
    rw [hremaining] at htakes hslots hahead
    obtain ⟨hcode,hrest,hkey,hval⟩ := htakes
    simp only [hcode, one_ne_zero, if_false, decide_false, hkey, hval] at hs
    subst hs
    have hmore : (s.returned ++ [entry.returned] ++ rest.map Entry.returned).Sublist (iterPairs origin) := by
      simpa using hahead
    refine ⟨⟨⟨m,hr⟩,(List.sublist_append_left _ _).trans hmore,hslot,?_,?_⟩,rfl,.inr ⟨entry,rest,rfl,rfl,rfl⟩⟩
    · intro hended
      cases hended
    · intro after hafter
      obtain rfl := Option.some.inj (hcursor.symm.trans hafter)
      rw [hrest]
      refine ⟨gone ++ [entry],?_,?_,hmore⟩
      · rw [hslots, List.append_assoc]
        rfl
      · rw [List.map_append]
        exact hgone.append (List.Sublist.refl _)

theorem Visiting.step (hv : Visiting cfg origin s) {op : VisitOp K} (hs : visitStep cfg s op = some t) :
    Visiting cfg origin t := by
  cases op with
  | next =>
    obtain ⟨iter,hiter,-⟩ := Option.map_eq_some_iff.mp hs
    exact (hv.next hiter hs).1
  | remove k =>
    obtain rfl := Option.some.inj hs
    exact hv.remove k

theorem Visiting.run {ops : List (VisitOp K)} (hr : Represents cfg h m)
    (hrun : ops.foldlM (visitStep cfg) (visitStart h) = some s) : Visiting cfg h s :=
  foldlM_invariant (fun _ _ _ hv hs => Visiting.step hv hs) (Visiting.start hr) hrun

theorem Visiting.next_eq_none (hv : Visiting cfg origin s) :
    visitStep cfg s .next = none ↔
      ∃ k, s.cursor.entry = some k ∧ ∀ kv ∈ visitedByApply s.table, cfg.equalsFn kv.1 k = false := by
  obtain ⟨m,hr⟩ := hv.table
  have hmem : ∀ entry, entry ∈ slotsFrom s.table 0 ↔ entry ∈ s.table.content := by
    intro entry
    rw [← slotsFrom_content, Multiset.mem_coe]
  have hnone : visitStep cfg s .next = none ↔ s.cursor.iter cfg s.table = none := Option.map_eq_none_iff
  rw [hnone, visitedByApply_eq]
  simp only [List.forall_mem_map, hmem]
  cases hentry : s.cursor.entry with
  | none => simp [Cursor.iter, hentry]
  | some k =>
    have hiter : s.cursor.iter cfg s.table = none ↔ chainFrom cfg k (s.table.table s.cursor.pos) = [] := by
      simp only [Cursor.iter, hentry]
      cases chainFrom cfg k (s.table.table s.cursor.pos) <;> simp
    rw [hiter, chainFrom_eq_nil]
    constructor
    · intro hslot
      refine ⟨k,rfl,fun entry he => ?_⟩
      obtain ⟨i,hi,hin⟩ := Buckets.mem_content.mp he
      rw [Bool.eq_false_iff]
      intro hk
      have hpos : i = s.cursor.pos := (hr.slot_eq hin hk).trans (hv.slot k hentry).symm
      rw [hpos] at hin
      rw [hslot entry hin] at hk
      cases hk
    · rintro ⟨c,hc,hall⟩ entry hin
      obtain rfl := Option.some.inj hc
      exact hall entry (hr.content_of_slot hin)

/-- Removing while visiting, for every table that a run reaches and every order of calls of
the iterator and removals.  What the iterator returns comes in the order of the table at the
start, so nothing is returned twice; each call returns an entry that is in the table at that
time; when the iterator has returned 0 every entry that is still there has been returned.  Only
a call after the removal of the entry that was returned last goes wrong: it reads that
entry after it was freed. -/
theorem hashtbl_iteration_removing (capacity : ℤ) (handleAlloc tableAlloc : Option ℕ)
    (hcreate : hashtblCreate cfg capacity handleAlloc tableAlloc = .ok h) (ops : List (Op K V)) :
    ∃ h' answers, run (hashtblStep cfg) h ops = some (h', answers) ∧
      ∀ (calls : List (VisitOp K)) (s : Visit K V),
        calls.foldlM (visitStep cfg) (visitStart h') = some s →
        s.returned.Sublist (iterPairs h') ∧
        (s.ended = true → (iterPairs s.table).Sublist s.returned) ∧
        (∀ t, visitStep cfg s .next = some t → t.ended = true ∧ t.returned = s.returned ∨
          ∃ kv ∈ iterPairs s.table, t.ended = false ∧ t.returned = s.returned ++ [kv]) ∧
        (visitStep cfg s .next = none ↔
          ∃ k, s.cursor.entry = some k ∧ ∀ kv ∈ visitedByApply s.table, cfg.equalsFn kv.1 k = false) := by
  obtain ⟨h',m,answers,-,hrun,-,-,hr⟩ := run_refines
    (fun h m op hr (_ : True) => hashtblStep_refines h m op hr)
    (hashtblCreate_represents hcreate) (admits_of_forall (fun _ _ => trivial) h ops)
  refine ⟨h',answers,hrun,fun calls s hcalls => ?_⟩
  have hv := Visiting.run hr hcalls
  refine ⟨hv.returned,?_,?_,hv.next_eq_none⟩
  · intro hended
    obtain ⟨hentry,hnone⟩ := hv.ended hended
    have hiter : s.cursor.iter cfg s.table = some ⟨s.cursor.key,s.cursor.val,s.cursor.pos,[]⟩ := by
      simp only [Cursor.iter, hentry]
    obtain ⟨gone,hslots,hgone,-⟩ := hv.ahead _ hiter
    have hall : slotsFrom s.table 0 = gone := by
      simpa only [Iter.remaining, hnone, List.append_nil] using hslots
    rwa [iterPairs_eq, hall]
  · intro t ht
    obtain ⟨iter,hiter,-⟩ := Option.map_eq_some_iff.mp ht
    obtain ⟨gone,hslots,-,-⟩ := hv.ahead iter hiter
    obtain ⟨-,-,⟨-,hended,hsame⟩ | ⟨entry,rest,hremaining,hended,hmore⟩⟩ := hv.next hiter ht
    · exact .inl ⟨hended,hsame⟩
    · refine .inr ⟨entry.returned,?_,hended,hmore⟩
      rw [iterPairs_eq, hslots, hremaining]
      simp

def threeKeys : List (Op ℕ ℕ) :=
  [.insert 1 (some 10) none (some 3), .insert 2 (some 20) none (some 4), .insert 3 (some 30) none (some 5)]

/-- Three keys in one chain: the second goes before it is reached. -/
theorem hashtbl_iteration_removing_three :
    ∃ h' answers, run (hashtblStep collidingKeys) collidingTable threeKeys = some (h', answers) ∧
      (([VisitOp.next,.remove 2,.next,.next].foldlM (visitStep collidingKeys) (visitStart h')).map
        fun s => (s.ended,s.returned)) = some (true,[(some 3,some 30),(some 1,some 10)]) ∧
      ∀ (calls : List (VisitOp ℕ)) (s : Visit ℕ ℕ),
        calls.foldlM (visitStep collidingKeys) (visitStart h') = some s →
        s.returned.Sublist (iterPairs h') := by
  have hcreate : hashtblCreate collidingKeys 1 (some 1) (some 2) = .ok collidingTable := rfl
  obtain ⟨h',answers,hrun,hcalls⟩ := hashtbl_iteration_removing 1 (some 1) (some 2) hcreate threeKeys
  refine ⟨h',answers,hrun,?_,fun calls s hs => (hcalls calls s hs).1⟩
  obtain ⟨rfl,-⟩ := Prod.mk.inj (Option.some.inj hrun)
  decide +kernel

end CppExamples.HashTable
