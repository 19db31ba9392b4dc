import Mathlib
import CppExamples.Library.Machine
import CppExamples.Library.Ring
import CppExamples.Library.Chains
import CppExamples.CHacks.LinkedHashtbl

/-! # The linked hash table is an ordered map

The nodes on the ring, in its order, are the nodes on the chains, and what they hold
is a list of pairs with distinct keys.  Every call acts on that list; growing the
table rebuilds the chains only.
-/
namespace CppExamples.LinkedTable
open HashTable Buckets Linked Machine

variable {K V : Type*}

def sameKey (cfg : LConfig K) (k : K) (kv : K × Option V) : Bool := cfg.equalsFn kv.1 k

def without (cfg : LConfig K) (k : K) (pairs : List (K × Option V)) : List (K × Option V) :=
  pairs.filter fun kv => !sameKey cfg k kv

def listInsert (cfg : LConfig K) (k : K) (v : Option V) (pairs : List (K × Option V)) :
    List (K × Option V) :=
  let pushed := (k,v) :: pairs
  if cfg.evictorFn pushed.length then pushed.dropLast else pushed

def listReplace (cfg : LConfig K) (k : K) (v : Option V) (pairs : List (K × Option V)) :
    List (K × Option V) :=
  pairs.map fun kv => if sameKey cfg k kv then (kv.1,v) else kv

/-- The list does not determine the code of a resize, so that answer is left open. -/
def listStep (cfg : LConfig K) (pairs : List (K × Option V)) :
    Op K V → Option (List (K × Option V) × Option (Answer V))
  | .insert k v _ entryAlloc =>
    match pairs.find? (sameKey cfg k), entryAlloc with
    | some _, _ => some (listReplace cfg k v pairs, some (.code 0))
    | none, none => some (pairs, some (.code 1))
    | none, some _ => some (listInsert cfg k v pairs, some (.code 0))
  | .lookup k =>
    match pairs.find? (sameKey cfg k) with
    | some kv =>
      some (if cfg.accessOrder then kv :: without cfg k pairs else pairs, some (.val kv.2))
    | none => some (pairs, some (.val none))
  | .remove k =>
    match pairs.find? (sameKey cfg k) with
    | some _ => some (without cfg k pairs, some (.code 0))
    | none => some (pairs, some (.code 1))
  | .clear => some ([], some .done)
  | .resize _ _ => some (pairs, none)
  | .count => some (pairs, some (.count pairs.length))

/-- The visits of a callback that stops by not returning 1, from a count on. -/
def visitPairs {σ : Type*} (apply : σ → K → Option V → σ × ℤ) :
    List (K × Option V) → σ → ℕ → σ × ℕ
  | [], s, visited => (s, visited)
  | kv :: pairs, s, visited =>
    let r := apply s kv.1 kv.2
    if r.2 ≠ 1 then (r.1, visited + 1) else visitPairs apply pairs r.1 (visited + 1)

def DuplicateFree (cfg : LConfig K) (pairs : List (K × Option V)) : Prop :=
  (pairs.map Prod.fst).Pairwise fun k l => cfg.equalsFn k l = false

variable {cfg : LConfig K} {k : K} {v : Option V} {kv : K × Option V}
variable {p q pairs : List (K × Option V)}

theorem DuplicateFree.others (h : DuplicateFree cfg (p ++ kv :: q)) (hk : sameKey cfg k kv = true) :
    ∀ x ∈ p ++ q, sameKey cfg k x = false := by
  intro x hx
  unfold DuplicateFree at h
  rw [List.map_append, List.map_cons] at h
  obtain ⟨_,hrest,hdisj⟩ := List.pairwise_append.mp h
  by_contra hsame
  rw [Bool.not_eq_false] at hsame
  rcases List.mem_append.mp hx with hx | hx
  · have hne := hdisj x.1 (List.mem_map_of_mem hx) kv.1 List.mem_cons_self
    rw [cfg.trans hsame (cfg.symm hk)] at hne
    exact absurd hne (by decide)
  · have hne := (List.pairwise_cons.mp hrest).1 x.1 (List.mem_map_of_mem hx)
    rw [cfg.trans hk (cfg.symm hsame)] at hne
    exact absurd hne (by decide)

theorem DuplicateFree.perm (h : DuplicateFree cfg p) (hpq : p.Perm q) : DuplicateFree cfg q := by
  refine (hpq.map Prod.fst).pairwise h ?_
  intro k l hkl
  by_contra hlk
  rw [Bool.not_eq_false] at hlk
  rw [cfg.symm hlk] at hkl
  exact absurd hkl (by decide)

theorem find_none (h : ∀ x ∈ p, sameKey cfg k x = false) : p.find? (sameKey cfg k) = none :=
  List.find?_eq_none.mpr fun x hx => by simp [h x hx]

theorem find_middle (hothers : ∀ x ∈ p ++ q, sameKey cfg k x = false)
    (hk : sameKey cfg k kv = true) : (p ++ kv :: q).find? (sameKey cfg k) = some kv := by
  rw [List.find?_append, find_none fun x hx => hothers x (List.mem_append_left q hx),
    List.find?_cons_of_pos hk, Option.none_or]

theorem without_of_forall (h : ∀ x ∈ p, sameKey cfg k x = false) : without cfg k p = p :=
  List.filter_eq_self.mpr fun x hx => by simp [h x hx]

theorem without_middle (hothers : ∀ x ∈ p ++ q, sameKey cfg k x = false)
    (hk : sameKey cfg k kv = true) : without cfg k (p ++ kv :: q) = p ++ q := by
  rw [← without_of_forall hothers]
  simp [without, hk]

theorem listReplace_middle (hothers : ∀ x ∈ p ++ q, sameKey cfg k x = false)
    (hk : sameKey cfg k kv = true) : listReplace cfg k v (p ++ kv :: q) = p ++ (kv.1,v) :: q := by
  have hkeep : ∀ x ∈ p ++ q, (if sameKey cfg k x then (x.1,v) else x) = x :=
    fun x hx => by simp [hothers x hx]
  have hp := List.map_congr_left fun x hx => hkeep x (List.mem_append_left q hx)
  have hq := List.map_congr_left fun x hx => hkeep x (List.mem_append_right p hx)
  rw [listReplace, List.map_append, List.map_cons, if_pos hk, hp, hq, List.map_id', List.map_id']

def slotAt (data : ℕ → Option (LEntry K V)) (size a : ℕ) : ℕ :=
  (data a).elim 0 fun e => slotOf size e.hash

/-- The chains of a table of the given size hold the given nodes. -/
def Chained (data : ℕ → Option (LEntry K V)) (size : ℕ) (chain table : ℕ → ℕ)
    (all : Multiset ℕ) : Prop :=
  ∃ C, Chains (slotAt data size) size 0 chain table C ∧ content size C = all

variable {data data' : ℕ → Option (LEntry K V)} {size a : ℕ} {chain table : ℕ → ℕ}
variable {all : Multiset ℕ} {e : LEntry K V}

theorem Chained.empty (h : ∀ i < size, table i = 0) : Chained data size chain table 0 :=
  ⟨_,Chains.empty h,content_eq_zero fun _ _ => rfl⟩

theorem Chained.congr (h : Chained data size chain table all)
    (hdata : ∀ a ∈ all, slotAt data' size a = slotAt data size a)
    (hbound : ∀ a, slotAt data size a < size) : Chained data' size chain table all := by
  obtain ⟨C,hC,rfl⟩ := h
  refine ⟨C,hC.congr fun i a ha => hdata a (mem_content.mpr ⟨i,?_,ha⟩),rfl⟩
  exact hC.placed i a ha ▸ hbound a

theorem slotAt_lt (hs : 0 < size) (a : ℕ) : slotAt data size a < size := by
  unfold slotAt
  cases data a with
  | none => exact hs
  | some e => exact slotOf_lt hs e.hash

theorem Chained.push (h : Chained data size chain table all) (hs : 0 < size)
    (ha : a ∉ all) (h0 : a ≠ 0) (hdata : data a = some e) :
    Chained data size (Function.update chain a (table (slotOf size e.hash)))
      (Function.update table (slotOf size e.hash) a) (a ::ₘ all) := by
  obtain ⟨C,hC,rfl⟩ := h
  have hslot : slotAt data size a = slotOf size e.hash := by simp [slotAt, hdata]
  have hlt := slotOf_lt hs e.hash
  rw [← hslot] at hlt ⊢
  have hC' := hC.push (fun hm => ha (mem_content.mpr ⟨_,hlt,hm⟩)) h0
  exact ⟨_,hC',content_push hlt⟩

variable {h : LHashtbl K V} {hv : BitVec 32} {entry : ℕ} {l m L : List ℕ}

def hit (cfg : LConfig K) (h : LHashtbl K V) (hv : BitVec 32) (k : K) (a : ℕ) : Bool :=
  (h.data a).any (matchesKey cfg hv k)

theorem walkChain_spec (cfg : LConfig K) (hv : BitVec 32) (k : K)
    (hpath : Path h.chain entry l 0) (h0 : 0 ∉ l) (hdata : ∀ a ∈ l, ∃ e, h.data a = some e) {fuel : ℕ} (hfuel : l.length ≤ fuel)
    (ref : Option ℕ) :
    walkChain cfg h hv k fuel ref entry =
      some ((l.takeWhile fun a => !hit cfg h hv k a).getLast?.or ref,
        (l.find? (hit cfg h hv k)).getD 0) := by
  induction l generalizing entry fuel ref with
  | nil =>
    obtain rfl : entry = 0 := hpath
    cases fuel <;> simp [walkChain]
  | cons a l ih =>
    obtain ⟨rfl,hrest⟩ := hpath
    have hne : entry ≠ 0 := fun he => h0 (he ▸ List.mem_cons_self)
    obtain ⟨e,he⟩ := hdata entry List.mem_cons_self
    cases fuel with
    | zero => simp at hfuel
    | succ fuel =>
      have hnext := ih hrest (fun hm => h0 (List.mem_cons_of_mem entry hm))
        (fun a ha => hdata a (List.mem_cons_of_mem entry ha)) (by simpa using hfuel) (some entry)
      rw [walkChain, if_neg hne, he, Option.bind_some, hnext]
      cases hmatch : matchesKey cfg hv k e with
      | true => simp [hit, he, hmatch]
      | false =>
        have hmiss : hit cfg h hv k entry = false := by simp [hit, he, hmatch]
        simp [hmiss, List.getLast?_cons]

/-- The walk misses every node, or it stops at one that can be cut out. -/
theorem Chained.search (hc : Chained h.data h.tableSize h.chain h.table all)
    (hs : 0 < h.tableSize) (hdata : ∀ a ∈ all, ∃ e, h.data a = some e)
    (hcount : all.card ≤ h.nentries) (cfg : LConfig K) (k : K) :
    (∃ ref, findRef cfg h k = some (ref, 0) ∧
      ∀ a ∈ all, hit cfg h (cfg.hashFn k) k a = false) ∨
    ∃ ref a rest, findRef cfg h k = some (ref, a) ∧ a ≠ 0 ∧
      hit cfg h (cfg.hashFn k) k a = true ∧ all = a ::ₘ rest ∧
      let cut := unlinkChain h (slotOf h.tableSize (cfg.hashFn k)) ref a
      Chained h.data h.tableSize cut.chain cut.table rest := by
  obtain ⟨C,hC,rfl⟩ := hc
  have hi := slotOf_lt hs (cfg.hashFn k)
  have hmem : ∀ a ∈ C (slotOf h.tableSize (cfg.hashFn k)), a ∈ content h.tableSize C :=
    fun a ha => mem_content.mpr ⟨_,hi,ha⟩
  have hwalk := walkChain_spec cfg (cfg.hashFn k) k (hC.path _ hi)
    (hC.null_notMem _) (fun a ha => hdata a (hmem a ha))
    ((length_le_card_content hi).trans hcount) none
  cases hfind : (C (slotOf h.tableSize (cfg.hashFn k))).find? (hit cfg h (cfg.hashFn k) k) with
  | none =>
    left
    refine ⟨_,hwalk.trans (by rw [hfind]; rfl),?_⟩
    intro a ha
    by_contra hhit
    rw [Bool.not_eq_false] at hhit
    obtain ⟨e,he⟩ := hdata a ha
    have hhash : e.hash = cfg.hashFn k := by
      simp only [hit, he, Option.any_some, matchesKey, Bool.and_eq_true, beq_iff_eq] at hhit
      exact hhit.1
    have hin := hC.placed.mem_slot ha
    rw [slotAt, he, Option.elim_some, hhash] at hin
    exact List.find?_eq_none.mp hfind a hin hhit
  | some a =>
    right
    obtain ⟨hhit,l,m,hsplit,hbefore⟩ := List.find?_eq_some_iff_append.mp hfind
    have htake : (C (slotOf h.tableSize (cfg.hashFn k))).takeWhile
        (fun a => !hit cfg h (cfg.hashFn k) k a) = l := by
      rw [hsplit, List.takeWhile_append_of_pos hbefore]
      simp [hhit]
    have hne : a ≠ 0 := by
      rintro rfl
      exact hC.null_notMem (slotOf h.tableSize (cfg.hashFn k)) (hsplit ▸ by simp)
    rw [htake, hfind, Option.or_none, Option.getD_some] at hwalk
    refine ⟨_,a,_,hwalk,hne,hhit,(content_cut hi hsplit).symm,_,?_,rfl⟩
    rcases List.eq_nil_or_concat l with rfl | ⟨l',n,rfl⟩
    · exact hC.cutFirst hi hsplit
    · rw [List.concat_eq_append, List.append_assoc] at hsplit
      have hcut := hC.cutNext hi hsplit
      simpa [unlinkChain, List.concat_eq_append] using hcut

def stored (cfg : LConfig K) (kv : K × Option V) : Option (LEntry K V) :=
  some ⟨kv.1,kv.2,cfg.hashFn kv.1⟩

theorem exists_data (hdata : L.map data = pairs.map (stored cfg)) :
    ∀ a ∈ L, ∃ e, data a = some e := by
  intro a ha
  have hmem : data a ∈ pairs.map (stored cfg) := hdata ▸ List.mem_map_of_mem ha
  obtain ⟨kv,_,he⟩ := List.mem_map.mp hmem
  exact ⟨_,he.symm⟩

theorem exists_pairs (hdata : (l ++ a :: m).map data = pairs.map (stored cfg)) :
    ∃ p kv q, pairs = p ++ kv :: q ∧ l.map data = p.map (stored cfg) ∧ data a = stored cfg kv ∧
      m.map data = q.map (stored cfg) := by
  rw [List.map_append, List.map_cons] at hdata
  obtain ⟨p,r,rfl,hp,hrest⟩ := List.map_eq_append_iff.mp hdata.symm
  obtain ⟨kv,q,rfl,hkv,hq⟩ := List.map_eq_cons_iff.mp hrest
  exact ⟨p,kv,q,rfl,hp.symm,hkv.symm,hq.symm⟩

/-- The nodes of the ring hold the pairs, and the chains have the same nodes. -/
structure Represents (cfg : LConfig K) (h : LHashtbl K V) (L : List ℕ)
    (pairs : List (K × Option V)) : Prop where
  size : 0 < h.tableSize
  ring : Ring h.next h.prev 0 L
  chained : Chained h.data h.tableSize h.chain h.table L
  data : L.map h.data = pairs.map (stored cfg)
  count : h.nentries = L.length
  distinct : DuplicateFree cfg pairs

theorem Represents.length (hr : Represents cfg h L pairs) : L.length = pairs.length := by
  simpa using congrArg List.length hr.data

theorem Represents.notMem_of_free (hr : Represents cfg h L pairs) {entry : ℕ}
    (hfree : h.data entry = none) : entry ∉ L := by
  intro hmem
  obtain ⟨e,he⟩ := exists_data hr.data entry hmem
  rw [hfree] at he
  cases he

theorem hit_stored (hdata : h.data a = stored cfg kv) :
    hit cfg h (cfg.hashFn k) k a = sameKey cfg k kv := by
  simp only [hit, hdata, stored, Option.any_some, matchesKey, sameKey]
  cases hk : cfg.equalsFn kv.1 k with
  | false => rw [Bool.and_false]
  | true => rw [cfg.hash_eq hk, beq_self_eq_true, Bool.and_true]

/-- A pair found in the table, with the nodes and pairs around it. -/
structure Found (cfg : LConfig K) (h : LHashtbl K V) (k : K) (ref : Option ℕ) (a : ℕ)
    (l m : List ℕ) (p q : List (K × Option V)) (kv : K × Option V) : Prop where
  find : findRef cfg h k = some (ref, a)
  nonnull : a ≠ 0
  same : sameKey cfg k kv = true
  before : l.map h.data = p.map (stored cfg)
  entry : h.data a = stored cfg kv
  after : m.map h.data = q.map (stored cfg)
  cut : Chained h.data h.tableSize
    (unlinkChain h (slotOf h.tableSize (cfg.hashFn k)) ref a).chain
    (unlinkChain h (slotOf h.tableSize (cfg.hashFn k)) ref a).table ↑(l ++ m)

theorem Found.entry_eq {ref : Option ℕ} (hf : Found cfg h k ref a l m p q kv) :
    h.data a = some ⟨kv.1,kv.2,cfg.hashFn kv.1⟩ := hf.entry

theorem Represents.find_cases (hr : Represents cfg h L pairs) (k : K) :
    (∃ ref, findRef cfg h k = some (ref, 0) ∧ ∀ kv ∈ pairs, sameKey cfg k kv = false) ∨
    ∃ ref a l m p q kv, L = l ++ a :: m ∧ pairs = p ++ kv :: q ∧
      Found cfg h k ref a l m p q kv := by
  rcases hr.chained.search hr.size (exists_data hr.data) hr.count.ge cfg k with
    ⟨ref,hfind,hmiss⟩ | ⟨ref,a,rest,hfind,hne,hhit,hall,hcut⟩
  · left
    refine ⟨ref,hfind,fun kv hkv => ?_⟩
    have hmem : stored cfg kv ∈ L.map h.data := hr.data ▸ List.mem_map_of_mem hkv
    obtain ⟨a,ha,he⟩ := List.mem_map.mp hmem
    rw [← hit_stored he]
    exact hmiss a ha
  · right
    have ha : a ∈ L := Multiset.mem_coe.mp (hall ▸ Multiset.mem_cons_self a rest)
    obtain ⟨l,m,rfl⟩ := List.append_of_mem ha
    obtain ⟨p,kv,q,rfl,hp,hkv,hq⟩ := exists_pairs hr.data
    have hrest : ↑(l ++ m) = rest :=
      (Multiset.cons_inj_right a).mp ((coe_middle l m a).symm.trans hall)
    refine ⟨ref,a,l,m,p,q,kv,rfl,rfl,hfind,hne,?_,hp,hkv,hq,hrest.symm ▸ hcut⟩
    rw [← hit_stored hkv]
    exact hhit

section Unlink
variable (h : LHashtbl K V) (i : ℕ) (ref : Option ℕ) (entry : ℕ)

@[simp] theorem unlinkChain_next : (unlinkChain h i ref entry).next = h.next := by cases ref <;> rfl

@[simp] theorem unlinkChain_prev : (unlinkChain h i ref entry).prev = h.prev := by cases ref <;> rfl

@[simp] theorem unlinkChain_data : (unlinkChain h i ref entry).data = h.data := by cases ref <;> rfl

@[simp] theorem unlinkChain_tableSize : (unlinkChain h i ref entry).tableSize = h.tableSize := by
  cases ref <;> rfl

@[simp] theorem unlinkChain_nentries : (unlinkChain h i ref entry).nentries = h.nentries := by
  cases ref <;> rfl

end Unlink

theorem map_update_of_notMem (x : Option (LEntry K V)) (ha : a ∉ l) :
    l.map (Function.update data a x) = l.map data :=
  List.map_congr_left fun _ hb => Function.update_of_ne (ne_of_mem_of_not_mem hb ha) x data

theorem Chained.update (h : Chained data size chain table all) (hs : 0 < size)
    (x : Option (LEntry K V)) (ha : a ∉ all) :
    Chained (Function.update data a x) size chain table all := by
  refine h.congr (fun b hb => ?_) (slotAt_lt hs)
  rw [slotAt, Function.update_of_ne (ne_of_mem_of_not_mem hb ha), slotAt]

theorem Represents.notMem (hr : Represents cfg h (l ++ a :: m) pairs) : a ∉ l ++ m :=
  (List.nodup_cons.mp (List.nodup_middle.mp (List.nodup_cons.mp hr.ring.nodup).2)).1

theorem DuplicateFree.without (hd : DuplicateFree cfg pairs) (k : K) :
    DuplicateFree cfg (without cfg k pairs) :=
  List.Pairwise.sublist (List.filter_sublist.map Prod.fst) hd

theorem removeKey_found (hr : Represents cfg h (l ++ a :: m) (p ++ kv :: q))
    {ref : Option ℕ} (hf : Found cfg h k ref a l m p q kv) :
    ∃ h', removeKey cfg h k = some (h', a) ∧ Represents cfg h' (l ++ m) (p ++ q) ∧
      h'.data = h.data ∧ h'.handle = h.handle ∧ h'.tableBlock = h.tableBlock ∧ h'.calls = h.calls := by
  have hothers := hr.distinct.others hf.same
  have hdistinct := hr.distinct.without k
  rw [without_middle hothers hf.same] at hdistinct
  simp only [removeKey, hf.find, Option.map_some, hf.nonnull, if_false, listRemove, unlinkChain_next,
    unlinkChain_prev]
  refine ⟨_,rfl,?_,unlinkChain_data ..,?_,?_,?_⟩
  · constructor
    · simpa using hr.size
    · exact hr.ring.remove
    · simpa using hf.cut
    · rw [unlinkChain_data, List.map_append, List.map_append, hf.before, hf.after]
    · have hcount := hr.count
      simp at hcount ⊢
      omega
    · exact hdistinct
  · cases ref <;> rfl
  · cases ref <;> rfl
  · cases ref <;> rfl

theorem Represents.free (hr : Represents cfg h L pairs) (ha : a ∉ L) (calls : List (Call K V)) :
    Represents cfg { h with data := Function.update h.data a none, calls := calls } L pairs :=
  ⟨hr.size,hr.ring,hr.chained.update hr.size none ha,(map_update_of_notMem none ha).trans hr.data,
    hr.count,hr.distinct⟩

theorem lHashtblRemove_found (hr : Represents cfg h (l ++ a :: m) (p ++ kv :: q))
    {ref : Option ℕ} (hf : Found cfg h k ref a l m p q kv) :
    ∃ h', lHashtblRemove cfg h k = some (h', 0) ∧ Represents cfg h' (l ++ m) (p ++ q) ∧
      h'.data = Function.update h.data a none ∧ h'.handle = h.handle ∧ h'.tableBlock = h.tableBlock ∧
      h'.calls = h.calls ++ keyFreed cfg.toConfig kv.1 ++
        (if kv.2.isSome then valFreed cfg.toConfig kv.2 else []) ++ [.free a] := by
  obtain ⟨cut,hremove,hr',hdata,hhandle,htable,hcalls⟩ := removeKey_found hr hf
  have hstored : cut.data a = some ⟨kv.1,kv.2,cfg.hashFn kv.1⟩ := hdata ▸ hf.entry_eq
  simp only [lHashtblRemove, hremove, Option.bind_some, hf.nonnull, if_false, hstored]
  exact ⟨_,rfl,hr'.free hr.notMem _,by rw [hdata],hhandle,htable,by rw [hcalls]⟩

theorem lHashtblRemove_spec (hr : Represents cfg h L pairs) (k : K) :
    ∃ h' L', Represents cfg h' L' (without cfg k pairs) ∧
      lHashtblRemove cfg h k =
        some (h', if (pairs.find? (sameKey cfg k)).isSome then 0 else 1) := by
  rcases hr.find_cases k with ⟨ref,hfind,hmiss⟩ | ⟨ref,a,l,m,p,q,kv,rfl,rfl,hf⟩
  · have hnone := find_none hmiss
    refine ⟨h,L,by rwa [without_of_forall hmiss],?_⟩
    simp [lHashtblRemove, removeKey, hfind, hnone]
  · have hothers := hr.distinct.others hf.same
    obtain ⟨h',hremove,hr',-⟩ := lHashtblRemove_found hr hf
    refine ⟨h',l ++ m,by rwa [without_middle hothers hf.same],?_⟩
    rw [hremove, find_middle hothers hf.same]
    rfl

theorem Represents.replace (hr : Represents cfg h (l ++ a :: m) (p ++ kv :: q))
    {ref : Option ℕ} (hf : Found cfg h k ref a l m p q kv) (calls : List (Call K V)) :
    Represents cfg { h with
      data := Function.update h.data a (some ⟨kv.1,v,cfg.hashFn kv.1⟩)
      calls := calls } (l ++ a :: m) (p ++ (kv.1,v) :: q) := by
  have ha := hr.notMem
  have hstored := hf.entry_eq
  constructor
  · exact hr.size
  · exact hr.ring
  · refine hr.chained.congr (fun b _ => ?_) (slotAt_lt hr.size)
    rcases eq_or_ne b a with rfl | hb
    · simp [slotAt, hstored]
    · simp [slotAt, hb]
  · obtain ⟨hl,hm⟩ : a ∉ l ∧ a ∉ m := by simpa using ha
    change (l ++ a :: m).map (Function.update h.data a (some ⟨kv.1,v,cfg.hashFn kv.1⟩)) = _
    rw [List.map_append, List.map_cons, map_update_of_notMem _ hl, map_update_of_notMem _ hm,
      Function.update_self, hf.before, hf.after, List.map_append, List.map_cons]
    rfl
  · exact hr.count
  · have hdistinct := hr.distinct
    unfold DuplicateFree at hdistinct ⊢
    rw [List.map_append, List.map_cons] at hdistinct ⊢
    exact hdistinct

theorem Represents.moveToFront (hr : Represents cfg h (l ++ a :: m) (p ++ kv :: q))
    (hbefore : l.map h.data = p.map (stored cfg)) (hentry : h.data a = stored cfg kv)
    (hafter : m.map h.data = q.map (stored cfg)) :
    Represents cfg (listAddBefore (listRemove h a) a 0) (a :: (l ++ m)) (kv :: (p ++ q)) := by
  have hne : a ≠ 0 := by
    rintro rfl
    exact hr.ring.head_notMem (by simp)
  constructor
  · exact hr.size
  · exact hr.ring.remove.addFront hr.notMem hne
  · have hchained := hr.chained
    rw [coe_middle] at hchained
    exact hchained
  · change (a :: (l ++ m)).map h.data = _
    rw [List.map_cons, List.map_append, hentry, hbefore, hafter, List.map_cons, List.map_append]
  · exact hr.count.trans List.perm_middle.length_eq
  · exact hr.distinct.perm List.perm_middle

theorem lHashtblLookup_found {ref : Option ℕ} (hf : Found cfg h k ref a l m p q kv) :
    lHashtblLookup cfg h k = some (recordAccess cfg h a, kv.2) := by
  have hstored := hf.entry_eq
  simp [lHashtblLookup, findEntry, hf.find, hf.nonnull, hstored]

theorem lHashtblLookup_spec (hr : Represents cfg h L pairs) (k : K) :
    ∃ h' L' pairs' answer, Represents cfg h' L' pairs' ∧
      lHashtblLookup cfg h k = some (h', answer) ∧
      listStep cfg pairs (.lookup k) = some (pairs', some (.val answer)) := by
  rcases hr.find_cases k with ⟨ref,hfind,hmiss⟩ | ⟨ref,a,l,m,p,q,kv,rfl,rfl,hf⟩
  · have hnone := find_none hmiss
    refine ⟨h,L,pairs,none,hr,?_,?_⟩
    · simp [lHashtblLookup, findEntry, hfind]
    · simp [listStep, hnone]
  · have hothers := hr.distinct.others hf.same
    have hlookup := lHashtblLookup_found hf
    cases haccess : cfg.accessOrder with
    | true =>
      refine ⟨_,_,kv :: (p ++ q),kv.2,hr.moveToFront hf.before hf.entry hf.after,?_,?_⟩
      · rw [hlookup, recordAccess, if_pos haccess]
      · simp [listStep, find_middle hothers hf.same, without_middle hothers hf.same, haccess]
    | false =>
      refine ⟨h,_,p ++ kv :: q,kv.2,hr,?_,?_⟩
      · rw [hlookup, recordAccess, haccess]
        rfl
      · simp [listStep, find_middle hothers hf.same, haccess]

theorem Represents.linkNew (hr : Represents cfg h L pairs)
    (hmiss : ∀ kv ∈ pairs, sameKey cfg k kv = false) {entry : ℕ} (h0 : entry ≠ 0)
    (hfree : h.data entry = none) (v : Option V) :
    Represents cfg (linkNew cfg h k v entry) (entry :: L) ((k,v) :: pairs) := by
  have hentry : entry ∉ L := hr.notMem_of_free hfree
  constructor
  · exact hr.size
  · exact hr.ring.addFront hentry h0
  · have hdata : Function.update h.data entry (some ⟨k,v,cfg.hashFn k⟩) entry
        = some ⟨k,v,cfg.hashFn k⟩ := Function.update_self ..
    exact (hr.chained.update hr.size _ hentry).push hr.size hentry h0 hdata
  · change (entry :: L).map (Function.update h.data entry (some ⟨k,v,cfg.hashFn k⟩)) = _
    rw [List.map_cons, Function.update_self, map_update_of_notMem _ hentry, hr.data, List.map_cons]
    rfl
  · exact congrArg (· + 1) hr.count
  · refine List.pairwise_cons.mpr ⟨fun l hl => ?_,hr.distinct⟩
    obtain ⟨kv,hkv,rfl⟩ := List.mem_map.mp hl
    by_contra hsame
    rw [Bool.not_eq_false] at hsame
    have hno := hmiss kv hkv
    rw [sameKey, cfg.symm hsame] at hno
    exact absurd hno (by decide)

/-- The eviction looks for the key of the last entry, and finds that entry. -/
theorem evict_spec (hr : Represents cfg h L pairs) (hne : pairs ≠ []) :
    ∃ h' L', evict cfg h = some h' ∧ Represents cfg h' L'
      (if cfg.evictorFn pairs.length then pairs.dropLast else pairs) := by
  have hcount : h.nentries = pairs.length := hr.count.trans hr.length
  unfold evict
  rw [hcount]
  cases cfg.evictorFn pairs.length with
  | false => exact ⟨h,L,rfl,hr⟩
  | true =>
    obtain ⟨p,kv,hlast⟩ := (List.eq_nil_or_concat pairs).resolve_left hne
    obtain rfl : pairs = p ++ [kv] := hlast.trans List.concat_eq_append
    have hdata := hr.data
    rw [List.map_append] at hdata
    obtain ⟨l,r,rfl,_,hr'⟩ := List.map_eq_append_iff.mp hdata
    obtain ⟨a,rest,rfl,ha,hrest⟩ := List.map_eq_cons_iff.mp hr'
    obtain rfl : rest = [] := List.map_eq_nil_iff.mp hrest
    have hprev : h.prev 0 = a := by
      have hback := hr.ring.backward.2
      rw [List.reverse_append, List.reverse_singleton] at hback
      exact hback.1
    have hself : sameKey cfg kv.1 kv = true := cfg.refl kv.1
    have hwithout := without_middle (hr.distinct.others hself) hself
    rw [List.append_nil] at hwithout
    obtain ⟨h',L',hr',hremove⟩ := lHashtblRemove_spec hr kv.1
    rw [hwithout] at hr'
    refine ⟨h',L',?_,by simpa using hr'⟩
    rw [hprev, ha]
    simp [stored, hremove]

theorem relink_spec {node : ℕ} (hpath : Path h.next node L 0) (h0 : 0 ∉ L) (hnodup : L.Nodup)
    (hdata : ∀ a ∈ L, ∃ e, h.data a = some e) {fuel : ℕ} (hfuel : L.length ≤ fuel)
    (hs : 0 < size) (hc : Chained h.data size chain table all) (hall : ∀ a ∈ L, a ∉ all) :
    ∃ chain' table', relink h size fuel node (chain,table) = some (chain',table') ∧
      Chained h.data size chain' table' (all + ↑L) := by
  induction L generalizing node fuel chain table all with
  | nil =>
    obtain rfl : node = 0 := hpath
    refine ⟨chain,table,?_,by simpa using hc⟩
    cases fuel <;> simp [relink]
  | cons a l ih =>
    obtain ⟨rfl,hrest⟩ := hpath
    obtain ⟨hnode,hnodup'⟩ := List.nodup_cons.mp hnodup
    have hne : node ≠ 0 := fun he => h0 (he ▸ List.mem_cons_self)
    obtain ⟨e,he⟩ := hdata node List.mem_cons_self
    cases fuel with
    | zero => simp at hfuel
    | succ fuel =>
      have hpushed := hc.push hs (hall node List.mem_cons_self) hne he
      have hfresh : ∀ b ∈ l, b ∉ node ::ₘ all := by
        intro b hb hmem
        rcases Multiset.mem_cons.mp hmem with rfl | hmem
        · exact hnode hb
        · exact hall b (List.mem_cons_of_mem node hb) hmem
      obtain ⟨chain',table',hrun,hc'⟩ := ih hrest (fun hm => h0 (List.mem_cons_of_mem node hm))
        hnodup' (fun b hb => hdata b (List.mem_cons_of_mem node hb)) (by simpa using hfuel)
        hpushed hfresh
      refine ⟨chain',table',?_,?_⟩
      · rw [relink, if_neg hne, he, Option.bind_some, hrun]
      · rwa [Multiset.cons_add, ← Multiset.add_cons, Multiset.cons_coe] at hc'

/-- A table of any size, also of none, whose ring holds the pairs becomes a larger one. -/
theorem resize_ring (hring : Ring h.next h.prev 0 L) (hdata : L.map h.data = pairs.map (stored cfg))
    (hcount : h.nentries = L.length) (hs : 0 < size) :
    ∃ chain table, relink h size h.nentries (h.next 0) (h.chain,fun _ => 0) = some (chain,table) ∧
      Chained h.data size chain table L := by
  have hstart : Chained h.data size h.chain (fun _ => 0) 0 := Chained.empty fun _ _ => rfl
  obtain ⟨chain,table,hrun,hc⟩ := relink_spec hring.forward.2 hring.head_notMem
    (List.nodup_cons.mp hring.nodup).2 (exists_data hdata) hcount.ge hs hstart
    fun a _ => Multiset.notMem_zero a
  rw [zero_add] at hc
  exact ⟨chain,table,hrun,hc⟩

theorem lHashtblResize_spec (hr : Represents cfg h L pairs) (requested : ℤ)
    (tableAlloc : Option ℕ) :
    ∃ h' code, lHashtblResize cfg h requested tableAlloc = some (h', code) ∧
      Represents cfg h' L pairs := by
  have hpos := roundedCapacity_pos requested
  by_cases hsmall : roundedCapacity requested ≤ h.tableSize
  · exact ⟨h,0,by simp only [lHashtblResize, if_pos hsmall],hr⟩
  · simp only [lHashtblResize, if_neg hsmall]
    cases tableAlloc with
    | none => exact ⟨_,1,rfl,hr.size,hr.ring,hr.chained,hr.data,hr.count,hr.distinct⟩
    | some block =>
      obtain ⟨chain,table,hrun,hc⟩ := resize_ring hr.ring hr.data hr.count hpos
      simp only [hrun, Option.map_some]
      exact ⟨_,0,rfl,hpos,hr.ring,hc,hr.data,hr.count,hr.distinct⟩

theorem autoResized_spec (hr : Represents cfg h L pairs) (tableAlloc : Option ℕ) :
    ∃ h', autoResized cfg h tableAlloc = some h' ∧ Represents cfg h' L pairs := by
  unfold autoResized
  split
  · obtain ⟨h',code,hresize,hr'⟩ := lHashtblResize_spec hr (doubled h.tableSize) tableAlloc
    exact ⟨h',by rw [hresize, Option.map_some],hr'⟩
  · exact ⟨h,rfl,hr⟩

/-- What `malloc_fn` promises: the new entry is not NULL and not in use. -/
def FreshBlock (h : LHashtbl K V) : Op K V → Prop
  | .insert _ _ _ (some entry) => entry ≠ 0 ∧ h.data entry = none
  | _ => True

theorem lHashtblInsert_spec (hr : Represents cfg h L pairs) {tableAlloc entryAlloc : Option ℕ}
    (hfresh : FreshBlock h (.insert k v tableAlloc entryAlloc)) :
    ∃ h' L' pairs' code, Represents cfg h' L' pairs' ∧
      lHashtblInsert cfg h k v tableAlloc entryAlloc = some (h', code) ∧
      listStep cfg pairs (.insert k v tableAlloc entryAlloc) =
        some (pairs', some (.code code)) := by
  rcases hr.find_cases k with ⟨ref,hfind,hmiss⟩ | ⟨ref,a,l,m,p,q,kv,rfl,rfl,hf⟩
  · have hnone := find_none hmiss
    cases entryAlloc with
    | none =>
      refine ⟨_,L,pairs,1,?_,by simp [lHashtblInsert, findEntry, hfind]; rfl,
        by simp [listStep, hnone]⟩
      exact ⟨hr.size,hr.ring,hr.chained,hr.data,hr.count,hr.distinct⟩
    | some entry =>
      have hlinked := hr.linkNew hmiss hfresh.1 hfresh.2 v
      obtain ⟨evicted,L',hevict,hr'⟩ := evict_spec hlinked (List.cons_ne_nil _ _)
      obtain ⟨grown,hgrow,hr''⟩ := autoResized_spec hr' tableAlloc
      refine ⟨grown,L',listInsert cfg k v pairs,0,hr'',?_,by simp [listStep, hnone]⟩
      simp [lHashtblInsert, findEntry, hfind, hevict, hgrow]
  · have hothers := hr.distinct.others hf.same
    have hstored := hf.entry_eq
    refine ⟨_,_,p ++ (kv.1,v) :: q,0,hr.replace hf (h.calls ++ valFreed cfg.toConfig kv.2),?_,?_⟩
    · simp [lHashtblInsert, findEntry, hf.find, hf.nonnull, hstored]
    · simp [listStep, find_middle hothers hf.same, listReplace_middle hothers hf.same]

def freedNode (cfg : LConfig K) (h : LHashtbl K V) (a : ℕ) (e : LEntry K V) : LHashtbl K V :=
  { listRemove { h with
      calls := h.calls ++ keyFreed cfg.toConfig e.key ++ valFreed cfg.toConfig e.val ++
        [.free a] } a with
    data := Function.update h.data a none
    nentries := h.nentries - 1 }

theorem clearLoop_cons (cfg : LConfig K) (hring : Ring h.next h.prev 0 (a :: l))
    (he : h.data a = some e) (fuel : ℕ) :
    clearLoop cfg (fuel + 1) (h.next 0) (h.next (h.next 0)) h =
      clearLoop cfg fuel ((freedNode cfg h a e).next 0)
        ((freedNode cfg h a e).next ((freedNode cfg h a e).next 0)) (freedNode cfg h a e) := by
  have hfirst : h.next 0 = a := hring.forward.2.1
  have hne : a ≠ 0 := fun heq => (List.nodup_cons.mp hring.nodup).1 (heq ▸ List.mem_cons_self)
  have htmp : Function.update h.next (h.prev a) (h.next a) 0 = h.next a := by
    rw [hring.prev_first, Function.update_self]
  rw [clearLoop, hfirst, if_neg hne, he, Option.bind_some]
  simp only [freedNode, listRemove, htmp]

theorem freedNode_ring (cfg : LConfig K) (hring : Ring h.next h.prev 0 (a :: l)) :
    Ring (freedNode cfg h a e).next (freedNode cfg h a e).prev 0 l ∧ a ∉ l :=
  ⟨Ring.remove (l := []) hring,(List.nodup_cons.mp (List.nodup_cons.mp hring.nodup).2).1⟩

theorem freedNode_data (cfg : LConfig K) (ha : a ∉ l)
    (hdata : ∀ b ∈ a :: l, ∃ x, h.data b = some x) :
    ∀ b ∈ l, ∃ x, (freedNode cfg h a e).data b = some x := by
  intro b hb
  obtain ⟨x,hx⟩ := hdata b (List.mem_cons_of_mem a hb)
  exact ⟨x,(Function.update_of_ne (ne_of_mem_of_not_mem hb ha) _ _).trans hx⟩

theorem clearLoop_spec (cfg : LConfig K) (hring : Ring h.next h.prev 0 L) (hdata : ∀ a ∈ L, ∃ e, h.data a = some e)
    {fuel : ℕ} (hfuel : L.length ≤ fuel) :
    ∃ h', clearLoop cfg fuel (h.next 0) (h.next (h.next 0)) h = some h' ∧
      h'.tableSize = h.tableSize ∧ h'.nentries = h.nentries - L.length := by
  induction L generalizing h fuel with
  | nil =>
    have hend : h.next 0 = 0 := hring.forward.2
    refine ⟨h,?_,rfl,rfl⟩
    cases fuel <;> simp [clearLoop, hend]
  | cons a l ih =>
    obtain ⟨e,he⟩ := hdata a List.mem_cons_self
    obtain ⟨hrest,ha⟩ := freedNode_ring (e := e) cfg hring
    cases fuel with
    | zero => simp at hfuel
    | succ fuel =>
      obtain ⟨h',hrun,hsize,hcount⟩ := ih hrest (freedNode_data cfg ha hdata) (by simpa using hfuel)
      refine ⟨h',(clearLoop_cons cfg hring he fuel).trans hrun,hsize,?_⟩
      rw [hcount, List.length_cons, Nat.add_comm, ← Nat.sub_sub]
      rfl

theorem lHashtblClear_spec (hr : Represents cfg h L pairs) :
    ∃ h', lHashtblClear cfg h = some h' ∧ Represents cfg h' [] [] := by
  obtain ⟨cleared,hrun,hsize,hcount⟩ := clearLoop_spec cfg hr.ring (exists_data hr.data) hr.count.ge
  refine ⟨_,by rw [lHashtblClear, hrun, Option.map_some],?_⟩
  constructor
  · exact hr.size.trans_eq hsize.symm
  · exact Ring.empty (Function.update_self 0 0 cleared.next) (Function.update_self 0 0 cleared.prev)
  · exact Chained.empty fun _ _ => rfl
  · rfl
  · change cleared.nentries = 0
    rw [hcount, hr.count, Nat.sub_self]
  · exact List.Pairwise.nil

theorem applyFrom_spec {σ : Type*} (apply : σ → K → Option V → σ × ℤ) {node : ℕ}
    (hpath : Path h.next node L 0) (h0 : 0 ∉ L) (hdata : L.map h.data = pairs.map (stored cfg))
    {fuel : ℕ} (hfuel : L.length ≤ fuel) (s : σ) (visited : ℕ) :
    applyFrom h apply fuel node s visited = some (visitPairs apply pairs s visited) := by
  induction L generalizing node pairs fuel s visited with
  | nil =>
    obtain rfl : node = 0 := hpath
    obtain rfl : pairs = [] := List.map_eq_nil_iff.mp hdata.symm
    cases fuel <;> simp [applyFrom, visitPairs]
  | cons a l ih =>
    obtain ⟨rfl,hrest⟩ := hpath
    obtain ⟨kv,q,rfl,hkv,hq⟩ := List.map_eq_cons_iff.mp hdata.symm
    have hne : node ≠ 0 := fun he => h0 (he ▸ List.mem_cons_self)
    cases fuel with
    | zero => simp at hfuel
    | succ fuel =>
      have hnext := ih hrest (fun hm => h0 (List.mem_cons_of_mem node hm)) hq.symm
        (by simpa using hfuel) (apply s kv.1 kv.2).1 (visited + 1)
      rw [applyFrom, if_neg hne, ← hkv, visitPairs]
      simp only [stored, Option.bind_some, hnext]
      split <;> rfl

theorem iterate_spec (iter : LIter K V)
    (hpath : Path (if iter.direction ≥ 1 then h.next else h.prev) iter.pos L 0) (h0 : 0 ∉ L)
    (hdata : L.map h.data = pairs.map (stored cfg)) {fuel : ℕ} (hfuel : L.length < fuel) :
    iterate h fuel iter = some (pairs.map fun kv => (some kv.1, kv.2)) := by
  induction L generalizing iter pairs fuel with
  | nil =>
    have hend : iter.pos = 0 := hpath
    obtain rfl : pairs = [] := List.map_eq_nil_iff.mp hdata.symm
    cases fuel with
    | zero => simp at hfuel
    | succ fuel => simp [iterate, lHashtblIterNext, hend]
  | cons a l ih =>
    obtain ⟨rfl,hrest⟩ := hpath
    obtain ⟨kv,q,rfl,hkv,hq⟩ := List.map_eq_cons_iff.mp hdata.symm
    have hne : iter.pos ≠ 0 := fun he => h0 (he ▸ List.mem_cons_self)
    cases fuel with
    | zero => simp at hfuel
    | succ fuel =>
      rw [ite_apply] at hrest
      have hnext := ih { iter with
          pos := if iter.direction ≥ 1 then h.next iter.pos else h.prev iter.pos
          key := some kv.1
          val := kv.2 } hrest
        (fun hm => h0 (List.mem_cons_of_mem iter.pos hm)) hq.symm (by simpa using hfuel)
      rw [iterate, lHashtblIterNext, if_neg hne, ← hkv]
      simp [stored, hnext]

theorem lHashtblApply_spec {σ : Type*} (hr : Represents cfg h L pairs)
    (apply : σ → K → Option V → σ × ℤ) (s : σ) :
    lHashtblApply h apply s = some (visitPairs apply pairs s 0) :=
  applyFrom_spec apply hr.ring.forward.2 hr.ring.head_notMem hr.data hr.count.ge s 0

/-- What a client reads in one direction, with one call more than there are entries. -/
def visited (h : LHashtbl K V) (direction : ℤ) : Option (List (Option K × Option V)) :=
  iterate h (h.nentries + 1) (lHashtblIterInit h direction)

theorem visited_forward (hr : Represents cfg h L pairs) {direction : ℤ} (hd : 1 ≤ direction) :
    visited h direction = some (pairs.map fun kv => (some kv.1, kv.2)) := by
  refine iterate_spec _ ?_ hr.ring.head_notMem hr.data (Nat.lt_succ_of_le hr.count.ge)
  simp only [lHashtblIterInit, ge_iff_le, if_pos hd]
  exact hr.ring.forward.2

theorem visited_backward (hr : Represents cfg h L pairs) {direction : ℤ} (hd : direction < 1) :
    visited h direction = some (pairs.reverse.map fun kv => (some kv.1, kv.2)) := by
  have hdata : L.reverse.map h.data = pairs.reverse.map (stored cfg) := by
    rw [List.map_reverse, hr.data, List.map_reverse]
  have hcount : L.reverse.length < h.nentries + 1 := by
    rw [List.length_reverse, hr.count]
    exact Nat.lt_succ_self _
  refine iterate_spec _ ?_ hr.ring.reverse.head_notMem hdata hcount
  simp only [lHashtblIterInit, ge_iff_le, if_neg (not_le.mpr hd)]
  exact hr.ring.backward.2

theorem lHashtblCreate_ok {capacity : ℤ} {handleAlloc tableAlloc : Option ℕ}
    (hcreate : lHashtblCreate cfg capacity handleAlloc tableAlloc = some (.ok h)) :
    ∃ handle block, h =
      { next := Function.update id 0 0
        prev := Function.update id 0 0
        chain := id
        data := fun _ => none
        table := fun _ => 0
        tableSize := roundedCapacity capacity
        nentries := 0
        resizeThreshold := cfg.thresholdOf (roundedCapacity capacity)
        handle := handle
        tableBlock := some block
        calls := [.malloc (some handle), .malloc (some block)] } := by
  have hgrow : ¬ roundedCapacity capacity ≤ 0 := Nat.not_le.mpr (roundedCapacity_pos capacity)
  cases handleAlloc with
  | none => cases hcreate
  | some handle =>
    cases tableAlloc with
    | none => simp [lHashtblCreate, lHashtblResize, listInit, hgrow] at hcreate
    | some block =>
      simp only [lHashtblCreate, lHashtblResize, listInit, if_neg hgrow, relink,
        Function.update_self, if_true, Option.map_some, Option.some.injEq] at hcreate
      cases hcreate
      exact ⟨handle,block,rfl⟩

theorem lHashtblCreate_represents {capacity : ℤ} {handleAlloc tableAlloc : Option ℕ}
    (hcreate : lHashtblCreate cfg capacity handleAlloc tableAlloc = some (.ok h)) :
    Represents cfg h [] [] := by
  obtain ⟨handle,block,rfl⟩ := lHashtblCreate_ok hcreate
  constructor
  · exact roundedCapacity_pos capacity
  · exact Ring.empty (Function.update_self 0 0 id) (Function.update_self 0 0 id)
  · exact Chained.empty fun _ _ => rfl
  · rfl
  · rfl
  · exact List.Pairwise.nil

theorem lHashtblStep_refines (h : LHashtbl K V) (pairs : List (K × Option V)) (op : Op K V)
    (hr : ∃ L, Represents cfg h L pairs) (hfresh : FreshBlock h op) :
    ∃ h' pairs' answer determined, lHashtblStep cfg h op = some (h', answer) ∧
      listStep cfg pairs op = some (pairs', determined) ∧ Agrees answer determined ∧
      ∃ L, Represents cfg h' L pairs' := by
  obtain ⟨L,hr⟩ := hr
  cases op with
  | insert k v tableAlloc entryAlloc =>
    obtain ⟨h',L',pairs',code,hr',hrun,hlist⟩ := lHashtblInsert_spec hr hfresh
    exact ⟨h',pairs',_,_,by rw [lHashtblStep, hrun, Option.map_some],hlist,
      fun a ha => Option.some.inj ha,L',hr'⟩
  | lookup k =>
    obtain ⟨h',L',pairs',answer,hr',hrun,hlist⟩ := lHashtblLookup_spec hr k
    exact ⟨h',pairs',_,_,by rw [lHashtblStep, hrun, Option.map_some],hlist,
      fun a ha => Option.some.inj ha,L',hr'⟩
  | remove k =>
    obtain ⟨h',L',hr',hrun⟩ := lHashtblRemove_spec hr k
    cases hfind : pairs.find? (sameKey cfg k) with
    | some kv =>
      exact ⟨h',without cfg k pairs,.code 0,some (.code 0),by simp [lHashtblStep, hrun, hfind],
        by simp [listStep, hfind],fun a ha => Option.some.inj ha,L',hr'⟩
    | none =>
      rw [without_of_forall fun x hx => by simpa using List.find?_eq_none.mp hfind x hx] at hr'
      exact ⟨h',pairs,.code 1,some (.code 1),by simp [lHashtblStep, hrun, hfind],
        by simp [listStep, hfind],fun a ha => Option.some.inj ha,L',hr'⟩
  | clear =>
    obtain ⟨h',hrun,hr'⟩ := lHashtblClear_spec hr
    exact ⟨h',[],_,_,by rw [lHashtblStep, hrun, Option.map_some],rfl,
      fun a ha => Option.some.inj ha,[],hr'⟩
  | resize capacity tableAlloc =>
    obtain ⟨h',code,hrun,hr'⟩ := lHashtblResize_spec hr capacity tableAlloc
    exact ⟨h',pairs,_,_,by rw [lHashtblStep, hrun, Option.map_some],rfl,
      fun a ha => absurd ha (Option.not_mem_none a),L,hr'⟩
  | count =>
    refine ⟨h,pairs,_,_,rfl,rfl,fun a ha => ?_,L,hr⟩
    rw [lHashtblCount, hr.count, hr.length]
    exact Option.some.inj ha

/-- As long as `malloc_fn` returns blocks that are not in use, every answer is the one
of the list of pairs, and what is read from the table at the end is that list. -/
theorem lHashtblRun_refines (capacity : ℤ) (handleAlloc tableAlloc : Option ℕ)
    (hcreate : lHashtblCreate cfg capacity handleAlloc tableAlloc = some (.ok h))
    (ops : List (Op K V)) (hfresh : Admits (lHashtblStep cfg) FreshBlock h ops) :
    ∃ h' pairs answers determined, run (lHashtblStep cfg) h ops = some (h', answers) ∧
      run (listStep cfg) [] ops = some (pairs, determined) ∧
      List.Forall₂ Agrees answers determined ∧
      DuplicateFree cfg pairs ∧ lHashtblCount h' = pairs.length ∧
      (∀ direction, visited h' direction = some
        ((if 1 ≤ direction then pairs else pairs.reverse).map fun kv => (some kv.1, kv.2))) ∧
      ∀ (σ : Type*) (apply : σ → K → Option V → σ × ℤ) (s : σ),
        lHashtblApply h' apply s = some (visitPairs apply pairs s 0) := by
  obtain ⟨h',pairs,answers,determined,hrun,hlist,hagree,L,hr⟩ :=
    run_refines lHashtblStep_refines ⟨[],lHashtblCreate_represents hcreate⟩ hfresh
  refine ⟨h',pairs,answers,determined,hrun,hlist,hagree,hr.distinct,hr.count.trans hr.length,?_,?_⟩
  · intro direction
    split
    · exact visited_forward hr ‹_›
    · exact visited_backward hr (by omega)
  · exact fun σ apply s => lHashtblApply_spec hr apply s

/-- Reading moves to the front, and a second entry evicts the last. -/
def lruConfig : LConfig ℕ where
  toHashFns := collidingFns
  thresholdOf _ := 0
  autoResize := true
  keyFreeFn := true
  valFreeFn := true
  accessOrder := true
  evictorFn count := decide (1 < count)

def lruTable : LHashtbl ℕ ℕ :=
  ⟨Function.update id 0 0,Function.update id 0 0,id,fun _ => none,fun _ => 0,1,0,0,1,some 2,
    [.malloc (some 1), .malloc (some 2)]⟩

def lruOps : List (Op ℕ ℕ) :=
  [.insert 1 (some 10) (some 3) (some 4), .insert 2 (some 20) none (some 5), .lookup 1, .lookup 2]

theorem lHashtblRun_refines_sample :
    ∃ h' pairs answers determined,
      run (lHashtblStep lruConfig) lruTable lruOps = some (h', answers) ∧
      run (listStep lruConfig) [] lruOps = some (pairs, determined) ∧
      List.Forall₂ Agrees answers determined ∧
      DuplicateFree lruConfig pairs ∧ lHashtblCount h' = pairs.length ∧
      (∀ direction, visited h' direction = some
        ((if 1 ≤ direction then pairs else pairs.reverse).map fun kv => (some kv.1, kv.2))) ∧
      ∀ (σ : Type) (apply : σ → ℕ → Option ℕ → σ × ℤ) (s : σ),
        lHashtblApply h' apply s = some (visitPairs apply pairs s 0) := by
  refine lHashtblRun_refines 1 (some 1) (some 2) rfl lruOps ?_
  refine ⟨⟨by decide,rfl⟩,fun r hr => ?_⟩
  cases hr
  exact ⟨⟨by decide,rfl⟩,fun _ _ => ⟨trivial,fun _ _ => ⟨trivial,fun _ _ => trivial⟩⟩⟩

end CppExamples.LinkedTable
