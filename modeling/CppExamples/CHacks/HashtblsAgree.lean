import CppExamples.CHacks.HashtblMap
import CppExamples.CHacks.LinkedHashtblOrder

/-! # The two hash tables agree

A linked table that evicts nothing can stand in for a chained one.  Up to their order the
pairs of the one are the map of the other, whatever the two do with their slots and
whichever hash functions they have been given.
-/
namespace CppExamples.LinkedTable
open HashTable Machine
variable {K V : Type*} {cfg : LConfig K} {fns : HashFns K} {m : KeyMap fns V}
variable {pairs pairs' : List (K × Option V)} {k l : K} {kv : K × Option V}

def SameContent (cfg : LConfig K) (fns : HashFns K) (pairs : List (K × Option V)) (m : KeyMap fns V) :
    Prop :=
  ∀ k, m.lookup (fns.toKey k) = (pairs.find? (sameKey cfg k)).map Prod.snd

theorem sameKey_congr (h : cfg.equalsFn k l = true) : sameKey (V := V) cfg k = sameKey cfg l := by
  funext kv
  refine Bool.eq_iff_iff.mpr ⟨fun hk => cfg.trans hk h,fun hl => cfg.trans hl (cfg.symm h)⟩

theorem sameKey_ne (h : cfg.equalsFn l k = false) (hl : sameKey cfg l kv = true) :
    sameKey cfg k kv = false := by
  by_contra hk
  rw [Bool.not_eq_false] at hk
  rw [cfg.trans (cfg.symm hl) hk] at h
  cases h

theorem find_listReplace (v : Option V) : (listReplace cfg k v pairs).find? (sameKey cfg l) =
    (pairs.find? (sameKey cfg l)).map fun kv => if sameKey cfg k kv then (kv.1,v) else kv := by
  rw [listReplace, List.find?_map]
  congr 2
  funext kv
  change sameKey cfg l (if sameKey cfg k kv then (kv.1,v) else kv) = sameKey cfg l kv
  split <;> rfl

theorem find_without (h : cfg.equalsFn l k = false) :
    (without cfg k pairs).find? (sameKey cfg l) = pairs.find? (sameKey cfg l) := by
  rw [without, List.find?_filter]
  congr 1
  funext kv
  cases hl : sameKey cfg l kv with
  | false => simp
  | true => simp [sameKey_ne h hl]

theorem find_without_self : (without cfg k pairs).find? (sameKey cfg k) = none :=
  find_none fun kv hkv => by simpa using (List.mem_filter.mp hkv).2

namespace SameContent

theorem empty : SameContent cfg fns [] (∅ : KeyMap fns V) := fun _ => rfl

theorem mem_iff (h : SameContent cfg fns pairs m) :
    fns.toKey k ∈ m ↔ (pairs.find? (sameKey cfg k)).isSome := by
  rw [← Finmap.lookup_isSome, h k, Option.isSome_map]

theorem card (h : SameContent cfg fns pairs m) (hequals : fns.equalsFn = cfg.equalsFn)
    (hdistinct : DuplicateFree cfg pairs) : m.keys.card = pairs.length := by
  have hkeys : m.keys = (pairs.map fun kv => fns.toKey kv.1).toFinset := by
    ext key
    obtain ⟨k,rfl⟩ := Quotient.exists_rep key
    change fns.toKey k ∈ m.keys ↔ fns.toKey k ∈ _
    rw [Finmap.mem_keys, h.mem_iff, List.find?_isSome, List.mem_toFinset, List.mem_map]
    refine exists_congr fun kv => and_congr_right fun _ => ?_
    rw [fns.toKey_eq_iff, hequals, sameKey]
  have hnodup : (pairs.map fun kv => fns.toKey kv.1).Nodup := by
    have hpairwise : pairs.Pairwise fun x y => cfg.equalsFn x.1 y.1 = false :=
      List.pairwise_map.mp hdistinct
    refine List.pairwise_map.mpr (hpairwise.imp fun hne he => ?_)
    rw [fns.toKey_eq_iff, hequals] at he
    rw [he] at hne
    cases hne
  rw [hkeys, List.toFinset_card_of_nodup hnodup, List.length_map]

theorem insert (h : SameContent cfg fns pairs m) (hequals : fns.equalsFn = cfg.equalsFn) (v : Option V)
    (hself : ∀ l, cfg.equalsFn l k = true → (pairs'.find? (sameKey cfg l)).map Prod.snd = some v)
    (hothers : ∀ l, cfg.equalsFn l k = false →
      (pairs'.find? (sameKey cfg l)).map Prod.snd = (pairs.find? (sameKey cfg l)).map Prod.snd) :
    SameContent cfg fns pairs' (m.insert (fns.toKey k) v) := by
  intro l
  cases hl : cfg.equalsFn l k with
  | true =>
    have hkey : fns.toKey l = fns.toKey k := fns.toKey_eq_iff.mpr (hequals ▸ hl)
    rw [hkey, Finmap.lookup_insert, hself l hl]
  | false =>
    have hkey : fns.toKey l ≠ fns.toKey k := by
      rw [ne_eq, fns.toKey_eq_iff, hequals, hl]
      exact Bool.false_ne_true
    rw [Finmap.lookup_insert_of_ne _ hkey, h l, hothers l hl]

theorem erase (h : SameContent cfg fns pairs m) (hequals : fns.equalsFn = cfg.equalsFn) :
    SameContent cfg fns (without cfg k pairs) (m.erase (fns.toKey k)) := by
  intro l
  cases hl : cfg.equalsFn l k with
  | true =>
    have hkey : fns.toKey l = fns.toKey k := fns.toKey_eq_iff.mpr (hequals ▸ hl)
    rw [hkey, Finmap.lookup_erase, sameKey_congr hl, find_without_self]
    rfl
  | false =>
    have hkey : fns.toKey l ≠ fns.toKey k := by
      rw [ne_eq, fns.toKey_eq_iff, hequals, hl]
      exact Bool.false_ne_true
    rw [Finmap.lookup_erase_ne hkey, h l, find_without hl]

theorem front (h : SameContent cfg fns pairs m) (hfind : pairs.find? (sameKey cfg k) = some kv) :
    SameContent cfg fns (kv :: without cfg k pairs) m := by
  intro l
  have hkv : sameKey cfg k kv = true := List.find?_some hfind
  rw [h l]
  cases hl : cfg.equalsFn l k with
  | true =>
    rw [sameKey_congr hl, hfind, List.find?_cons_of_pos hkv]
  | false =>
    have hne : ¬ sameKey cfg l kv = true := fun hsame => by
      rw [sameKey_ne hl hsame] at hkv
      cases hkv
    rw [List.find?_cons_of_neg hne, find_without hl]

theorem step (h : SameContent cfg fns pairs m) (hequals : fns.equalsFn = cfg.equalsFn)
    (hkeeps : ∀ n, cfg.evictorFn n = false) (hdistinct : DuplicateFree cfg pairs) {op : Op K V}
    {determined : Option (Answer V)} (hlist : listStep cfg pairs op = some (pairs', determined)) :
    ∃ m', mapStep fns m op = some (m', determined) ∧ SameContent cfg fns pairs' m' := by
  cases op with
  | insert k v tableAlloc entryAlloc =>
    cases hfind : pairs.find? (sameKey cfg k) with
    | some kv =>
      simp only [listStep, hfind, Option.some.injEq, Prod.mk.injEq] at hlist
      obtain ⟨rfl,rfl⟩ := hlist
      have hmem : fns.toKey k ∈ m := h.mem_iff.mpr (by rw [hfind]; rfl)
      refine ⟨_,by rw [mapStep, if_pos (.inl hmem)],h.insert hequals v ?_ ?_⟩
      · intro l hl
        have hkv : sameKey cfg k kv = true := List.find?_some hfind
        rw [find_listReplace, sameKey_congr hl, hfind, Option.map_some, if_pos hkv]
        rfl
      · intro l hl
        rw [find_listReplace, Option.map_map]
        cases hother : pairs.find? (sameKey cfg l) with
        | none => rfl
        | some other => simp [sameKey_ne hl (List.find?_some hother)]
    | none =>
      have hnot : fns.toKey k ∉ m := fun hmem => by simpa [hfind] using h.mem_iff.mp hmem
      cases entryAlloc with
      | none =>
        simp only [listStep, hfind, Option.some.injEq, Prod.mk.injEq] at hlist
        obtain ⟨rfl,rfl⟩ := hlist
        exact ⟨m,by simp [mapStep, hnot],h⟩
      | some block =>
        simp only [listStep, hfind, listInsert, hkeeps, Bool.false_eq_true, if_false,
          Option.some.injEq, Prod.mk.injEq] at hlist
        obtain ⟨rfl,rfl⟩ := hlist
        refine ⟨_,by rw [mapStep, if_pos (.inr rfl)],h.insert hequals v ?_ ?_⟩
        · intro l hl
          have hfirst : sameKey cfg l (k,v) = true := cfg.symm hl
          rw [List.find?_cons_of_pos hfirst]
          rfl
        · intro l hl
          have hfirst : ¬ sameKey cfg l (k,v) = true := fun hsame => by
            rw [cfg.symm hsame] at hl
            cases hl
          rw [List.find?_cons_of_neg hfirst]
  | lookup k =>
    have hanswer := h k
    cases hfind : pairs.find? (sameKey cfg k) with
    | none =>
      rw [hfind] at hanswer
      simp only [listStep, hfind, Option.some.injEq, Prod.mk.injEq] at hlist
      obtain ⟨rfl,rfl⟩ := hlist
      exact ⟨m,by rw [mapStep, hanswer]; rfl,h⟩
    | some kv =>
      rw [hfind] at hanswer
      simp only [listStep, hfind, Option.some.injEq, Prod.mk.injEq] at hlist
      obtain ⟨rfl,rfl⟩ := hlist
      refine ⟨m,by rw [mapStep, hanswer]; rfl,?_⟩
      split
      · exact h.front hfind
      · exact h
  | remove k =>
    cases hfind : pairs.find? (sameKey cfg k) with
    | none =>
      have hnot : fns.toKey k ∉ m := fun hmem => by simpa [hfind] using h.mem_iff.mp hmem
      simp only [listStep, hfind, Option.some.injEq, Prod.mk.injEq] at hlist
      obtain ⟨rfl,rfl⟩ := hlist
      exact ⟨m,by rw [mapStep, if_neg hnot],h⟩
    | some kv =>
      have hmem : fns.toKey k ∈ m := h.mem_iff.mpr (by rw [hfind]; rfl)
      simp only [listStep, hfind, Option.some.injEq, Prod.mk.injEq] at hlist
      obtain ⟨rfl,rfl⟩ := hlist
      exact ⟨_,by rw [mapStep, if_pos hmem],h.erase hequals⟩
  | clear =>
    obtain ⟨rfl,rfl⟩ := Prod.mk.inj (Option.some.inj hlist)
    exact ⟨∅,rfl,empty⟩
  | resize capacity tableAlloc =>
    obtain ⟨rfl,rfl⟩ := Prod.mk.inj (Option.some.inj hlist)
    exact ⟨m,rfl,h⟩
  | count =>
    obtain ⟨rfl,rfl⟩ := Prod.mk.inj (Option.some.inj hlist)
    exact ⟨m,by rw [mapStep, h.card hequals hdistinct],h⟩

end SameContent

/-- Calls that differ only in what is got for the arrays and in where a new entry is. -/
inductive Alike : Op K V → Op K V → Prop where
  | insert (k : K) (v : Option V) (tableAlloc tableAlloc' : Option ℕ) {entryAlloc entryAlloc' : Option ℕ}
      (h : entryAlloc.isSome = entryAlloc'.isSome) :
      Alike (.insert k v tableAlloc entryAlloc) (.insert k v tableAlloc' entryAlloc')
  | lookup (k : K) : Alike (.lookup k) (.lookup k)
  | remove (k : K) : Alike (.remove k) (.remove k)
  | clear : Alike .clear .clear
  | resize (capacity : ℤ) (tableAlloc tableAlloc' : Option ℕ) :
      Alike (.resize capacity tableAlloc) (.resize capacity tableAlloc')
  | count : Alike .count .count

theorem Alike.mapStep {op op' : Op K V} (h : Alike op op') : mapStep fns m op = mapStep fns m op' := by
  cases h with
  | insert k v tableAlloc tableAlloc' h => simp only [HashTable.mapStep, h]
  | _ => rfl

/-- An answer, but for the code of a resize, which tells of the slots. -/
def seen : Op K V → Answer V → Option (Answer V)
  | .resize _ _, _ => none
  | _, answer => some answer

def observed {σ : Type*} (step : σ → Op K V → Option (σ × Answer V)) (s : σ) (op : Op K V) :
    Option (σ × Option (Answer V)) :=
  (step s op).map fun r => (r.1,seen op r.2)

theorem Alike.seen {op op' : Op K V} (h : Alike op op') (answer : Answer V) :
    seen op answer = seen op' answer := by
  cases h <;> rfl

theorem seen_of_agrees {op : Op K V} {m' : KeyMap fns V} {answer answer' : Answer V}
    {determined : Option (Answer V)} (hmap : mapStep fns m op = some (m', determined))
    (h : Agrees answer determined) (h' : Agrees answer' determined) : seen op answer = seen op answer' := by
  cases op with
  | resize capacity tableAlloc => rfl
  | insert | lookup | remove | clear | count =>
    obtain ⟨a,rfl⟩ : ∃ a, determined = some a := by
      simp only [mapStep] at hmap
      first
        | exact ⟨_,(Prod.mk.inj (Option.some.inj hmap)).2.symm⟩
        | split at hmap <;> exact ⟨_,(Prod.mk.inj (Option.some.inj hmap)).2.symm⟩
    rw [h a rfl, h' a rfl]

variable {chained : Config K} {linked : LConfig K} {h : Hashtbl K V} {table : LHashtbl K V}

def Stands (chained : Config K) (linked : LConfig K) (table : LHashtbl K V) (h : Hashtbl K V) : Prop :=
  ∃ L pairs m, Represents linked table L pairs ∧ HashTable.Represents chained h m ∧
    SameContent linked chained.toHashFns pairs m

/-- Both answer as the map does, where it determines the answer. -/
theorem Stands.step (hequals : chained.equalsFn = linked.equalsFn)
    (hkeeps : ∀ n, linked.evictorFn n = false) (hs : Stands chained linked table h) {op op' : Op K V}
    (halike : Alike op op') (hfresh : FreshBlock table op) :
    ∃ table' h' o, observed (lHashtblStep linked) table op = some (table', o) ∧
      observed (hashtblStep chained) h op' = some (h', o) ∧ Stands chained linked table' h' := by
  obtain ⟨L,pairs,m,hlinked,hchained,hsame⟩ := hs
  obtain ⟨table',pairs',answer,determined,hstep,hlist,hagree,L',hlinked'⟩ :=
    lHashtblStep_refines table pairs op ⟨L,hlinked⟩ hfresh
  obtain ⟨h',m',answer',determined',hstep',hmap,hagree',hchained'⟩ :=
    hashtblStep_refines h m op' hchained
  obtain ⟨m'',hmap',hsame'⟩ := hsame.step hequals hkeeps hlinked.distinct hlist
  rw [← halike.mapStep] at hmap
  obtain ⟨rfl,rfl⟩ := Prod.mk.inj (Option.some.inj (hmap.symm.trans hmap'))
  refine ⟨table',h',seen op answer,?_,?_,L',pairs',m',hlinked',hchained',hsame'⟩
  · rw [observed, hstep, Option.map_some]
  · rw [observed, hstep', Option.map_some, ← halike.seen, seen_of_agrees hmap hagree' hagree]

/-- With one `equals_fn`, whatever their hash functions, sizes and orders, and whatever memory
each of them finds for its arrays, a chained table and a linked one that evicts nothing answer
every sequence of calls alike, but for the codes of resizes, hold as many entries and find the
same values. -/
theorem hashtables_agree (hequals : chained.equalsFn = linked.equalsFn)
    (hkeeps : ∀ n, linked.evictorFn n = false) {capacity capacity' : ℤ}
    {handleAlloc handleAlloc' tableAlloc tableAlloc' : Option ℕ}
    (hcreate : hashtblCreate chained capacity handleAlloc tableAlloc = .ok h)
    (hcreate' : lHashtblCreate linked capacity' handleAlloc' tableAlloc' = some (.ok table))
    {ops ops' : List (Op K V)} (halike : List.Forall₂ Alike ops ops')
    (hfresh : Admits (observed (lHashtblStep linked)) FreshBlock table ops) :
    ∃ table' h' os, run (observed (lHashtblStep linked)) table ops = some (table', os) ∧
      run (observed (hashtblStep chained)) h ops' = some (h', os) ∧
      lHashtblCount table' = hashtblCount h' ∧
      ∀ k, (lHashtblLookup linked table' k).map Prod.snd = some (hashtblLookup chained h' k) := by
  have hstart : Stands chained linked table h :=
    ⟨[],[],∅,lHashtblCreate_represents hcreate',hashtblCreate_represents hcreate,SameContent.empty⟩
  have hstep : ∀ (table : LHashtbl K V) (h : Hashtbl K V) (op op' : Op K V),
      Stands chained linked table h → Alike op op' → FreshBlock table op →
      ∃ table' h' o o', observed (lHashtblStep linked) table op = some (table', o) ∧
        observed (hashtblStep chained) h op' = some (h', o') ∧ o = o' ∧
        Stands chained linked table' h' := by
    intro table h op op' hs halike hfresh
    obtain ⟨table',h',o,hrun,hrun',hs'⟩ := hs.step hequals hkeeps halike hfresh
    exact ⟨table',h',o,o,hrun,hrun',rfl,hs'⟩
  obtain ⟨table',h',os,os',hrun,hrun',hos,hs⟩ := run_couples hstep hstart halike hfresh
  obtain rfl : os = os' := by simpa using hos
  refine ⟨table',h',os,hrun,hrun',?_,fun k => ?_⟩
  · obtain ⟨L,pairs,m,hlinked,hchained,hsame⟩ := hs
    rw [lHashtblCount, hlinked.count, hlinked.length, hashtblCount, ← hchained.card,
      hsame.card hequals hlinked.distinct]
  · have hlookup : FreshBlock table' (.lookup k) := trivial
    obtain ⟨t,u,o,hlooked,hlooked',-⟩ := hs.step hequals hkeeps (.lookup k) hlookup
    obtain ⟨r,hr,he⟩ := Option.map_eq_some_iff.mp hlooked
    obtain ⟨q,hq,rfl⟩ := Option.map_eq_some_iff.mp hr
    obtain ⟨-,rfl⟩ := Prod.mk.inj (Option.some.inj hlooked')
    obtain ⟨-,hval⟩ := Prod.mk.inj he
    rw [hq, Option.map_some]
    exact congrArg some (Answer.val.inj (Option.some.inj hval))

def orderedKeys : LConfig ℕ := { collidingKeys with accessOrder := true, evictorFn := fun _ => false }

/-- The same calls of a chained table, which grows where the linked one finds no memory for an
array. -/
def growingOps : List (Op ℕ ℕ) :=
  [.insert 1 (some 10) none (some 7), .insert 2 (some 20) (some 8) (some 9), .lookup 1, .lookup 2]

theorem growingOps_alike : List.Forall₂ Alike lruOps growingOps :=
  .cons (.insert _ _ _ _ rfl) (.cons (.insert _ _ _ _ rfl)
    (.cons (.lookup 1) (.cons (.lookup 2) .nil)))

theorem hashtables_agree_sample :
    ∃ table' h' os, run (observed (lHashtblStep orderedKeys)) lruTable lruOps = some (table', os) ∧
      run (observed (hashtblStep collidingKeys)) collidingTable growingOps = some (h', os) ∧
      lHashtblCount table' = hashtblCount h' ∧
      ∀ k, (lHashtblLookup orderedKeys table' k).map Prod.snd =
        some (hashtblLookup collidingKeys h' k) := by
  refine @hashtables_agree ℕ ℕ collidingKeys orderedKeys collidingTable lruTable rfl (fun _ => rfl)
    1 1 (some 1) (some 1) (some 2) (some 2) rfl rfl lruOps growingOps growingOps_alike ?_
  refine ⟨⟨by decide,rfl⟩,fun r hr => ?_⟩
  cases hr
  exact ⟨⟨by decide,rfl⟩,fun _ _ => ⟨trivial,fun _ _ => ⟨trivial,fun _ _ => trivial⟩⟩⟩

end CppExamples.LinkedTable
