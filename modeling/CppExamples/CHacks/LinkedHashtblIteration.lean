import CppExamples.CHacks.LinkedHashtblOrder

/-! # Changing the linked hash table while it is iterated

A client calls `l_hashtbl_iter_next` and then does something to the entry that it was
handed, until there is no next one.  The iterator already points to the entry behind,
so what counts is what the action does to the nodes that are still to come: nothing
when the entry is removed, and nothing when it is moved to the front, unless the walk
goes towards the front.
-/
namespace CppExamples.LinkedTable
open HashTable Linked Machine

variable {K V : Type*}

/-- The loop of a client that does something to each entry it is handed: what it was
handed, and the table at the end. -/
def visitEach (act : LHashtbl K V → K → Option (LHashtbl K V)) :
    ℕ → LIter K V → LHashtbl K V → Option (List (Option K × Option V) × LHashtbl K V)
  | 0, _, _ => none
  | fuel + 1, iter, h =>
    (lHashtblIterNext h iter).bind fun r =>
      if r.2 = 0 then some ([], h)
      else
        r.1.key.bind fun k => (act h k).bind fun h =>
          (visitEach act fuel r.1 h).map fun q => ((r.1.key, r.1.val) :: q.1, q.2)

def eraseIn (cfg : LConfig K) (inSet : K → Bool) (h : LHashtbl K V) (k : K) :
    Option (LHashtbl K V) :=
  if inSet k then (lHashtblRemove cfg h k).map Prod.fst else some h

def lookUp (cfg : LConfig K) (h : LHashtbl K V) (k : K) : Option (LHashtbl K V) :=
  (lHashtblLookup cfg h k).map Prod.fst

/-- A list in the order in which a direction leads through it. -/
def along {α : Type*} (direction : ℤ) (l : List α) : List α :=
  if 1 ≤ direction then l else l.reverse

variable {cfg : LConfig K} {h : LHashtbl K V} {k : K} {kv : K × Option V} {a : ℕ}
variable {kept rest l m L : List ℕ} {keptPairs restPairs p q pairs : List (K × Option V)}
variable {direction : ℤ}

/-- The client has the first pairs behind it, and the others to come on their nodes. -/
def Between (cfg : LConfig K) (direction : ℤ) (h : LHashtbl K V)
    (keptPairs restPairs : List (K × Option V)) (rest : List ℕ) : Prop :=
  ∃ kept L pairs, Represents cfg h L pairs ∧ along direction L = kept ++ rest ∧
    along direction pairs = keptPairs ++ restPairs ∧ kept.length = keptPairs.length

theorem DuplicateFree.place {kv' : K × Option V} {p' q' : List (K × Option V)}
    (hd : DuplicateFree cfg (p ++ kv :: q)) (hsplit : p ++ kv :: q = p' ++ kv' :: q')
    (hsame : sameKey cfg kv.1 kv' = true) : p = p' ∧ kv = kv' ∧ q = q' := by
  have hothers := hd.others (cfg.refl kv.1 : sameKey cfg kv.1 kv = true)
  have hnot : kv' ∉ p ++ q := by
    intro hmem
    rw [hothers kv' hmem] at hsame
    cases hsame
  have hp : p = p' := by
    rcases List.append_eq_append_iff.mp hsplit with ⟨between,rfl,hrest⟩ | ⟨between,rfl,hrest⟩
    · cases between with
      | nil => simp
      | cons b between =>
        obtain ⟨rfl,rfl⟩ := List.cons.inj hrest
        exact absurd (by simp) hnot
    · cases between with
      | nil => simp
      | cons b between =>
        obtain ⟨rfl,-⟩ := List.cons.inj hrest
        exact absurd (by simp) hnot
  subst hp
  obtain ⟨rfl,rfl⟩ := List.cons.inj (List.append_cancel_left hsplit)
  exact ⟨rfl,rfl,rfl⟩

theorem Represents.find_at (hr : Represents cfg h (l ++ a :: m) (p ++ kv :: q))
    (hlength : l.length = p.length) : ∃ ref, Found cfg h kv.1 ref a l m p q kv := by
  rcases hr.find_cases kv.1 with ⟨ref,-,hmiss⟩ | ⟨ref,a',l',m',p',q',kv',hL,hpairs,hf⟩
  · have hself : sameKey cfg kv.1 kv = true := cfg.refl kv.1
    rw [hmiss kv (by simp)] at hself
    cases hself
  · obtain ⟨rfl,rfl,rfl⟩ := hr.distinct.place hpairs hf.same
    have hcount : l.length = l'.length := by
      have hbefore := congrArg List.length hf.before
      simp only [List.length_map] at hbefore
      omega
    obtain ⟨rfl,hrest⟩ := List.append_inj hL hcount
    obtain ⟨rfl,rfl⟩ := List.cons.inj hrest
    exact ⟨ref,hf⟩

@[simp] theorem along_length {α : Type*} (direction : ℤ) (l : List α) :
    (along direction l).length = l.length := by
  unfold along
  split <;> simp

@[simp] theorem along_singleton {α : Type*} (direction : ℤ) (a : α) : along direction [a] = [a] := by
  unfold along
  split <;> rfl

theorem along_along {α : Type*} (direction : ℤ) (l : List α) :
    along direction (along direction l) = l := by
  unfold along
  split <;> simp

theorem along_middle {α : Type*} (direction : ℤ) (l : List α) (a : α) (m : List α) :
    along direction (l ++ a :: m) =
      (if 1 ≤ direction then l else m.reverse) ++ a :: if 1 ≤ direction then m else l.reverse := by
  unfold along
  split <;> simp

theorem along_cut {α : Type*} (direction : ℤ) (l m : List α) :
    along direction (l ++ m) =
      (if 1 ≤ direction then l else m.reverse) ++ if 1 ≤ direction then m else l.reverse := by
  unfold along
  split <;> simp

theorem Between.length (hb : Between cfg direction h keptPairs restPairs rest) :
    rest.length = restPairs.length := by
  obtain ⟨kept,L,pairs,hr,hL,hpairs,hkept⟩ := hb
  have hnodes := congrArg List.length hL
  have hall := congrArg List.length hpairs
  have hsame := hr.length
  simp only [along_length, List.length_append] at hnodes hall
  omega

theorem Between.next (hb : Between cfg direction h keptPairs (kv :: restPairs) (a :: rest)) :
    a ≠ 0 ∧ h.data a = stored cfg kv ∧
      (if direction ≥ 1 then h.next a else h.prev a) = rest.headD 0 := by
  obtain ⟨kept,L,pairs,hr,hL,hpairs,hkept⟩ := hb
  have hring : ∃ first, Path (if direction ≥ 1 then h.next else h.prev) first (along direction L) 0 ∧
      0 ∉ along direction L := by
    unfold along
    split
    · exact ⟨_,hr.ring.forward.2,hr.ring.head_notMem⟩
    · exact ⟨_,hr.ring.backward.2,hr.ring.reverse.head_notMem⟩
  have hdata : (along direction L).map h.data = (along direction pairs).map (stored cfg) := by
    have hdata := hr.data
    unfold along
    split
    · exact hdata
    · rw [List.map_reverse, hdata, List.map_reverse]
  obtain ⟨first,hpath,h0⟩ := hring
  rw [hL] at hpath h0 hdata
  rw [hpairs, List.map_append, List.map_append] at hdata
  obtain ⟨_,-,rfl,hbehind⟩ := path_append.mp hpath
  refine ⟨fun he => h0 (by simp [he]),?_,?_⟩
  · exact (List.cons.inj (List.append_inj hdata (by simp [hkept])).2).1
  · rw [ite_apply] at hbehind
    cases rest with
    | nil => exact hbehind
    | cons b rest => exact hbehind.1

theorem Between.found (hb : Between cfg direction h keptPairs (kv :: restPairs) (a :: rest)) :
    ∃ ref l m p q, Represents cfg h (l ++ a :: m) (p ++ kv :: q) ∧
      Found cfg h kv.1 ref a l m p q kv ∧
      (∀ h', Represents cfg h' (l ++ m) (p ++ q) → Between cfg direction h' keptPairs restPairs rest) ∧
      (1 ≤ direction → ∀ h', Represents cfg h' (a :: (l ++ m)) (kv :: (p ++ q)) →
        Between cfg direction h' (kv :: keptPairs) restPairs rest) := by
  have hlength := hb.length
  obtain ⟨kept,L,pairs,hr,hL,hpairs,hkept⟩ := hb
  rw [← along_along direction L, hL, ← along_along direction pairs, hpairs, along_middle,
    along_middle] at hr
  obtain ⟨ref,hf⟩ := hr.find_at (by
    simp only [List.length_cons, Nat.add_right_cancel_iff] at hlength
    split <;> simp [hkept, hlength])
  refine ⟨ref,_,_,_,_,hr,hf,?_,?_⟩
  · intro h' hr'
    rw [← along_cut, ← along_cut] at hr'
    exact ⟨kept,_,_,hr',along_along _ _,along_along _ _,hkept⟩
  · intro hd h' hr'
    rw [← along_cut, ← along_cut] at hr'
    refine ⟨a :: kept,_,_,hr',?_,?_,by simp [hkept]⟩
    · simp [along, hd]
    · simp [along, hd]

theorem Between.pass (hb : Between cfg direction h keptPairs (kv :: restPairs) (a :: rest)) :
    Between cfg direction h (keptPairs ++ [kv]) restPairs rest := by
  obtain ⟨kept,L,pairs,hr,hL,hpairs,hkept⟩ := hb
  exact ⟨kept ++ [a],L,pairs,hr,by simp [hL],by simp [hpairs],by simp [hkept]⟩

/-- When the action on a pair leaves those behind it to come, the client is handed all of
them and the loop ends. -/
theorem visitEach_spec {act : LHashtbl K V → K → Option (LHashtbl K V)}
    {keep : List (K × Option V) → K × Option V → List (K × Option V)}
    (hact : ∀ h keptPairs kv restPairs a rest,
      Between cfg direction h keptPairs (kv :: restPairs) (a :: rest) →
      ∃ h', act h kv.1 = some h' ∧ Between cfg direction h' (keep keptPairs kv) restPairs rest)
    (hb : Between cfg direction h keptPairs restPairs rest) (iter : LIter K V)
    (hdirection : iter.direction = direction) (hpos : iter.pos = rest.headD 0) {fuel : ℕ}
    (hfuel : restPairs.length < fuel) :
    ∃ h', visitEach act fuel iter h = some (restPairs.map fun kv => (some kv.1, kv.2), h') ∧
      Between cfg direction h' (restPairs.foldl keep keptPairs) [] [] := by
  induction restPairs generalizing h keptPairs rest iter fuel with
  | nil =>
    obtain rfl := List.length_eq_zero_iff.mp hb.length
    obtain ⟨n,rfl⟩ : ∃ n, fuel = n + 1 := ⟨fuel - 1,by simp at hfuel; omega⟩
    have hend : iter.pos = 0 := hpos
    exact ⟨h,by simp [visitEach, lHashtblIterNext, hend],hb⟩
  | cons kv restPairs ih =>
    obtain ⟨n,rfl⟩ : ∃ n, fuel = n + 1 := ⟨fuel - 1,by omega⟩
    cases rest with
    | nil => cases hb.length
    | cons a rest =>
      obtain ⟨hne,hdata,hnext⟩ := hb.next
      obtain ⟨h₁,hrun,hb₁⟩ := hact h keptPairs kv restPairs a rest hb
      have hpos : iter.pos = a := hpos
      obtain ⟨h',hloop,hend⟩ := ih hb₁ { iter with
          pos := if iter.direction ≥ 1 then h.next iter.pos else h.prev iter.pos
          key := some kv.1
          val := kv.2 } hdirection (by rw [hdirection, hpos]; exact hnext) (by simpa using hfuel)
      refine ⟨h',?_,hend⟩
      rw [visitEach, lHashtblIterNext, if_neg (hpos ▸ hne), hpos, hdata]
      rw [hpos] at hloop
      simp [stored, hrun, hloop]

theorem Represents.between (hr : Represents cfg h L pairs) (direction : ℤ) :
    Between cfg direction h [] (along direction pairs) (along direction L) ∧
      (lHashtblIterInit h direction).pos = (along direction L).headD 0 := by
  refine ⟨⟨[],L,pairs,hr,rfl,rfl,rfl⟩,?_⟩
  have hhead : ∀ {next : ℕ → ℕ} {l : List ℕ}, Path next (next 0) l 0 → next 0 = l.headD 0 := by
    intro next l hpath
    cases l with
    | nil => exact hpath
    | cons b l => exact hpath.1
  unfold lHashtblIterInit along
  split
  · exact hhead hr.ring.forward.2
  · exact hhead hr.ring.backward.2

theorem Between.all (hb : Between cfg direction h keptPairs [] []) :
    ∃ L, Represents cfg h L (along direction keptPairs) := by
  obtain ⟨kept,L,pairs,hr,-,hpairs,-⟩ := hb
  rw [List.append_nil] at hpairs
  exact ⟨L,by rwa [← hpairs, along_along]⟩

theorem Represents.visited (hr : Represents cfg h L pairs) (direction : ℤ) :
    visited h direction = some ((along direction pairs).map fun kv => (some kv.1, kv.2)) := by
  unfold along
  split
  · exact visited_forward hr ‹_›
  · exact visited_backward hr (by omega)

theorem eraseIn_spec (inSet : K → Bool)
    (hb : Between cfg direction h keptPairs (kv :: restPairs) (a :: rest)) :
    ∃ h', eraseIn cfg inSet h kv.1 = some h' ∧
      Between cfg direction h' (if inSet kv.1 then keptPairs else keptPairs ++ [kv]) restPairs rest := by
  unfold eraseIn
  cases inSet kv.1 with
  | true =>
    obtain ⟨ref,l,m,p,q,hr,hf,hcut,-⟩ := hb.found
    obtain ⟨h',hremove,hr',-⟩ := lHashtblRemove_found hr hf
    exact ⟨h',by simp [hremove],hcut h' hr'⟩
  | false => exact ⟨h,rfl,hb.pass⟩

theorem foldl_keep (inSet : K → Bool) (kept pairs : List (K × Option V)) :
    pairs.foldl (fun kept kv => if inSet kv.1 then kept else kept ++ [kv]) kept =
      kept ++ pairs.filter fun kv => !inSet kv.1 := by
  induction pairs generalizing kept with
  | nil => simp
  | cons kv pairs ih =>
    rw [List.foldl_cons, ih]
    cases h : inSet kv.1 <;> simp [h]

theorem along_filter {α : Type*} (direction : ℤ) (f : α → Bool) (l : List α) :
    along direction ((along direction l).filter f) = l.filter f := by
  unfold along
  split
  · rfl
  · rw [List.filter_reverse, List.reverse_reverse]

/-- A client that removes the entries of a set as it is handed them is handed every entry
in walking order, and leaves the others in their order. -/
theorem erase_iterating (capacity : ℤ) (handleAlloc tableAlloc : Option ℕ)
    (hcreate : lHashtblCreate cfg capacity handleAlloc tableAlloc = some (.ok h))
    (ops : List (Op K V)) (hfresh : Admits (lHashtblStep cfg) FreshBlock h ops) (direction : ℤ)
    (inSet : K → Bool) :
    ∃ h' pairs answers determined, run (lHashtblStep cfg) h ops = some (h', answers) ∧
      run (listStep cfg) [] ops = some (pairs, determined) ∧
      visited h' direction = some ((along direction pairs).map fun kv => (some kv.1, kv.2)) ∧
      ∃ erased L, visitEach (eraseIn cfg inSet) (lHashtblCount h' + 1)
            (lHashtblIterInit h' direction) h' =
          some ((along direction pairs).map fun kv => (some kv.1, kv.2), erased) ∧
        Represents cfg erased L (pairs.filter fun kv => !inSet kv.1) ∧
        (∀ direction, visited erased direction = some
          ((along direction (pairs.filter fun kv => !inSet kv.1)).map fun kv => (some kv.1, kv.2))) ∧
        lHashtblCount erased = (pairs.filter fun kv => !inSet kv.1).length := by
  obtain ⟨h',pairs,answers,determined,hrun,hlist,-,L,hr⟩ :=
    run_refines lHashtblStep_refines ⟨[],lHashtblCreate_represents hcreate⟩ hfresh
  obtain ⟨hb,hpos⟩ := hr.between direction
  have hcount : (along direction pairs).length < lHashtblCount h' + 1 := by
    rw [along_length, lHashtblCount, hr.count, hr.length]
    exact Nat.lt_succ_self _
  obtain ⟨erased,hloop,hend⟩ :=
    visitEach_spec (fun h keptPairs kv restPairs a rest hb => eraseIn_spec inSet hb) hb
      (lHashtblIterInit h' direction) rfl hpos hcount
  rw [foldl_keep, List.nil_append] at hend
  obtain ⟨L',hr'⟩ := hend.all
  rw [along_filter] at hr'
  exact ⟨h',pairs,answers,determined,hrun,hlist,hr.visited direction,erased,L',hloop,hr',hr'.visited,
    hr'.count.trans hr'.length⟩

def accessConfig : LConfig ℕ := { lruConfig with evictorFn := fun _ => false }

def twoInserts : List (Op ℕ ℕ) :=
  [.insert 1 (some 10) none (some 4), .insert 2 (some 20) none (some 5)]

theorem twoInserts_fresh : Admits (lHashtblStep accessConfig) FreshBlock lruTable twoInserts := by
  refine ⟨⟨by decide,rfl⟩,fun r hr => ?_⟩
  cases hr
  exact ⟨⟨by decide,rfl⟩,fun _ _ => trivial⟩

theorem erase_iterating_two :
    ∃ h' pairs answers determined,
      run (lHashtblStep accessConfig) lruTable twoInserts = some (h', answers) ∧
      run (listStep accessConfig) [] twoInserts = some (pairs, determined) ∧
      visited h' 0 = some ((along 0 pairs).map fun kv => (some kv.1, kv.2)) ∧
      ∃ erased L, visitEach (eraseIn accessConfig (· == 1)) (lHashtblCount h' + 1)
            (lHashtblIterInit h' 0) h' =
          some ((along 0 pairs).map fun kv => (some kv.1, kv.2), erased) ∧
        Represents accessConfig erased L (pairs.filter fun kv => !(kv.1 == 1)) ∧
        (∀ direction, visited erased direction = some
          ((along direction (pairs.filter fun kv => !(kv.1 == 1))).map fun kv => (some kv.1, kv.2))) ∧
        lHashtblCount erased = (pairs.filter fun kv => !(kv.1 == 1)).length :=
  erase_iterating 1 (some 1) (some 2) rfl twoInserts twoInserts_fresh 0 (· == 1)

theorem lookUp_spec (hcfg : cfg.accessOrder = false ∨ 1 ≤ direction)
    (hb : Between cfg direction h keptPairs (kv :: restPairs) (a :: rest)) :
    ∃ h', lookUp cfg h kv.1 = some h' ∧
      Between cfg direction h'
        (if cfg.accessOrder then kv :: keptPairs else keptPairs ++ [kv]) restPairs rest := by
  obtain ⟨ref,l,m,p,q,hr,hf,-,hfront⟩ := hb.found
  have hlookup : lookUp cfg h kv.1 = some (recordAccess cfg h a) := by
    rw [lookUp, lHashtblLookup_found hf, Option.map_some]
  refine ⟨_,hlookup,?_⟩
  unfold recordAccess
  cases haccess : cfg.accessOrder with
  | true =>
    rw [haccess] at hcfg
    exact hfront (hcfg.resolve_left (by decide)) _ (hr.moveToFront hf.before hf.entry hf.after)
  | false => exact hb.pass

theorem lookUp_single (hr : Represents cfg h [a] [kv]) (iter : LIter K V) (hpos : iter.pos = a) :
    ∃ h', visitEach (lookUp cfg) 2 iter h = some ([(some kv.1, kv.2)], h') := by
  obtain ⟨hb,-⟩ := hr.between iter.direction
  rw [along_singleton, along_singleton] at hb
  obtain ⟨hne,hdata,hnext⟩ := hb.next
  obtain ⟨ref,hf⟩ := Represents.find_at (l := []) (m := []) (p := []) (q := []) hr rfl
  refine ⟨recordAccess cfg h a,?_⟩
  simp only [List.headD_nil] at hnext
  simp [visitEach, lHashtblIterNext, hpos, hne, hdata, stored, lookUp, lHashtblLookup_found hf, hnext]

/-- Towards the front the node that a lookup moves comes again: the iterator points to the
last node of the ring at every turn. -/
theorem lookUp_endless (haccess : cfg.accessOrder = true) (fuel : ℕ) (iter : LIter K V)
    (hdirection : iter.direction < 1) (hr : Represents cfg h (l ++ [a]) (p ++ [kv]))
    (hmany : l ≠ []) (hpos : iter.pos = a) : visitEach (lookUp cfg) fuel iter h = none := by
  induction fuel generalizing iter h l a p kv with
  | zero => rfl
  | succ fuel ih =>
    have hlength := hr.length
    obtain ⟨hb,-⟩ := hr.between iter.direction
    simp only [along, if_neg (not_le.mpr hdirection), List.reverse_append, List.reverse_singleton,
      List.singleton_append] at hb
    obtain ⟨hne,hdata,hnext⟩ := hb.next
    obtain ⟨ref,hf⟩ := hr.find_at (by simpa using hlength)
    obtain ⟨l',b,rfl⟩ := (List.eq_nil_or_concat' l).resolve_left hmany
    obtain ⟨p',kv',rfl⟩ := (List.eq_nil_or_concat' p).resolve_left fun he => by simp [he] at hlength
    have hmoved := hr.moveToFront hf.before hf.entry hf.after
    rw [List.append_nil, List.append_nil, ← List.cons_append, ← List.cons_append] at hmoved
    have hrest := ih { iter with
      pos := if iter.direction ≥ 1 then h.next iter.pos else h.prev iter.pos
      key := some kv.1
      val := kv.2 } hdirection hmoved (List.cons_ne_nil _ _) (by rw [hpos]; simpa using hnext)
    rw [hpos] at hrest
    rw [visitEach, lHashtblIterNext, if_neg (hpos ▸ hne), hpos, hdata]
    simp [stored, lookUp, lHashtblLookup_found hf, recordAccess, haccess, hrest]

/-- A client that looks up the entries as it is handed them is handed each of them once and
then reaches the end, except towards the front of a table in access order. -/
theorem lookup_iterating (capacity : ℤ) (handleAlloc tableAlloc : Option ℕ)
    (hcreate : lHashtblCreate cfg capacity handleAlloc tableAlloc = some (.ok h))
    (ops : List (Op K V)) (hfresh : Admits (lHashtblStep cfg) FreshBlock h ops) (direction : ℤ) :
    ∃ h' pairs answers determined, run (lHashtblStep cfg) h ops = some (h', answers) ∧
      run (listStep cfg) [] ops = some (pairs, determined) ∧
      visited h' direction = some ((along direction pairs).map fun kv => (some kv.1, kv.2)) ∧
      ((∃ fuel handed last, visitEach (lookUp cfg) fuel (lHashtblIterInit h' direction) h' =
          some (handed, last) ∧ handed.Perm (pairs.map fun kv => (some kv.1, kv.2))) ↔
        cfg.accessOrder = false ∨ 1 ≤ direction ∨ lHashtblCount h' ≤ 1) := by
  obtain ⟨h',pairs,answers,determined,hrun,hlist,-,L,hr⟩ :=
    run_refines lHashtblStep_refines ⟨[],lHashtblCreate_represents hcreate⟩ hfresh
  refine ⟨h',pairs,answers,determined,hrun,hlist,hr.visited direction,?_⟩
  obtain ⟨hb,hpos⟩ := hr.between direction
  have hcount : lHashtblCount h' = L.length := hr.count
  constructor
  · rintro ⟨fuel,handed,last,hloop,-⟩
    by_contra hno
    simp only [not_or, Bool.not_eq_false, not_le, hcount] at hno
    obtain ⟨haccess,hd,hmany⟩ := hno
    have hlength := hr.length
    obtain ⟨l,a,rfl⟩ := (List.eq_nil_or_concat' L).resolve_left fun he => by simp [he] at hmany
    obtain ⟨p,kv,rfl⟩ := (List.eq_nil_or_concat' pairs).resolve_left fun he => by
      simp [he] at hlength
    have hlast : (along direction (l ++ [a])).headD 0 = a := by
      simp [along, not_le.mpr hd]
    rw [lookUp_endless haccess fuel _ hd hr (fun he => by simp [he] at hmany) (hpos.trans hlast)]
      at hloop
    cases hloop
  · intro hcfg
    have hperm : (along direction pairs).Perm pairs := by
      unfold along
      split
      · exact List.Perm.refl _
      · exact List.reverse_perm _
    by_cases hfew : lHashtblCount h' ≤ 1
    · have hlength := hr.length
      rcases L with _ | ⟨a,_ | ⟨b,L⟩⟩
      · obtain rfl := List.length_eq_zero_iff.mp hlength.symm
        have hend : (lHashtblIterInit h' direction).pos = 0 := by simpa [along] using hpos
        exact ⟨1,[],h',by simp [visitEach, lHashtblIterNext, hend],by simp⟩
      · obtain ⟨kv,rfl⟩ := List.length_eq_one_iff.mp hlength.symm
        obtain ⟨last,hloop⟩ := lookUp_single hr (lHashtblIterInit h' direction) (by simpa using hpos)
        exact ⟨2,_,last,hloop,List.Perm.refl _⟩
      · simp [hcount] at hfew
    · have hcfg : cfg.accessOrder = false ∨ 1 ≤ direction := by tauto
      obtain ⟨last,hloop,-⟩ :=
        visitEach_spec (fun h keptPairs kv restPairs a rest hb => lookUp_spec hcfg hb) hb
          (lHashtblIterInit h' direction) rfl hpos (Nat.lt_succ_self _)
      exact ⟨_,_,last,hloop,hperm.map _⟩

theorem lookup_iterating_two :
    ∃ h' pairs answers determined,
      run (lHashtblStep accessConfig) lruTable twoInserts = some (h', answers) ∧
      run (listStep accessConfig) [] twoInserts = some (pairs, determined) ∧
      visited h' 1 = some ((along 1 pairs).map fun kv => (some kv.1, kv.2)) ∧
      ((∃ fuel handed last, visitEach (lookUp accessConfig) fuel (lHashtblIterInit h' 1) h' =
          some (handed, last) ∧ handed.Perm (pairs.map fun kv => (some kv.1, kv.2))) ↔
        accessConfig.accessOrder = false ∨ (1 : ℤ) ≤ 1 ∨ lHashtblCount h' ≤ 1) :=
  lookup_iterating 1 (some 1) (some 2) rfl twoInserts twoInserts_fresh 1

/-- Two entries in access order, walked from the last one. -/
theorem lookup_iterating_endless :
    lHashtblCreate accessConfig 1 (some 1) (some 2) = some (.ok lruTable) ∧
    ∃ h' answers, run (lHashtblStep accessConfig) lruTable twoInserts = some (h', answers) ∧
      ∀ fuel, visitEach (lookUp accessConfig) fuel (lHashtblIterInit h' (-1)) h' = none := by
  refine ⟨rfl,?_⟩
  have hcreate : lHashtblCreate accessConfig 1 (some 1) (some 2) = some (.ok lruTable) := rfl
  obtain ⟨h',pairs,answers,determined,hrun,hlist,-,L,hr⟩ :=
    run_refines lHashtblStep_refines ⟨[],lHashtblCreate_represents hcreate⟩ twoInserts_fresh
  refine ⟨h',answers,hrun,fun fuel => ?_⟩
  obtain rfl : pairs = [(2, some 20)] ++ [(1, some 10)] := by
    cases hlist
    rfl
  obtain ⟨b,a,rfl⟩ := List.length_eq_two.mp hr.length
  obtain ⟨-,hpos⟩ := hr.between (-1)
  exact lookUp_endless (l := [b]) rfl fuel _ (show (-1 : ℤ) < 1 by decide) hr (List.cons_ne_nil _ _) hpos

end CppExamples.LinkedTable
