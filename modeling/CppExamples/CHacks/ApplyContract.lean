import CppExamples.CHacks.HashtblIteration
import CppExamples.CHacks.LinkedHashtblOrder

/-! # One contract for both `apply` functions

The headers say the same of both: the callback is applied to the entries in order, returns
0 to end the enumeration early, and the number of entries visited is returned.  The
chained table tests for 0; the linked one goes on only after 1.
-/
namespace CppExamples.HashTable
open Machine LinkedTable

variable {K V σ : Type*}

/-- The contract: the visits up to and including the first that returns 0, and their number. -/
def untilZero (apply : σ → K → Option V → σ × ℤ) : List (K × Option V) → σ → ℕ → σ × ℕ
  | [], s, nentries => (s, nentries)
  | kv :: pairs, s, nentries =>
    let r := apply s kv.1 kv.2
    if r.2 = 0 then (r.1, nentries + 1) else untilZero apply pairs r.1 (nentries + 1)

/-- Up to the first 0 the callback returns 1, on the last entry anything. -/
def ReturnsOne (apply : σ → K → Option V → σ × ℤ) : List (K × Option V) → σ → Prop
  | [], _ => True
  | [_], _ => True
  | kv :: pairs, s =>
    (apply s kv.1 kv.2).2 = 0 ∨
      (apply s kv.1 kv.2).2 = 1 ∧ ReturnsOne apply pairs (apply s kv.1 kv.2).1

theorem returnsOne_cons (apply : σ → K → Option V → σ × ℤ) (kv : K × Option V)
    {pairs : List (K × Option V)} (hne : pairs ≠ []) (s : σ) :
    ReturnsOne apply (kv :: pairs) s ↔ (apply s kv.1 kv.2).2 = 0 ∨
      (apply s kv.1 kv.2).2 = 1 ∧ ReturnsOne apply pairs (apply s kv.1 kv.2).1 := by
  cases pairs with
  | nil => exact absurd rfl hne
  | cons next pairs => exact Iff.rfl

theorem lt_untilZero (apply : σ → K → Option V → σ × ℤ) {pairs : List (K × Option V)}
    (hne : pairs ≠ []) (s : σ) (nentries : ℕ) : nentries < (untilZero apply pairs s nentries).2 := by
  induction pairs generalizing s nentries with
  | nil => exact absurd rfl hne
  | cons kv pairs ih =>
    rw [untilZero]
    split
    · exact Nat.lt_succ_self nentries
    · rcases eq_or_ne pairs [] with rfl | hrest
      · exact Nat.lt_succ_self nentries
      · exact (Nat.lt_succ_self nentries).trans (ih hrest _ _)

theorem applyChain_untilZero (apply : σ → K → Option V → σ × ℤ) (entries : List (Entry K V))
    (s : σ) (nentries : ℕ) :
    (match applyChain apply entries (s, nentries) with
      | .ok p => p
      | .error p => p) =
      untilZero apply (entries.map fun entry => (entry.key, entry.val)) s nentries := by
  induction entries generalizing s nentries with
  | nil => rfl
  | cons entry entries ih =>
    rw [applyChain, List.map_cons, untilZero]
    by_cases hzero : (apply s entry.key entry.val).2 = 0
    · simp only [if_pos hzero]
    · simp only [if_neg hzero, ih]

/-- The linked table's visits end at the first result other than 1. -/
theorem visitPairs_eq_iff (apply : σ → K → Option V → σ × ℤ) (pairs : List (K × Option V)) (s : σ)
    (nentries : ℕ) :
    visitPairs apply pairs s nentries = untilZero apply pairs s nentries ↔
      ReturnsOne apply pairs s := by
  induction pairs generalizing s nentries with
  | nil => exact iff_of_true rfl trivial
  | cons kv pairs ih =>
    rw [visitPairs, untilZero]
    rcases eq_or_ne pairs [] with rfl | hrest
    · refine iff_of_true ?_ trivial
      simp only [visitPairs, untilZero, ite_self]
    rw [returnsOne_cons apply kv hrest]
    by_cases hzero : (apply s kv.1 kv.2).2 = 0
    · have hone : (apply s kv.1 kv.2).2 ≠ 1 := by omega
      rw [if_pos hone, if_pos hzero]
      exact iff_of_true rfl (.inl hzero)
    · by_cases hone : (apply s kv.1 kv.2).2 = 1
      · rw [if_neg (not_not.mpr hone), if_neg hzero, ih]
        constructor
        · exact fun h => .inr ⟨hone,h⟩
        · rintro (h | ⟨-,h⟩)
          · exact absurd h hzero
          · exact h
      · rw [if_pos hone, if_neg hzero]
        refine iff_of_false (fun he => ?_) (by tauto)
        -- the contract visits another entry
        have hlt := lt_untilZero apply hrest (apply s kv.1 kv.2).1 (nentries + 1)
        rw [← he] at hlt
        exact lt_irrefl _ hlt

/-- The entries of a chained table in the order of its iterator. -/
def iterated (h : Hashtbl K V) : List (K × Option V) :=
  (slotsFrom h 0).map fun entry => (entry.key, entry.val)

theorem iterCalls_iterated (h : Hashtbl K V) (extra : ℕ) :
    ∃ last, iterCalls h ((iterated h).length + extra) hashtblIterInit =
      (iterated h).map (fun kv => (1, some kv.1, kv.2)) ++ List.replicate extra (0, last) := by
  have hstart : (hashtblIterInit : Iter K V).remaining h = slotsFrom h 0 := rfl
  obtain ⟨last,hcalls⟩ := iterCalls_spec extra hstart
  refine ⟨last,?_⟩
  rw [iterated, List.length_map, hcalls, List.map_map]
  rfl

theorem hashtblApply_untilZero (h : Hashtbl K V) (apply : σ → K → Option V → σ × ℤ) (s : σ) :
    hashtblApply h apply s = untilZero apply (iterated h) s 0 :=
  (hashtblApply_eq h apply s).trans (applyChain_untilZero apply _ s 0)

/-- The chained table keeps the contract with every callback.  The linked one keeps it with
a callback exactly when every result other than 0 that an entry follows is 1. -/
theorem apply_contract_iff {cfg : Config K} {lcfg : LConfig K} {h : Hashtbl K V}
    {lh : LHashtbl K V} (capacity lcapacity : ℤ)
    (handleAlloc tableAlloc lhandleAlloc ltableAlloc : Option ℕ)
    (hcreate : hashtblCreate cfg capacity handleAlloc tableAlloc = .ok h)
    (hlcreate : lHashtblCreate lcfg lcapacity lhandleAlloc ltableAlloc = some (.ok lh))
    (ops lops : List (Op K V)) (hfresh : Admits (lHashtblStep lcfg) FreshBlock lh lops) :
    ∃ h' answers order lh' lanswers lorder,
      run (hashtblStep cfg) h ops = some (h', answers) ∧
      (∀ extra, ∃ last, iterCalls h' (order.length + extra) hashtblIterInit =
        order.map (fun kv => (1, some kv.1, kv.2)) ++ List.replicate extra (0, last)) ∧
      run (lHashtblStep lcfg) lh lops = some (lh', lanswers) ∧
      visited lh' 1 = some (lorder.map fun kv => (some kv.1, kv.2)) ∧
      ∀ {σ : Type*} (apply : σ → K → Option V → σ × ℤ) (s : σ),
        hashtblApply h' apply s = untilZero apply order s 0 ∧
        (lHashtblApply lh' apply s = some (untilZero apply lorder s 0) ↔
          ReturnsOne apply lorder s) := by
  obtain ⟨h',m,answers,determined,hrun,-,-,-⟩ := run_refines
    (fun h m op hr (_ : True) => hashtblStep_refines h m op hr)
    (hashtblCreate_represents hcreate) (admits_of_forall (fun _ _ => trivial) h ops)
  obtain ⟨lh',lorder,lanswers,ldetermined,hlrun,-,-,L,hr⟩ :=
    run_refines lHashtblStep_refines ⟨[],lHashtblCreate_represents hlcreate⟩ hfresh
  refine ⟨h',answers,iterated h',lh',lanswers,lorder,hrun,iterCalls_iterated h',hlrun,
    visited_forward hr le_rfl,fun apply s => ⟨hashtblApply_untilZero h' apply s,?_⟩⟩
  rw [lHashtblApply_spec hr, Option.some.injEq]
  exact visitPairs_eq_iff apply lorder s 0

/-- Reading moves to the front, and nothing is evicted. -/
def keepingConfig : LConfig ℕ := { lruConfig with evictorFn := fun _ => false }

def keepingOps : List (Op ℕ ℕ) := [.insert 1 (some 10) none (some 4), .insert 2 (some 20) none (some 5)]

/-- The keys up to the one at which the callback ends the enumeration. -/
def seenUntil (last : ℕ) (seen : List ℕ) (k : ℕ) (_ : Option ℕ) : List ℕ × ℤ :=
  (seen ++ [k],if k = last then 0 else 1)

theorem apply_contract_iff_two :
    ∃ h' answers order lh' lanswers lorder,
      run (hashtblStep parityKeys) parityTable parityOps = some (h', answers) ∧
      (∀ extra, ∃ last, iterCalls h' (order.length + extra) hashtblIterInit =
        order.map (fun kv => (1, some kv.1, kv.2)) ++ List.replicate extra (0, last)) ∧
      run (lHashtblStep keepingConfig) lruTable keepingOps = some (lh', lanswers) ∧
      visited lh' 1 = some (lorder.map fun kv => (some kv.1, kv.2)) ∧
      (∀ {σ : Type} (apply : σ → ℕ → Option ℕ → σ × ℤ) (s : σ),
        hashtblApply h' apply s = untilZero apply order s 0 ∧
        (lHashtblApply lh' apply s = some (untilZero apply lorder s 0) ↔
          ReturnsOne apply lorder s)) ∧
      hashtblApply h' (seenUntil 3) [] = ([2, 3], 2) ∧
      lHashtblApply lh' (seenUntil 2) [] = some ([2], 1) := by
  obtain ⟨h',answers,order,lh',lanswers,lorder,hrun,hiter,hlrun,hvisited,happly⟩ :=
    apply_contract_iff 2 1 (some 1) (some 2) (some 1) (some 2)
      (show hashtblCreate parityKeys 2 (some 1) (some 2) = .ok parityTable from rfl)
      (show lHashtblCreate keepingConfig 1 (some 1) (some 2) = some (.ok lruTable) from rfl) parityOps
      keepingOps ⟨⟨by decide,rfl⟩,fun r hr => by cases hr; exact ⟨⟨by decide,rfl⟩,fun _ _ => trivial⟩⟩
  refine ⟨h',answers,order,lh',lanswers,lorder,hrun,hiter,hlrun,hvisited,fun apply s => happly apply s,
    ?_,?_⟩
  · obtain ⟨rfl,-⟩ := Prod.mk.inj (Option.some.inj hrun)
    decide +kernel
  · obtain ⟨rfl,-⟩ := Prod.mk.inj (Option.some.inj hlrun)
    rfl

/-- Two entries of a linked table, and a callback that returns 2: one visit instead of two. -/
theorem apply_contract_broken :
    ∃ lh lanswers, run (lHashtblStep keepingConfig) lruTable keepingOps = some (lh, lanswers) ∧
      visited lh 1 = some [(some 2, some 20), (some 1, some 10)] ∧
      lHashtblApply lh (fun seen k _ => (seen ++ [k], 2)) [] = some ([2], 1) ∧
      untilZero (fun seen k _ => (seen ++ [k], 2)) [(2, some 20), (1, some 10)] ([] : List ℕ) 0 =
        ([2, 1], 2) :=
  ⟨_,_,rfl,rfl,rfl,rfl⟩

end CppExamples.HashTable
