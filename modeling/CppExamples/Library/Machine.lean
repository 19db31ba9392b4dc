import Mathlib

/-! # Partial machines with output

A machine is a step function on states that consumes one input and yields one
output; a step without result is one whose behaviour is undefined.  `run` folds a
list of inputs, `Admits` says that every input of a run is allowed in the state
that takes it.  A step lemma lifts to runs through `run_invariant`, and a
step-by-step simulation through `run_simulates`.
-/
namespace CppExamples.Machine
variable {σ τ ι ο ω : Type*}

def run (step : σ → ι → Option (σ × ο)) : σ → List ι → Option (σ × List ο)
  | s, [] => some (s, [])
  | s, i :: is => (step s i).bind fun r => (run step r.1 is).map fun q => (q.1, r.2 :: q.2)

/-- Each input satisfies `ok` in the state in which the run takes it. -/
def Admits (step : σ → ι → Option (σ × ο)) (ok : σ → ι → Prop) : σ → List ι → Prop
  | _, [] => True
  | s, i :: is => ok s i ∧ ∀ r, step s i = some r → Admits step ok r.1 is

@[simp] theorem run_nil (step : σ → ι → Option (σ × ο)) (s : σ) : run step s [] = some (s, []) := rfl

theorem run_cons {step : σ → ι → Option (σ × ο)} {s s' : σ} {i : ι} {o : ο} (is : List ι)
    (h : step s i = some (s', o)) :
    run step s (i :: is) = (run step s' is).map fun q => (q.1, o :: q.2) := by
  simp [run, h]

theorem run_cons_eq_some {step : σ → ι → Option (σ × ο)} {s t : σ} {i : ι} {is : List ι}
    {os : List ο} (h : run step s (i :: is) = some (t, os)) :
    ∃ s' o os', step s i = some (s', o) ∧ run step s' is = some (t, os') ∧ os = o :: os' := by
  simp only [run, Option.bind_eq_some_iff, Option.map_eq_some_iff] at h
  obtain ⟨⟨s',o⟩,hs,⟨t',os'⟩,hr,he⟩ := h
  obtain ⟨rfl,rfl⟩ := Prod.mk.inj he
  exact ⟨s',o,os',hs,hr,rfl⟩

theorem admits_of_forall {step : σ → ι → Option (σ × ο)} {ok : σ → ι → Prop}
    (h : ∀ s i, ok s i) (s : σ) (is : List ι) : Admits step ok s is := by
  induction is generalizing s with
  | nil => trivial
  | cons i is ih => exact ⟨h s i,fun r _ => ih r.1⟩

theorem Admits.restrict {step : σ → ι → Option (σ × ο)} {ok : σ → ι → Prop} {allowed : ι → Prop}
    {s : σ} {is : List ι} (hok : Admits step ok s is) (hallowed : ∀ i ∈ is, allowed i) :
    Admits step (fun s i => ok s i ∧ allowed i) s is := by
  induction is generalizing s with
  | nil => trivial
  | cons i is ih =>
    refine ⟨⟨hok.1,hallowed i List.mem_cons_self⟩,?_⟩
    intro r hr
    exact ih (hok.2 r hr) fun j hj => hallowed j (List.mem_cons_of_mem i hj)

theorem Admits.mono {step : σ → ι → Option (σ × ο)} {ok ok' : σ → ι → Prop} {s : σ} {is : List ι}
    (h : Admits step ok s is) (hle : ∀ s i, ok s i → ok' s i) : Admits step ok' s is := by
  induction is generalizing s with
  | nil => trivial
  | cons i is ih => exact ⟨hle s i h.1,fun r hr => ih (h.2 r hr)⟩

theorem Admits.map {κ : Type*} {step : σ → ι → Option (σ × ο)} {step' : σ → κ → Option (σ × ω)}
    {ok : σ → ι → Prop} {ok' : σ → κ → Prop} {inv : σ → Prop} {f : ι → κ}
    (hstep : ∀ s i r', inv s → ok s i → step' s (f i) = some r' →
      inv r'.1 ∧ ∃ o, step s i = some (r'.1, o))
    (hok : ∀ s i, inv s → ok s i → ok' s (f i)) {s : σ} {is : List ι} (hs : inv s)
    (h : Admits step ok s is) : Admits step' ok' s (is.map f) := by
  induction is generalizing s with
  | nil => trivial
  | cons i is ih =>
    refine ⟨hok s i hs h.1,fun r' hr' => ?_⟩
    obtain ⟨hinv,o,hr⟩ := hstep s i r' hs h.1 hr'
    exact ih hinv (h.2 _ hr)

/-- What every admitted step preserves holds at the end of every admitted run. -/
theorem run_invariant {step : σ → ι → Option (σ × ο)} {ok : σ → ι → Prop} {inv : σ → Prop}
    (hstep : ∀ s i s' o, inv s → ok s i → step s i = some (s', o) → inv s')
    {s t : σ} {is : List ι} {os : List ο} (hs : inv s) (hok : Admits step ok s is)
    (hr : run step s is = some (t, os)) : inv t := by
  induction is generalizing s os with
  | nil =>
    simp only [run_nil, Option.some.injEq, Prod.mk.injEq] at hr
    exact hr.1 ▸ hs
  | cons i is ih =>
    obtain ⟨s',o,os',hi,hrest,rfl⟩ := run_cons_eq_some hr
    exact ih (hstep s i s' o hs hok.1 hi) (hok.2 _ hi) hrest

/-- What every step preserves holds at the end of every run. -/
theorem run_keeps {step : σ → ι → Option (σ × ο)} (inv : σ → Prop) {s t : σ} {is : List ι}
    {os : List ο} (hs : inv s) (hr : run step s is = some (t, os))
    (hstep : ∀ s i s' o, inv s → step s i = some (s', o) → inv s') : inv t :=
  run_invariant (fun s i s' o h _ => hstep s i s' o h) hs (admits_of_forall (fun _ _ => trivial) s is) hr

theorem admits_congr {step : σ → ι → Option (σ × ο)} {ok ok' legal : σ → ι → Prop} {inv : σ → Prop}
    (hstep : ∀ s i s' o, inv s → legal s i → step s i = some (s', o) → inv s')
    (hiff : ∀ s i, inv s → legal s i → (ok s i ↔ ok' s i))
    {s : σ} {is : List ι} (hs : inv s) (hlegal : Admits step legal s is) :
    Admits step ok s is ↔ Admits step ok' s is := by
  induction is generalizing s with
  | nil => exact Iff.rfl
  | cons i is ih =>
    refine and_congr (hiff s i hs hlegal.1) (forall_congr' fun r => ?_)
    refine imp_congr_right fun hr => ih (hstep s i r.1 r.2 hs hlegal.1 hr) (hlegal.2 r hr)

/-- Where the condition keeps an invariant that gives the claim, and a legal step that
breaks the condition leads to a state without the claim, a run is admitted just when all
it reaches satisfies the claim and all that it takes there is legal. -/
theorem admits_iff_claim {step : σ → ι → Option (σ × ο)} {ok legal : σ → ι → Prop}
    {inv claim : σ → Prop} (hclaim : ∀ s, inv s → claim s)
    (hkeep : ∀ s i, inv s → ok s i → legal s i ∧ ∀ s' o, step s i = some (s', o) → inv s')
    (hback : ∀ s i, inv s → legal s i → (∀ s' o, step s i = some (s', o) → claim s') → ok s i)
    {s : σ} (hs : inv s) (is : List ι) :
    Admits step ok s is ↔ ∀ before after t os, is = before ++ after →
      run step s before = some (t, os) → claim t ∧ ∀ i rest, after = i :: rest → legal t i := by
  induction is generalizing s with
  | nil =>
    constructor
    · intro _ before after t os he hr
      obtain ⟨rfl,rfl⟩ := List.append_eq_nil_iff.mp he.symm
      obtain ⟨rfl,-⟩ := Prod.mk.inj (Option.some.inj hr)
      exact ⟨hclaim s hs,fun i rest hno => by cases hno⟩
    · exact fun _ => trivial
  | cons i is ih =>
    constructor
    · rintro ⟨hok,hrest⟩ before after t os he hr
      obtain ⟨hlegal,hinv⟩ := hkeep s i hs hok
      cases before with
      | nil =>
        obtain ⟨rfl,-⟩ := Prod.mk.inj (Option.some.inj hr)
        subst he
        refine ⟨hclaim s hs,?_⟩
        intro j rest hj
        obtain ⟨rfl,-⟩ := List.cons.inj hj
        exact hlegal
      | cons j before =>
        obtain ⟨rfl,hsplit⟩ := List.cons.inj he
        obtain ⟨s',o,os',hi,hr',-⟩ := run_cons_eq_some hr
        exact (ih (hinv s' o hi)).mp (hrest _ hi) before after t os' hsplit hr'
    · intro h
      have hlegal : legal s i := (h [] (i :: is) s [] rfl rfl).2 i is rfl
      have hok : ok s i := hback s i hs hlegal fun s' o hi =>
        (h [i] is s' [o] rfl (by simp [run, hi])).1
      refine ⟨hok,?_⟩
      rintro ⟨s',o⟩ hi
      apply (ih ((hkeep s i hs hok).2 s' o hi)).mpr
      intro before after t os he hr
      exact h (i :: before) after t (o :: os) (by rw [he, List.cons_append])
        (by rw [run_cons before hi, hr]; rfl)

theorem admits_iff {step : σ → ι → Option (σ × ο)} {ok legal : σ → ι → Prop} {inv : σ → Prop}
    (hstep : ∀ s i, inv s → (ok s i ↔ legal s i ∧ ∀ s' o, step s i = some (s', o) → inv s'))
    {s : σ} (hs : inv s) (is : List ι) :
    Admits step ok s is ↔ ∀ before after t os, is = before ++ after →
      run step s before = some (t, os) → inv t ∧ ∀ i rest, after = i :: rest → legal t i :=
  admits_iff_claim (fun _ h => h) (fun s i h hok => (hstep s i h).mp hok)
    (fun s i h hlegal hinv => (hstep s i h).mpr ⟨hlegal,hinv⟩) hs is

theorem admits_iff_forall {step : σ → ι → Option (σ × ο)} {ok : σ → ι → Prop} (s : σ) (is : List ι) :
    Admits step ok s is ↔ ∀ before i after t os, is = before ++ i :: after →
      run step s before = some (t, os) → ok t i := by
  have hsplit : Admits step ok s is ↔ ∀ before after t os, is = before ++ after →
      run step s before = some (t, os) → True ∧ ∀ i rest, after = i :: rest → ok t i :=
    admits_iff (fun _ _ _ => by simp) trivial is
  rw [hsplit]
  constructor
  · intro h before i after t os he hr
    exact (h before (i :: after) t os he hr).2 i after rfl
  · intro h before after t os he hr
    refine ⟨trivial,fun i rest hafter => h before i rest t os ?_ hr⟩
    rw [he, hafter]

theorem run_steps {step : σ → ι → Option (σ × ο)} {ok : σ → ι → Prop} {inv : σ → Prop}
    (hstep : ∀ s i s' o, inv s → ok s i → step s i = some (s', o) → inv s')
    {s t : σ} {is : List ι} {os : List ο} (hs : inv s) (hok : Admits step ok s is)
    (hr : run step s is = some (t, os)) {before after : List ι} {i : ι}
    (he : is = before ++ i :: after) :
    ∃ u os' v o, run step s before = some (u, os') ∧ inv u ∧ ok u i ∧ step u i = some (v, o) := by
  induction before generalizing s is os with
  | nil =>
    subst he
    obtain ⟨v,o,-,hi,-,-⟩ := run_cons_eq_some hr
    exact ⟨s,[],v,o,rfl,hs,hok.1,hi⟩
  | cons j before ih =>
    subst he
    obtain ⟨s',o,os',hj,hrest,-⟩ := run_cons_eq_some hr
    obtain ⟨u,os'',v,o',hu,hinv,hallowed,hv⟩ :=
      ih (hstep s j s' o hs hok.1 hj) (hok.2 _ hj) hrest rfl
    exact ⟨u,o :: os'',v,o',by rw [run_cons before hj, hu]; rfl,hinv,hallowed,hv⟩

theorem run_keeps_steps {step : σ → ι → Option (σ × ο)} (inv : σ → Prop) {s t : σ} {is : List ι}
    {os : List ο} (hs : inv s) (hr : run step s is = some (t, os))
    (hstep : ∀ s i s' o, inv s → step s i = some (s', o) → inv s') {before after : List ι} {i : ι}
    (he : is = before ++ i :: after) :
    ∃ u os' v o, run step s before = some (u, os') ∧ inv u ∧ step u i = some (v, o) := by
  obtain ⟨u,os',v,o,hu,hinv,-,hv⟩ := run_steps (fun s i s' o h _ => hstep s i s' o h) hs
    (admits_of_forall (fun _ _ => trivial) s is) hr he
  exact ⟨u,os',v,o,hu,hinv,hv⟩

/-- Where every admitted step from the invariant has a result that keeps it and
satisfies `post`, whole runs have results, and so does each of their steps. -/
theorem run_total {step : σ → ι → Option (σ × ο)} {ok : σ → ι → Prop} {inv : σ → Prop}
    {post : σ → ο → σ → Prop}
    (hstep : ∀ s i, inv s → ok s i → ∃ s' o, step s i = some (s', o) ∧ inv s' ∧ post s o s')
    {s : σ} {is : List ι} (hs : inv s) (hok : Admits step ok s is) :
    ∃ t os, run step s is = some (t, os) ∧ inv t ∧
      ∀ before i after, is = before ++ i :: after →
        ∃ u os' v o, run step s before = some (u, os') ∧ step u i = some (v, o) ∧
          inv v ∧ post u o v := by
  induction is generalizing s with
  | nil =>
    refine ⟨s,[],rfl,hs,?_⟩
    intro before i after he
    simp at he
  | cons i is ih =>
    obtain ⟨s',o,hi,hs',hpost⟩ := hstep s i hs hok.1
    obtain ⟨t,os,hr,ht,hsteps⟩ := ih hs' (hok.2 _ hi)
    refine ⟨t,o :: os,by rw [run_cons is hi, hr]; rfl,ht,?_⟩
    intro before j after he
    cases before with
    | nil =>
      obtain ⟨rfl,rfl⟩ := List.cons.inj he
      exact ⟨s,[],s',o,rfl,hi,hs',hpost⟩
    | cons k before =>
      obtain ⟨rfl,hrest⟩ := List.cons.inj he
      obtain ⟨u,os',v,o',hu,hv,hinv,hp⟩ := hsteps before j after hrest
      exact ⟨u,o :: os',v,o',by rw [run_cons before hi, hu]; rfl,hv,hinv,hp⟩

/-- Two machines that take inputs which are alike: related states answer them with answers
that agree and stay related, so whole runs are defined, agree and end related. -/
theorem run_couples {κ : Type*} {step : σ → ι → Option (σ × ο)} {spec : τ → κ → Option (τ × ω)}
    {ok : σ → ι → Prop} {alike : ι → κ → Prop} {rel : σ → τ → Prop} {agree : ο → ω → Prop}
    (hstep : ∀ s t i j, rel s t → alike i j → ok s i →
      ∃ s' t' o o', step s i = some (s', o) ∧ spec t j = some (t', o') ∧ agree o o' ∧ rel s' t')
    {s : σ} {t : τ} {is : List ι} {js : List κ} (hs : rel s t) (halike : List.Forall₂ alike is js)
    (hok : Admits step ok s is) :
    ∃ s' t' os os', run step s is = some (s', os) ∧ run spec t js = some (t', os') ∧
      List.Forall₂ agree os os' ∧ rel s' t' := by
  induction halike generalizing s t with
  | nil => exact ⟨s,t,[],[],rfl,rfl,List.Forall₂.nil,hs⟩
  | cons hij _ ih =>
    obtain ⟨s1,t1,o,o',h1,h2,ho,hrel⟩ := hstep s t _ _ hs hij hok.1
    obtain ⟨s',t',os,os',hr,hr',hos,hend⟩ := ih hrel (hok.2 _ h1)
    refine ⟨s',t',o :: os,o' :: os',?_,?_,List.Forall₂.cons ho hos,hend⟩
    · rw [run_cons _ h1, hr, Option.map_some]
    · rw [run_cons _ h2, hr', Option.map_some]

theorem run_refines {step : σ → ι → Option (σ × ο)} {spec : τ → ι → Option (τ × ω)}
    {ok : σ → ι → Prop} {rel : σ → τ → Prop} {agree : ο → ω → Prop}
    (hstep : ∀ s t i, rel s t → ok s i →
      ∃ s' t' o o', step s i = some (s', o) ∧ spec t i = some (t', o') ∧ agree o o' ∧ rel s' t')
    {s : σ} {t : τ} {is : List ι} (hs : rel s t) (hok : Admits step ok s is) :
    ∃ s' t' os os', run step s is = some (s', os) ∧ run spec t is = some (t', os') ∧
      List.Forall₂ agree os os' ∧ rel s' t' := by
  have hsame : ∀ s t i j, rel s t → i = j → ok s i → ∃ s' t' o o', step s i = some (s', o) ∧
      spec t j = some (t', o') ∧ agree o o' ∧ rel s' t' := by
    rintro s t i _ hrel rfl hi
    exact hstep s t i hrel hi
  exact run_couples hsame hs (List.forall₂_same.mpr fun _ _ => rfl) hok

theorem run_simulates {step : σ → ι → Option (σ × ο)} {spec : τ → ι → Option (τ × ο)}
    {ok : σ → ι → Prop} {rel : σ → τ → Prop}
    (hstep : ∀ s t i, rel s t → ok s i →
      ∃ s' t' o, step s i = some (s', o) ∧ spec t i = some (t', o) ∧ rel s' t')
    {s : σ} {t : τ} {is : List ι} (hs : rel s t) (hok : Admits step ok s is) :
    ∃ s' t' os, run step s is = some (s', os) ∧ run spec t is = some (t', os) ∧ rel s' t' := by
  have hsame : ∀ s t i, rel s t → ok s i → ∃ s' t' o o', step s i = some (s', o) ∧
      spec t i = some (t', o') ∧ o = o' ∧ rel s' t' := by
    intro s t i hrel hi
    obtain ⟨s',t',o,h1,h2,h3⟩ := hstep s t i hrel hi
    exact ⟨s',t',o,o,h1,h2,rfl,h3⟩
  obtain ⟨s',t',os,os',hr,hr',hos,hend⟩ := run_refines hsame hs hok
  obtain rfl : os = os' := by simpa using hos
  exact ⟨s',t',os,hr,hr',hend⟩

theorem run_accumulates {α : Type*} {step : List α → ι → Option (List α × List α)}
    (hstep : ∀ s i s' o, step s i = some (s', o) → s' = s ++ o)
    {s t : List α} {is : List ι} {os : List (List α)} (hr : run step s is = some (t, os)) :
    t = s ++ os.flatten := by
  induction is generalizing s os with
  | nil =>
    simp only [run_nil, Option.some.injEq, Prod.mk.injEq] at hr
    obtain ⟨rfl,rfl⟩ := hr
    simp
  | cons i is ih =>
    obtain ⟨s',o,os',hi,hrest,rfl⟩ := run_cons_eq_some hr
    rw [ih hrest, hstep s i s' o hi, List.flatten_cons, List.append_assoc]

/-- The largest value of a measure in the states of a run. -/
def peak (step : σ → ι → Option (σ × ο)) (measure : σ → ℕ) : σ → List ι → ℕ
  | s, [] => measure s
  | s, i :: is => max (measure s) ((step s i).elim 0 fun r => peak step measure r.1 is)

theorem measure_le_peak (step : σ → ι → Option (σ × ο)) (measure : σ → ℕ) (s : σ) (is : List ι) :
    measure s ≤ peak step measure s is := by
  cases is with
  | nil => exact le_rfl
  | cons i is => exact le_max_left _ _

/-- Every step of a run starts and ends at or below the peak. -/
theorem admits_peak {step : σ → ι → Option (σ × ο)} {ok : σ → ι → Prop} {measure : σ → ℕ} {s : σ}
    {is : List ι} {p : ℕ} (hok : Admits step ok s is) (hpeak : peak step measure s is ≤ p) :
    Admits step (fun s i => ok s i ∧ measure s ≤ p ∧ ∀ r, step s i = some r → measure r.1 ≤ p) s is := by
  induction is generalizing s with
  | nil => trivial
  | cons i is ih =>
    obtain ⟨hfirst,hrest⟩ := max_le_iff.mp hpeak
    have hlater : ∀ r, step s i = some r → peak step measure r.1 is ≤ p := by
      intro r hr
      rwa [hr] at hrest
    refine ⟨⟨hok.1,hfirst,?_⟩,?_⟩
    · intro r hr
      exact (measure_le_peak step measure r.1 is).trans (hlater r hr)
    · intro r hr
      exact ih (hok.2 r hr) (hlater r hr)

/-- What the steps of a run add up to. -/
def accrued {μ : Type*} [AddMonoid μ] (step : σ → ι → Option (σ × ο)) (gain : σ → ι → ο → μ) :
    σ → List ι → μ
  | _, [] => 0
  | s, i :: is => (step s i).elim 0 fun r => gain s i r.2 + accrued step gain r.1 is

/-- Where each admitted step moves the state by what it gains, and moves compose,
a run moves it by what it has accrued. -/
theorem run_accrues {μ : Type*} [AddMonoid μ] {step : σ → ι → Option (σ × ο)}
    {ok : σ → ι → Prop} {inv : σ → Prop} {gain : σ → ι → ο → μ} (moves : σ → μ → σ → Prop)
    (hrefl : ∀ s, moves s 0 s)
    (htrans : ∀ s a t b u, moves s a t → moves t b u → moves s (a + b) u)
    (hstep : ∀ s i, inv s → ok s i →
      ∃ s' o, step s i = some (s', o) ∧ inv s' ∧ moves s (gain s i o) s')
    {s : σ} {is : List ι} (hs : inv s) (hok : Admits step ok s is) :
    ∃ t os, run step s is = some (t, os) ∧ inv t ∧ moves s (accrued step gain s is) t := by
  induction is generalizing s with
  | nil => exact ⟨s,[],rfl,hs,hrefl s⟩
  | cons i is ih =>
    obtain ⟨s',o,hi,hs',hfirst⟩ := hstep s i hs hok.1
    obtain ⟨t,os,hr,ht,hrest⟩ := ih hs' (hok.2 _ hi)
    refine ⟨t,o :: os,by rw [run_cons is hi, hr]; rfl,ht,?_⟩
    rw [accrued, hi]
    exact htrans _ _ _ _ _ hfirst hrest

end CppExamples.Machine
