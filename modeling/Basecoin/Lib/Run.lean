import Mathlib.Data.List.Basic
import Mathlib.Data.List.Induction

/-!
# Runs of a fallible step function

A component is a step function `σ → ι → Option (ο × σ)`: it takes an input in a state,
answers an output and the next state, or fails (`none`). `runSteps` folds it over a list of
inputs. These rules carry the whole-run statements of this development:

* `runSteps_invariant`: a predicate one step preserves holds after any run, and
  `Along.invariant`, where a step preserves it under a condition met along the run, and
  `Along.collect`, where it speaks of what the steps so far added to a list;
* `runSteps_history`: so does one that speaks of the inputs so far, and where these tell whether
  a step succeeds they tell whether a run does (`runSteps_isSome_iff`);
* `runSteps_refines`: a relation to a *total* abstract machine that one step preserves makes
  the run succeed and answer exactly what the abstract machine answers;
* `runSteps_rel`: so does one to another fallible machine, which then fails in the same runs;
* `runSteps_map_iff`: two machines of which one is seen through the other run alike exactly where
  their steps do;
* `runSteps_append`: a run splits wherever its inputs split, before the last for one
  (`runSteps_concat`);
* `Leads.history`: what speaks of the inputs so far, where steps are known by a relation only.
-/

namespace Lib

variable {σ ι ο α : Type*}

/-- Fold a fallible step over the inputs, collecting the outputs. -/
def runSteps (step : σ → ι → Option (ο × σ)) : σ → List ι → Option (List ο × σ)
  | s, [] => some ([], s)
  | s, i :: is =>
    match step s i with
    | none => none
    | some (o, s₁) =>
      match runSteps step s₁ is with
      | none => none
      | some (os, s₂) => some (o :: os, s₂)

/-- The same fold for a machine that cannot fail. -/
def runTotal (step : α → ι → ο × α) : α → List ι → List ο × α
  | a, [] => ([], a)
  | a, i :: is =>
    let r := step a i
    let rs := runTotal step r.2 is
    (r.1 :: rs.1, rs.2)

@[simp] theorem runSteps_nil (step : σ → ι → Option (ο × σ)) (s : σ) :
    runSteps step s [] = some ([], s) := rfl

theorem runSteps_cons {step : σ → ι → Option (ο × σ)} {s s₂ : σ} {i : ι} {is : List ι}
    {os : List ο} :
    runSteps step s (i :: is) = some (os, s₂) ↔
      ∃ o s₁ os', step s i = some (o, s₁) ∧ runSteps step s₁ is = some (os', s₂) ∧
        os = o :: os' := by
  constructor
  · intro h
    simp only [runSteps] at h
    cases hs : step s i with
    | none => rw [hs] at h; simp at h
    | some r =>
      obtain ⟨o, s₁⟩ := r
      rw [hs] at h
      dsimp only at h
      cases hr : runSteps step s₁ is with
      | none => rw [hr] at h; simp at h
      | some r' =>
        obtain ⟨os', s₂'⟩ := r'
        rw [hr] at h
        simp only [Option.some.injEq, Prod.mk.injEq] at h
        obtain ⟨rfl, rfl⟩ := h
        exact ⟨o, s₁, os', rfl, hr, rfl⟩
  · rintro ⟨o, s₁, os', hs, hr, rfl⟩
    simp only [runSteps, hs, hr]

theorem runSteps_append {step : σ → ι → Option (ο × σ)} {s s₂ : σ} {is js : List ι}
    {os : List ο} :
    runSteps step s (is ++ js) = some (os, s₂) ↔
      ∃ s₁ os₁ os₂, runSteps step s is = some (os₁, s₁) ∧
        runSteps step s₁ js = some (os₂, s₂) ∧ os = os₁ ++ os₂ := by
  induction is generalizing s os with
  | nil => simp
  | cons i is ih =>
    rw [List.cons_append, runSteps_cons]
    constructor
    · rintro ⟨o, s', os', hs, hr, rfl⟩
      obtain ⟨s₁, os₁, os₂, h₁, h₂, rfl⟩ := ih.mp hr
      exact ⟨s₁, o :: os₁, os₂, runSteps_cons.mpr ⟨o, s', os₁, hs, h₁, rfl⟩, h₂, rfl⟩
    · rintro ⟨s₁, os₁, os₂, h₁, h₂, rfl⟩
      obtain ⟨o, s', os', hs, hr, rfl⟩ := runSteps_cons.mp h₁
      exact ⟨o, s', os' ++ os₂, hs, ih.mpr ⟨s₁, os', os₂, hr, h₂, rfl⟩, rfl⟩

theorem runSteps_concat {step : σ → ι → Option (ο × σ)} {s s₂ : σ} {is : List ι} {i : ι}
    {os : List ο} :
    runSteps step s (is ++ [i]) = some (os, s₂) ↔
      ∃ s₁ os₁ o, runSteps step s is = some (os₁, s₁) ∧ step s₁ i = some (o, s₂) ∧
        os = os₁ ++ [o] := by
  rw [runSteps_append]
  constructor
  · rintro ⟨s₁, os₁, os₂, h₁, h₂, rfl⟩
    obtain ⟨o, s₃, os₃, hstep, hnil, rfl⟩ := runSteps_cons.mp h₂
    obtain ⟨rfl, rfl⟩ := Prod.mk.inj (Option.some.inj hnil)
    exact ⟨s₁, os₁, o, h₁, hstep, rfl⟩
  · rintro ⟨s₁, os₁, o, h₁, hstep, rfl⟩
    exact ⟨s₁, os₁, [o], h₁, runSteps_cons.mpr ⟨o, s₂, [], hstep, rfl, rfl⟩, rfl⟩

theorem runSteps_cons_bind (step : σ → ι → Option (ο × σ)) (s : σ) (i : ι) (is : List ι) :
    runSteps step s (i :: is) = (step s i).bind fun r =>
      (runSteps step r.2 is).map fun r' => (r.1 :: r'.1, r'.2) := by
  rw [runSteps]
  cases step s i with
  | none => rfl
  | some r =>
    cases hr : runSteps step r.2 is with
    | none => simp only [hr, Option.bind_some, Option.map_none]
    | some r' => simp only [hr, Option.bind_some, Option.map_some]

/-- **The invariant rule.** What every step preserves, every run preserves. -/
theorem runSteps_invariant {step : σ → ι → Option (ο × σ)} {Inv : σ → Prop}
    (hstep : ∀ s i o s', Inv s → step s i = some (o, s') → Inv s') :
    ∀ {is : List ι} {s s' : σ} {os : List ο}, Inv s → runSteps step s is = some (os, s') →
      Inv s'
  | [], _, _, _, hs, h => by
    simp only [runSteps_nil, Option.some.injEq, Prod.mk.injEq] at h
    exact h.2 ▸ hs
  | _ :: _, _, _, _, hs, h => by
    obtain ⟨_, _, _, h₁, h₂, _⟩ := runSteps_cons.mp h
    exact runSteps_invariant hstep (hstep _ _ _ _ hs h₁) h₂

/-- **The history rule.** An invariant that speaks of the inputs so far is extended input by
input. -/
theorem runSteps_history {step : σ → ι → Option (ο × σ)} {Inv : List ι → σ → Prop}
    (hstep : ∀ before s i o s', Inv before s → step s i = some (o, s') → Inv (before ++ [i]) s') :
    ∀ {is before : List ι} {s s' : σ} {os : List ο}, Inv before s →
      runSteps step s is = some (os, s') → Inv (before ++ is) s'
  | [], before, _, _, _, hs, h => by
    simp only [runSteps_nil, Option.some.injEq, Prod.mk.injEq] at h
    rw [List.append_nil]
    exact h.2 ▸ hs
  | i :: is, before, _, _, _, hs, h => by
    obtain ⟨_, _, _, h₁, h₂, _⟩ := runSteps_cons.mp h
    have hrest := runSteps_history hstep (hstep before _ i _ _ hs h₁) h₂
    rwa [List.append_assoc, List.singleton_append] at hrest

/-- Where the history tells whether a step succeeds, it tells whether a run does. -/
theorem runSteps_isSome_iff {step : σ → ι → Option (ο × σ)} {Inv : List ι → σ → Prop}
    {P : List ι → ι → Prop}
    (hstep : ∀ before s i o s', Inv before s → step s i = some (o, s') → Inv (before ++ [i]) s')
    (hiff : ∀ before s i, Inv before s → ((step s i).isSome ↔ P before i)) :
    ∀ {is before : List ι} {s : σ}, Inv before s →
      ((runSteps step s is).isSome ↔
        ∀ first i rest, is = first ++ i :: rest → P (before ++ first) i)
  | [], before, s, _ => by
    refine iff_of_true rfl fun first i rest h => ?_
    cases first with
    | nil => cases h
    | cons => cases h
  | i :: is, before, s, hs => by
    rw [runSteps_cons_bind]
    constructor
    · intro h first j rest hsplit
      obtain ⟨⟨os, s₂⟩, hrun⟩ := Option.isSome_iff_exists.mp h
      obtain ⟨⟨o, s₁⟩, h₁, hmap⟩ := Option.bind_eq_some_iff.mp hrun
      obtain ⟨r, h₂, -⟩ := Option.map_eq_some_iff.mp hmap
      cases first with
      | nil =>
        obtain ⟨rfl, -⟩ := List.cons.inj hsplit
        rw [List.append_nil]
        exact (hiff before s i hs).mp (h₁ ▸ rfl)
      | cons k first =>
        obtain ⟨rfl, hrest⟩ := List.cons.inj hsplit
        have hlater := (runSteps_isSome_iff hstep hiff (hstep before s i o s₁ hs h₁)).mp
          (h₂ ▸ rfl) first j rest hrest
        rwa [List.append_assoc, List.singleton_append] at hlater
    · intro h
      have hnow : P before i := by
        have hfirst := h [] i is rfl
        rwa [List.append_nil] at hfirst
      obtain ⟨⟨o, s₁⟩, h₁⟩ := Option.isSome_iff_exists.mp ((hiff before s i hs).mpr hnow)
      rw [h₁, Option.bind_some, Option.isSome_map]
      refine (runSteps_isSome_iff hstep hiff (hstep before s i o s₁ hs h₁)).mpr ?_
      intro first j rest hsplit
      have hlater := h (i :: first) j rest (by rw [hsplit, List.cons_append])
      rwa [List.append_assoc, List.singleton_append]

/-- `P` holds of each state and input a run meets, as far as the run goes. -/
def Along (step : σ → ι → Option (ο × σ)) (P : σ → ι → Prop) : σ → List ι → Prop
  | _, [] => True
  | s, i :: is => P s i ∧ ∀ o s', step s i = some (o, s') → Along step P s' is

theorem along_of_forall {step : σ → ι → Option (ο × σ)} {P : σ → ι → Prop} :
    ∀ {is : List ι} {s : σ}, (∀ i ∈ is, ∀ s, P s i) → Along step P s is
  | [], _, _ => trivial
  | _ :: _, s, h => ⟨h _ List.mem_cons_self s,
    fun _ _ _ => along_of_forall fun i hi => h i (List.mem_cons_of_mem _ hi)⟩

theorem Along.and {step : σ → ι → Option (ο × σ)} {P Q : σ → ι → Prop} :
    ∀ {s : σ} {is : List ι}, Along step P s is → Along step Q s is →
      Along step (fun s i => P s i ∧ Q s i) s is
  | _, [], _, _ => trivial
  | _, _ :: _, hP, hQ => ⟨⟨hP.1, hQ.1⟩, fun o s' h => (hP.2 o s' h).and (hQ.2 o s' h)⟩

theorem along_append {step : σ → ι → Option (ο × σ)} {P : σ → ι → Prop} {s : σ} {is js : List ι} :
    Along step P s (is ++ js) ↔
      Along step P s is ∧ ∀ os s', runSteps step s is = some (os, s') → Along step P s' js := by
  induction is generalizing s with
  | nil => simp [Along]
  | cons i is ih =>
    simp only [List.cons_append, Along, ih, runSteps_cons]
    constructor
    · rintro ⟨hi, hrest⟩
      refine ⟨⟨hi, fun o s' h => (hrest o s' h).1⟩, ?_⟩
      rintro _ s₂ ⟨o, s₁, os, h₁, h₂, rfl⟩
      exact (hrest o s₁ h₁).2 os s₂ h₂
    · rintro ⟨⟨hi, hrest⟩, hlater⟩
      exact ⟨hi, fun o s₁ h₁ => ⟨hrest o s₁ h₁, fun os s₂ h₂ => hlater _ s₂ ⟨o, s₁, os, h₁, h₂, rfl⟩⟩⟩

/-- **The conditional invariant rule.** What a step keeps where it meets the condition, a run keeps
that meets it at each step; the inputs may be of one form only. -/
theorem Along.invariant_map {κ : Type*} {f : κ → ι} {step : σ → ι → Option (ο × σ)}
    {P : σ → ι → Prop} {Inv : σ → Prop}
    (hstep : ∀ s k o s', Inv s → P s (f k) → step s (f k) = some (o, s') → Inv s') :
    ∀ {ks : List κ} {s s' : σ} {os : List ο}, Along step P s (ks.map f) → Inv s →
      runSteps step s (ks.map f) = some (os, s') → Inv s'
  | [], _, _, _, _, hs, h => by
    simp only [List.map_nil, runSteps_nil, Option.some.injEq, Prod.mk.injEq] at h
    exact h.2 ▸ hs
  | _ :: _, _, _, _, halong, hs, h => by
    obtain ⟨_, _, _, h₁, h₂, _⟩ := runSteps_cons.mp h
    exact Along.invariant_map hstep (halong.2 _ _ h₁) (hstep _ _ _ _ hs halong.1 h₁) h₂

theorem Along.invariant {step : σ → ι → Option (ο × σ)} {P : σ → ι → Prop} {Inv : σ → Prop}
    (hstep : ∀ s i o s', Inv s → P s i → step s i = some (o, s') → Inv s') {is : List ι} {s s' : σ}
    {os : List ο} (halong : Along step P s is) (hs : Inv s)
    (h : runSteps step s is = some (os, s')) : Inv s' := by
  rw [← List.map_id is] at halong h
  exact halong.invariant_map hstep hs h

/-- **The collection rule.** What each step adds is gathered over a run, in its order. -/
theorem Along.collect {step : σ → ι → Option (ο × σ)} {P : σ → ι → Prop} {f : ι → ο → List α}
    {Inv : List α → σ → Prop}
    (hstep : ∀ as s i o s', Inv as s → P s i → step s i = some (o, s') → Inv (as ++ f i o) s') :
    ∀ {is : List ι} {as : List α} {s s' : σ} {os : List ο}, Along step P s is → Inv as s →
      runSteps step s is = some (os, s') → Inv (as ++ (List.zipWith f is os).flatten) s'
  | [], as, _, _, _, _, hs, h => by
    simp only [runSteps_nil, Option.some.injEq, Prod.mk.injEq] at h
    rw [List.zipWith_nil_left, List.flatten_nil, List.append_nil]
    exact h.2 ▸ hs
  | i :: is, as, _, _, _, halong, hs, h => by
    obtain ⟨o, _, os, h₁, h₂, rfl⟩ := runSteps_cons.mp h
    have hrest := Along.collect hstep (halong.2 _ _ h₁) (hstep as _ i o _ hs halong.1 h₁) h₂
    rwa [List.append_assoc] at hrest

/-- Two conditions that agree wherever the invariant holds agree along runs, if either keeps it. -/
theorem along_congr {step : σ → ι → Option (ο × σ)} {P Q : σ → ι → Prop} {Inv : σ → Prop}
    (hiff : ∀ s i, Inv s → (P s i ↔ Q s i))
    (hstep : ∀ s i o s', Inv s → Q s i → step s i = some (o, s') → Inv s') :
    ∀ {is : List ι} {s : σ}, Inv s → (Along step P s is ↔ Along step Q s is)
  | [], _, _ => Iff.rfl
  | i :: is, s, hs => by
    rw [Along, Along, hiff s i hs]
    refine and_congr_right fun hQ => forall₃_congr fun o s' h => ?_
    exact along_congr hiff hstep (hstep _ _ _ _ hs hQ h)

/-! ## One machine seen through another

Agreement is asked at every prefix of the inputs, failures included: agreement of whole runs alone
would not give that of the steps, since a later input may hide what an earlier one showed. -/

section Map

variable {τ : Type*} {step : σ → ι → Option (ο × σ)} {step' : τ → ι → Option (ο × τ)} {f : σ → τ}

/-- Runs of one input agree only if its steps do. -/
theorem map_step_of_runSteps {s : σ} {i : ι}
    (hone : (runSteps step s [i]).map (Prod.map id f) = runSteps step' (f s) [i]) :
    (step s i).map (Prod.map id f) = step' (f s) i := by
  rw [runSteps_cons_bind, runSteps_cons_bind] at hone
  cases h : step s i with
  | none =>
    rw [h] at hone
    cases h' : step' (f s) i with
    | none => rfl
    | some r' => rw [h'] at hone; cases hone
  | some r =>
    rw [h] at hone
    cases h' : step' (f s) i with
    | none => rw [h'] at hone; cases hone
    | some r' =>
      rw [h'] at hone
      obtain ⟨hout, hstate⟩ := Prod.mk.inj (Option.some.inj hone)
      exact congrArg some (Prod.ext (List.cons.inj hout).1 hstate)

/-- After a step on which the machines agree, whole runs agree exactly if the rest does. -/
theorem map_runSteps_cons_iff {s s' : σ} {i : ι} {o : ο} {is : List ι}
    (hs : step s i = some (o, s')) (h : step' (f s) i = some (o, f s')) :
    (runSteps step s (i :: is)).map (Prod.map id f) = runSteps step' (f s) (i :: is) ↔
      (runSteps step s' is).map (Prod.map id f) = runSteps step' (f s') is := by
  have hinj : Function.Injective fun r : List ο × τ => (o :: r.1, r.2) := fun r r' hr =>
    Prod.ext (List.cons.inj (Prod.mk.inj hr).1).2 (Prod.mk.inj hr).2
  have hcons : (runSteps step s (i :: is)).map (Prod.map id f) =
      ((runSteps step s' is).map (Prod.map id f)).map fun r => (o :: r.1, r.2) := by
    rw [runSteps_cons_bind, hs, Option.bind_some, Option.map_map, Option.map_map]
    rfl
  have hcons' : runSteps step' (f s) (i :: is) =
      (runSteps step' (f s') is).map fun r => (o :: r.1, r.2) := by
    rw [runSteps_cons_bind, h, Option.bind_some]
  rw [hcons, hcons']
  exact (Option.map_injective hinj).eq_iff

/-- **The projection rule.** Where one step seen through `f` is the other machine's step exactly
under a condition, the runs agree at every point exactly if the condition is met along the run. -/
theorem runSteps_map_iff {P : τ → ι → Prop}
    (hiff : ∀ s i, (step s i).map (Prod.map id f) = step' (f s) i ↔ P (f s) i) :
    ∀ {is : List ι} {s : σ}, (∀ before after, is = before ++ after →
      (runSteps step s before).map (Prod.map id f) = runSteps step' (f s) before) ↔
        Along step' P (f s) is
  | [], s => by
    refine iff_of_true (fun before after h => ?_) trivial
    rw [(List.append_eq_nil_iff.mp h.symm).1]
    rfl
  | i :: is, s => by
    constructor
    · intro hagree
      have hstep := map_step_of_runSteps (hagree [i] is rfl)
      refine ⟨(hiff s i).mp hstep, fun o t h => ?_⟩
      obtain ⟨⟨o', s'⟩, hs, heq⟩ := Option.map_eq_some_iff.mp (hstep.trans h)
      obtain ⟨rfl, rfl⟩ := Prod.mk.inj heq
      refine (runSteps_map_iff hiff).mp fun before after hsplit => ?_
      have hlong := hagree (i :: before) after (by rw [hsplit, List.cons_append])
      exact (map_runSteps_cons_iff hs h).mp hlong
    · rintro ⟨hP, hrest⟩ before after hsplit
      have hstep := (hiff s i).mpr hP
      cases before with
      | nil => rfl
      | cons j before =>
        obtain ⟨rfl, htail⟩ := List.cons.inj hsplit
        cases hs : step s i with
        | none =>
          rw [runSteps_cons_bind, runSteps_cons_bind, ← hstep, hs]
          rfl
        | some r =>
          rw [hs] at hstep
          refine (map_runSteps_cons_iff hs hstep.symm).mpr ?_
          exact (runSteps_map_iff hiff).mpr (hrest _ _ hstep.symm) before after htail

end Map

/-- **The simulation rule.** Where steps of related states both fail, or both succeed with one output
and in related states, so do runs. -/
theorem runSteps_rel {τ : Type*} {step : σ → ι → Option (ο × σ)} {step' : τ → ι → Option (ο × τ)}
    {R : σ → τ → Prop}
    (hstep : ∀ s t i, R s t →
      Option.Rel (fun r r' => r.1 = r'.1 ∧ R r.2 r'.2) (step s i) (step' t i)) :
    ∀ (is : List ι) {s : σ} {t : τ}, R s t →
      Option.Rel (fun r r' => r.1 = r'.1 ∧ R r.2 r'.2) (runSteps step s is) (runSteps step' t is)
  | [], _, _, hR => .some ⟨rfl, hR⟩
  | i :: is, s, t, hR => by
    rw [runSteps_cons_bind, runSteps_cons_bind]
    have hfirst := hstep s t i hR
    generalize step s i = r, step' t i = r' at hfirst ⊢
    cases hfirst with
    | none => exact .none
    | @some r r' h =>
      have hrest := runSteps_rel hstep is h.2
      rw [Option.bind_some, Option.bind_some]
      generalize runSteps step r.2 is = rs, runSteps step' r'.2 is = rs' at hrest ⊢
      cases hrest with
      | none => exact .none
      | some hlater => exact .some ⟨congrArg₂ List.cons h.1 hlater.1, hlater.2⟩

/-- Inputs each of which the abstract machine may take where it meets it. -/
def Admissible (step : α → ι → ο × α) (P : α → ι → Prop) : α → List ι → Prop
  | _, [] => True
  | a, i :: is => P a i ∧ Admissible step P (step a i).2 is

/-- **The refinement rule.** If every admissible step from related states succeeds, answers
what the abstract machine answers and ends in related states, so does every admissible run. -/
theorem runSteps_refines {step : σ → ι → Option (ο × σ)} {astep : α → ι → ο × α}
    {P : α → ι → Prop} {R : σ → α → Prop}
    (hstep : ∀ s a i, R s a → P a i →
      ∃ s', step s i = some ((astep a i).1, s') ∧ R s' (astep a i).2) :
    ∀ (is : List ι) {s : σ} {a : α}, R s a → Admissible astep P a is →
      ∃ s', runSteps step s is = some ((runTotal astep a is).1, s') ∧
        R s' (runTotal astep a is).2
  | [], s, _, hR, _ => ⟨s, rfl, hR⟩
  | i :: is, s, a, hR, hok => by
    obtain ⟨s₁, h₁, hR₁⟩ := hstep s a i hR hok.1
    obtain ⟨s₂, h₂, hR₂⟩ := runSteps_refines hstep is hR₁ hok.2
    exact ⟨s₂, runSteps_cons.mpr ⟨_, s₁, _, h₁, h₂, rfl⟩, hR₂⟩

/-- Admissible is each input, in the state the inputs before it lead to. -/
theorem admissible_iff {step : α → ι → ο × α} {P : α → ι → Prop} :
    ∀ {is : List ι} {a : α}, Admissible step P a is ↔
      ∀ before i after, is = before ++ i :: after → P (runTotal step a before).2 i
  | [], a => by
    refine iff_of_true trivial fun before i after h => ?_
    cases before with
    | nil => cases h
    | cons => cases h
  | i :: is, a => by
    rw [Admissible, admissible_iff]
    constructor
    · rintro ⟨hi, hrest⟩ before j after hsplit
      cases before with
      | nil =>
        obtain ⟨rfl, -⟩ := List.cons.inj hsplit
        exact hi
      | cons k before =>
        obtain ⟨rfl, htail⟩ := List.cons.inj hsplit
        exact hrest before j after htail
    · intro h
      exact ⟨h [] i is rfl, fun before j after hsplit =>
        h (i :: before) j after (by rw [hsplit, List.cons_append])⟩

/-- What a total machine answers to an input, after those before it. -/
theorem runTotal_getElem? (step : α → ι → ο × α) (a : α) (before after : List ι) (i : ι) :
    (runTotal step a (before ++ i :: after)).1[before.length]? =
      some (step (runTotal step a before).2 i).1 := by
  induction before generalizing a with
  | nil => rfl
  | cons j before ih => exact ih (step a j).2

/-- Where nothing restricts the inputs, every list of them is admissible. -/
theorem admissible_true {step : α → ι → ο × α} :
    ∀ (is : List ι) (a : α), Admissible step (fun _ _ => True) a is
  | [], _ => trivial
  | _ :: is, _ => ⟨trivial, admissible_true is _⟩

/-! ## Steps known by a relation -/

/-- Steps that the relation allows lead from one state to the other, one for each input. -/
def Leads (step : σ → ι → σ → Prop) : σ → List ι → σ → Prop
  | s, [], s' => s' = s
  | s, i :: is, s' => ∃ s₁, step s i s₁ ∧ Leads step s₁ is s'

theorem leads_append {step : σ → ι → σ → Prop} {s s' : σ} {is js : List ι} :
    Leads step s (is ++ js) s' ↔ ∃ s₁, Leads step s is s₁ ∧ Leads step s₁ js s' := by
  induction is generalizing s with
  | nil => exact ⟨fun h => ⟨s, rfl, h⟩, fun ⟨_, h₁, h₂⟩ => h₁ ▸ h₂⟩
  | cons i is ih =>
    simp only [List.cons_append, Leads, ih]
    constructor
    · rintro ⟨s₁, hstep, s₂, h₁, h₂⟩
      exact ⟨s₂, ⟨s₁, hstep, h₁⟩, h₂⟩
    · rintro ⟨s₂, ⟨s₁, hstep, h₁⟩, h₂⟩
      exact ⟨s₁, hstep, s₂, h₁, h₂⟩

theorem Leads.concat {step : σ → ι → σ → Prop} {s s₁ s' : σ} {is : List ι} {i : ι}
    (h : Leads step s is s₁) (hstep : step s₁ i s') : Leads step s (is ++ [i]) s' :=
  leads_append.mpr ⟨s₁, h, s', hstep, rfl⟩

/-- A statement on the inputs so far and the state, which each allowed step keeps. -/
theorem Leads.history {step : σ → ι → σ → Prop} (Inv : List ι → σ → Prop)
    (hstep : ∀ is s i s', Inv is s → step s i s' → Inv (is ++ [i]) s') {s s' : σ} {is : List ι}
    (hinit : Inv [] s) (h : Leads step s is s') : Inv is s' := by
  induction is using List.reverseRecOn generalizing s' with
  | nil => exact h ▸ hinit
  | append_singleton is i ih =>
    obtain ⟨s₁, hfirst, s₂, hlast, heq⟩ := leads_append.mp h
    obtain rfl : s' = s₂ := heq
    exact hstep is s₁ i s' (ih hfirst) hlast

end Lib
