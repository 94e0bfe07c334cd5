import Mathlib.Data.Option.Basic

/-!
# Runs of a labelled step function

A system that takes one step after another, each chosen by a label.  A step that
cannot be taken is `none`, and then no run goes through it.

`StepsMeet ok` is for results that hold as long as every step meets a condition
on the state before it: `Run.invariant` is their induction.
-/

namespace Debase
namespace Library

variable {σ ℓ : Type}

/-- Take the steps of a list of labels. -/
def run (step : σ → ℓ → Option σ) : σ → List ℓ → Option σ
  | s, [] => some s
  | s, l :: ls => (step s l).bind fun s' => run step s' ls

/-- Every step of the run meets a condition on its label and the state before it. -/
def StepsMeet (step : σ → ℓ → Option σ) (ok : σ → ℓ → Prop) : σ → List ℓ → Prop
  | _, [] => True
  | s, l :: ls => ok s l ∧ ∀ s', step s l = some s' → StepsMeet step ok s' ls

/-- What is to hold after a step, if the step can be taken. -/
instance decidableForallStep (P : σ → Prop) [∀ s, Decidable (P s)] :
    ∀ next : Option σ, Decidable (∀ s', next = some s' → P s')
  | none => isTrue nofun
  | some s => decidable_of_iff (P s) ⟨by rintro h _ ⟨⟩; exact h, fun h => h s rfl⟩

instance decidableStepsMeet (step : σ → ℓ → Option σ) (ok : σ → ℓ → Prop)
    [∀ s l, Decidable (ok s l)] : ∀ ls s, Decidable (StepsMeet step ok s ls)
  | [], _ => isTrue trivial
  | l :: ls, s =>
      have := decidableStepsMeet step ok ls
      inferInstanceAs (Decidable (ok s l ∧ ∀ s', step s l = some s' → StepsMeet step ok s' ls))

namespace Run

variable {step : σ → ℓ → Option σ} {ok : σ → ℓ → Prop}

theorem cons_eq_some {s s'' : σ} {l : ℓ} {ls : List ℓ} :
    run step s (l :: ls) = some s'' ↔ ∃ s', step s l = some s' ∧ run step s' ls = some s'' := by
  rw [run, Option.bind_eq_some_iff]

theorem append (s : σ) (ls ms : List ℓ) :
    run step s (ls ++ ms) = (run step s ls).bind fun s' => run step s' ms := by
  induction ls generalizing s with
  | nil => rfl
  | cons l ls ih =>
      rw [List.cons_append, run, run, Option.bind_assoc]
      congr 1
      funext s'
      exact ih s'

theorem stepsMeet_append {s s' : σ} {ls ms : List ℓ} (h : StepsMeet step ok s (ls ++ ms))
    (hrun : run step s ls = some s') : StepsMeet step ok s' ms := by
  induction ls generalizing s with
  | nil =>
      cases hrun
      exact h
  | cons l ls ih =>
      obtain ⟨s₁, hfirst, hrest⟩ := cons_eq_some.mp hrun
      exact ih (h.2 s₁ hfirst) hrest

/-- A condition on the labels alone. -/
theorem stepsMeet_of_forall {ls : List ℓ} (h : ∀ l ∈ ls, ∀ s, ok s l) (s : σ) :
    StepsMeet step ok s ls := by
  induction ls generalizing s with
  | nil => exact trivial
  | cons l ls ih =>
      exact ⟨h l List.mem_cons_self s, fun s' _ =>
        ih (fun l' hl' => h l' (List.mem_cons_of_mem _ hl')) s'⟩

/-- What every step that meets the condition preserves, every run of such steps
preserves. -/
theorem invariant {Inv : σ → Prop}
    (hstep : ∀ s l s', Inv s → ok s l → step s l = some s' → Inv s') {s s' : σ} {ls : List ℓ}
    (hrun : run step s ls = some s') (hmeet : StepsMeet step ok s ls) (hs : Inv s) : Inv s' := by
  induction ls generalizing s with
  | nil =>
      cases hrun
      exact hs
  | cons l ls ih =>
      obtain ⟨s₁, hfirst, hrest⟩ := cons_eq_some.mp hrun
      exact ih hrest (hmeet.2 s₁ hfirst) (hstep s l s₁ hs hmeet.1 hfirst)

/-- Where an invariant holds and every step can be taken that meets the condition, and no other,
the runs that can be taken are those of such steps. -/
theorem exists_iff {Inv : σ → Prop} (hstep : ∀ s l s', Inv s → step s l = some s' → Inv s')
    (hok : ∀ s l, Inv s → ((∃ s', step s l = some s') ↔ ok s l)) {s : σ} {ls : List ℓ}
    (hs : Inv s) : (∃ s', run step s ls = some s' ∧ Inv s') ↔ StepsMeet step ok s ls := by
  induction ls generalizing s with
  | nil => exact ⟨fun _ => trivial, fun _ => ⟨s, rfl, hs⟩⟩
  | cons l ls ih =>
      constructor
      · rintro ⟨s', hrun, hs'⟩
        obtain ⟨s₁, hfirst, hrest⟩ := cons_eq_some.mp hrun
        refine ⟨(hok s l hs).mp ⟨s₁, hfirst⟩, fun s₂ hsecond => ?_⟩
        rw [hfirst] at hsecond
        cases hsecond
        exact (ih (hstep s l s₁ hs hfirst)).mp ⟨s', hrest, hs'⟩
      · rintro ⟨hmeet, hrest⟩
        obtain ⟨s₁, hfirst⟩ := (hok s l hs).mpr hmeet
        obtain ⟨s', hrun, hs'⟩ := (ih (hstep s l s₁ hs hfirst)).mpr (hrest s₁ hfirst)
        exact ⟨s', cons_eq_some.mpr ⟨s₁, hfirst, hrun⟩, hs'⟩

/-- Where each step of a system is a run of another one, as far as a part of the state shows, so
is each run. -/
theorem refines {τ μ : Type} {step' : τ → μ → Option τ} (part : σ → τ) (allowed : ℓ → μ → Prop)
    (hstep : ∀ s l s', step s l = some s' →
      ∃ ms, (∀ m ∈ ms, allowed l m) ∧ run step' (part s) ms = some (part s'))
    {s s' : σ} {ls : List ℓ} (hrun : run step s ls = some s') :
    ∃ ms, (∀ m ∈ ms, ∃ l ∈ ls, allowed l m) ∧ run step' (part s) ms = some (part s') := by
  induction ls generalizing s with
  | nil =>
      cases hrun
      exact ⟨[], fun m hm => (nomatch hm), rfl⟩
  | cons l ls ih =>
      obtain ⟨s₁, hfirst, hrest⟩ := cons_eq_some.mp hrun
      obtain ⟨ms, hms, hhead⟩ := hstep s l s₁ hfirst
      obtain ⟨ms', hms', htail⟩ := ih hrest
      refine ⟨ms ++ ms', fun m hm => ?_, ?_⟩
      · rcases List.mem_append.mp hm with hm | hm
        · exact ⟨l, List.mem_cons_self, hms m hm⟩
        · obtain ⟨l', hl', hm⟩ := hms' m hm
          exact ⟨l', List.mem_cons_of_mem _ hl', hm⟩
      · rw [append, hhead]
        exact htail

/-- Where each step of a system is a step of another one or none of it, as far as a relation shows,
each run is a run of the other one. -/
theorem simulates {τ μ : Type} {step' : τ → μ → Option τ} (visible : ℓ → Option μ)
    {R : σ → τ → Prop}
    (hstep : ∀ s t l s', R s t → step s l = some s' →
      ∃ t', run step' t (visible l).toList = some t' ∧ R s' t')
    {s s' : σ} {t : τ} {ls : List ℓ} (hrun : run step s ls = some s') (ht : R s t) :
    ∃ t', run step' t (ls.filterMap visible) = some t' ∧ R s' t' := by
  induction ls generalizing s t with
  | nil =>
      cases hrun
      exact ⟨t, rfl, ht⟩
  | cons l ls ih =>
      obtain ⟨s₁, hfirst, hrest⟩ := cons_eq_some.mp hrun
      obtain ⟨t₁, hhead, ht₁⟩ := hstep s t l s₁ ht hfirst
      obtain ⟨t', htail, ht'⟩ := ih hrest ht₁
      have hlabels : (l :: ls).filterMap visible = (visible l).toList ++ ls.filterMap visible := by
        rw [List.filterMap_cons]
        cases visible l with
        | none => rfl
        | some m => rfl
      refine ⟨t', ?_, ht'⟩
      rw [hlabels, append, hhead]
      exact htail

end Run

end Library
end Debase
