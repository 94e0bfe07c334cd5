import Debase.App.Restore

/-!
# Reloading

`_reload` looks every ref up again, so afterwards every rev is a current handle, and
it loads a history for each rev that has none and whose column is on the screen,
or is the next one.  A history that is loaded late begins with the state the ref
has then.
-/

namespace Debase

open Git Library

namespace App

variable {κ ω : Type}

/-- The history of a ref begins with the state the ref has now. -/
def Fresh (env : Env κ ω) (repo : Repository) (k : Bytes) (lref : State.LoadedRef κ) : Prop :=
  ∃ ref, repo.lookup k = some ref ∧ lref.history = .single (.ofRef env.ids ref)

/-- Histories were loaded, and those that were loaded before are as they were. -/
structure Loads (env : Env κ ω) (repo : Repository) (old new : State.LoadedRefs κ) : Prop where
  kept : ∀ k lref, old k = some lref → new k = some lref
  fresh : ∀ k lref, new k = some lref → old k = some lref ∨ (old k = none ∧ Fresh env repo k lref)

/-- How many of `n` columns fit to the right of `offX`. -/
def visibleCount (sizeX : Int) : Int → Nat → Nat
  | _, 0 => 0
  | offX, n + 1 =>
      if sizeX - offX < columnWidth then 0
      else visibleCount sizeX (offX + columnWidth + columnSpacing) n + 1

/-- The columns show the first revs, as many as fit. -/
def Synced (app : App κ ω) : Prop :=
  app.columns.map Ui.RevColumn.rev =
    app.revs.take (visibleCount app.size.x columnInsetX app.revs.length)

/-- What `_reload` changes. -/
structure Reloaded (env : Env κ ω) (app app' : App κ ω) : Prop where
  repo : app'.repo = app.repo
  loads : Loads env app.repo app.repoState app'.repoState
  revs : app'.revs.map revName = app.revs.map revName
  size : app'.size = app.size
  selection : app'.selection = app.selection
  synced : Synced app'

theorem fullName_of_lookup {repo : Repository} {k : Bytes} {ref : Ref}
    (h : repo.lookup k = some ref) : ref.fullName = k := by
  unfold Repository.lookup at h
  split at h
  · next hk =>
      split at h
      · obtain ⟨t, -, rfl⟩ := Option.map_eq_some_iff.mp h
        exact hk.symm
      · cases h
        exact hk.symm
  · obtain ⟨t, -, rfl⟩ := Option.map_eq_some_iff.mp h
    rfl

theorem current_of_lookup {repo : Repository} {k : Bytes} {ref : Ref}
    (h : repo.lookup k = some ref) : repo.Current ref := by
  unfold Repository.Current
  rw [fullName_of_lookup h, h]

theorem HistoryLinked.of_fresh {env : Env κ ω} {repo : Repository} {k : Bytes}
    {lref : State.LoadedRef κ} (h : Fresh env repo k lref) : HistoryLinked env repo k lref := by
  obtain ⟨ref, hlookup, hhistory⟩ := h
  unfold HistoryLinked
  rw [hhistory]
  refine ⟨?_, ref, hlookup, env.ids.commit_idStr ref.commit⟩
  show ref.name = Ref.shorthand k
  rw [Ref.name, fullName_of_lookup hlookup]

namespace Loads

variable {env : Env κ ω} {repo : Repository} {old mid new : State.LoadedRefs κ}

theorem refl : Loads env repo old old := ⟨fun _ _ h => h, fun _ _ h => Or.inl h⟩

theorem trans (h : Loads env repo old mid) (h' : Loads env repo mid new) :
    Loads env repo old new where
  kept k lref hk := h'.kept k lref (h.kept k lref hk)
  fresh k lref hk := by
    rcases h'.fresh k lref hk with hmid | ⟨hnone, hfresh⟩
    · exact h.fresh k lref hmid
    · refine Or.inr ⟨?_, hfresh⟩
      cases hold : old k with
      | none => rfl
      | some lref' =>
          rw [h.kept k lref' hold] at hnone
          cases hnone

theorem isSome (h : Loads env repo old new) {k : Bytes} (hk : (old k).isSome) :
    (new k).isSome := by
  obtain ⟨lref, hlref⟩ := Option.isSome_iff_exists.mp hk
  rw [h.kept k lref hlref]
  rfl

/-- Loaded histories stay linked. -/
theorem linked (h : Loads env repo old new)
    (hlinked : ∀ k lref, old k = some lref → HistoryLinked env repo k lref) :
    ∀ k lref, new k = some lref → HistoryLinked env repo k lref := by
  intro k lref hk
  rcases h.fresh k lref hk with hold | ⟨-, hfresh⟩
  · exact hlinked k lref hold
  · exact .of_fresh hfresh

end Loads

section Methods

variable [DecidableEq κ] {env : Env κ ω} {inputs : Inputs κ} {app : App κ ω}

/-! ## Loading one history -/

theorem history_loadedRef (ids : State.CommitIds κ) (now : Int) (ref : Ref) :
    (State.loadedRef ids (fun _ => none) now ref none).history = .single (.ofRef ids ref) := by
  unfold State.loadedRef State.LoadedRef.history
  -- no head is stored, so none is looked up
  have hnone : ∀ p [Decidable p], (if p then none else (none : Option Commit)) ≠ some ref.commit := by
    intro p _
    rw [ite_self]
    exact (Option.some_ne_none _).symm
  simp only [Option.getD_none, if_neg (hnone _)]

theorem loads_load {ref : Ref} (hcurrent : app.repo.Current ref) :
    Loads env app.repo app.repoState (app.load env inputs ref).repoState := by
  constructor
  · intro k lref hk
    have hcases := @State.loadRef_apply κ _ env.ids (fun _ => none) inputs.now app.repoState ref none k
    rcases hcases with hsame | ⟨-, hnone, -⟩
    · exact hsame.trans hk
    · rw [hnone] at hk
      cases hk
  · intro k lref hk
    have hcases := @State.loadRef_apply κ _ env.ids (fun _ => none) inputs.now app.repoState ref none k
    rcases hcases with hsame | ⟨rfl, hnone, hnew⟩
    · exact Or.inl (hsame.symm.trans hk)
    · have hlref := hnew.symm.trans hk
      cases hlref
      exact Or.inr ⟨hnone, ref, hcurrent, history_loadedRef _ _ _⟩

theorem load_of_loaded {ref : Ref} (h : (app.repoState ref.fullName).isSome) :
    app.load env inputs ref = app := by
  obtain ⟨lref, hlref⟩ := Option.isSome_iff_exists.mp h
  unfold load
  rw [State.loadRef_of_loaded hlref]

theorem isSome_load (ref : Ref) : ((app.load env inputs ref).repoState ref.fullName).isSome := by
  unfold load
  cases h : app.repoState ref.fullName with
  | some lref =>
      dsimp only
      rw [State.loadRef_of_loaded h, h]
      rfl
  | none =>
      dsimp only
      rw [State.loadRef_of_none h, Function.update_self]
      rfl

/-! ## Reloading the revs -/

omit [DecidableEq κ] in
theorem reloadRevs_ends (todo : List Rev) :
    ∀ (done : List Rev) (app : App κ ω), app.revs = done ++ todo →
      (∀ rev ∈ todo, ∀ ref, rev.ref = some ref → (app.repo.lookup ref.fullName).isSome) →
      Program.Ends (reloadRevs inputs done todo) app
        (fun _ app' => ∃ revs, app' = { app with revs := done ++ revs } ∧
          revs.map revName = todo.map revName ∧ ∀ rev ∈ revs, RevCurrent app.repo rev)
        (fun _ app' => inputs.fault.IsLate ∧
          ∃ revs, app' = { app with revs := done ++ revs } ∧
            revs.map revName = todo.map revName ∧
            ((∀ rev ∈ todo, RevCurrent app.repo rev) → ∀ rev ∈ revs, RevCurrent app.repo rev)) := by
  induction todo with
  | nil =>
      intro done app hrevs _
      refine .pure ⟨[], ?_, rfl, by simp⟩
      rw [← hrevs]
  | cons rev todo ih =>
      intro done app hrevs hexists
      unfold reloadRevs
      refine .bind (.zoom ((@revReload_ends _ app.repo _ rev.toGitRev
        (hexists rev List.mem_cons_self)).mono ?_ ?_))
      · rintro x _ ⟨rfl, hnone, hsome⟩
        -- the rev was looked up again, or has no ref
        have hname : revName (rev.assign x) = revName rev := by
          cases href : rev.ref with
          | none =>
              rw [hnone href]
              rfl
          | some ref =>
              obtain ⟨ref', hlookup, rfl⟩ := hsome ref href
              show some ref'.fullName = rev.ref.map Ref.fullName
              rw [href, fullName_of_lookup hlookup]
              rfl
        have hcurrent : RevCurrent app.repo (rev.assign x) := by
          intro ref' href'
          cases href : rev.ref with
          | none =>
              rw [hnone href] at href'
              have : rev.ref = some ref' := href'
              rw [href] at this
              cases this
          | some ref =>
              obtain ⟨ref₁, hlookup, rfl⟩ := hsome ref href
              cases href'
              exact ⟨current_of_lookup hlookup, rfl⟩
        refine .bind (.update ?_)
        refine (ih (done ++ [rev.assign x]) { app with revs := done ++ rev.assign x :: todo } (by simp)
          fun r hr => hexists r (List.mem_cons_of_mem _ hr)).mono ?_ ?_
        · rintro _ _ ⟨revs, rfl, hnames, hall⟩
          refine ⟨rev.assign x :: revs, by simp, by simp [hname, hnames], ?_⟩
          intro r hr
          rcases List.mem_cons.mp hr with rfl | hr
          · exact hcurrent
          · exact hall r hr
        · rintro _ _ ⟨hlate, revs, rfl, hnames, hall⟩
          refine ⟨hlate, rev.assign x :: revs, by simp, by simp [hname, hnames], fun hold r hr => ?_⟩
          rcases List.mem_cons.mp hr with rfl | hr
          · exact hcurrent
          · exact hall (fun r' hr' => hold r' (List.mem_cons_of_mem _ hr')) r hr
      · rintro _ _ ⟨rfl, code, hcode⟩
        refine ⟨Fault.isLate_of_eq hcode rfl, rev :: todo, ?_, rfl, fun hold => hold⟩
        rw [← hrevs]

/-! ## Making the columns -/

theorem reloadColumns_spec (revs : List Rev) :
    ∀ (offX : Int) (count : Nat) (app : App κ ω), count ≤ app.columns.length →
      (∀ rev ∈ revs, RevCurrent app.repo rev) →
      ∃ columns repoState,
        reloadColumns env inputs revs offX count app =
          { app with columns := columns, repoState := repoState } ∧
        columns.map Ui.RevColumn.rev = (app.columns.take count).map Ui.RevColumn.rev ++
          revs.take (visibleCount app.size.x offX revs.length) ∧
        Loads env app.repo app.repoState repoState ∧
        ∀ rev ∈ revs.take (visibleCount app.size.x offX revs.length), ∀ ref,
          rev.ref = some ref → (repoState ref.fullName).isSome := by
  induction revs with
  | nil =>
      intro offX count app _ _
      exact ⟨app.columns.take count, app.repoState, rfl, by simp, .refl, by simp⟩
  | cons rev revs ih =>
      intro offX count app hcount hcurrent
      -- the app after the history of this rev was loaded
      obtain ⟨app₁, happ₁, hload, hloaded, hstep⟩ :
          ∃ app₁, (∃ repoState, app₁ = { app with repoState := repoState }) ∧
            Loads env app.repo app.repoState app₁.repoState ∧
            (∀ ref, rev.ref = some ref → (app₁.repoState ref.fullName).isSome) ∧
            app.loadRev env inputs rev = app₁ := by
        unfold loadRev
        cases href : rev.ref with
        | none => exact ⟨app, ⟨_, rfl⟩, .refl, by rintro _ ⟨⟩, rfl⟩
        | some ref =>
            refine ⟨app.load env inputs ref, ⟨_, rfl⟩,
              loads_load (hcurrent rev List.mem_cons_self ref href).1, ?_, rfl⟩
            rintro _ ⟨⟩
            exact isSome_load ref
      obtain ⟨repoState₁, rfl⟩ := happ₁
      unfold reloadColumns
      rw [hstep]
      dsimp only
      by_cases hfits : app.size.x - offX < columnWidth
      · rw [if_pos hfits]
        have hcountZero : visibleCount app.size.x offX (rev :: revs).length = 0 := by
          show visibleCount app.size.x offX (revs.length + 1) = 0
          rw [visibleCount, if_pos hfits]
        refine ⟨app.columns.take count, repoState₁, rfl, ?_, hload, ?_⟩
        · rw [hcountZero]
          simp
        · rw [hcountZero]
          simp
      · rw [if_neg hfits]
        have hcountSucc : visibleCount app.size.x offX (rev :: revs).length =
            visibleCount app.size.x (offX + columnWidth + columnSpacing) revs.length + 1 := by
          show visibleCount app.size.x offX (revs.length + 1) = _
          rw [visibleCount, if_neg hfits]
        generalize hcol : Ui.RevColumn.reload env.height _ = col
        have hrev : col.rev = rev := by
          rw [← hcol]
          rfl
        have htake : (app.columns.take count).length = count := by
          rw [List.length_take, Nat.min_eq_left hcount]
        obtain ⟨columns, repoState, happ, hrevs, hloads, hall⟩ :=
          ih (offX + columnWidth + columnSpacing) (count + 1)
            { app with
              repoState := repoState₁
              columns := app.columns.take count ++ col :: app.columns.drop (count + 1) }
            (by simp [htake]) fun r hr => hcurrent r (List.mem_cons_of_mem _ hr)
        refine ⟨columns, repoState, happ, ?_, hload.trans hloads, ?_⟩
        · rw [hrevs, hcountSucc]
          have htake' : (app.columns.take count ++ col :: app.columns.drop (count + 1)).take
              (count + 1) = app.columns.take count ++ [col] := by
            rw [List.take_append, htake]
            simp
          rw [htake', List.take_succ_cons]
          simp [hrev]
        · rw [hcountSucc, List.take_succ_cons]
          intro r hr ref href
          rcases List.mem_cons.mp hr with rfl | hr
          · exact hloads.isSome (hloaded ref href)
          · exact hall r hr ref href

theorem revExists_of_revNames {repo : Repository} {revs revs' : List Rev}
    (hnames : revs'.map revName = revs.map revName)
    (h : ∀ rev ∈ revs, ∀ ref, rev.ref = some ref → (repo.lookup ref.fullName).isSome) :
    ∀ rev ∈ revs', ∀ ref, rev.ref = some ref → (repo.lookup ref.fullName).isSome := by
  intro rev hrev ref href
  have hmem : some ref.fullName ∈ revs'.map revName :=
    List.mem_map.mpr ⟨rev, hrev, by rw [revName, href, Option.map_some]⟩
  rw [hnames] at hmem
  obtain ⟨rev₀, hrev₀, hname⟩ := List.mem_map.mp hmem
  obtain ⟨ref₀, href₀, hfull⟩ := Option.map_eq_some_iff.mp hname
  rw [← hfull]
  exact h rev₀ hrev₀ ref₀ href₀

omit [DecidableEq κ] in
theorem reloadHead_ends (h : Ready env app)
    (hexists : ∀ head ref, app.head = some head → head.ref = some ref →
      (app.repo.lookup ref.fullName).isSome) :
    Program.Ends (reloadHead inputs) app
      (fun _ app' => ∃ head, app' = { app with head := head } ∧ Ready env app' ∧
        ∀ x ref, head = some x → x.ref = some ref → (app.repo.lookup ref.fullName).isSome)
      (fun _ app' => app' = app ∧ inputs.fault.IsLate) := by
  unfold reloadHead
  refine .bind (.read ?_)
  cases hhead : app.head with
  | none =>
      refine .pure ⟨none, ?_, h, by rintro _ _ ⟨⟩⟩
      rw [← hhead]
  | some head =>
      refine .bind (.zoom ((revReload_ends (hexists head · hhead)).mono ?_ ?_))
      · rintro x _ ⟨rfl, hnone, hsome⟩
        refine .update ⟨some x, rfl, h.congr rfl rfl ?_, ?_⟩
        · rw [hhead]
          cases href : head.ref with
          | none =>
              rw [hnone href]
          | some ref =>
              obtain ⟨ref', hlookup, rfl⟩ := hsome ref href
              show some ref'.fullName = head.ref.map Ref.fullName
              rw [href, fullName_of_lookup hlookup, Option.map_some]
        · rintro _ ref' ⟨⟩ href'
          cases href : head.ref with
          | none =>
              rw [hnone href, href] at href'
              cases href'
          | some ref =>
              obtain ⟨ref₁, hlookup, rfl⟩ := hsome ref href
              cases href'
              rw [fullName_of_lookup hlookup, hlookup, Option.isSome_some]
      · rintro _ _ ⟨rfl, code, hcode⟩
        exact ⟨rfl, Fault.isLate_of_eq hcode rfl⟩

theorem reload_ends (h : Reloadable env app) :
    Program.Ends (reload env inputs) app
      (fun _ app' => Reloaded env app app' ∧ Linked env app')
      (fun _ app' => inputs.fault.IsLate ∧ (Linked env app → Linked env app') ∧
        app'.repo = app.repo ∧ app'.repoState = app.repoState) := by
  unfold reload
  refine .bind ((reloadHead_ends h.toReady h.headExists).mono ?_ ?_)
  · rintro - _ ⟨head, rfl, hready, hheadExists⟩
    refine .bind (.read (.bind
      ((reloadRevs_ends app.revs [] { app with head := head } rfl h.revExists).mono ?_ ?_)))
    · rintro - _ ⟨revs, rfl, hnames, hcurrent⟩
      refine .update ?_
      obtain ⟨columns, repoState, happ, hcolumns, hloads, hloaded⟩ :=
        @reloadColumns_spec κ ω _ env inputs revs columnInsetX 0
          { app with head := head, revs := revs } (Nat.zero_le _) hcurrent
      dsimp only
      rw [List.nil_append, happ]
      have hshown : ∀ col ∈ columns,
          col.rev ∈ revs.take (visibleCount app.size.x columnInsetX revs.length) := by
        intro col hcol
        have hmem := List.mem_map_of_mem (f := Ui.RevColumn.rev) hcol
        rw [hcolumns] at hmem
        simpa using hmem
      refine ⟨⟨rfl, hloads, hnames, rfl, rfl, ?_⟩, ?_⟩
      · show columns.map Ui.RevColumn.rev = _
        rw [hcolumns]
        rfl
      · exact
          { hready.congr rfl rfl rfl with
            loaded := hloads.linked h.loaded
            revExists := revExists_of_revNames hnames h.revExists
            headExists := hheadExists
            selectionCurrent := h.selectionCurrent
            revCurrent := hcurrent
            colCurrent := fun col hcol => hcurrent _ (List.mem_of_mem_take (hshown col hcol))
            colLoaded := fun col hcol ref href => hloaded _ (hshown col hcol) ref href }
    · rintro _ _ ⟨hlate, revs, rfl, hnames, hcurrent⟩
      refine ⟨hlate, fun hlinked => ?_, rfl, rfl⟩
      exact
        { hready.congr rfl rfl rfl with
          loaded := hlinked.loaded
          revExists := revExists_of_revNames hnames hlinked.revExists
          headExists := hheadExists
          selectionCurrent := hlinked.selectionCurrent
          revCurrent := hcurrent hlinked.revCurrent
          colCurrent := hlinked.colCurrent
          colLoaded := hlinked.colLoaded }
  · rintro _ _ ⟨rfl, hlate⟩
    exact ⟨hlate, id, rfl, rfl⟩

end Methods

end App
end Debase
