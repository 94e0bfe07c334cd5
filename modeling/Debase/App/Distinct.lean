import Debase.App.Safety
import Debase.App.Session
import Debase.App.Tracked
import Debase.Git.Kept
import Debase.Git.Untouched

/-!
# One column for one rev

The session takes for granted that its revs and its columns are one to one: it looks for the column
of a rev, and for the place of a rev among the revs, by `==`.  No two revs are ever the same
(`Distinct`), whatever is done and however it ends.  A ref that gets a new name, and a ref that is
created, has a name that no ref had; the one thing that gets in the way is a tag that git does not
find by the name it was given (`TagsFound`).
-/

namespace Debase

open Git Library

/-! ## What a rev is known by -/

/-- The ref of a rev or else its commit, how many commits it skips and whether it may be changed. -/
def Rev.key (rev : Rev) : (Bytes ⊕ Commit) × Nat × Mutability :=
  (rev.ref.elim (.inr rev.commit) fun ref => .inl ref.fullName, rev.skip, rev.mutability)

theorem Rev.ref_of_key {rev : Rev} {m : Bytes} (h : rev.key.1 = .inl m) :
    ∃ ref, rev.ref = some ref ∧ ref.fullName = m := by
  unfold Rev.key at h
  cases href : rev.ref with
  | none =>
      rw [href] at h
      cases h
  | some ref =>
      rw [href] at h
      exact ⟨ref, rfl, Sum.inl.inj h⟩

theorem Rev.same_refl (rev : Rev) : rev.same rev = true := by simp [Rev.same, Ref.same]

/-- Revs that are the same have the same key. -/
theorem Rev.key_of_same {a b : Rev} (h : a.same b = true) : a.key = b.key := by
  unfold Rev.same Ref.same at h
  simp only [Bool.and_eq_true, decide_eq_true_eq] at h
  obtain ⟨⟨⟨hcommit, href⟩, hskip⟩, hmutability⟩ := h
  unfold Rev.key
  rw [hskip, hmutability, hcommit]
  cases ha : a.ref with
  | none =>
      cases hb : b.ref with
      | none => rfl
      | some ref => simp [ha, hb] at href
  | some ref =>
      cases hb : b.ref with
      | none => simp [ha, hb] at href
      | some ref' =>
          simp only [ha, hb, Option.map_some, Option.some.injEq] at href
          simp [href]

theorem Rev.key_assign {rev : Rev} {x : GitRev}
    (hname : x.ref.map Ref.fullName = rev.ref.map Ref.fullName)
    (hnone : rev.ref = none → x = rev.toGitRev) : (rev.assign x).key = rev.key := by
  cases href : rev.ref with
  | none =>
      rw [hnone href]
      rfl
  | some ref =>
      rw [href] at hname
      obtain ⟨ref', href', hfull⟩ := Option.map_eq_some_iff.mp hname
      unfold Rev.key
      rw [href]
      show (x.ref.elim _ _, rev.skip, rev.mutability) = _
      rw [href']
      simp [hfull]

namespace App

variable {κ ω : Type}

/-! ## The invariant -/

/-- No two revs and no two columns are the same, and the refs of the revs exist. -/
structure Distinct (env : Env κ ω) (app : App κ ω) : Prop where
  headName : app.repo.head ≠ .attached headFile
  named : ∀ m, (app.repo.refs m).isSome → env.names.normalize m = some m
  revs : (app.revs.map Rev.key).Nodup
  exist : ∀ key ∈ app.revs.map Rev.key, ∀ m, key.1 = .inl m →
    m = headFile ∨ (app.repo.refs m).isSome
  columns : ((app.columns.map Ui.RevColumn.rev).map Rev.key).Nodup

/-- The revs and the columns are as before, and no ref is gone. -/
structure Framed (env : Env κ ω) (app app' : App κ ω) : Prop where
  repo : Kept env.names app.repo app'.repo
  revs : app'.revs = app.revs
  columns : app'.columns = app.columns

instance (env : Env κ ω) : Std.Refl (Framed env) := ⟨fun _ => ⟨refl_of _ _, rfl, rfl⟩⟩

instance (env : Env κ ω) : IsTrans (App κ ω) (Framed env) :=
  ⟨fun _ _ _ h h' => ⟨trans_of _ h.repo h'.repo, h'.revs.trans h.revs, h'.columns.trans h.columns⟩⟩

/-- Only other fields changed. -/
theorem Framed.of_eq {env : Env κ ω} {app app' : App κ ω} (hrepo : app'.repo = app.repo)
    (hrevs : app'.revs = app.revs) (hcolumns : app'.columns = app.columns) : Framed env app app' :=
  ⟨by rw [hrepo]; exact refl_of _ _, hrevs, hcolumns⟩

/-- However the program ends, the revs and the columns are as before. -/
abbrev Frames {α : Type} (env : Env κ ω) (x : Program (App κ ω) Exn α) : Prop :=
  Program.Keeps (Framed env) x

/-- The program leaves no two revs that are the same, however it ends. -/
abbrev LeavesDistinct {α : Type} (env : Env κ ω) (x : Program (App κ ω) Exn α) (app : App κ ω) :
    Prop :=
  Program.Ends x app (fun _ app' => Distinct env app') fun _ app' => Distinct env app'

section Invariant

variable {env : Env κ ω} {app app' : App κ ω}

theorem Distinct.framed (h : Distinct env app) (hframed : Framed env app app') :
    Distinct env app' where
  headName := hframed.repo.headName h.headName
  named m hm := (hframed.repo.named m hm).elim (h.named m) id
  revs := hframed.revs ▸ h.revs
  exist := by
    rw [hframed.revs]
    exact fun key hkey m hm => (h.exist key hkey m hm).imp_right (hframed.repo.refs m)
  columns := hframed.columns ▸ h.columns

theorem Frames.leavesDistinct {α : Type} {x : Program (App κ ω) Exn α} (hx : Frames env x)
    (h : Distinct env app) : LeavesDistinct env x app :=
  (hx.ends app).mono (fun _ _ hframed => h.framed hframed) fun _ _ hframed => h.framed hframed

/-- What leaves the revs alone comes first. -/
theorem Frames.bind_leaves {α β : Type} {x : Program (App κ ω) Exn α}
    {f : α → Program (App κ ω) Exn β} (hx : Frames env x) (h : Distinct env app)
    (hf : ∀ a app₁, Framed env app app₁ → LeavesDistinct env (f a) app₁) :
    LeavesDistinct env (x >>= f) app :=
  .bind ((hx.ends app).mono hf fun _ _ hframed => h.framed hframed)

/-- Revs with the same keys. -/
theorem Distinct.of_keys (h : Distinct env app) {revs : List Rev}
    (hkeys : revs.map Rev.key = app.revs.map Rev.key) : Distinct env { app with revs := revs } where
  headName := h.headName
  named := h.named
  revs := by
    show (revs.map Rev.key).Nodup
    rw [hkeys]
    exact h.revs
  exist := by
    show ∀ key ∈ revs.map Rev.key, _
    rw [hkeys]
    exact h.exist
  columns := h.columns

end Invariant

/-! ## Programs that leave the revs alone -/

section Frames

variable {env : Env κ ω} {inputs : Inputs κ}

theorem read_frames : Frames env Program.read := fun app => refl_of (Framed env) app

theorem call_frames (fault : Fault) (c : Call) :
    Frames env (call fault c : Program (App κ ω) Exn Unit) := fun app =>
  Program.Ends.state (call_ends (refl_of (Framed env) app) fun _ _ => refl_of (Framed env) app)

theorem inRepo_frames {α : Type} {x : Program Repository Exn α} (hx : KeepsRefs env.names x) :
    Frames env (inRepo x) := by
  intro app
  unfold inRepo Program.zoom
  exact ⟨hx app.repo, rfl, rfl⟩

theorem gitDetachHeadIfEqual_frames (ref : Ref) :
    Frames env (gitDetachHeadIfEqual inputs ref : Program (App κ ω) Exn Bool) := by
  refine read_frames.bind fun app => ?_
  split
  · exact Program.Keeps.pure false
  · split
    · exact .bind (.update fun _ => .of_eq rfl rfl rfl) fun _ =>
        (inRepo_frames headDetach_keepsRefs).bind fun _ => .pure true
    · exact Program.Keeps.pure true

theorem gitRefReplace_frames (ref : Ref) (commit : Commit) :
    Frames env (gitRefReplace env inputs ref commit) :=
  (gitDetachHeadIfEqual_frames ref).bind fun _ => inRepo_frames (refReplace_keepsRefs ref commit)

theorem repoStateRefReplace_frames (refPrev ref : Ref) :
    Frames env (repoStateRefReplace refPrev ref : Program (App κ ω) Exn Unit) := by
  refine read_frames.bind fun app => ?_
  split
  · exact .fail _
  · cases State.refReplace app.repoState refPrev.fullName ref.fullName with
    | none => exact .fail _
    | some repoState => exact .update fun _ => .of_eq rfl rfl rfl

theorem selectionLookup_frames (selection : Finset κ) :
    Frames env (selectionLookup env inputs selection) := by
  unfold selectionLookup
  dsimp only
  split
  · exact .pure _
  · exact .fail _

theorem reloadHead_frames : Frames env (reloadHead inputs : Program (App κ ω) Exn Unit) := by
  refine read_frames.bind fun app => ?_
  cases app.head with
  | none => exact .pure ()
  | some head =>
      exact (inRepo_frames (revReload_keepsRefs _ _)).bind fun _ =>
        .update fun _ => .of_eq rfl rfl rfl

theorem setLoaded_frames (ref : Ref) (lref : State.LoadedRef κ) :
    Frames env (setLoaded ref lref : Program (App κ ω) Exn Unit) :=
  .update fun _ => .of_eq rfl rfl rfl

variable [DecidableEq κ]

theorem loadRef_frames (ref : Ref) : Frames env (loadRef env inputs ref) :=
  read_frames.bind fun _ => .bind (.update fun _ => .of_eq rfl rfl rfl) fun _ => .pure _

theorem historyPush_frames (ref : Ref) (refState : State.HistoryRefState κ) :
    Frames env (historyPush env inputs ref refState) :=
  (loadRef_frames ref).bind fun _ => setLoaded_frames _ _

theorem snapshotInitialPush_frames (ref : Ref) : Frames env (snapshotInitialPush env inputs ref) :=
  (loadRef_frames ref).bind fun _ => setLoaded_frames _ _

theorem opPush_frames (revPrev : Option Rev) (res : Modify.Res) :
    Frames env (opPush env inputs revPrev res) := by
  unfold opPush
  split
  · exact .pure ()
  · refine (loadRef_frames _).bind fun _ => ?_
    split
    · exact .pure ()
    · exact (historyPush_frames _ _).bind fun _ => snapshotInitialPush_frames _

end Frames

/-! ## Reloading -/

section Reload

variable {env : Env κ ω} {inputs : Inputs κ}

/-- A reloaded rev keeps its name. -/
theorem revReload_name {fault : Fault} {repo : Repository} (c : Call) (rev : GitRev) :
    Program.Ends (revReload fault c rev) repo
      (fun x repo' => repo' = repo ∧ x.ref.map Ref.fullName = rev.ref.map Ref.fullName ∧
        (rev.ref = none → x = rev))
      fun _ repo' => repo' = repo := by
  unfold revReload refFullNameLookup
  cases href : rev.ref with
  | none => exact .pure ⟨rfl, by rw [href], fun _ => rfl⟩
  | some ref =>
      refine .bind (call_ends (.bind (.bind (.read ?_))) fun _ _ => rfl)
      cases hlookup : repo.lookup ref.fullName with
      | none => exact .fail rfl
      | some ref' =>
          refine .pure (.pure ⟨rfl, ?_, nofun⟩)
          exact congrArg some (fullName_of_lookup hlookup)

/-- The revs are replaced one by one by revs of the same names. -/
theorem reloadRevs_distinct (todo : List Rev) :
    ∀ (done : List Rev) (app : App κ ω), Distinct env app → app.revs = done ++ todo →
      LeavesDistinct env (reloadRevs inputs done todo) app := by
  induction todo with
  | nil => exact fun _ _ h _ => .pure h
  | cons rev todo ih =>
      intro done app h hrevs
      unfold reloadRevs
      refine .bind (.zoom ((revReload_name _ rev.toGitRev).mono ?_ ?_))
      · rintro x _ ⟨rfl, hname, hnone⟩
        refine .bind (.update (ih _ _ (h.of_keys ?_) (by simp)))
        rw [hrevs]
        simp [Rev.key_assign hname hnone]
      · rintro _ _ rfl
        exact h

variable [DecidableEq κ]

/-- The columns are made for the first revs. -/
theorem reloadColumns_revs (revs : List Rev) (offX : Int) {count : Nat} {app : App κ ω}
    (hcount : count ≤ app.columns.length) :
    (reloadColumns env inputs revs offX count app).repo = app.repo ∧
      (reloadColumns env inputs revs offX count app).revs = app.revs ∧
      ∃ n, (reloadColumns env inputs revs offX count app).columns.map Ui.RevColumn.rev =
        (app.columns.take count).map Ui.RevColumn.rev ++ revs.take n := by
  induction revs generalizing offX count app with
  | nil => exact ⟨rfl, rfl, 0, by simp [reloadColumns]⟩
  | cons rev revs ih =>
      have hload : (app.loadRev env inputs rev).columns = app.columns ∧
          (app.loadRev env inputs rev).repo = app.repo ∧
          (app.loadRev env inputs rev).revs = app.revs := by
        unfold loadRev
        split
        · exact ⟨rfl, rfl, rfl⟩
        · exact ⟨rfl, rfl, rfl⟩
      rw [reloadColumns]
      dsimp only
      generalize app.loadRev env inputs rev = loaded at hload ⊢
      obtain ⟨hcolumns, hrepo, hrevs⟩ := hload
      rw [← hcolumns] at hcount ⊢
      rw [← hrepo, ← hrevs]
      split
      · exact ⟨rfl, rfl, 0, by simp⟩
      · have hlength : (loaded.columns.take count).length = count := List.length_take_of_le hcount
        generalize hcol : Ui.RevColumn.reload env.height _ = col
        have hrev : col.rev = rev := by
          rw [← hcol]
          rfl
        obtain ⟨hrepo', hrevs', n, hn⟩ := @ih (offX + columnWidth + columnSpacing) (count + 1)
          { loaded with
            columns := loaded.columns.take count ++ col :: loaded.columns.drop (count + 1) }
          (by simp [hlength])
        refine ⟨hrepo', hrevs', n + 1, ?_⟩
        rw [hn, List.take_append, hlength]
        simp [hrev]

theorem reload_distinct {app : App κ ω} (h : Distinct env app) :
    LeavesDistinct env (reload env inputs) app := by
  unfold reload
  refine .bind ((reloadHead_frames.ends app).mono (fun _ app₁ hframed => ?_) fun _ _ hframed =>
    h.framed hframed)
  have h₁ := h.framed hframed
  refine .bind (.read (.bind ((reloadRevs_distinct app₁.revs [] app₁ h₁ rfl).mono
    (fun _ app₂ h₂ => ?_) fun _ _ h₂ => h₂)))
  refine .update ?_
  obtain ⟨hrepo, hrevs, n, hn⟩ := @reloadColumns_revs _ _ env inputs _ app₂.revs columnInsetX 0 app₂
    (Nat.zero_le _)
  generalize reloadColumns env inputs app₂.revs columnInsetX 0 app₂ = app₃ at hrepo hrevs hn ⊢
  exact
    { headName := by
        rw [hrepo]
        exact h₂.headName
      named := by
        rw [hrepo]
        exact h₂.named
      revs := by
        rw [hrevs]
        exact h₂.revs
      exist := by
        rw [hrepo, hrevs]
        exact h₂.exist
      columns := by
        rw [hn]
        exact h₂.revs.sublist ((List.take_sublist n _).map _) }

end Reload

/-! ## Renaming and deleting -/

section Rename

variable {env : Env κ ω} {inputs : Inputs κ} {app : App κ ω}

/-- A key after a ref was renamed. -/
def keyRenamed (k k' : Bytes) (key : (Bytes ⊕ Commit) × Nat × Mutability) :
    (Bytes ⊕ Commit) × Nat × Mutability :=
  if key.1 = .inl k then (.inl k', key.2) else key

theorem key_revRenamed (refPrev ref : Ref) (rev : Rev) :
    (revRenamed refPrev ref rev).key = keyRenamed refPrev.fullName ref.fullName rev.key := by
  unfold revRenamed keyRenamed Rev.key Ref.same
  cases href : rev.ref with
  | none => simp [href]
  | some x =>
      by_cases hname : x.fullName = refPrev.fullName
      · simp [hname]
      · simp [hname, href]

/-- A name that no rev had stays the name of one rev. -/
theorem nodup_keyRenamed {keys : List ((Bytes ⊕ Commit) × Nat × Mutability)} (h : keys.Nodup)
    {k k' : Bytes} (hfresh : ∀ key ∈ keys, key.1 ≠ .inl k') :
    (keys.map (keyRenamed k k')).Nodup := by
  refine h.map_on fun x hx y hy heq => ?_
  unfold keyRenamed at heq
  split at heq
  · next hxk =>
      split at heq
      · next hyk =>
          rw [Prod.mk.injEq] at heq
          exact Prod.ext (hxk.trans hyk.symm) heq.2
      · exact absurd (congrArg Prod.fst heq).symm (hfresh y hy)
  · split at heq
    · exact absurd (congrArg Prod.fst heq) (hfresh x hx)
    · exact heq

/-- A new ref is the ref of no rev. -/
theorem Distinct.fresh (h : Distinct env app) {m : Bytes} (hne : m ≠ headFile)
    (hfree : app.repo.refs m = none) : ∀ key ∈ app.revs.map Rev.key, key.1 ≠ .inl m := by
  intro key hkey hm
  have hexists := (h.exist key hkey m hm).resolve_left hne
  rw [hfree] at hexists
  cases hexists

/-- No rev has this ref. -/
def Without (k : Bytes) (app : App κ ω) : Prop := ∀ key ∈ app.revs.map Rev.key, key.1 ≠ .inl k

theorem Without.framed {k : Bytes} (h : Without k app) {app' : App κ ω}
    (hframed : Framed env app app') : Without k app' := by
  unfold Without
  rw [hframed.revs]
  exact h

theorem refDelete_distinct (h : Distinct env app) {ref : Ref} (hwithout : Without ref.fullName app) :
    LeavesDistinct env (inRepo (refDelete inputs.fault ref)) app := by
  have hremoved : Distinct env { app with repo := app.repo.remove ref.fullName } :=
    { headName := h.headName
      named := fun m hm => by
        by_cases hmk : m = ref.fullName
        · rw [hmk, Repository.refs_remove_self] at hm
          cases hm
        · rw [Repository.refs_remove_of_ne hmk] at hm
          exact h.named m hm
      revs := h.revs
      exist := fun key hkey m hm => by
        refine (h.exist key hkey m hm).imp_right fun hexists => ?_
        have hmk : m ≠ ref.fullName := fun heq => hwithout key hkey (heq ▸ hm)
        rwa [Repository.refs_remove_of_ne hmk]
      columns := h.columns }
  refine .zoom ?_
  unfold refDelete
  split
  · refine .bind (call_ends (.bind (.read ?_)) fun _ _ => h)
    split
    · exact .update hremoved
    · exact .fail h
  · exact .fail h

theorem gitRefRename_distinct (h : Distinct env app) {refPrev : Ref} {name : Bytes}
    (hclear : refPrev.isTag = true → TagNameClear env.names app.repo name) :
    LeavesDistinct env (gitRefRename env inputs refPrev name) app := by
  unfold gitRefRename
  refine .bind (.zoom (Program.Ends.mono (refCopy_addsRef h.headName hclear none) ?_ ?_))
  swap
  · exact fun _ repo' hkept => h.framed ⟨hkept, rfl, rfl⟩
  rintro ref repo₁ ⟨hkept, hne, hfree, hthere⟩
  refine .bind (.update ?_)
  have hfresh := h.fresh hne hfree
  have hkeys : (app.revs.map (revRenamed refPrev ref)).map Rev.key =
      (app.revs.map Rev.key).map (keyRenamed refPrev.fullName ref.fullName) := by
    rw [List.map_map, List.map_map]
    exact List.map_congr_left fun rev _ => key_revRenamed refPrev ref rev
  have h₁ : Distinct env { app with
      repo := repo₁
      revs := app.revs.map (revRenamed refPrev ref) } :=
    { headName := hkept.headName h.headName
      named := fun m hm => (hkept.named m hm).elim (h.named m) id
      revs := by
        show ((app.revs.map (revRenamed refPrev ref)).map Rev.key).Nodup
        rw [hkeys]
        exact nodup_keyRenamed h.revs hfresh
      exist := by
        show ∀ key ∈ (app.revs.map (revRenamed refPrev ref)).map Rev.key, _
        rw [hkeys]
        intro key hkey m hm
        obtain ⟨keyPrev, hkeyPrev, rfl⟩ := List.mem_map.mp hkey
        unfold keyRenamed at hm
        split at hm
        · cases hm
          exact Or.inr hthere
        · exact (h.exist keyPrev hkeyPrev m hm).imp_right (hkept.refs m)
      columns := h.columns }
  -- the old name is gone from the revs, unless it is the new one
  have hwithout : refPrev.fullName ≠ ref.fullName → Without refPrev.fullName
      ({ app with repo := repo₁, revs := app.revs.map (revRenamed refPrev ref) } : App κ ω) := by
    intro hnames
    show ∀ key ∈ (app.revs.map (revRenamed refPrev ref)).map Rev.key, _
    rw [hkeys]
    intro key hkey hm
    obtain ⟨key, -, rfl⟩ := List.mem_map.mp hkey
    unfold keyRenamed at hm
    split at hm
    · exact hnames (Sum.inl.inj hm).symm
    · next hk => exact hk hm
  generalize ({ app with repo := repo₁, revs := app.revs.map (revRenamed refPrev ref) } : App κ ω) =
    app₁ at h₁ hwithout
  refine .bind ((((repoStateRefReplace_frames refPrev ref).ends app₁).and
    (repoStateRefReplace_returns refPrev ref)).mono ?_ fun _ _ hframed => h₁.framed hframed.1)
  rintro - app₂ ⟨hframed, hnames, -⟩
  have h₂ := h₁.framed hframed
  have hwithout₂ := (hwithout hnames).framed hframed
  refine (gitDetachHeadIfEqual_frames refPrev).bind_leaves h₂ fun wasHead app₃ hframed₃ => ?_
  have h₃ := h₂.framed hframed₃
  have hwithout₃ := hwithout₂.framed hframed₃
  have hrest : ∀ app₄, Framed env app₃ app₄ → LeavesDistinct env (do
      Program.update fun app : App κ ω =>
        { app with selection := selectionRenamed refPrev ref app.selection }
      inRepo (reflogRememberRef inputs.fault ref)
      inRepo (refDelete inputs.fault refPrev)
      pure ref) app₄ := by
    intro app₄ hframed₄
    have h₄ := h₃.framed hframed₄
    refine .bind (.update ?_)
    have hframed₅ : Framed env app₄
        { app₄ with selection := selectionRenamed refPrev ref app₄.selection } := .of_eq rfl rfl rfl
    refine (inRepo_frames (reflogRememberRef_keepsRefs ref)).bind_leaves (h₄.framed hframed₅)
      fun _ app₆ hframed₆ => ?_
    refine .bind ((refDelete_distinct ((h₄.framed hframed₅).framed hframed₆)
      (((hwithout₃.framed hframed₄).framed hframed₅).framed hframed₆)).mono (fun _ _ h => .pure h)
      fun _ _ h => h)
  cases wasHead with
  | true => exact .bind (.update (hrest _ (.of_eq rfl rfl rfl)))
  | false => exact hrest _ (refl_of _ _)

theorem gitRefDelete_distinct (h : Distinct env app) (ref : Ref) :
    LeavesDistinct env (gitRefDelete inputs ref) app := by
  unfold gitRefDelete
  refine .bind (.update ?_)
  have hsub : ((app.revs.filter fun rev => !Ref.same rev.ref (some ref)).map Rev.key).Sublist
      (app.revs.map Rev.key) := List.filter_sublist.map _
  have h₁ : Distinct env { app with
      revs := app.revs.filter fun rev => !Ref.same rev.ref (some ref)
      repoState := State.refRemove app.repoState ref.fullName } :=
    { headName := h.headName
      named := h.named
      revs := h.revs.sublist hsub
      exist := fun key hkey => h.exist key (hsub.subset hkey)
      columns := h.columns }
  have hwithout : Without ref.fullName ({ app with
      revs := app.revs.filter fun rev => !Ref.same rev.ref (some ref)
      repoState := State.refRemove app.repoState ref.fullName } : App κ ω) := by
    intro key hkey hm
    obtain ⟨rev, hrev, rfl⟩ := List.mem_map.mp hkey
    obtain ⟨ref', href', hfull⟩ := Rev.ref_of_key hm
    have hnot := (List.mem_filter.mp hrev).2
    simp [Ref.same, href', hfull] at hnot
  generalize ({ app with
    revs := app.revs.filter fun rev => !Ref.same rev.ref (some ref)
    repoState := State.refRemove app.repoState ref.fullName } : App κ ω) = app₁ at h₁ hwithout
  refine (gitDetachHeadIfEqual_frames ref).bind_leaves h₁ fun wasHead app₂ hframed₂ => ?_
  have h₂ := h₁.framed hframed₂
  have hwithout₂ := hwithout.framed hframed₂
  have hrest : ∀ app₃, Framed env app₂ app₃ → LeavesDistinct env (do
      Program.update fun app : App κ ω =>
        { app with selection := selectionDeleted ref app.selection }
      inRepo (refDelete inputs.fault ref)) app₃ := by
    intro app₃ hframed₃
    have hframed₄ : Framed env app₃
        { app₃ with selection := selectionDeleted ref app₃.selection } := .of_eq rfl rfl rfl
    exact .bind (.update (refDelete_distinct ((h₂.framed hframed₃).framed hframed₄)
      ((hwithout₂.framed hframed₃).framed hframed₄)))
  cases wasHead with
  | true => exact .bind (.update (hrest _ (.of_eq rfl rfl rfl)))
  | false => exact hrest _ (refl_of _ _)

end Rename

/-! ## Undo, redo and snapshots -/

section Restore

variable {env : Env κ ω} {inputs : Inputs κ} {app : App κ ω}

/-- A tag that is given a name is found by it, and exists. -/
def TagFound (env : Env κ ω) (app : App κ ω) (ref : Ref) (name : Bytes) : Prop :=
  ref.isTag = true →
    TagNameClear env.names app.repo name ∧ (app.repo.refs ref.fullName).isSome

instance (env : Env κ ω) (app : App κ ω) (ref : Ref) (name : Bytes) :
    Decidable (TagFound env app ref name) :=
  inferInstanceAs (Decidable (_ → _ ∧ _))

/-- Nothing is found under a new name after `HEAD` was detached. -/
theorem headDetach_lookup {fault : Fault} {repo : Repository} :
    Program.Returns (headDetach fault) repo fun _ repo' =>
      repo'.refs = repo.refs ∧ ∀ m, repo.lookup m = none → repo'.lookup m = none := by
  unfold headDetach
  refine .bind call_returns ?_
  rintro - repo₁ hrepo
  rw [hrepo]
  refine .read_bind ?_
  cases hcommit : repo.headCommit with
  | none => exact .fail
  | some commit =>
      refine .update ⟨rfl, fun m hm => ?_⟩
      unfold Repository.lookup at hm ⊢
      split at hm
      · next hmk =>
          unfold Repository.headCommit Repository.lookup at hcommit
          rw [if_pos rfl, hm] at hcommit
          cases hcommit
      · next hmk => rw [if_neg hmk, hm]

theorem gitDetachHeadIfEqual_lookup (ref : Ref) :
    Program.Returns (gitDetachHeadIfEqual inputs ref) app fun _ app' =>
      app'.repo.refs = app.repo.refs ∧
        ∀ m, app.repo.lookup m = none → app'.repo.lookup m = none := by
  unfold gitDetachHeadIfEqual
  refine .read_bind ?_
  split
  · exact .pure ⟨rfl, fun _ h => h⟩
  · split
    · exact .update_bind (.bind (.zoom headDetach_lookup) fun _ _ h => .pure h)
    · exact .pure ⟨rfl, fun _ h => h⟩

/-- A ref that replaces a tag is no branch, and nothing is found under a new name; what replaces a
branch is a branch. -/
theorem gitRefReplace_found (h : Distinct env app) {ref : Ref} {name : Bytes}
    (hmutable : ref.isMutable = true) (hfound : TagFound env app ref name) (commit : Commit) :
    Program.Returns (gitRefReplace env inputs ref commit) app fun ref' app' =>
      ref'.isTag = true → TagNameClear env.names app'.repo name := by
  have hframes : Frames env (gitDetachHeadIfEqual inputs ref) := gitDetachHeadIfEqual_frames ref
  unfold gitRefReplace
  refine .bind_ends (((gitDetachHeadIfEqual_lookup ref).and (hframes.ends app)).mono ?_
    fun _ _ _ => trivial)
  rintro - app₁ ⟨⟨hrefs, hlookup⟩, hframed⟩
  have h₁ := h.framed hframed
  by_cases hbranch : ref.isLocalBranch = true
  · refine .zoom ((refReplace_isBranch hbranch commit).mono ?_)
    intro ref' repo' hbranch' htag'
    rw [Ref.isBranch_of_isTag htag'] at hbranch'
    cases hbranch'
  · have htag : ref.isTag = true := by simpa [Ref.isMutable, hbranch] using hmutable
    obtain ⟨hclear, hthere⟩ := hfound htag
    rw [← hrefs] at hthere
    refine .zoom ((refReplace_returns h₁.headName hmutable (h₁.named _ hthere) commit).mono ?_)
    rintro ref' _ ⟨⟨ann, rfl⟩, -⟩ -
    refine tagNameClear_mono hclear fun m hm => ?_
    have hsame := @isSome_lookup_write_iff _ ref.fullName m ⟨commit, ann⟩ hthere
    rw [hlookup m hm] at hsame
    simpa using hsame

theorem refStateRestore_distinct (h : Distinct env app) {ref : Ref} {refState : State.RefState κ}
    (hmutable : ref.isMutable = true) (hfound : TagFound env app ref refState.name) :
    LeavesDistinct env (refStateRestore env inputs ref refState) app := by
  unfold refStateRestore
  have hrest : ∀ (ref₁ : Ref) (app₁ : App κ ω), Distinct env app₁ →
      (ref₁.isTag = true → TagNameClear env.names app₁.repo refState.name) →
      LeavesDistinct env (if ref₁.name ≠ refState.name then
        gitRefRename env inputs ref₁ refState.name else pure ref₁) app₁ := by
    intro ref₁ app₁ h₁ hclear
    split
    · exact gitRefRename_distinct h₁ hclear
    · exact .pure h₁
  refine .bind ((headLookup_ends refState.head).mono ?_ ?_)
  · rintro commit _ ⟨rfl, -⟩
    split
    · refine .bind (((gitRefReplace_frames ref commit).ends _).and
        (gitRefReplace_found h hmutable hfound commit) |>.mono ?_ fun _ _ hframed => h.framed hframed.1)
      rintro ref₁ app₁ ⟨hframed, hclear⟩
      exact hrest ref₁ app₁ (h.framed hframed) hclear
    · exact .bind (.pure (hrest ref _ h fun htag => (hfound htag).1))
  · rintro _ _ ⟨rfl, -⟩
    exact h

end Restore

section Turn

variable [DecidableEq κ] {env : Env κ ω} {inputs : Inputs κ} {app : App κ ω}

theorem undoRedo_distinct (h : Distinct env app) {rev : Rev} {ref : Ref} {undo : Bool}
    (href : rev.ref = some ref) (hmutable : ref.isMutable = true)
    (hfound : ∀ x, turnPeek undo (app.loaded env inputs ref).history = some x →
      TagFound env app ref x.refState.name) :
    LeavesDistinct env (undoRedo env inputs rev undo) app := by
  unfold undoRedo
  rw [href]
  dsimp only
  refine .bind (((loadRef_frames ref).ends app).and (loadRef_returns ref) |>.mono ?_
    fun _ _ hframed => h.framed hframed.1)
  rintro lref _ ⟨hframed, rfl, repoState, rfl⟩
  have h₁ := h.framed hframed
  rw [show (if undo then (app.loaded env inputs ref).history.prevPeek
      else (app.loaded env inputs ref).history.nextPeek) =
      turnPeek undo (app.loaded env inputs ref).history from rfl]
  cases hpeek : turnPeek undo (app.loaded env inputs ref).history with
  | none => exact .bind (.fail h₁)
  | some x =>
      have hbody : LeavesDistinct env (undoRedoBody env inputs rev ref undo
          (app.loaded env inputs ref).history.current x) { app with repoState := repoState } := by
        unfold undoRedoBody
        refine .bind ((refStateRestore_distinct h₁ hmutable (hfound x hpeek)).mono
          (fun ref' app₂ h₂ => ?_) fun _ _ h₂ => h₂)
        refine (selectionLookup_frames _).bind_leaves h₂ fun selection app₃ hframed₃ => ?_
        refine Frames.leavesDistinct ?_ (h₂.framed hframed₃)
        refine .bind (.update fun _ => .of_eq rfl rfl rfl) fun _ =>
          (loadRef_frames ref').bind fun lref => ?_
        split
        · exact .bind (.fail _) fun _ => snapshotInitialPush_frames ref'
        · exact (setLoaded_frames _ _).bind fun _ => snapshotInitialPush_frames ref'
      refine .bind (.handle (hbody.mono (fun _ _ h₂ => reload_distinct h₂) fun e app₂ h₂ => ?_))
      split
      · exact .fail h₂
      · split
        · exact .fail h₂
        · exact .fail h₂

theorem snapshotRestore_distinct (h : Distinct env app) {ref : Ref} {choice : Option Nat}
    (hmutable : ref.isMutable = true)
    (hfound : ∀ snapshot, snapshotChosen (app.loaded env inputs ref) choice = some snapshot →
      snapshot.refState ≠ (app.loaded env inputs ref).history.current.refState →
      TagFound env app ref snapshot.refState.name) :
    LeavesDistinct env (snapshotRestore env inputs ref choice) app := by
  unfold snapshotRestore
  refine .bind (((loadRef_frames ref).ends app).and (loadRef_returns ref) |>.mono ?_
    fun _ _ hframed => h.framed hframed.1)
  rintro lref _ ⟨hframed, rfl, repoState, rfl⟩
  have h₁ := h.framed hframed
  cases hchosen : snapshotChosen (app.loaded env inputs ref) choice with
  | none => exact .pure h₁
  | some snapshot =>
      dsimp only
      split
      · exact .pure h₁
      · next hdiffers =>
          refine .bind ((refStateRestore_distinct h₁ hmutable (hfound snapshot hchosen hdiffers)).mono
            (fun ref' app₂ h₂ => ?_) fun _ _ h₂ => h₂)
          refine (historyPush_frames ref' _).bind_leaves h₂ fun _ app₃ hframed₃ => ?_
          refine (snapshotInitialPush_frames ref').bind_leaves (h₂.framed hframed₃)
            fun _ app₄ hframed₄ => ?_
          exact .bind (.update (reload_distinct
            (((h₂.framed hframed₃).framed hframed₄).framed (.of_eq rfl rfl rfl))))

theorem refRename_distinct (h : Distinct env app) {ref : Ref} {name : Bytes}
    (hclear : ref.isTag = true → TagNameClear env.names app.repo name) :
    LeavesDistinct env (refRename env inputs ref name) app := by
  unfold refRename
  refine .bind ((gitRefRename_distinct h hclear).mono (fun ref' app₁ h₁ => ?_) fun _ _ h₁ => h₁)
  refine (historyPush_frames ref' _).bind_leaves h₁ fun _ app₂ hframed₂ => ?_
  refine (snapshotInitialPush_frames ref').bind_leaves (h₁.framed hframed₂) fun _ app₃ hframed₃ => ?_
  exact reload_distinct ((h₁.framed hframed₂).framed hframed₃)

theorem refRemove_distinct (h : Distinct env app) (ref : Ref) :
    LeavesDistinct env (refRemove env inputs ref) app :=
  .bind ((gitRefDelete_distinct h ref).mono (fun _ _ h₁ => reload_distinct h₁) fun _ _ h₁ => h₁)

end Turn

/-! ## Creating refs -/

section Create

variable {env : Env κ ω} {inputs : Inputs κ} {app : App κ ω}

/-- Names are tried as long as a ref of the name exists, and so without effect. -/
theorem createFirst_addsRef {names : RefNames} {repo : Repository}
    {create : Bytes → Program Repository Exn Ref} (l : List Bytes)
    (hcreate : ∀ name ∈ l, AddsRef names repo (create name) ∧
      ∀ repo', create name repo = (.error (.gitError .exists), repo') → repo' = repo) :
    AddsRef names repo (createFirst create l) := by
  induction l with
  | nil => exact Program.Ends.fail (refl_of (Kept names) repo)
  | cons name l ih =>
      obtain ⟨hadds, hexists⟩ := hcreate name List.mem_cons_self
      have hrest := ih fun name' hname' => hcreate name' (List.mem_cons_of_mem _ hname')
      unfold AddsRef Program.Ends createFirst Program.handle
      unfold AddsRef Program.Ends at hadds hrest
      rcases hrun : create name repo with ⟨e | ref, repo'⟩
      · rw [hrun] at hadds
        dsimp only at hadds ⊢
        by_cases he : e = .gitError .exists
        · subst he
          rw [hexists repo' hrun]
          exact hrest
        · rw [if_neg he]
          exact hadds
      · rw [hrun] at hadds
        exact hadds

/-- A copy that fails because its name is taken has no effect. -/
theorem refCopy_exists {names : RefNames} {fault : Fault} {repo repo' : Repository} {ref : Ref}
    {name : Bytes} {commit : Commit} (hfault : ref.isTag = true → ∀ c, fault ≠ some (c, .exists))
    (hrun : refCopy names fault ref name (some commit) repo = (.error (.gitError .exists), repo')) :
    repo' = repo := by
  by_cases hbranch : ref.isBranch = true
  · unfold refCopy at hrun
    simp only [if_pos hbranch, Option.getD_some] at hrun
    exact ((branchCreate_ends name commit false).of_error hrun).1
  · by_cases htag : ref.isTag = true
    · obtain ⟨htaken, hfree⟩ := (tagCopy_errors htag commit (hfault htag)).of_error hrun
      cases hname : tagFree names repo name with
      | false => exact htaken hname
      | true => exact absurd rfl (hfree hname)
    · unfold refCopy at hrun
      simp only [if_neg hbranch, if_neg htag] at hrun
      cases hrun

variable [DecidableEq κ]

theorem revCreateEnd_distinct (h : Distinct env app) {x : Program Repository Exn Ref}
    (hx : AddsRef env.names app.repo x) (template : Rev) (commit : Commit) :
    LeavesDistinct env (revCreateEnd env inputs x template commit) app := by
  unfold revCreateEnd
  refine .bind (.zoom (Program.Ends.mono hx ?_ ?_))
  swap
  · exact fun _ repo' hkept => h.framed ⟨hkept, rfl, rfl⟩
  rintro ref repo₁ ⟨hkept, hne, hfree, hthere⟩
  have hfresh := h.fresh hne hfree
  have hframed₁ : Framed env app { app with repo := repo₁ } := ⟨hkept, rfl, rfl⟩
  refine (inRepo_frames (reflogRememberRef_keepsRefs ref)).bind_leaves (h.framed hframed₁)
    fun _ app₂ hframed₂ => .bind (.read ?_)
  have h₂ := (h.framed hframed₁).framed hframed₂
  have hthere₂ := hframed₂.repo.refs _ hthere
  rw [← hframed₁.revs, ← hframed₂.revs] at hfresh
  cases hfind : app₂.revs.findIdx? (Rev.same template) with
  | none => exact .fail h₂
  | some i =>
      refine .bind (.update (reload_distinct ?_))
      have hperm : ((app₂.revs.insertIdx (i + 1) ⟨.ofRef ref, 0, .allowed⟩).map Rev.key).Perm
          ((⟨.ofRef ref, 0, .allowed⟩ : Rev).key :: app₂.revs.map Rev.key) := by
        have hi : i < app₂.revs.length := (List.findIdx?_eq_some_iff_findIdx_eq.mp hfind).1
        exact (List.perm_insertIdx _ _ hi).map _
      exact
        { headName := h₂.headName
          named := h₂.named
          revs := hperm.nodup_iff.mpr (List.nodup_cons.mpr ⟨fun hmem => hfresh _ hmem rfl, h₂.revs⟩)
          exist := fun key hkey m hm => by
            rcases List.mem_cons.mp (hperm.mem_iff.mp hkey) with rfl | hkey
            · cases hm
              exact Or.inr hthere₂
            · exact h₂.exist key hkey m hm
          columns := h₂.columns }

/-- A tag that is copied is found by whatever name it gets, and no call says wrongly that a ref
exists. -/
def CopiesFound (env : Env κ ω) (inputs : Inputs κ) (app : App κ ω) (ref : Ref) : Prop :=
  ref.isTag = true → (∀ name ∈ candidates ref.name true, TagNameClear env.names app.repo name) ∧
    inputs.fault.map Prod.snd ≠ some .exists

omit [DecidableEq κ] in
theorem CopiesFound.fault {ref : Ref} (h : CopiesFound env inputs app ref)
    (htag : ref.isTag = true) (c : Call) : inputs.fault ≠ some (c, .exists) := by
  intro hfault
  exact (h htag).2 (by rw [hfault]; rfl)

instance (env : Env κ ω) (inputs : Inputs κ) (app : App κ ω) (ref : Ref) :
    Decidable (CopiesFound env inputs app ref) :=
  inferInstanceAs (Decidable (_ → _ ∧ _))

theorem revCreate_distinct (h : Distinct env app) {branch : Bool} {template : Rev}
    (hfound : branch = false → ∀ ref, template.ref = some ref → CopiesFound env inputs app ref)
    (commit : Commit) : LeavesDistinct env (revCreate env inputs branch template commit) app := by
  refine revCreate_ends h (fun ref => ?_) fun x hx => ?_
  · refine .zoom (Program.Ends.mono (branchNameLocal_ends ref) ?_ ?_)
    · rintro - _ rfl
      rfl
    · rintro _ _ rfl
      exact h
  · refine revCreateEnd_distinct h ?_ template commit
    cases hx with
    | branch l =>
        refine createFirst_addsRef l fun name _ => ⟨branchCreate_addsRef name commit, ?_⟩
        exact fun repo' hrun => ((branchCreate_ends name commit false).of_error hrun).1
    | copy name hcopy href hname =>
        rename_i ref
        refine createFirst_addsRef _ fun name' hname' => ⟨refCopy_addsRef h.headName ?_ _, ?_⟩
        · intro htag
          rw [hname (Ref.isBranch_of_isTag htag)] at hname'
          exact (hfound hcopy ref href htag).1 name' hname'
        · exact fun repo' hrun => refCopy_exists (fun htag => (hfound hcopy ref href).fault htag) hrun

end Create

/-! ## Commit operations -/

section Operations

variable {env : Env κ ω} {inputs : Inputs κ}

theorem revReplace_frames (rev : Rev) (ref : Ref) (commit : Option Commit) :
    Frames env (Modify.revReplace (gitCtx env inputs) rev ref commit) := by
  cases commit with
  | none => exact .fail _
  | some commit =>
      exact (gitRefReplace_frames ref commit).bind fun _ => (call_frames _ _).bind fun _ => .pure _

theorem exec_frames (op : Modify.Op) : Frames env (Modify.exec (gitCtx env inputs) op) := by
  refine Modify.exec_keeps gitCtx_quiet (fun app app' hout => ?_) revReplace_frames op
  rw [show app' = _ from hout]
  exact .of_eq rfl rfl rfl

theorem gitOpExec_distinct [DecidableEq κ] {app : App κ ω} (h : Distinct env app) (op : Modify.Op) :
    LeavesDistinct env (gitOpExec env inputs op) app := by
  unfold gitOpExec
  refine (exec_frames op).bind_leaves h fun result app₁ hframed₁ => ?_
  have h₁ := h.framed hframed₁
  cases result with
  | none => exact .pure h₁
  | some result =>
      dsimp only
      split
      · exact .fail h₁
      · refine (opPush_frames _ _).bind_leaves h₁ fun _ app₂ hframed₂ => ?_
        refine (opPush_frames _ _).bind_leaves (h₁.framed hframed₂) fun _ app₃ hframed₃ => ?_
        exact .bind (.update (reload_distinct
          (((h₁.framed hframed₂).framed hframed₃).framed (.of_eq rfl rfl rfl))))

end Operations

/-! ## Every action -/

section Perform

variable [DecidableEq κ] (env : Env κ ω) (inputs : Inputs κ)

/-- The ref that an action gives a name to, and the name. -/
def namedBy (app : App κ ω) : Action → Option (Ref × Bytes)
  | .rename i name => (app.colRef i).map fun ref => (ref, name)
  | action => (app.restoredOf env inputs action).map fun x => (x.1, x.2.name)

/-- The ref that an action copies. -/
def copiedBy (app : App κ ω) : Action → Option Ref
  | .duplicate i => (app.colRev i).bind fun rev => rev.ref
  | _ => none

/-- A tag that an action renames, or copies, is found by its new name. -/
def TagsFound (app : App κ ω) (l : Action × Inputs κ) : Prop :=
  (∀ x, app.namedBy env l.2 l.1 = some x → TagFound env app x.1 x.2) ∧
    ∀ ref, app.copiedBy l.1 = some ref → CopiesFound env l.2 app ref

instance (app : App κ ω) (l : Action × Inputs κ) : Decidable (TagsFound env app l) :=
  inferInstanceAs (Decidable ((∀ x, app.namedBy env l.2 l.1 = some x → _) ∧
    ∀ ref, app.copiedBy l.1 = some ref → _))

variable {env inputs} {app app' : App κ ω}

omit [DecidableEq κ] in
theorem withRev_distinct {α : Type} (h : Distinct env app) {rev : Option α}
    {f : α → Program (App κ ω) Exn Unit} (hf : ∀ a, rev = some a → LeavesDistinct env (f a) app) :
    LeavesDistinct env (withRev rev f) app := by
  cases rev with
  | none => exact .fail h
  | some a => exact hf a rfl

theorem perform_distinct (h : Distinct env app) {action : Action}
    (hoffers : app.offers action = true) (hfound : TagsFound env app (action, inputs)) :
    LeavesDistinct env (perform env inputs action) app := by
  have hcolRef : ∀ {i : Nat} {ref : Ref}, app.colRef i = some ref →
      ∃ rev, app.colRev i = some rev ∧ rev.ref = some ref ∧ ref.isMutable = true := by
    intro i ref hcol
    obtain ⟨col, -, hrev, href, hmutable⟩ := rev_of_colRef hcol
    exact ⟨col.rev, hrev, href, isMutable_of_rev hmutable href⟩
  have hrestored : ∀ {ref : Ref} {refState : State.RefState κ},
      app.restoredOf env inputs action = some (ref, refState) → (∀ i name, action ≠ .rename i name) →
        TagFound env app ref refState.name := by
    intro ref refState hrestored hne
    refine hfound.1 (ref, refState.name) ?_
    cases action with
    | rename i name => exact absurd rfl (hne i name)
    | _ => simp [namedBy, hrestored]
  unfold perform
  refine .bind (.read ?_)
  cases action with
  | resize size => exact .bind (.update (reload_distinct (h.framed (.of_eq rfl rfl rfl))))
  | select i commits shift => exact .update (h.framed (.of_eq rfl rfl rfl))
  | deselect => exact .update (h.framed (.of_eq rfl rfl rfl))
  | drop i position copy => exact gitOpExec_distinct h _
  | deleteCommits => exact gitOpExec_distinct h _
  | combine => exact gitOpExec_distinct h _
  | edit => exact gitOpExec_distinct h _
  | undo i =>
      obtain ⟨ref, hcol⟩ := colRef_of_canUndoRedo hoffers
      obtain ⟨rev, hrev, href, hmutable⟩ := hcolRef hcol
      simp only [hrev, withRev]
      exact undoRedo_distinct h href hmutable fun x hx =>
        hrestored (restoredOf_undo hcol hx) (by simp)
  | redo i =>
      obtain ⟨ref, hcol⟩ := colRef_of_canUndoRedo hoffers
      obtain ⟨rev, hrev, href, hmutable⟩ := hcolRef hcol
      simp only [hrev, withRev]
      exact undoRedo_distinct h href hmutable fun x hx =>
        hrestored (restoredOf_redo hcol hx) (by simp)
  | restore i choice =>
      obtain ⟨ref, hcol⟩ := Option.isSome_iff_exists.mp hoffers
      obtain ⟨-, -, -, hmutable⟩ := hcolRef hcol
      simp only [hcol, withRev]
      exact snapshotRestore_distinct h hmutable fun snapshot hchosen hdiffers =>
        hrestored (restoredOf_restore hcol hchosen hdiffers) (by simp)
  | rename i name =>
      refine withRev_distinct h fun ref hcol => refRename_distinct h fun htag => ?_
      exact (hfound.1 (ref, name) (by simp [namedBy, hcol]) htag).1
  | remove i => exact withRev_distinct h fun ref _ => refRemove_distinct h ref
  | duplicate i =>
      exact withRev_distinct h fun rev hrev =>
        revCreate_distinct h (fun _ ref href => hfound.2 ref (by simp [copiedBy, hrev, href])) rev.commit
  | branch col =>
      refine withRev_distinct h fun rev _ => withRev_distinct h fun commit _ => ?_
      refine revCreate_distinct h ?_ commit
      intro hno
      cases hno

theorem step_distinct {l : Action × Inputs κ} (h : Distinct env app) (hfound : TagsFound env app l)
    (hstep : step env app l = some app') : Distinct env app' :=
  step_of_ends hstep fun hoffers => perform_distinct h hoffers hfound

theorem run_distinct {ls : List (Action × Inputs κ)} (h : Distinct env app)
    (hrun : run (step env) app ls = some app')
    (hmeet : StepsMeet (step env) (TagsFound env) app ls) : Distinct env app' :=
  Run.invariant (fun _ _ _ h₁ hfound hstep => step_distinct h₁ hfound hstep) hrun hmeet h

end Perform

end App
end Debase
