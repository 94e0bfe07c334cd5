import Debase.App.Session
import Debase.App.Columns
import Debase.App.Safety
import Debase.Git.Outcome
import Debase.Git.Untouched

/-!
# A branch with uncommitted changes

A session that starts with uncommitted changes marks the revs of the ref that is
checked out as immutable.  `Protected` is what every action keeps, however it ends:
the ref and `HEAD` are as they were, and no mutable rev has the ref.  Only a tag that
is written under a name that finds the ref gets through (`tagsWritten`).
-/

namespace Debase

open Git Library

namespace App

variable {κ ω : Type}

/-- A rev with the ref `k` must not be changed. -/
def Guarded (names : RefNames) (k : Bytes) (rev : Rev) : Prop :=
  ∀ ref, rev.ref = some ref → names.normalize ref.fullName = some ref.fullName ∧
    (rev.mutability = .allowed → ref.fullName ≠ k)

/-- The ref `k` holds `t`, `HEAD` is as it was, and nothing is going to change them. -/
structure Protected (env : Env κ ω) (k : Bytes) (t : Target) (head : Head) (app : App κ ω) :
    Prop where
  ref : app.repo.refs k = some t
  repoHead : app.repo.head = head
  headNormal : ∀ b, head = .attached b → env.names.normalize b = some b
  attached : app.headReattach = false
  tracked : (app.head.bind GitRev.ref).map Ref.fullName = some k
  revs : ∀ rev ∈ app.revs, Guarded env.names k rev
  columns : ∀ col ∈ app.columns, Guarded env.names k col.rev
  selection : ∀ rev, app.selection.rev = some rev → Guarded env.names k rev

/-- A run that ends in a protected state, and with `Q` if it returns. -/
def Protects {α : Type} (env : Env κ ω) (k : Bytes) (t : Target) (head : Head)
    (x : Program (App κ ω) Exn α) (app : App κ ω) (Q : α → App κ ω → Prop) : Prop :=
  Program.Ends x app (fun a app' => Protected env k t head app' ∧ Q a app')
    fun _ app' => Protected env k t head app'

/-! ## Tags that are written -/

/-- The names among these that are free for a tag. -/
def newTags (names : RefNames) (repo : Repository) (l : List Bytes) : List Bytes :=
  l.filter (tagFree names repo)

/-- The tags that are written to restore a state of a tag. -/
def restoreTags (env : Env κ ω) (repo : Repository) (ref : Ref) (refState : State.RefState κ) :
    List Bytes :=
  match env.ids.commit refState.head with
  | none => []
  | some commit =>
      if ref.isTag then
        (if ref.commit = commit then [] else [ref.name]) ++
          if ref.name = refState.name then [] else newTags env.names repo [refState.name]
      else []

/-- The names that a copy of a tag is tried under: none after the first free one, unless a
call wrongly says that the tag exists. -/
def triedTags (names : RefNames) (fault : Fault) (repo : Repository) (l : List Bytes) :
    List Bytes :=
  match fault with
  | some (_, .exists) => l
  | _ => l.take (l.findIdx (tagFree names repo) + 1)

/-- The short names of the tags that an action writes. -/
def tagsWritten (env : Env κ ω) [DecidableEq κ] (inputs : Inputs κ) (app : App κ ω)
    (action : Action) : List Bytes :=
  match action with
  | .rename i name =>
      match app.colRef i with
      | some ref => if ref.isTag then newTags env.names app.repo [name] else []
      | none => []
  | .duplicate i =>
      match (app.colRev i).bind fun rev => rev.ref with
      | some ref =>
          if ref.isTag then
            newTags env.names app.repo
              (triedTags env.names inputs.fault app.repo (candidates ref.name true))
          else []
      | none => []
  | action =>
      match app.opOf action, app.restoredOf env inputs action with
      | some op, _ => (op.targets.filter Ref.isTag).map Ref.name
      | none, some (ref, refState) => restoreTags env app.repo ref refState
      | none, none => []

section Rules

variable {env : Env κ ω} {k : Bytes} {t : Target} {head : Head} {app app' : App κ ω} {α β : Type}

theorem Protects.bind {x : Program (App κ ω) Exn α} {f : α → Program (App κ ω) Exn β}
    {Q : α → App κ ω → Prop} {Q' : β → App κ ω → Prop} (hx : Protects env k t head x app Q)
    (hf : ∀ a app', Protected env k t head app' → Q a app' →
      Protects env k t head (f a) app' Q') :
    Protects env k t head (x >>= f) app Q' :=
  Program.Ends.bind (Program.Ends.mono hx (fun a app' h => hf a app' h.1 h.2) fun _ _ h => h)

theorem Protects.read_bind {f : App κ ω → Program (App κ ω) Exn β} {Q : β → App κ ω → Prop}
    (h : Protects env k t head (f app) app Q) :
    Protects env k t head (Program.read >>= f) app Q :=
  Program.Ends.bind (.read h)

theorem Protects.mono {x : Program (App κ ω) Exn α} {Q Q' : α → App κ ω → Prop}
    (hx : Protects env k t head x app Q) (hQ : ∀ a app', Q a app' → Q' a app') :
    Protects env k t head x app Q' :=
  Program.Ends.mono hx (fun a app' h => ⟨h.1, hQ a app' h.2⟩) fun _ _ h => h

theorem Protects.fail {e : Exn} {Q : α → App κ ω → Prop} (h : Protected env k t head app) :
    Protects env k t head (Program.fail e) app Q :=
  Program.Ends.fail h

theorem Protects.pure {a : α} {Q : α → App κ ω → Prop} (h : Protected env k t head app)
    (hQ : Q a app) : Protects env k t head (Pure.pure a) app Q :=
  Program.Ends.pure ⟨h, hQ⟩

theorem Protects.update {f : App κ ω → App κ ω} {Q : Unit → App κ ω → Prop}
    (h : Protected env k t head (f app)) (hQ : Q () (f app)) :
    Protects env k t head (Program.update f) app Q :=
  Program.Ends.update ⟨h, hQ⟩

theorem Guarded.elsewhere {names : RefNames} {rev : Rev} {ref : Ref} (h : Guarded names k rev)
    (hmutable : rev.isMutable = true) (href : rev.ref = some ref) : Elsewhere names k ref := by
  obtain ⟨hnormal, hne⟩ := h ref href
  have hallowed : rev.mutability = .allowed := by
    simpa using (Bool.and_eq_true_iff.mp hmutable).1
  exact ⟨hne hallowed, hnormal⟩

/-- A rev of another ref. -/
theorem Guarded.of_elsewhere {names : RefNames} {rev : Rev}
    (h : ∀ ref, rev.ref = some ref → Elsewhere names k ref) : Guarded names k rev :=
  fun ref href => ⟨(h ref href).normal, fun _ => (h ref href).ne⟩

/-- A rev that was looked up again. -/
theorem Guarded.of_fullName {names : RefNames} {rev rev' : Rev} (h : Guarded names k rev)
    (hmutability : rev'.mutability = rev.mutability) (hname : revName rev' = revName rev) :
    Guarded names k rev' := by
  intro ref' href'
  unfold revName at hname
  rw [href', Option.map_some] at hname
  obtain ⟨ref, href, hfull⟩ := Option.map_eq_some_iff.mp hname.symm
  rw [← hfull, hmutability]
  exact h ref href

/-- What happens to the repository besides. -/
theorem Protected.withRepo {repo' : Repository} (h : Protected env k t head app)
    (hrefs : repo'.refs k = app.repo.refs k) (hhead : repo'.head = app.repo.head) :
    Protected env k t head { app with repo := repo' } where
  ref := hrefs.trans h.ref
  repoHead := hhead.trans h.repoHead
  headNormal := h.headNormal
  attached := h.attached
  tracked := h.tracked
  revs := h.revs
  columns := h.columns
  selection := h.selection

/-- Histories and the outside do not matter. -/
theorem Protected.congr (h : Protected env k t head app) (hrepo : app'.repo = app.repo)
    (hflag : app'.headReattach = app.headReattach) (hhead : app'.head = app.head)
    (hrevs : app'.revs = app.revs) (hcolumns : app'.columns = app.columns)
    (hselection : app'.selection = app.selection) : Protected env k t head app' where
  ref := by
    rw [hrepo]
    exact h.ref
  repoHead := by
    rw [hrepo]
    exact h.repoHead
  headNormal := h.headNormal
  attached := by
    rw [hflag]
    exact h.attached
  tracked := by
    rw [hhead]
    exact h.tracked
  revs := by
    rw [hrevs]
    exact h.revs
  columns := by
    rw [hcolumns]
    exact h.columns
  selection := by
    rw [hselection]
    exact h.selection

theorem Protected.exists (h : Protected env k t head app) : (app.repo.refs k).isSome := by
  rw [h.ref]
  rfl

theorem Protected.normal (h : Protected env k t head app) :
    ∀ b, app.repo.head = .attached b → env.names.normalize b = some b := by
  rw [h.repoHead]
  exact h.headNormal

/-- A call that leaves the ref alone. -/
theorem inRepo_protects {tag : Prop} {x : Program Repository Exn Ref}
    (h : Protected env k t head app) (hx : LeavesAlone env.names k tag app.repo x) :
    Protects env k t head (inRepo x) app fun ref app' =>
      Elsewhere env.names k ref ∧ Untouched k app.repo app'.repo ∧ (ref.isTag = true → tag) := by
  refine .zoom (hx.mono ?_ ?_)
  · rintro ref repo' ⟨huntouched, helsewhere, htag⟩
    exact ⟨h.withRepo huntouched.ref huntouched.head, helsewhere, huntouched, htag⟩
  · intro e repo' huntouched
    exact h.withRepo huntouched.ref huntouched.head

/-- A call that reads the repository only. -/
theorem inRepo_protects_of_reads {x : Program Repository Exn α} {Q : α → App κ ω → Prop}
    (h : Protected env k t head app)
    (hx : Program.Ends x app.repo (fun a repo' => repo' = app.repo ∧ Q a app)
      fun _ repo' => repo' = app.repo) :
    Protects env k t head (inRepo x) app fun a app' => app' = app ∧ Q a app := by
  refine .zoom (hx.mono ?_ ?_)
  · rintro a repo' ⟨rfl, hQ⟩
    exact ⟨h, rfl, hQ⟩
  · rintro e repo' rfl
    exact h

end Rules

/-! ## Changing refs -/

section Refs

variable {env : Env κ ω} {inputs : Inputs κ} {k : Bytes} {t : Target} {head : Head}
  {app : App κ ω}

/-- `HEAD` is not detached for another ref. -/
theorem gitDetachHeadIfEqual_protects (h : Protected env k t head app) {ref : Ref}
    (hne : ref.fullName ≠ k) :
    Protects env k t head (gitDetachHeadIfEqual inputs ref) app fun wasHead app' =>
      wasHead = false ∧ app' = app := by
  have hsame : Ref.same (app.head.bind GitRev.ref) (some ref) = false := by
    unfold Ref.same
    rw [h.tracked]
    simpa using Ne.symm hne
  unfold gitDetachHeadIfEqual
  refine .read_bind ?_
  rw [hsame]
  exact .pure h ⟨rfl, rfl⟩

theorem gitRefReplace_protects (h : Protected env k t head app) {ref : Ref}
    (href : Elsewhere env.names k ref) (commit : Commit)
    (hfound : ref.isTag = true → ¬FoundAs env.names app.repo ref.name k) :
    Protects env k t head (gitRefReplace env inputs ref commit) app fun ref' app' =>
      Elsewhere env.names k ref' ∧ Untouched k app.repo app'.repo ∧
        (ref'.isTag = true → ref.isTag = true) := by
  unfold gitRefReplace
  refine (gitDetachHeadIfEqual_protects h href.ne).bind ?_
  rintro wasHead app₁ h₁ ⟨-, happ⟩
  rw [happ]
  exact inRepo_protects h (refReplace_leavesAlone h.normal h.exists href commit hfound)

theorem repoStateRefReplace_protects (h : Protected env k t head app) (refPrev ref : Ref) :
    Protects env k t head (repoStateRefReplace refPrev ref) app fun _ _ => True := by
  unfold repoStateRefReplace
  refine .read_bind ?_
  split
  · exact .fail h
  · split
    · exact .fail h
    · exact .update (h.congr rfl rfl rfl rfl rfl rfl) trivial

theorem reflogRememberRef_protects (h : Protected env k t head app) (ref : Ref) :
    Protects env k t head (inRepo (reflogRememberRef inputs.fault ref)) app fun _ app' =>
      app' = app ∧ True := by
  apply inRepo_protects_of_reads h
  unfold reflogRememberRef
  refine .bind (call_ends (.bind (.read ?_)) fun _ _ => rfl)
  split
  · exact .fail rfl
  · exact .pure ⟨rfl, trivial⟩

theorem refDelete_protects (h : Protected env k t head app) {ref : Ref} (hne : ref.fullName ≠ k) :
    Protects env k t head (inRepo (refDelete inputs.fault ref)) app fun _ _ => True := by
  refine .zoom ((refDelete_leavesAlone hne).mono ?_ ?_)
  · rintro - repo' ⟨hrefs, hhead⟩
    exact ⟨h.withRepo hrefs hhead, trivial⟩
  · rintro - repo' ⟨hrefs, hhead⟩
    exact h.withRepo hrefs hhead

theorem gitRefRename_protects (h : Protected env k t head app) {refPrev : Ref}
    (href : Elsewhere env.names k refPrev) (name : Bytes)
    (hfound : refPrev.isTag = true → tagFree env.names app.repo name = true →
      ¬FoundAs env.names app.repo name k) :
    Protects env k t head (gitRefRename env inputs refPrev name) app fun ref _ =>
      Elsewhere env.names k ref := by
  unfold gitRefRename
  refine (inRepo_protects h (refCopy_leavesAlone h.normal h.exists none hfound)).bind ?_
  rintro ref app₁ h₁ ⟨helsewhere, -, -⟩
  refine Protects.bind (.update (Q := fun _ _ => True) ?_ trivial) ?_
  · refine { h₁ with revs := ?_ }
    intro rev hrev
    obtain ⟨rev₀, hrev₀, rfl⟩ := List.mem_map.mp hrev
    unfold revRenamed
    split
    · apply Guarded.of_elsewhere
      rintro _ ⟨⟩
      exact helsewhere
    · exact h₁.revs rev₀ hrev₀
  rintro - app₂ h₂ -
  refine (repoStateRefReplace_protects h₂ refPrev ref).bind ?_
  rintro - app₃ h₃ -
  refine (gitDetachHeadIfEqual_protects h₃ href.ne).bind ?_
  rintro wasHead app₄ h₄ ⟨rfl, -⟩
  refine Protects.bind (.update (Q := fun _ _ => True) ?_ trivial) ?_
  · refine { h₄ with selection := ?_ }
    intro rev hrev
    obtain ⟨rev₀, hrev₀, rfl⟩ := Option.map_eq_some_iff.mp hrev
    split
    · apply Guarded.of_elsewhere
      rintro _ ⟨⟩
      exact helsewhere
    · exact h₄.selection rev₀ hrev₀
  rintro - app₅ h₅ -
  refine (reflogRememberRef_protects h₅ ref).bind ?_
  rintro - app₆ h₆ -
  refine (refDelete_protects h₆ href.ne).bind ?_
  rintro - app₇ h₇ -
  exact .pure h₇ helsewhere

theorem gitRefDelete_protects (h : Protected env k t head app) {ref : Ref}
    (hne : ref.fullName ≠ k) :
    Protects env k t head (gitRefDelete inputs ref) app fun _ _ => True := by
  unfold gitRefDelete
  refine Protects.bind (.update (Q := fun _ _ => True) ?_ trivial) ?_
  · exact { h with revs := fun rev hrev => h.revs rev (List.mem_of_mem_filter hrev) }
  rintro - app₁ h₁ -
  refine (gitDetachHeadIfEqual_protects h₁ hne).bind ?_
  rintro wasHead app₂ h₂ ⟨rfl, -⟩
  refine Protects.bind (.update (Q := fun _ _ => True) ?_ trivial) ?_
  · refine { h₂ with selection := ?_ }
    intro rev hrev
    unfold selectionDeleted at hrev
    dsimp only at hrev
    split at hrev
    · cases hrev
    · exact h₂.selection rev hrev
  rintro - app₃ h₃ -
  exact refDelete_protects h₃ hne

end Refs

/-! ## Histories and reloading -/

section Reload

variable [DecidableEq κ] {env : Env κ ω} {inputs : Inputs κ} {k : Bytes} {t : Target} {head : Head}
  {app : App κ ω}

theorem loadRef_protects (h : Protected env k t head app) (ref : Ref) :
    Protects env k t head (loadRef env inputs ref) app fun _ app' => app'.repo = app.repo := by
  unfold loadRef
  refine .read_bind (Protects.bind (.update (Q := fun _ app' => app'.repo = app.repo) ?_ rfl) ?_)
  · exact h.congr rfl rfl rfl rfl rfl rfl
  · exact fun _ app₁ h₁ hrepo => .pure h₁ hrepo

theorem historyPush_protects (h : Protected env k t head app) (ref : Ref)
    (x : State.HistoryRefState κ) :
    Protects env k t head (historyPush env inputs ref x) app fun _ _ => True := by
  unfold historyPush setLoaded
  refine (loadRef_protects h ref).bind fun lref app₁ h₁ _ => ?_
  exact .update (h₁.congr rfl rfl rfl rfl rfl rfl) trivial

theorem snapshotInitialPush_protects (h : Protected env k t head app) (ref : Ref) :
    Protects env k t head (snapshotInitialPush env inputs ref) app fun _ _ => True := by
  unfold snapshotInitialPush setLoaded
  refine (loadRef_protects h ref).bind fun lref app₁ h₁ _ => ?_
  exact .update (h₁.congr rfl rfl rfl rfl rfl rfl) trivial

omit [DecidableEq κ] in
/-- A rev that is looked up again has the same full name. -/
theorem revReload_protects (h : Protected env k t head app) (c : Call) (rev : GitRev) :
    Protects env k t head (inRepo (revReload inputs.fault c rev)) app fun rev' app' =>
      app' = app ∧ rev'.ref.map Ref.fullName = rev.ref.map Ref.fullName := by
  apply inRepo_protects_of_reads h
  unfold revReload
  cases href : rev.ref with
  | none => exact .pure ⟨rfl, by rw [href]⟩
  | some ref =>
      refine .bind (call_ends ?_ fun _ _ => rfl)
      unfold refFullNameLookup
      refine .bind (.bind (.read ?_))
      cases hlookup : app.repo.lookup ref.fullName with
      | none => exact .fail rfl
      | some ref' => exact .pure (.pure ⟨rfl, congrArg some (fullName_of_lookup hlookup)⟩)

omit [DecidableEq κ] in
theorem reloadRevs_protects (todo : List Rev) :
    ∀ (done : List Rev) (app : App κ ω), Protected env k t head app → app.revs = done ++ todo →
      Protects env k t head (reloadRevs inputs done todo) app fun _ _ => True := by
  induction todo with
  | nil => exact fun done app h _ => .pure h trivial
  | cons rev todo ih =>
      intro done app h hrevs
      unfold reloadRevs
      refine (revReload_protects h _ _).bind ?_
      rintro x app₁ - ⟨happ, hname⟩
      rw [happ]
      have hrev : Guarded env.names k (rev.assign x) :=
        (h.revs rev (by rw [hrevs]; simp)).of_fullName rfl hname
      have h₂ : Protected env k t head { app with revs := done ++ rev.assign x :: todo } := by
        refine { h with revs := ?_ }
        intro r hr
        rcases List.mem_append.mp hr with hr | hr
        · exact h.revs r (by rw [hrevs]; exact List.mem_append_left _ hr)
        · rcases List.mem_cons.mp hr with rfl | hr
          · exact hrev
          · refine h.revs r ?_
            rw [hrevs]
            exact List.mem_append_right _ (List.mem_cons_of_mem _ hr)
      refine Protects.bind
        (.update (Q := fun _ app' => app' = { app with revs := done ++ rev.assign x :: todo })
          h₂ rfl) ?_
      rintro - app₃ h₃ happ₃
      refine ih _ app₃ h₃ ?_
      rw [happ₃]
      simp

/-- The columns that `_reload` makes show the revs. -/
theorem reloadColumns_protected (revs : List Rev) :
    ∀ (offX : Int) (count : Nat) (app : App κ ω), Protected env k t head app →
      (∀ rev ∈ revs, Guarded env.names k rev) →
      Protected env k t head (reloadColumns env inputs revs offX count app) := by
  have hload : ∀ (rev : Rev) (app : App κ ω), Protected env k t head app →
      Protected env k t head (app.loadRev env inputs rev) := by
    intro rev app h
    unfold loadRev
    split
    · exact h.congr rfl rfl rfl rfl rfl rfl
    · exact h
  have htake : ∀ (count : Nat) (app : App κ ω), Protected env k t head app →
      Protected env k t head { app with columns := app.columns.take count } :=
    fun count app h => { h with columns := fun col hcol => h.columns col (List.mem_of_mem_take hcol) }
  induction revs with
  | nil => exact fun offX count app h _ => htake count app h
  | cons rev revs ih =>
      intro offX count app h hall
      have h₁ := hload rev app h
      unfold reloadColumns
      dsimp only
      split
      · exact htake count _ h₁
      · refine ih _ _ _ { h₁ with columns := ?_ } fun r hr => hall r (List.mem_cons_of_mem _ hr)
        intro col hcol
        rcases List.mem_append.mp hcol with hcol | hcol
        · exact h₁.columns col (List.mem_of_mem_take hcol)
        · rcases List.mem_cons.mp hcol with rfl | hcol
          · exact hall rev List.mem_cons_self
          · exact h₁.columns col (List.mem_of_mem_drop hcol)

theorem reload_protects (h : Protected env k t head app) :
    Protects env k t head (reload env inputs) app fun _ _ => True := by
  unfold reload
  have hhead : Protects env k t head (reloadHead inputs) app fun _ _ => True := by
    unfold reloadHead
    refine .read_bind ?_
    cases hx : app.head with
    | none =>
        have htracked := h.tracked
        rw [hx] at htracked
        cases htracked
    | some x =>
        refine (revReload_protects h _ x).bind ?_
        rintro y app₁ h₁ ⟨happ, hname⟩
        refine .update { h₁ with tracked := ?_ } trivial
        have htracked := h.tracked
        rw [hx] at htracked
        exact hname.trans htracked
  refine hhead.bind fun _ app₁ h₁ _ => .read_bind ?_
  refine (reloadRevs_protects app₁.revs [] app₁ h₁ rfl).bind fun _ app₂ h₂ _ => ?_
  exact .update (reloadColumns_protected _ _ _ _ h₂ h₂.revs) trivial

end Reload

/-! ## Restoring states -/

section Restore

variable [DecidableEq κ] {env : Env κ ω} {inputs : Inputs κ} {k : Bytes} {t : Target} {head : Head}
  {app : App κ ω}

omit [DecidableEq κ] in
theorem refStateRestore_protects (h : Protected env k t head app) {ref : Ref}
    (href : Elsewhere env.names k ref) {refState : State.RefState κ}
    (hfound : ∀ n ∈ restoreTags env app.repo ref refState, ¬FoundAs env.names app.repo n k) :
    Protects env k t head (refStateRestore env inputs ref refState) app fun ref' _ =>
      Elsewhere env.names k ref' := by
  unfold refStateRestore
  refine Program.Ends.bind ((headLookup_ends refState.head).mono ?_ ?_)
  · rintro commit app₀ ⟨happ, hcommit⟩
    rw [happ]
    unfold restoreTags at hfound
    rw [hcommit] at hfound
    dsimp only at hfound
    -- the new name of a tag is not found as the protected ref
    have hname : ∀ (ref' : Ref) (app' : App κ ω), (ref'.isTag = true → ref.isTag = true) →
        Untouched k app.repo app'.repo → (ref.commit = commit → ref'.name = ref.name) →
        ref'.name ≠ refState.name → ref'.isTag = true →
        tagFree env.names app'.repo refState.name = true →
        ¬FoundAs env.names app'.repo refState.name k := by
      intro ref' app' htag huntouched hsame hne htag' hfree hfoundAs
      refine hfound refState.name ?_ (hfoundAs.of_grows huntouched h.exists)
      have hfree' := tagFree_of_grows huntouched hfree
      rw [if_pos (htag htag')]
      by_cases hnames : ref.name = refState.name
      · have hdiffers : ref.commit ≠ commit := fun heq => hne ((hsame heq).trans hnames)
        rw [if_neg hdiffers, hnames]
        exact List.mem_append_left _ List.mem_cons_self
      · rw [if_neg hnames]
        refine List.mem_append_right _ ?_
        simp [newTags, hfree']
    by_cases hdiffers : ref.commit ≠ commit
    · rw [if_pos hdiffers]
      refine (gitRefReplace_protects h href commit fun htag => ?_).bind ?_
      · refine hfound ref.name ?_
        rw [if_pos htag, if_neg hdiffers]
        exact List.mem_append_left _ List.mem_cons_self
      · rintro ref' app' h' ⟨helsewhere, huntouched, htag⟩
        dsimp only
        split
        · next hne =>
            exact gitRefRename_protects h' helsewhere _
              (hname ref' app' htag huntouched (fun heq => absurd heq hdiffers) hne)
        · exact .pure h' helsewhere
    · rw [if_neg hdiffers]
      refine Program.Ends.bind (.pure ?_)
      dsimp only
      split
      · next hne =>
          exact gitRefRename_protects h href _
            (hname ref app id (refl_of _ _) (fun _ => rfl) hne)
      · exact .pure ⟨h, href⟩
  · rintro e _ rfl
    exact h

omit [DecidableEq κ] in
/-- The rev of a mutable column. -/
theorem colRef_guarded (h : Protected env k t head app) {i : Nat} {ref : Ref}
    (hcol : app.colRef i = some ref) :
    ∃ rev, app.colRev i = some rev ∧ rev.ref = some ref ∧ Elsewhere env.names k ref := by
  obtain ⟨col, hmem, hrev, hrevRef, hmutable⟩ := rev_of_colRef hcol
  exact ⟨col.rev, hrev, hrevRef, (h.columns col hmem).elsewhere hmutable hrevRef⟩

theorem undoRedoBody_protects (h : Protected env k t head app) {rev : Rev} {ref : Ref}
    (href : Elsewhere env.names k ref) (undo : Bool) (refStatePrev refState : State.HistoryRefState κ)
    (hfound : ∀ n ∈ restoreTags env app.repo ref refState.refState,
      ¬FoundAs env.names app.repo n k) :
    Protects env k t head (undoRedoBody env inputs rev ref undo refStatePrev refState) app
      fun _ _ => True := by
  unfold undoRedoBody
  refine (refStateRestore_protects h href hfound).bind fun ref' app₁ h₁ helsewhere => ?_
  refine Program.Ends.bind ((selectionLookup_ends _).mono ?_ ?_)
  · intro selection _ happ
    rw [happ]
    refine Protects.bind (.update (Q := fun _ _ => True) ?_ trivial) ?_
    · refine { h₁ with selection := ?_ }
      rintro _ ⟨⟩
      apply Guarded.of_elsewhere
      rintro _ ⟨⟩
      exact helsewhere
    rintro - app₂ h₂ -
    refine (loadRef_protects h₂ ref').bind fun lref app₃ h₃ _ => ?_
    dsimp only
    split
    · exact .fail h₃
    · refine Protects.bind (.update (Q := fun _ _ => True) (h₃.congr rfl rfl rfl rfl rfl rfl)
        trivial) fun _ app₄ h₄ _ => ?_
      exact snapshotInitialPush_protects h₄ ref'
  · rintro e _ ⟨happ, -⟩
    rw [happ]
    exact h₁

theorem undoRedo_protects (h : Protected env k t head app) {rev : Rev} {ref : Ref} {undo : Bool}
    (hrev : rev.ref = some ref) (href : Elsewhere env.names k ref)
    (hfound : ∀ x, turnPeek undo (app.loaded env inputs ref).history = some x →
      ∀ n ∈ restoreTags env app.repo ref x.refState, ¬FoundAs env.names app.repo n k) :
    Protects env k t head (undoRedo env inputs rev undo) app fun _ _ => True := by
  unfold undoRedo
  rw [hrev]
  dsimp only
  unfold loadRef
  refine Program.Ends.bind (.bind (.read (.bind (.update (.pure ?_)))))
  have h₁ : Protected env k t head (app.load env inputs ref) := h.congr rfl rfl rfl rfl rfl rfl
  cases hpeek : turnPeek undo (app.loaded env inputs ref).history with
  | none =>
      unfold turnPeek at hpeek
      rw [hpeek]
      exact Program.Ends.bind (.fail h₁)
  | some x =>
      have hbody : Protects env k t head (undoRedoBody env inputs rev ref undo
          (app.loaded env inputs ref).history.current x) (app.load env inputs ref)
          fun _ _ => True :=
        undoRedoBody_protects h₁ href undo _ x (hfound x hpeek)
      unfold turnPeek at hpeek
      rw [hpeek]
      dsimp only
      refine Program.Ends.bind (.handle (Program.Ends.mono hbody ?_ ?_))
      · rintro - app₂ ⟨h₂, -⟩
        exact reload_protects h₂
      · intro e app₂ h₂
        split
        · exact .fail h₂
        · split
          · exact .fail h₂
          · exact .fail h₂

theorem snapshotRestore_protects (h : Protected env k t head app) {ref : Ref}
    (href : Elsewhere env.names k ref) {choice : Option Nat}
    (hfound : ∀ snapshot, snapshotChosen (app.loaded env inputs ref) choice = some snapshot →
      snapshot.refState ≠ (app.loaded env inputs ref).history.current.refState →
      ∀ n ∈ restoreTags env app.repo ref snapshot.refState, ¬FoundAs env.names app.repo n k) :
    Protects env k t head (snapshotRestore env inputs ref choice) app fun _ _ => True := by
  unfold snapshotRestore loadRef
  refine Program.Ends.bind (.bind (.read (.bind (.update (.pure ?_)))))
  have h₁ : Protected env k t head (app.load env inputs ref) := h.congr rfl rfl rfl rfl rfl rfl
  cases hchosen : snapshotChosen (app.loaded env inputs ref) choice with
  | none => exact .pure ⟨h₁, trivial⟩
  | some snapshot =>
      dsimp only
      split
      · exact .pure ⟨h₁, trivial⟩
      · next hdiffers =>
          refine (refStateRestore_protects h₁ href (hfound snapshot hchosen hdiffers)).bind ?_
          intro ref' app₂ h₂ _
          refine (historyPush_protects h₂ ref' _).bind fun _ app₃ h₃ _ => ?_
          refine (snapshotInitialPush_protects h₃ ref').bind fun _ app₄ h₄ _ => ?_
          refine Protects.bind (.update (Q := fun _ _ => True) ?_ trivial) fun _ app₅ h₅ _ =>
            reload_protects h₅
          refine { h₄ with selection := ?_ }
          rintro _ ⟨⟩

theorem refRename_protects (h : Protected env k t head app) {ref : Ref}
    (href : Elsewhere env.names k ref) (name : Bytes)
    (hfound : ref.isTag = true → tagFree env.names app.repo name = true →
      ¬FoundAs env.names app.repo name k) :
    Protects env k t head (refRename env inputs ref name) app fun _ _ => True := by
  unfold refRename
  refine (gitRefRename_protects h href name hfound).bind fun ref' app₁ h₁ _ => ?_
  refine (historyPush_protects h₁ ref' _).bind fun _ app₂ h₂ _ => ?_
  refine (snapshotInitialPush_protects h₂ ref').bind fun _ app₃ h₃ _ => ?_
  exact reload_protects h₃

theorem refRemove_protects (h : Protected env k t head app) {ref : Ref}
    (hne : ref.fullName ≠ k) :
    Protects env k t head (refRemove env inputs ref) app fun _ _ => True := by
  unfold refRemove
  exact (gitRefDelete_protects h hne).bind fun _ app₁ h₁ _ => reload_protects h₁

end Restore

/-! ## Creating refs -/

section Create

variable [DecidableEq κ] {env : Env κ ω} {inputs : Inputs κ} {k : Bytes} {t : Target} {head : Head}
  {app : App κ ω}

omit [DecidableEq κ] in
/-- Names are tried one after the other, in repositories with more and more refs. -/
theorem createFirst_leavesAlone {names : RefNames} {tag : Prop}
    {create : Bytes → Program Repository Exn Ref} (l : List Bytes) {repo : Repository}
    (hcreate : ∀ n ∈ l, ∀ repo', Untouched k repo repo' → LeavesAlone names k tag repo' (create n)) :
    LeavesAlone names k tag repo (createFirst create l) := by
  induction l generalizing repo with
  | nil => exact Program.Ends.fail (refl_of (Untouched k) repo)
  | cons n l ih =>
      unfold createFirst
      refine Program.Ends.handle ((hcreate n List.mem_cons_self repo (refl_of _ _)).mono
        (fun _ _ h => h) fun e repo₁ huntouched => ?_)
      split
      · have hrest : LeavesAlone names k tag repo₁ (createFirst create l) :=
          ih fun n' hn' repo' h' =>
            hcreate n' (List.mem_cons_of_mem _ hn') repo' (trans_of (Untouched k) huntouched h')
        refine hrest.mono ?_ fun e' repo₂ h' => trans_of (Untouched k) huntouched h'
        rintro ref repo₂ ⟨h', hresult⟩
        exact ⟨trans_of (Untouched k) huntouched h', hresult⟩
      · exact .fail huntouched

omit [DecidableEq κ] in
/-- A copy of a tag gets the first free name. -/
theorem copyFirst_leavesAlone {names : RefNames} {fault : Fault} {ref : Ref}
    (htag : ref.isTag = true) (commit : Commit) (l : List Bytes) {repo : Repository}
    (hhead : ∀ b, repo.head = .attached b → names.normalize b = some b)
    (hk : (repo.refs k).isSome)
    (hfound : ∀ n ∈ newTags names repo (triedTags names fault repo l), ¬FoundAs names repo n k) :
    LeavesAlone names k (ref.isTag = true) repo
      (createFirst (fun n => refCopy names fault ref n (some commit)) l) := by
  have hcopy : ∀ n, (tagFree names repo n = true → ¬FoundAs names repo n k) →
      ∀ repo', Untouched k repo repo' →
        LeavesAlone names k (ref.isTag = true) repo' (refCopy names fault ref n (some commit)) := by
    intro n hn repo' huntouched
    refine refCopy_leavesAlone ?_ ?_ (some commit) fun _ hfree hfoundAs => ?_
    · rw [huntouched.head]
      exact hhead
    · rw [huntouched.ref]
      exact hk
    · exact hn (tagFree_of_grows huntouched hfree) (hfoundAs.of_grows huntouched hk)
  by_cases hfault : ∃ c, fault = some (c, .exists)
  · -- a call that wrongly says that the tag exists sends the loop on to every name
    obtain ⟨c, rfl⟩ := hfault
    apply createFirst_leavesAlone
    intro n hn
    exact hcopy n fun hfree => hfound n (List.mem_filter.mpr ⟨hn, hfree⟩)
  · have htried : ∀ l, triedTags names fault repo l =
        l.take (l.findIdx (tagFree names repo) + 1) := by
      intro l
      unfold triedTags
      split
      · next c => exact absurd ⟨c, rfl⟩ hfault
      · rfl
    induction l with
    | nil => exact Program.Ends.fail (refl_of (Untouched k) repo)
    | cons n l ih =>
        have herrors : Program.Ends (refCopy names fault ref n (some commit)) repo
            (fun _ _ => tagFree names repo n = true)
            fun e repo' => (tagFree names repo n = false → repo' = repo) ∧
              (tagFree names repo n = true → e ≠ .gitError .exists) :=
          tagCopy_errors htag commit fun c hc => hfault ⟨c, hc⟩
        unfold createFirst
        by_cases hfree : tagFree names repo n = true
        · -- the first free name: the copy is made, or the loop ends with another error
          have hn : LeavesAlone names k (ref.isTag = true) repo
              (refCopy names fault ref n (some commit)) := by
            refine hcopy n (fun _ => hfound n ?_) repo (refl_of _ _)
            rw [htried, List.findIdx_cons, hfree]
            simp [newTags, hfree]
          refine Program.Ends.handle ((hn.and herrors).mono (fun _ _ h => h.1) ?_)
          rintro e repo₁ ⟨huntouched, -, hne⟩
          rw [if_neg (hne hfree)]
          exact .fail huntouched
        · -- the name is taken: nothing changes, and the loop goes on
          have htaken : tagFree names repo n = false := by simpa using hfree
          refine Program.Ends.handle (herrors.mono (fun _ _ h => absurd h hfree) ?_)
          rintro e repo₁ ⟨hsame, -⟩
          rw [hsame htaken]
          split
          · refine ih fun n' hn' => hfound n' ?_
            rw [htried] at hn' ⊢
            rw [List.findIdx_cons, htaken]
            simpa [newTags, htaken] using hn'
          · exact .fail (refl_of _ _)

omit [DecidableEq κ] in
theorem branchNameLocal_protects (h : Protected env k t head app) (branch : Ref) :
    Protects env k t head (inRepo (branchNameLocal env.names inputs.fault branch)) app
      fun _ app' => app' = app ∧ True := by
  apply inRepo_protects_of_reads h
  exact (branchNameLocal_ends branch).mono (fun _ _ hrepo => ⟨hrepo, trivial⟩) fun _ _ hrepo => hrepo

/-- The end of `_revCreate`: the new ref gets a column of its own. -/
theorem revCreate_end_protects (h : Protected env k t head app) {tag : Prop}
    {x : Program Repository Exn Ref} (hx : LeavesAlone env.names k tag app.repo x) (template : Rev)
    (commit : Commit) :
    Protects env k t head (revCreateEnd env inputs x template commit) app fun _ _ => True := by
  unfold revCreateEnd
  refine (inRepo_protects h hx).bind ?_
  rintro ref app₁ h₁ ⟨helsewhere, -, -⟩
  refine (reflogRememberRef_protects h₁ ref).bind ?_
  rintro - app₂ h₂ -
  have hrev : Guarded env.names k ⟨.ofRef ref, 0, .allowed⟩ := by
    apply Guarded.of_elsewhere
    rintro _ ⟨⟩
    exact helsewhere
  refine .read_bind ?_
  split
  · exact .fail h₂
  · refine Protects.bind (.update (Q := fun _ _ => True) ?_ trivial) fun _ app₃ h₃ _ =>
      reload_protects h₃
    refine { h₂ with revs := ?_, selection := ?_ }
    · intro r hr
      rcases List.eq_or_mem_of_mem_insertIdx hr with rfl | hr
      · exact hrev
      · exact h₂.revs r hr
    · rintro _ ⟨⟩
      exact hrev

theorem revCreate_protects (h : Protected env k t head app) (branch : Bool) (template : Rev)
    (commit : Commit)
    (hfound : ∀ ref, branch = false → template.ref = some ref → ref.isTag = true →
      ∀ n ∈ newTags env.names app.repo
        (triedTags env.names inputs.fault app.repo (candidates ref.name true)),
        ¬FoundAs env.names app.repo n k) :
    Protects env k t head (revCreate env inputs branch template commit) app fun _ _ => True := by
  have hbranch : ∀ l, LeavesAlone env.names k True app.repo (createFirst
      (fun fullName => branchCreate env.names inputs.fault fullName commit false) l) := by
    intro l
    apply createFirst_leavesAlone
    intro n _ repo' huntouched
    refine branchCreate_leavesAlone ?_ commit (fun hno => by cases hno) True
    rw [huntouched.ref]
    exact h.exists
  -- a copy of a branch is a branch, and one of a tag gets the first free name
  have hcopy : ∀ ref l, (ref.isTag = true → ∀ n ∈ newTags env.names app.repo
      (triedTags env.names inputs.fault app.repo l), ¬FoundAs env.names app.repo n k) →
      LeavesAlone env.names k (ref.isTag = true) app.repo (createFirst
        (fun fullName => refCopy env.names inputs.fault ref fullName (some commit)) l) := by
    intro ref l hl
    by_cases htag : ref.isTag = true
    · exact copyFirst_leavesAlone htag commit l h.normal h.exists (hl htag)
    · apply createFirst_leavesAlone
      intro n _ repo' huntouched
      refine refCopy_leavesAlone ?_ ?_ _ fun htag' => absurd htag' htag
      · rw [huntouched.head]
        exact h.normal
      · rw [huntouched.ref]
        exact h.exists
  refine revCreate_ends h (fun ref => ?_) fun x hx => ?_
  · refine Program.Ends.mono (branchNameLocal_protects h ref) ?_ fun _ _ h' => h'
    rintro name app₁ ⟨-, happ, -⟩
    exact happ
  · cases hx with
    | branch l => exact revCreate_end_protects h (hbranch l) template commit
    | @copy ref name hb href hname =>
        refine revCreate_end_protects h (hcopy ref _ fun htag => ?_) template commit
        rw [hname (Ref.isBranch_of_isTag htag)]
        exact hfound ref hb href htag

end Create

/-! ## Commit operations -/

section Operations

open Modify

variable [DecidableEq κ] {env : Env κ ω} {inputs : Inputs κ} {k : Bytes} {t : Target} {head : Head}
  {app : App κ ω} {op : Op}

omit [DecidableEq κ] in
theorem revReplace_protects (h : Protected env k t head app) {rev : Rev} {ref : Ref}
    (href : Elsewhere env.names k ref)
    (hfound : ref.isTag = true → ¬FoundAs env.names app.repo ref.name k) (commit : Option Commit) :
    Protects env k t head (revReplace (gitCtx env inputs) rev ref commit) app fun rev' app' =>
      Guarded env.names k rev' ∧ Untouched k app.repo app'.repo := by
  unfold revReplace
  cases commit with
  | none => exact .fail h
  | some commit =>
      refine Protects.bind (gitRefReplace_protects h href commit hfound) ?_
      rintro ref' app₁ h₁ ⟨helsewhere, huntouched, -⟩
      refine Program.Ends.bind (call_ends (.pure ⟨h₁, ?_, huntouched⟩) fun _ _ => h₁)
      apply Guarded.of_elsewhere
      rintro _ ⟨⟩
      exact helsewhere

/-- The revs of a result. -/
def GuardedResult (names : RefNames) (k : Bytes) (result : Option OpResult) : Prop :=
  ∀ r, result = some r → (∀ rev, r.src.rev = some rev → Guarded names k rev) ∧
    ∀ rev, r.dst.rev = some rev → Guarded names k rev

omit [DecidableEq κ] in
theorem replacing_protects (h : Protected env k t head app)
    (hsrc : ∀ rev, op.src.rev = some rev → Guarded env.names k rev)
    (htargets : ∀ ref ∈ op.targets, Elsewhere env.names k ref ∧
      (ref.isTag = true → ¬FoundAs env.names app.repo ref.name k))
    {x : Program (App κ ω) Exn (Option OpResult)} (hx : Replacing (gitCtx env inputs) op x) :
    Protects env k t head x app fun result _ => GuardedResult env.names k result := by
  cases hx with
  | src commit hrev href htarget hres hresDst hopDst =>
      obtain ⟨helsewhere, hfound⟩ := htargets _ (by rw [htarget]; exact List.mem_cons_self)
      refine (revReplace_protects h helsewhere hfound commit).bind ?_
      rintro r app₁ h₁ ⟨hguarded, -⟩
      refine .pure h₁ ?_
      rintro _ ⟨⟩
      refine ⟨fun rev hrev => ?_, fun rev hrev => ?_⟩
      · rw [hres] at hrev
        cases hrev
        exact hguarded
      · rw [hresDst] at hrev
        cases hrev
  | dst commit hopSrc hrev href htarget hres hresDst =>
      obtain ⟨helsewhere, hfound⟩ := htargets _ (by rw [htarget]; exact List.mem_cons_self)
      refine (revReplace_protects h helsewhere hfound commit).bind ?_
      rintro r app₁ h₁ ⟨hguarded, -⟩
      refine .pure h₁ ?_
      rintro _ ⟨⟩
      refine ⟨fun rev hrev => ?_, fun rev hrev => ?_⟩
      · rw [hres] at hrev
        cases hrev
        exact hsrc _ hopSrc
      · rw [hresDst] at hrev
        cases hrev
        exact hguarded
  | both srcCommit dstCommit hopSrc hopDst hsrcRef hdstRef hne htarget hres hresDst =>
      obtain ⟨helsewhere, hfound⟩ := htargets _ (by rw [htarget]; exact List.mem_cons_self)
      obtain ⟨helsewhere', hfound'⟩ := htargets _
        (by rw [htarget]; exact List.mem_cons_of_mem _ List.mem_cons_self)
      refine (revReplace_protects h helsewhere hfound _).bind ?_
      rintro r app₁ h₁ ⟨hguarded, huntouched⟩
      -- the first replacement takes no name away, so the second finds its tag as before
      refine (revReplace_protects h₁ helsewhere' (fun htag hfoundAs =>
        hfound' htag (hfoundAs.of_grows huntouched h.exists)) _).bind ?_
      rintro r' app₂ h₂ ⟨hguarded', -⟩
      refine .pure h₂ ?_
      rintro _ ⟨⟩
      refine ⟨fun rev hrev => ?_, fun rev hrev => ?_⟩
      · rw [hres] at hrev
        cases hrev
        exact hguarded
      · rw [hresDst] at hrev
        cases hrev
        exact hguarded'

omit [DecidableEq κ] in
theorem exec_protects (h : Protected env k t head app)
    (hsrc : ∀ rev, op.src.rev = some rev → Guarded env.names k rev)
    (htargets : ∀ ref ∈ op.targets, Elsewhere env.names k ref ∧
      (ref.isTag = true → ¬FoundAs env.names app.repo ref.name k)) :
    Protects env k t head (exec (gitCtx env inputs) op) app fun result _ =>
      GuardedResult env.names k result := by
  have hout : ∀ app', OnlyOutside app app' → Protected env k t head app' := by
    intro app' happ
    rw [happ]
    exact h.congr rfl rfl rfl rfl rfl rfl
  have hdispatch : Protects env k t head (dispatch (gitCtx env inputs) op) app fun result _ =>
      GuardedResult env.names k result := by
    rcases prepares_dispatch gitCtx_quiet op app with ⟨happ, hno⟩ | ⟨app₁, x, hx, happ, hrun⟩
    · unfold Protects Program.Ends
      rcases hrun : dispatch (gitCtx env inputs) op app with ⟨e | result, app'⟩
      · rw [hrun] at happ
        exact hout app' happ
      · rw [hrun] at happ hno
        refine ⟨hout app' happ, ?_⟩
        rintro r rfl
        cases hno
    · have h₁ := hout app₁ happ
      rw [happ] at h₁
      have hx' : Protects env k t head x app₁ fun result _ =>
          GuardedResult env.names k result := by
        refine replacing_protects (hout app₁ happ) hsrc ?_ hx
        rw [happ]
        exact htargets
      unfold Protects Program.Ends at hx' ⊢
      rwa [hrun]
  unfold exec
  refine Program.Ends.handle (Program.Ends.mono hdispatch (fun _ _ hok => hok) ?_)
  intro e app' h'
  split
  · exact .pure ⟨h', nofun⟩
  · exact .fail h'

theorem opPush_protects (h : Protected env k t head app) (revPrev : Option Rev) (res : Res) :
    Protects env k t head (opPush env inputs revPrev res) app fun _ _ => True := by
  unfold opPush
  split
  · exact .pure h trivial
  · next ref _ =>
      refine (loadRef_protects h ref).bind fun _ app₁ h₁ _ => ?_
      split
      · exact .pure h₁ trivial
      · exact (historyPush_protects h₁ ref _).bind fun _ app₂ h₂ _ =>
          snapshotInitialPush_protects h₂ ref

theorem gitOpExec_protects (h : Protected env k t head app)
    (hsrc : ∀ rev, op.src.rev = some rev → Guarded env.names k rev)
    (htargets : ∀ ref ∈ op.targets, Elsewhere env.names k ref ∧
      (ref.isTag = true → ¬FoundAs env.names app.repo ref.name k)) :
    Protects env k t head (gitOpExec env inputs op) app fun _ _ => True := by
  unfold gitOpExec
  refine (exec_protects h hsrc htargets).bind fun result app₁ h₁ hresult => ?_
  cases result with
  | none => exact .pure h₁ trivial
  | some r =>
      obtain ⟨hguarded, hguarded'⟩ := hresult r rfl
      dsimp only
      split
      · exact .fail h₁
      · refine (opPush_protects h₁ _ _).bind fun _ app₂ h₂ _ => ?_
        refine (opPush_protects h₂ _ _).bind fun _ app₃ h₃ _ => ?_
        refine Protects.bind (.update (Q := fun _ _ => True) ?_ trivial) fun _ app₄ h₄ _ =>
          reload_protects h₄
        refine { h₃ with selection := ?_ }
        intro rev hrev
        dsimp only at hrev
        split at hrev
        · exact hguarded' rev hrev
        · exact hguarded rev hrev

end Operations

/-! ## Every action -/

section Perform

open Modify

variable [DecidableEq κ] {env : Env κ ω} {inputs : Inputs κ} {k : Bytes} {t : Target} {head : Head}
  {app : App κ ω}

omit [DecidableEq κ] in
theorem colRev_guarded (h : Protected env k t head app) {i : Nat} {rev : Rev}
    (hcol : app.colRev i = some rev) : Guarded env.names k rev := by
  obtain ⟨col, hget, rfl⟩ := Option.map_eq_some_iff.mp hcol
  exact h.columns col (List.mem_of_getElem? hget)

omit [DecidableEq κ] in
theorem selection_elsewhere (h : Protected env k t head app) {rev : Rev} {ref : Ref}
    (hmutable : app.selectionIsMutable = true) (hrev : app.selection.rev = some rev)
    (href : rev.ref = some ref) : Elsewhere env.names k ref :=
  (h.selection rev hrev).elsewhere (rev_of_selectionIsMutable hmutable hrev) href

/-- An action that restores a state writes the tags of that state. -/
theorem tagsWritten_restored {action : Action} {ref : Ref} {refState : State.RefState κ}
    (h : app.restoredOf env inputs action = some (ref, refState)) :
    app.tagsWritten env inputs action = restoreTags env app.repo ref refState := by
  cases action with
  | undo i => simp [tagsWritten, opOf, h]
  | redo i => simp [tagsWritten, opOf, h]
  | restore i choice => simp [tagsWritten, opOf, h]
  | _ => cases h

/-- An operation on the selection, where its refs are mutable. -/
theorem opOf_protects (h : Protected env k t head app) {action : Action} {op : Op}
    (hsrc : op.src.rev = app.selection.rev)
    (htargets : ∀ ref ∈ op.targets, Elsewhere env.names k ref)
    (htags : app.tagsWritten env inputs action = (op.targets.filter Ref.isTag).map Ref.name)
    (hfound : ∀ n ∈ app.tagsWritten env inputs action, ¬FoundAs env.names app.repo n k) :
    Protects env k t head (gitOpExec env inputs op) app fun _ _ => True := by
  refine gitOpExec_protects h ?_ fun ref href => ⟨htargets ref href, fun htag => ?_⟩
  · rw [hsrc]
    exact h.selection
  · apply hfound
    rw [htags]
    exact List.mem_map_of_mem (List.mem_filter.mpr ⟨href, htag⟩)

/-- An operation that rewrites the selected rev alone. -/
theorem selectionOp_protects (h : Protected env k t head app) {action : Action} (type : OpType)
    (hmutable : app.selectionIsMutable = true)
    (htags : app.tagsWritten env inputs action =
      ((app.selectionOp type).targets.filter Ref.isTag).map Ref.name)
    (hfound : ∀ n ∈ app.tagsWritten env inputs action, ¬FoundAs env.names app.repo n k) :
    Protects env k t head (gitOpExec env inputs (app.selectionOp type)) app fun _ _ => True := by
  refine opOf_protects h rfl (fun ref href => ?_) htags hfound
  obtain ⟨src, hsrc, hsrcRef⟩ := targets_selectionOp href
  exact selection_elsewhere h hmutable hsrc hsrcRef

/-- An action that is offered, where the tags it writes are not found as the ref. -/
theorem perform_protects (h : Protected env k t head app) {action : Action}
    (hoffers : app.offers action = true)
    (hfound : ∀ n ∈ app.tagsWritten env inputs action, ¬FoundAs env.names app.repo n k) :
    Protects env k t head (perform env inputs action) app fun _ _ => True := by
  unfold perform
  refine .read_bind ?_
  cases action with
  | resize size =>
      refine Protects.bind (.update (Q := fun _ _ => True) ?_ trivial) fun _ app₁ h₁ _ =>
        reload_protects h₁
      exact h.congr rfl rfl rfl rfl rfl rfl
  | select i commits shift =>
      refine Protects.update ?_ trivial
      refine { h with selection := ?_ }
      intro rev hrev
      unfold selectionSelected at hrev
      dsimp only at hrev
      split at hrev
      · exact h.selection rev hrev
      · exact colRev_guarded h hrev
  | deselect =>
      refine Protects.update ?_ trivial
      exact { h with selection := nofun }
  | drop i position copy =>
      refine opOf_protects h rfl (fun ref href => ?_) rfl hfound
      rcases targets_drop hoffers rfl href with ⟨hmutable, src, hsrc, hsrcRef⟩ | hcol
      · exact selection_elsewhere h hmutable hsrc hsrcRef
      · obtain ⟨-, -, -, helsewhere⟩ := colRef_guarded h hcol
        exact helsewhere
  | deleteCommits =>
      exact selectionOp_protects h .delete (Bool.and_eq_true_iff.mp hoffers).2 rfl hfound
  | combine =>
      simp only [offers, Bool.and_eq_true] at hoffers
      exact selectionOp_protects h .combine hoffers.1.1 rfl hfound
  | edit =>
      exact selectionOp_protects h .edit (Bool.and_eq_true_iff.mp hoffers).1 rfl hfound
  | undo i =>
      obtain ⟨ref, hcol⟩ := colRef_of_canUndoRedo hoffers
      obtain ⟨rev, hrev, hrevRef, helsewhere⟩ := colRef_guarded h hcol
      simp only [hrev, withRev]
      refine undoRedo_protects h hrevRef helsewhere fun x hx => ?_
      rw [← tagsWritten_restored (restoredOf_undo hcol hx)]
      exact hfound
  | redo i =>
      obtain ⟨ref, hcol⟩ := colRef_of_canUndoRedo hoffers
      obtain ⟨rev, hrev, hrevRef, helsewhere⟩ := colRef_guarded h hcol
      simp only [hrev, withRev]
      refine undoRedo_protects h hrevRef helsewhere fun x hx => ?_
      rw [← tagsWritten_restored (restoredOf_redo hcol hx)]
      exact hfound
  | restore i choice =>
      obtain ⟨ref, hcol⟩ := Option.isSome_iff_exists.mp hoffers
      obtain ⟨rev, hrev, hrevRef, helsewhere⟩ := colRef_guarded h hcol
      simp only [hcol, withRev]
      refine snapshotRestore_protects h helsewhere fun snapshot hchosen hdiffers => ?_
      rw [← tagsWritten_restored (restoredOf_restore hcol hchosen hdiffers)]
      exact hfound
  | rename i name =>
      obtain ⟨ref, hcol⟩ := colRef_of_rename hoffers
      obtain ⟨rev, hrev, hrevRef, helsewhere⟩ := colRef_guarded h hcol
      simp only [hcol, withRev]
      refine refRename_protects h helsewhere name fun htag hfree => hfound name ?_
      simp [tagsWritten, hcol, htag, newTags, hfree]
  | remove i =>
      obtain ⟨ref, hcol⟩ := Option.isSome_iff_exists.mp hoffers
      obtain ⟨rev, hrev, hrevRef, helsewhere⟩ := colRef_guarded h hcol
      simp only [hcol, withRev]
      exact refRemove_protects h helsewhere.ne
  | duplicate i =>
      obtain ⟨rev, hrev⟩ := Option.isSome_iff_exists.mp hoffers
      simp only [hrev, withRev]
      refine revCreate_protects h false rev rev.commit fun ref _ href htag n hn => hfound n ?_
      simpa [tagsWritten, hrev, href, htag] using hn
  | branch col =>
      dsimp only
      unfold withRev
      split
      · exact .fail h
      · split
        · exact .fail h
        · exact revCreate_protects h true _ _ fun _ hno => by cases hno

end Perform

/-! ## Every session -/

section Sessions

variable [DecidableEq κ] {env : Env κ ω}

/-- What a session is started with comes from lookups. -/
structure Opened (env : Env κ ω) (repo : Repository) (revs : List Rev)
    (reflogRev : Option GitRev) : Prop where
  headNormal : ∀ b, repo.head = .attached b → env.names.normalize b = some b
  revNormal : ∀ rev ∈ revs, ∀ ref, rev.ref = some ref →
    env.names.normalize ref.fullName = some ref.fullName
  reflog : ∀ rev ref, reflogRev = some rev → rev.ref = some ref →
    repo.refs ref.fullName = some ref.target

/-- The ref that is checked out at the start of a session. -/
def checkedOut (app : App κ ω) : Option Ref := app.head.bind GitRev.ref

/-- A session that starts with uncommitted changes protects the ref that is checked
out. -/
theorem start_protected {inputs : Inputs κ} {repo : Repository} {revs : List Rev}
    {refStates : State.RefStates κ} {lookup : κ → Option Commit} {reflogRev : Option GitRev}
    {size : Ui.Size} {outside : ω} {app : App κ ω} {ref : Ref}
    (hopened : Opened env repo revs reflogRev)
    (hstart : start env inputs repo revs refStates lookup reflogRev true size outside = some app)
    (hhead : app.checkedOut = some ref) :
    ∃ t, Protected env ref.fullName t repo.head app := by
  unfold start at hstart
  obtain ⟨head, hresolved, rfl⟩ := Option.map_eq_some_iff.mp hstart
  have href : head.ref = some ref := hhead
  have hexists : ∃ t, repo.refs ref.fullName = some t := by
    rcases Repository.ref_headResolved hresolved href with ⟨t, ht, -⟩ | ⟨hreflog, -⟩
    · exact ⟨t, ht⟩
    · exact ⟨_, hopened.reflog _ ref hreflog href⟩
  obtain ⟨t, ht⟩ := hexists
  exact ⟨t,
    { ref := ht
      repoHead := rfl
      headNormal := hopened.headNormal
      attached := rfl
      tracked := by
        show (head.ref.map Ref.fullName) = _
        rw [href, Option.map_some]
      revs := by
        intro rev hrev
        obtain ⟨rev₀, hrev₀, rfl⟩ := List.mem_map.mp hrev
        intro ref' href'
        have hsame : (sessionRev true head rev₀).ref = rev₀.ref := by
          unfold sessionRev
          split
          · rfl
          · rfl
        rw [hsame] at href'
        refine ⟨hopened.revNormal rev₀ hrev₀ ref' href', fun hallowed hfull => ?_⟩
        -- the rev has the ref, so it was marked
        unfold sessionRev at hallowed
        have hmarked : (true && rev₀.ref.isSome && Ref.same rev₀.ref head.ref) = true := by
          simp [Ref.same, href', href, hfull]
        rw [if_pos hmarked] at hallowed
        cases hallowed
      columns := nofun
      selection := nofun }⟩

/-- What every action is to leave alone: the ref `k` is not replaced, renamed or deleted,
`HEAD` is not detached, and nothing is checked out at exit. -/
structure LeftAlone (k : Bytes) (repo : Repository) (app : App κ ω) : Prop where
  ref : app.repo.refs k = repo.refs k
  head : app.repo.head = repo.head
  exit : app.reattached = none

/-- No tag that the action writes is found by its short name as the ref `k`. -/
def Unshadowed (env : Env κ ω) (k : Bytes) (app : App κ ω) (l : Action × Inputs κ) : Prop :=
  ∀ n ∈ app.tagsWritten env l.2 l.1, ¬FoundAs env.names app.repo n k

/-- In every session that starts with uncommitted changes, the ref that is checked out is
left alone, as long as no tag is written that is found as this ref. -/
theorem run_leavesAlone {inputs : Inputs κ} {repo : Repository} {revs : List Rev}
    {refStates : State.RefStates κ} {lookup : κ → Option Commit} {reflogRev : Option GitRev}
    {size : Ui.Size} {outside : ω} {app app' : App κ ω} {ref : Ref}
    {ls : List (Action × Inputs κ)} (hopened : Opened env repo revs reflogRev)
    (hstart : start env inputs repo revs refStates lookup reflogRev true size outside = some app)
    (hhead : app.checkedOut = some ref) (hrun : run (step env) app ls = some app')
    (hmeet : StepsMeet (step env) (Unshadowed env ref.fullName) app ls) :
    LeftAlone ref.fullName repo app' := by
  obtain ⟨t, hprotected⟩ := start_protected hopened hstart hhead
  have hinv : Protected env ref.fullName t repo.head app' := by
    refine Run.invariant ?_ hrun hmeet hprotected
    intro app₁ l app₂ h₁ hok hstep
    refine step_of_ends hstep fun hoffers => ?_
    exact Program.Ends.mono (perform_protects h₁ hoffers hok) (fun _ _ h => h.1) fun _ _ h => h
  have hrepo : app.repo = repo := by
    unfold start at hstart
    obtain ⟨head, -, rfl⟩ := Option.map_eq_some_iff.mp hstart
    rfl
  refine ⟨?_, hinv.repoHead, ?_⟩
  · rw [hinv.ref, ← hrepo, hprotected.ref]
  · unfold reattached
    rw [hinv.attached]
    rfl

/-- A branch needs no condition. -/
theorem unshadowed_of_not_isTag {ref : Ref} (h : ref.isTag = false) (app : App κ ω)
    (l : Action × Inputs κ) : Unshadowed env ref.fullName app l := by
  rintro n - ⟨m, t, found, -, -, -, htag, hfull⟩
  rw [Ref.isTag_congr hfull, h] at htag
  cases htag

end Sessions

/-! ## Two sessions with uncommitted changes -/

namespace Dirty

open HalfMove

/-- The branch that is checked out. -/
def branch : Ref := ⟨ascii "refs/heads/main", top, none⟩

def branchRepo : Repository where
  refs name := if name = branch.fullName then some branch.target else none
  head := .attached branch.fullName
  upstreams _ := none

def branchApp : App (Option Commit) Unit :=
  (start plainEnv noFault branchRepo [rev branch] (fun _ => none) (fun _ => none) none true
    ⟨100, 10⟩ ()).getD (plainApp branchRepo none [])

/-- Show the branch, duplicate it, rename the duplicate and delete it. -/
def duplicates : List (Action × Inputs (Option Commit)) :=
  [(.resize ⟨100, 10⟩, noFault), (.duplicate 0, noFault), (.rename 1 (ascii "other"), noFault),
    (.remove 1, noFault)]

theorem branch_opened : Opened plainEnv branchRepo [rev branch] none where
  headNormal b hb := by
    cases hb
    decide
  revNormal r hr ref href := by
    obtain rfl := List.mem_singleton.mp hr
    cases href
    decide
  reflog _ _ hno := by cases hno

/-- The branch is as it was. -/
theorem run_duplicates : ∃ app, run (step plainEnv) branchApp duplicates = some app ∧
    LeftAlone branch.fullName branchRepo app := by
  have hruns : (run (step plainEnv) branchApp duplicates).isSome = true := by decide +kernel
  obtain ⟨app, hrun⟩ := Option.isSome_iff_exists.mp hruns
  exact ⟨app, hrun, run_leavesAlone branch_opened rfl rfl hrun
    (Run.stepsMeet_of_forall (fun l _ s => unshadowed_of_not_isTag (by decide) s l) _)⟩

/-- The tag that is checked out. -/
def tag : Ref := ⟨ascii "refs/tags/x", top, none⟩

/-- Another tag. -/
def other : Ref := ⟨ascii "refs/tags/t", root, none⟩

def tagRepo : Repository where
  refs name :=
    if name = tag.fullName then some tag.target
    else if name = other.fullName then some other.target
    else none
  head := .detached top
  upstreams _ := none

def tagApp : App (Option Commit) Unit :=
  (start plainEnv noFault tagRepo [rev tag, rev other] (fun _ => none) (fun _ => none)
    (some (.ofRef tag)) true ⟨100, 10⟩ ()).getD (plainApp tagRepo none [])

/-- Rename the other tag and delete what then has its column. -/
def renames : List (Action × Inputs (Option Commit)) :=
  [(.resize ⟨100, 10⟩, noFault), (.rename 1 (ascii "tags/x"), noFault), (.remove 1, noFault)]

/-- The name `tags/x` finds the tag `x`, whose rev is now mutable: the tag that is checked
out is deleted. -/
theorem run_renames :
    start plainEnv noFault tagRepo [rev tag, rev other] (fun _ => none) (fun _ => none)
        (some (.ofRef tag)) true ⟨100, 10⟩ () = some tagApp ∧
      tagApp.checkedOut = some tag ∧ tagRepo.refs tag.fullName = some tag.target ∧
      (run (step plainEnv) tagApp renames).map (fun app => app.repo.refs tag.fullName) =
        some none :=
  ⟨rfl, rfl, rfl, by decide +kernel⟩

end Dirty

end App
end Debase
