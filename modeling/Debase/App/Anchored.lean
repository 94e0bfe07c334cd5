import Debase.App.Restore
import Debase.App.Session
import Debase.Git.Existing

/-!
# The head that is tracked

`_head` starts as the ref that is checked out.  `Anchored` is what every method keeps:
`HEAD` is attached to the ref of `_head` or is detached, and the refs that the session
has exist.  `Tracks` says where `_head` goes from one state to the next: it keeps its
ref, follows it to its new name, or becomes empty when the ref is gone.
-/

namespace Debase

open Git Library

namespace App

variable {κ ω : Type}

/-- The name of the ref in `_head`. -/
def headRef (app : App κ ω) : Option Bytes := (app.head.bind GitRev.ref).map Ref.fullName

/-- The ref of the rev exists. -/
def RevExists (repo : Repository) (rev : Rev) : Prop :=
  ∀ ref, rev.ref = some ref → (repo.lookup ref.fullName).isSome

structure Anchored (env : Env κ ω) (app : App κ ω) : Prop where
  named : ∀ k t, app.repo.refs k = some t → env.names.normalize k = some k
  headLocal : ∀ k, app.repo.head = .attached k →
    Ref.headsDir <+: k ∧ app.headReattach = false ∧ app.headRef = some k
  headResolves : (app.repo.lookup headFile).isSome
  headExists : ∀ k, app.headRef = some k → (app.repo.lookup k).isSome
  /-- A commit that is checked out is never left. -/
  headFixed : app.headRef = none → app.head = none ∨ app.headReattach = false
  revs : ∀ rev ∈ app.revs, RevExists app.repo rev
  selection : ∀ rev, app.selection.rev = some rev → RevExists app.repo rev

/-- `HEAD` is left before its ref is touched. -/
structure HeadLeft (app app' : App κ ω) : Prop where
  /-- The ref that `HEAD` is attached to, if any, is the one it was attached to before, and
  was not touched. -/
  attached : ∀ k, app'.repo.head = .attached k →
    app.repo.head = .attached k ∧ app'.repo.refs k = app.repo.refs k
  /-- As long as nothing is to be reattached, the ref of `_head` was not touched. -/
  resting : app'.headReattach = false →
    app.headReattach = false ∧ app'.repo.head = app.repo.head ∧ app'.headRef = app.headRef ∧
      ∀ k t, app.headRef = some k → app.repo.refs k = some t → app'.repo.refs k = some t

/-- The directory of a local branch or of a tag. -/
def dirOf (k : Bytes) : Bytes :=
  if Ref.headsDir.isPrefixOf k then Ref.headsDir else Ref.tagsDir

/-- The name of a ref after an action that asks for a short name: as it was while there is
such a ref, then the one that was asked for, and none if there is no such ref either. -/
def nameAfter (names : RefNames) (asked : Option Bytes) (repo' : Repository) (k : Bytes) :
    Option Bytes :=
  if (repo'.lookup k).isSome then some k
  else
    (asked.bind fun name => names.normalize (dirOf k ++ name)).filter fun k' =>
      (repo'.lookup k').isSome

/-- `_head` follows its ref. -/
structure Tracks (env : Env κ ω) (asked : Option Bytes) (app app' : App κ ω) : Prop where
  head : app'.headRef = app.headRef.bind (nameAfter env.names asked app'.repo)
  left : HeadLeft app app'

/-- The same refs exist, and `_head` has the same one. -/
structure SameRefs (app app' : App κ ω) : Prop where
  exists_eq : ∀ m, (app'.repo.lookup m).isSome = (app.repo.lookup m).isSome
  head : app'.headRef = app.headRef
  left : HeadLeft app app'

section Lemmas

variable {env : Env κ ω} {inputs : Inputs κ} {asked : Option Bytes} {app app₁ app' : App κ ω}

theorem HeadLeft.refl : HeadLeft app app :=
  ⟨fun _ hk => ⟨hk, rfl⟩, fun hflag => ⟨hflag, rfl, rfl, fun _ _ _ ht => ht⟩⟩

theorem HeadLeft.trans (h : HeadLeft app app₁) (h' : HeadLeft app₁ app') : HeadLeft app app' := by
  constructor
  · intro k hk
    obtain ⟨hk₁, hrefs₁⟩ := h'.attached k hk
    obtain ⟨hk₀, hrefs₀⟩ := h.attached k hk₁
    exact ⟨hk₀, hrefs₁.trans hrefs₀⟩
  · intro hflag
    obtain ⟨hflag₁, hhead₁, htracked₁, hrefs₁⟩ := h'.resting hflag
    obtain ⟨hflag₀, hhead₀, htracked₀, hrefs₀⟩ := h.resting hflag₁
    refine ⟨hflag₀, hhead₁.trans hhead₀, htracked₁.trans htracked₀, fun k t hk ht => ?_⟩
    exact hrefs₁ k t (htracked₀.trans hk) (hrefs₀ k t hk ht)

theorem SameRefs.refl : SameRefs app app := ⟨fun _ => rfl, rfl, .refl⟩

theorem SameRefs.trans (h : SameRefs app app₁) (h' : SameRefs app₁ app') : SameRefs app app' :=
  ⟨fun m => (h'.exists_eq m).trans (h.exists_eq m), h'.head.trans h.head, h.left.trans h'.left⟩

/-- Nothing happened to the refs. -/
theorem SameRefs.of_repo (hrepo : app'.repo = app.repo) (hhead : app'.headRef = app.headRef)
    (hflag : app'.headReattach = app.headReattach) : SameRefs app app' where
  exists_eq m := by rw [hrepo]
  head := hhead
  left := by
    constructor
    · intro k hk
      rw [hrepo] at hk ⊢
      exact ⟨hk, rfl⟩
    · intro hno
      rw [hrepo]
      exact ⟨hflag ▸ hno, rfl, hhead, fun _ _ _ ht => ht⟩

theorem SameRefs.of_rests (h : Rests app app')
    (hflag : app'.headReattach = false → app' = app) : SameRefs app app' where
  exists_eq m := by rw [h.lookup]
  head := by
    unfold headRef
    rw [h.head]
  left := by
    constructor
    · intro k hk
      rcases h.headRests with ⟨hhead, -⟩ | ⟨c, hhead⟩
      · exact ⟨hhead ▸ hk, congrFun h.refs k⟩
      · rw [hhead] at hk
        cases hk
    · intro hno
      obtain rfl := hflag hno
      exact HeadLeft.refl.resting hno

theorem nameAfter_of_isSome {names : RefNames} {repo' : Repository} {k : Bytes}
    (h : (repo'.lookup k).isSome) : nameAfter names asked repo' k = some k := if_pos h

/-- A ref that is still there keeps its name. -/
theorem Tracks.of_exists (hhead : app'.headRef = app.headRef)
    (hexists : ∀ k, app.headRef = some k → (app'.repo.lookup k).isSome)
    (hleft : HeadLeft app app') : Tracks env asked app app' where
  head := by
    rw [hhead]
    cases hk : app.headRef with
    | none => rfl
    | some k => exact (nameAfter_of_isSome (hexists k hk)).symm
  left := hleft

theorem SameRefs.tracks (h : SameRefs app app') (hanchored : Anchored env app) :
    Tracks env asked app app' := by
  refine .of_exists h.head (fun k hk => ?_) h.left
  rw [h.exists_eq]
  exact hanchored.headExists k hk

theorem SameRefs.trans_tracks (h : SameRefs app app₁) (h' : Tracks env asked app₁ app') :
    Tracks env asked app app' where
  head := by rw [h'.head, h.head]
  left := h.left.trans h'.left

theorem Tracks.trans_sameRefs (h : Tracks env asked app app₁) (h' : SameRefs app₁ app') :
    Tracks env asked app app' where
  head := by
    have hname : nameAfter env.names asked app'.repo = nameAfter env.names asked app₁.repo := by
      funext k
      unfold nameAfter
      simp only [h'.exists_eq]
    rw [h'.head, h.head, hname]
  left := h.left.trans h'.left

theorem Anchored.ready (h : Anchored env app) : Ready env app where
  named := h.named
  headName hhead := absurd rfl
    (Repository.ne_headFile_of_dir (Or.inl rfl) (h.headLocal _ hhead).1)
  headResolves := by
    unfold Repository.headCommit
    rw [Option.isSome_map]
    exact h.headResolves
  headAttached k hk _ := (h.headLocal k hk).2

/-- A change that takes no ref away and leaves the revs as they are. -/
theorem Anchored.of_grows (h : Anchored env app)
    (hnamed : ∀ k t, app'.repo.refs k = some t → env.names.normalize k = some k)
    (hgrows : ∀ m, (app.repo.lookup m).isSome → (app'.repo.lookup m).isSome)
    (hhead : HeadRests app app') (hheadEq : app'.head = app.head)
    (hflag : app.headRef = none → app'.headReattach = app.headReattach) (hrevs : app'.revs = app.revs)
    (hselection : app'.selection = app.selection) : Anchored env app' := by
  have hheadRef : app'.headRef = app.headRef := by
    unfold headRef
    rw [hheadEq]
  exact
    { named := hnamed
      headLocal := by
        intro k hk
        rcases hhead with ⟨hhead, hflag⟩ | ⟨c, hhead⟩
        · rw [hflag, hheadRef]
          exact h.headLocal k (hhead ▸ hk)
        · rw [hhead] at hk
          cases hk
      headResolves := hgrows headFile h.headResolves
      headExists := fun k hk => hgrows k (h.headExists k (hheadRef ▸ hk))
      headFixed := by
        intro hnone
        rw [hheadRef] at hnone
        rw [hheadEq, hflag hnone]
        exact h.headFixed hnone
      revs := by
        rw [hrevs]
        exact fun rev hrev ref href => hgrows _ (h.revs rev hrev ref href)
      selection := by
        rw [hselection]
        exact fun rev hrev ref href => hgrows _ (h.selection rev hrev ref href) }

theorem Anchored.of_rests (h : Anchored env app) (hrests : Rests app app')
    (hflag : app.headRef = none → app'.headReattach = app.headReattach) : Anchored env app' := by
  refine h.of_grows ?_ ?_ hrests.headRests hrests.head hflag hrests.revs hrests.selection
  · rw [hrests.refs]
    exact h.named
  · rw [hrests.lookup]
    exact fun m hm => hm

/-- The selection and the fields that no ref depends on. -/
theorem Anchored.congr (h : Anchored env app) (hrepo : app'.repo = app.repo)
    (hflag : app'.headReattach = app.headReattach) (hhead : app'.headRef = app.headRef)
    (hnone : app.head = none → app'.head = none) (hrevs : app'.revs = app.revs)
    (hselection : ∀ rev, app'.selection.rev = some rev → RevExists app.repo rev) :
    Anchored env app' where
  named := by
    rw [hrepo]
    exact h.named
  headLocal := by
    rw [hrepo, hflag, hhead]
    exact h.headLocal
  headResolves := by
    rw [hrepo]
    exact h.headResolves
  headExists := by
    rw [hrepo, hhead]
    exact h.headExists
  headFixed := by
    rw [hhead, hflag]
    exact fun hno => (h.headFixed hno).imp_left hnone
  revs := by
    rw [hrepo, hrevs]
    exact h.revs
  selection := by
    rw [hrepo]
    exact hselection

end Lemmas

section Methods

variable {env : Env κ ω} {inputs : Inputs κ} {app : App κ ω}

/-! ## Replacing a ref -/

theorem gitRefReplace_yields (ref : Ref) (commit : Commit) :
    Program.Yields (fun _ => True) NotCanceled (gitRefReplace env inputs ref commit) := by
  have hdetach : Program.Yields (fun _ => True) NotCanceled
      (inRepo (κ := κ) (ω := ω) (headDetach inputs.fault)) := by
    refine .zoom ?_
    unfold headDetach
    refine (call_yields _).bind fun _ _ => ?_
    refine (Program.Yields.read fun _ => trivial).bind fun _ _ => ?_
    split
    · exact .fail nofun
    · exact .update trivial
  unfold gitRefReplace gitDetachHeadIfEqual
  refine Program.Yields.bind (P := fun _ => True) ?_ fun _ _ => .zoom (refReplace_yields ref commit)
  refine (Program.Yields.read fun _ => trivial).bind fun app _ => ?_
  split
  · exact .pure trivial
  · split
    · refine Program.Yields.bind (P := fun _ => True) (.update trivial) fun _ _ => ?_
      exact hdetach.bind fun _ _ => .pure trivial
    · exact .pure trivial

/-- Another ref does not matter, and `HEAD` is reattached in the end if it was left. -/
theorem gitDetachHeadIfEqual_of_ne (ref : Ref) :
    Program.Returns (gitDetachHeadIfEqual inputs ref) app fun _ app' =>
      (app.headRef ≠ some ref.fullName → app' = app) ∧
        (app.headRef = some ref.fullName → app'.headReattach = true) := by
  unfold gitDetachHeadIfEqual
  refine .read_bind ?_
  by_cases hhead : app.headRef = some ref.fullName
  · have hsame : Ref.same (app.head.bind GitRev.ref) (some ref) = true := decide_eq_true hhead
    rw [hsame]
    cases hflag : app.headReattach with
    | true => exact .pure ⟨fun hne => absurd hhead hne, fun _ => hflag⟩
    | false =>
        have hdetach : Program.Returns (inRepo (headDetach inputs.fault))
            { app with headReattach := true } fun _ app' => app'.headReattach = true :=
          .zoom (.of_forall fun _ _ => rfl)
        refine .update_bind (hdetach.bind fun _ _ h => ?_)
        exact .pure ⟨fun hne => absurd hhead hne, fun _ => h⟩
  · have hsame : Ref.same (app.head.bind GitRev.ref) (some ref) = false := decide_eq_false hhead
    rw [hsame]
    exact .pure ⟨fun _ => rfl, fun heq => absurd heq hhead⟩

/-- No ref is new or gone when one is replaced, and `HEAD` is not attached to it. -/
theorem gitRefReplace_sameRefs (h : Anchored env app) {ref : Ref} (hmutable : ref.isMutable = true)
    (hexists : (app.repo.lookup ref.fullName).isSome) (commit : Commit) :
    Program.Returns (gitRefReplace env inputs ref commit) app fun ref' app' =>
      Anchored env app' ∧ SameRefs app app' ∧ app'.repo.Current ref' ∧ ref'.isMutable = true ∧
        Found env.names app'.repo ref ref' ∧
        (ref.isTag = true → SameNames app.repo app'.repo) := by
  have hne := Ref.ne_headFile_of_isMutable hmutable
  have hrefs : (app.repo.refs ref.fullName).isSome := by
    rw [Repository.lookup_of_ne hne, Option.isSome_map] at hexists
    exact hexists
  have hname : env.names.normalize ref.fullName = some ref.fullName := by
    obtain ⟨t, ht⟩ := Option.isSome_iff_exists.mp hrefs
    exact h.named _ t ht
  unfold gitRefReplace
  refine .bind_ends (((gitDetachHeadIfEqual_ends h.ready ref).and
    (gitDetachHeadIfEqual_of_ne ref)).mono ?_ fun _ _ _ => trivial)
  rintro - app₁ ⟨⟨-, hrests, hdetached⟩, hstays, hflag⟩
  have h₁ := h.of_rests hrests fun hnone => by rw [hstays (by rw [hnone]; exact nofun)]
  -- while the head is not let go, it is at another ref
  have hother : app₁.headReattach = false → app.headRef ≠ some ref.fullName := by
    intro hno heq
    rw [hflag heq] at hno
    cases hno
  have hdetached₁ := hdetached (mutableName_of_isMutable hmutable)
  have hrefs₁ : (app₁.repo.refs ref.fullName).isSome := by
    rw [hrests.refs]
    exact hrefs
  refine .zoom ((refReplace_returns h₁.ready.headName hmutable hname commit).mono ?_)
  rintro ref' repo' ⟨⟨ann, rfl⟩, hcurrent, hmutable', hfound⟩
  have hsame : SameRefs app₁
      { app₁ with repo := app₁.repo.write ref.fullName ⟨commit, ann⟩ } := by
    refine ⟨fun m => isSome_lookup_write_iff hrefs₁, rfl, fun k hk => ⟨hk, ?_⟩, fun hno =>
      ⟨hno, rfl, rfl, fun k t hk ht => ?_⟩⟩
    · apply Repository.refs_write_of_ne
      rintro rfl
      exact hdetached₁ hk
    · rw [← ht]
      apply Repository.refs_write_of_ne
      rintro rfl
      rw [hstays (hother hno)] at hk
      exact hother hno hk
  have hrests₁ : SameRefs app app₁ := .of_rests hrests fun hno => hstays (hother hno)
  refine ⟨?_, hrests₁.trans hsame, hcurrent, hmutable', hfound, fun htag => ?_⟩
  · refine h₁.of_grows ?_ ?_ (.refl _) rfl (fun _ => rfl) rfl rfl
    · intro m t hm
      by_cases hmk : m = ref.fullName
      · rw [hmk, hname]
      · exact h₁.named m t ((Repository.refs_write_of_ne hmk).symm.trans hm)
    · exact fun m hm => (hsame.exists_eq m).trans hm
  · -- `HEAD` is attached to a branch, so it was not detached for a tag
    have hleft : ∀ b, app.repo.head = .attached b → app₁ = app := by
      intro b hb
      obtain ⟨hlocal, -, htracked⟩ := h.headLocal b hb
      apply hstays
      rw [htracked]
      rintro ⟨⟩
      have hbranch : ref.isLocalBranch = true := by simpa [Ref.isLocalBranch] using hlocal
      rw [Ref.isTag_of_isLocalBranch hbranch] at htag
      cases htag
    have hrests' : SameNames app.repo app₁.repo := by
      refine ⟨fun b => by rw [hrests.refs], fun b => ⟨fun hb => ?_, fun hb => by rw [hleft b hb, hb]⟩⟩
      rcases hrests.headRests with ⟨hhead, -⟩ | ⟨c, hhead⟩
      · exact hhead.symm.trans hb
      · rw [hb] at hhead
        cases hhead
    exact hrests'.trans (sameNames_write hrefs₁)

/-! ## Renaming a ref -/

theorem repoStateRefReplace_returns (refPrev ref : Ref) :
    Program.Returns (repoStateRefReplace refPrev ref) app fun _ app' =>
      refPrev.fullName ≠ ref.fullName ∧ ∃ repoState, app' = { app with repoState := repoState } := by
  unfold repoStateRefReplace
  refine .read_bind ?_
  split
  · exact .fail
  · next hne =>
      split
      · exact .fail
      · exact .update ⟨hne, _, rfl⟩

/-- The directory of a ref that may be changed. -/
theorem dirOf_of_isMutable {ref : Ref} (h : ref.isMutable = true) :
    dirOf ref.fullName = ref.copyDir := by
  obtain ⟨-, -, hlocal⟩ := Ref.copyDir_of_isMutable h
  unfold dirOf Ref.copyDir
  by_cases hbranch : ref.isLocalBranch = true
  · rw [if_pos (hlocal.mp hbranch)]
    exact if_pos hbranch
  · rw [if_neg fun hb => hbranch (hlocal.mpr hb)]
    exact if_neg hbranch

theorem revExists_revRenamed {repo repo' : Repository} {refPrev ref : Ref} {rev : Rev}
    (hrev : RevExists repo rev) (href : (repo'.lookup ref.fullName).isSome)
    (hothers : ∀ m, m ≠ refPrev.fullName → (repo.lookup m).isSome → (repo'.lookup m).isSome) :
    RevExists repo' (revRenamed refPrev ref rev) := by
  unfold revRenamed
  split
  · rintro _ ⟨⟩
    exact href
  · next hsame =>
      intro r hr
      refine hothers _ (fun heq => hsame ?_) (hrev r hr)
      rw [hr]
      exact decide_eq_true (congrArg some heq)

/-- The ref `k` is gone, and `k'` is what came in its place: all that the other refs and
`HEAD` have to do with it. -/
structure Gone (app app' : App κ ω) (k : Bytes) (k' : Option Bytes) : Prop where
  others : ∀ m, m ≠ k → (app.repo.lookup m).isSome → (app'.repo.lookup m).isSome
  gone : app'.repo.lookup k = none
  refs : ∀ m, m ≠ k → (app.repo.refs m).isSome → app'.repo.refs m = app.repo.refs m
  ne : k ≠ headFile
  headRests : HeadRests app app'
  detached : app'.repo.head ≠ .attached k
  stays : app.headRef ≠ some k →
    app'.repo.head = app.repo.head ∧ app'.headReattach = app.headReattach
  reattached : app.headRef = some k → app'.headReattach = true
  headRef : app'.headRef = if app.headRef = some k then k' else app.headRef
  headNone : app.head = none ∨ app.headRef = some k ∧ k' = none → app'.head = none
  replaced : ∀ m, k' = some m → (app'.repo.lookup m).isSome

namespace Gone

variable {app' : App κ ω} {k : Bytes} {k' : Option Bytes}

theorem headLeft (hgone : Gone app app' k k') (h : Anchored env app) : HeadLeft app app' := by
  constructor
  · intro m hm
    rcases hgone.headRests with ⟨hhead, -⟩ | ⟨c, hhead⟩
    · have hattached : app.repo.head = .attached m := hhead.symm.trans hm
      refine ⟨hattached, hgone.refs m ?_ ?_⟩
      · rintro rfl
        exact hgone.detached hm
      · have hresolves := h.headResolves
        unfold Repository.lookup at hresolves
        rw [if_pos rfl, hattached, Option.isSome_map] at hresolves
        exact hresolves
    · rw [hhead] at hm
      cases hm
  · intro hflag
    have hother : app.headRef ≠ some k := by
      intro hwas
      rw [hgone.reattached hwas] at hflag
      cases hflag
    obtain ⟨hhead, hreattach⟩ := hgone.stays hother
    refine ⟨hreattach.symm.trans hflag, hhead, ?_, fun m t hm ht => ?_⟩
    · rw [hgone.headRef, if_neg hother]
    · rw [hgone.refs m ?_ (by rw [ht]; rfl), ht]
      rintro rfl
      exact hother hm

theorem anchored (hgone : Gone app app' k k') (h : Anchored env app)
    (hnamed : ∀ m t, app'.repo.refs m = some t → env.names.normalize m = some m)
    (hrevs : ∀ rev ∈ app'.revs, RevExists app'.repo rev)
    (hselection : ∀ rev, app'.selection.rev = some rev → RevExists app'.repo rev) :
    Anchored env app' where
  named := hnamed
  headLocal := by
    intro m hm
    rcases hgone.headRests with ⟨hhead, hflag⟩ | ⟨c, hhead⟩
    · obtain ⟨hlocal, hreattach, htracked⟩ := h.headLocal m (hhead.symm.trans hm)
      refine ⟨hlocal, hflag.trans hreattach, ?_⟩
      rw [hgone.headRef, if_neg, htracked]
      rw [htracked]
      rintro ⟨⟩
      exact hgone.detached hm
    · rw [hhead] at hm
      cases hm
  headResolves := hgone.others headFile hgone.ne.symm h.headResolves
  headExists := by
    intro m hm
    rw [hgone.headRef] at hm
    split at hm
    · exact hgone.replaced m hm
    · next hother =>
        refine hgone.others m ?_ (h.headExists m hm)
        rintro rfl
        exact hother hm
  headFixed := by
    intro hnone
    rw [hgone.headRef] at hnone
    split at hnone
    · next hwas => exact Or.inl (hgone.headNone (Or.inr ⟨hwas, hnone⟩))
    · next hother =>
        rw [(hgone.stays hother).2]
        exact (h.headFixed hnone).imp_left fun hno => hgone.headNone (Or.inl hno)
  revs := hrevs
  selection := hselection

/-- `_head` has what came in the place of its ref. -/
theorem tracks (hgone : Gone app app' k k') (h : Anchored env app) {asked : Option Bytes}
    (hname : app.headRef = some k →
      k' = asked.bind fun name => env.names.normalize (dirOf k ++ name)) :
    Tracks env asked app app' where
  head := by
    rw [hgone.headRef]
    by_cases hwas : app.headRef = some k
    · rw [if_pos hwas, hwas, Option.bind_some]
      unfold nameAfter
      rw [hgone.gone, if_neg (by simp), ← hname hwas]
      cases hk' : k' with
      | none => rfl
      | some m =>
          rw [Option.filter_some, if_pos (hgone.replaced m hk')]
    · rw [if_neg hwas]
      cases hm : app.headRef with
      | none => rfl
      | some m =>
          refine (nameAfter_of_isSome (hgone.others m ?_ (h.headExists m hm))).symm
          rintro rfl
          exact hwas hm
  left := hgone.headLeft h

variable (app) in
/-- A ref is gone once `HEAD` has left it and it is removed.  In `app₁` the ref is still
there, beside what comes in its place. -/
theorem of_removed (app₁ : App κ ω) {app₂ : App κ ω} {head : Option GitRev}
    {selection : Ui.Selection}
    (hne : k ≠ headFile) (hhead : app₁.head = app.head)
    (hreattach : app₁.headReattach = app.headReattach) (hrepoHead : app₁.repo.head = app.repo.head)
    (hothers : ∀ m, m ≠ k → (app.repo.lookup m).isSome → (app₁.repo.lookup m).isSome)
    (hrefs : ∀ m, m ≠ k → (app.repo.refs m).isSome → app₁.repo.refs m = app.repo.refs m)
    (hrests : Rests app₁ app₂) (hdetached : app₂.repo.head ≠ .attached k)
    (hstays : app₁.headRef ≠ some k → app₂ = app₁)
    (hreattached : app₁.headRef = some k → app₂.headReattach = true)
    (hheadRef : (head.bind GitRev.ref).map Ref.fullName =
      if app.headRef = some k then k' else app.headRef)
    (hheadNone : app.head = none ∨ app.headRef = some k ∧ k' = none → head = none)
    (hreplaced : ∀ m, k' = some m → m ≠ k ∧ (app₁.repo.lookup m).isSome) :
    Gone app
      { app₂ with repo := app₂.repo.remove k, head := head, selection := selection } k k' where
  others m hm hsome := by
    show ((app₂.repo.remove k).lookup m).isSome = true
    rw [hrests.lookup_remove hdetached hm]
    exact hothers m hm hsome
  gone := by
    show (app₂.repo.remove k).lookup k = none
    exact Repository.lookup_remove_self hne
  refs m hm hsome := by
    show (app₂.repo.remove k).refs m = app.repo.refs m
    rw [Repository.refs_remove_of_ne hm, hrests.refs]
    exact hrefs m hm hsome
  ne := hne
  headRests := by
    rcases hrests.headRests with ⟨hsame, hflag⟩ | ⟨c, hleft⟩
    · exact Or.inl ⟨hsame.trans hrepoHead, hflag.trans hreattach⟩
    · exact Or.inr ⟨c, hleft⟩
  detached := hdetached
  stays hother := by
    have hother₁ : app₁.headRef ≠ some k := by
      unfold App.headRef at hother ⊢
      rwa [hhead]
    obtain rfl : app₂ = app₁ := hstays hother₁
    exact ⟨hrepoHead, hreattach⟩
  reattached hwas := by
    apply hreattached
    unfold App.headRef at hwas ⊢
    rwa [hhead]
  headRef := hheadRef
  headNone := hheadNone
  replaced m hm := by
    show ((app₂.repo.remove k).lookup m).isSome = true
    obtain ⟨hmk, hsome⟩ := hreplaced m hm
    rw [hrests.lookup_remove hdetached hmk]
    exact hsome

end Gone

/-- The refs that are left after a removal have normal names. -/
theorem named_removed {app₁ app₂ : App κ ω} {k : Bytes}
    (h : ∀ m t, app₁.repo.refs m = some t → env.names.normalize m = some m)
    (hrefs : app₂.repo.refs = app₁.repo.refs) (m : Bytes) (t : Target)
    (hm : (app₂.repo.remove k).refs m = some t) : env.names.normalize m = some m := by
  have hmk : m ≠ k := by
    intro heq
    rw [heq, Repository.refs_remove_self] at hm
    cases hm
  rw [Repository.refs_remove_of_ne hmk, hrefs] at hm
  exact h m t hm

theorem revExists_selectionRenamed {repo repo' : Repository} {refPrev ref : Ref}
    {selection : Ui.Selection} {rev : Rev}
    (h : ∀ rev, selection.rev = some rev → RevExists repo rev)
    (href : (repo'.lookup ref.fullName).isSome)
    (hothers : ∀ m, m ≠ refPrev.fullName → (repo.lookup m).isSome → (repo'.lookup m).isSome)
    (hrev : (selectionRenamed refPrev ref selection).rev = some rev) : RevExists repo' rev := by
  obtain ⟨rev₀, hrev₀, rfl⟩ := Option.map_eq_some_iff.mp hrev
  have hrenamed := revExists_revRenamed (h rev₀ hrev₀) href hothers
  unfold revRenamed at hrenamed
  split
  · rintro _ ⟨⟩
    exact href
  · next hother =>
      rw [if_neg hother] at hrenamed
      exact hrenamed

/-- The name of the head once it follows a ref that is renamed. -/
theorem headRef_renamed {refPrev ref : Ref} :
    ((if Ref.same (app.head.bind GitRev.ref) (some refPrev) then
        app.head.map fun head => { head with ref := some ref }
      else app.head).bind GitRev.ref).map Ref.fullName =
      if app.headRef = some refPrev.fullName then some ref.fullName else app.headRef := by
  by_cases hwas : app.headRef = some refPrev.fullName
  · have hsame : Ref.same (app.head.bind GitRev.ref) (some refPrev) = true :=
      decide_eq_true hwas
    rw [if_pos hsame, if_pos hwas]
    cases hhead : app.head with
    | none =>
        unfold headRef at hwas
        rw [hhead] at hwas
        cases hwas
    | some x => rfl
  · have hsame : ¬Ref.same (app.head.bind GitRev.ref) (some refPrev) = true := fun h =>
      hwas (of_decide_eq_true h)
    rw [if_neg hsame, if_neg hwas]
    rfl

/-- The head follows a ref that is renamed, if the new ref is found by its short name. -/
theorem gitRefRename_tracks (h : Anchored env app) {refPrev : Ref} {name : Bytes}
    (hmutable : refPrev.isMutable = true) (hexists : (app.repo.lookup refPrev.fullName).isSome)
    (hclear : app.headRef = some refPrev.fullName → CopyClear env.names app.repo refPrev name) :
    Program.Returns (gitRefRename env inputs refPrev name) app fun ref app' =>
      Anchored env app' ∧ Tracks env (some name) app app' ∧
        (app'.repo.lookup ref.fullName).isSome := by
  have hne := Ref.ne_headFile_of_isMutable hmutable
  have hdir := (Ref.copyDir_of_isMutable hmutable).1
  unfold gitRefRename
  refine .bind_ends (.zoom ((refCopy_ends h.ready.headName refPrev name none).mono ?_
    fun _ _ _ => trivial))
  rintro ref repo₁ ⟨k, t, hk, hfree, -, rfl, hcurrent, hfound⟩
  have hk' := env.names.normalize_normalize hk
  have hkhead := Repository.ne_headFile_of_dir hdir (env.names.normalize_dir hdir hk).2
  have hgrown : Grown env.names app.repo (app.repo.write k t) := .write hk' hfree
  -- the copy is a new ref, and the old one exists
  have hprev : k ≠ refPrev.fullName := by
    rintro rfl
    rw [Repository.lookup_of_ne hne, hfree] at hexists
    cases hexists
  refine .update_bind (.bind (repoStateRefReplace_returns refPrev ref) ?_)
  rintro - _ ⟨hrefPrev, repoState, rfl⟩
  let app₂ : App κ ω :=
    { app with
      repo := app.repo.write k t
      revs := app.revs.map (revRenamed refPrev ref)
      repoState := repoState }
  have hready₂ : Ready env app₂ := (h.ready.created t hk' hkhead hfree).congr rfl rfl rfl
  refine .bind_ends (((gitDetachHeadIfEqual_ends hready₂ refPrev).and
    (gitDetachHeadIfEqual_of_ne refPrev)).mono ?_ fun _ _ _ => trivial)
  rintro wasHead app₃ ⟨⟨rfl, hrests, hdetached⟩, hstays, hreattached⟩
  have hdetached₃ := hdetached (mutableName_of_isMutable hmutable)
  -- the copy is found in the end, as `HEAD` has left the ref that is removed
  have href : ((app₃.repo.remove refPrev.fullName).lookup ref.fullName).isSome := by
    rw [hrests.lookup_remove hdetached₃ hrefPrev.symm]
    show ((app.repo.write k t).lookup ref.fullName).isSome = true
    rw [hcurrent]
    rfl
  refine headRenamed_ends (.bind (.update (.bind (.zoom
    (Program.Ends.mono (reflogRememberRef_returns ref) ?_ fun _ _ _ => trivial)))))
  rintro - _ rfl
  refine .bind (.zoom (Program.Ends.mono (refDelete_returns refPrev) ?_
    fun _ _ _ => trivial))
  rintro - _ rfl
  have hgone : Gone app
      { app₃ with
        repo := app₃.repo.remove refPrev.fullName
        head := if Ref.same (app₂.head.bind GitRev.ref) (some refPrev) then
            app₃.head.map fun head => { head with ref := some ref }
          else app₃.head
        selection := selectionRenamed refPrev ref app₃.selection }
      refPrev.fullName (some ref.fullName) := by
    apply Gone.of_removed app app₂ hne rfl rfl rfl _ _ hrests hdetached₃ hstays hreattached
    · rw [hrests.head]
      exact headRef_renamed
    · intro hcases
      rcases hcases with hnone | ⟨-, hno⟩
      · rw [hrests.head, show app₂.head = none from hnone]
        simp
      · cases hno
    · intro m hm
      cases hm
      refine ⟨hrefPrev.symm, ?_⟩
      show ((app.repo.write k t).lookup ref.fullName).isSome = true
      rw [hcurrent]
      rfl
    · intro m _ hsome
      exact Repository.isSome_lookup_write hsome
    · intro m _ hsome
      apply Repository.refs_write_of_ne
      rintro rfl
      rw [hfree] at hsome
      cases hsome
  refine .pure ⟨hgone.anchored h (named_removed hready₂.named hrests.refs) ?_ ?_,
    hgone.tracks h fun hwas => ?_, href⟩
  · intro rev hrev
    rw [show app₃.revs = _ from hrests.revs] at hrev
    obtain ⟨rev₀, hrev₀, rfl⟩ := List.mem_map.mp hrev
    exact revExists_revRenamed (h.revs rev₀ hrev₀) href hgone.others
  · intro rev hrev
    change (selectionRenamed refPrev ref app₃.selection).rev = some rev at hrev
    rw [hrests.selection] at hrev
    exact revExists_selectionRenamed h.selection href hgone.others hrev
  · -- the new ref was found, and has the name that was asked for
    obtain rfl := hfound (hclear hwas)
    rw [dirOf_of_isMutable hmutable]
    exact hk.symm

/-! ## Deleting a ref -/

/-- The name of the head once a ref is deleted. -/
theorem headRef_deleted {ref : Ref} :
    ((if Ref.same (app.head.bind GitRev.ref) (some ref) then none else app.head).bind
        GitRev.ref).map Ref.fullName =
      if app.headRef = some ref.fullName then none else app.headRef := by
  by_cases hwas : app.headRef = some ref.fullName
  · have hsame : Ref.same (app.head.bind GitRev.ref) (some ref) = true := decide_eq_true hwas
    rw [if_pos hsame, if_pos hwas]
    rfl
  · have hsame : ¬Ref.same (app.head.bind GitRev.ref) (some ref) = true := fun h =>
      hwas (of_decide_eq_true h)
    rw [if_neg hsame, if_neg hwas]
    rfl

/-- What is still selected once a ref is deleted has another ref. -/
theorem rev_of_selectionDeleted {ref : Ref} {selection : Ui.Selection} {rev : Rev}
    (h : (selectionDeleted ref selection).rev = some rev) :
    selection.rev = some rev ∧ ∀ r, rev.ref = some r → r.fullName ≠ ref.fullName := by
  unfold selectionDeleted at h
  split at h
  · cases h
  · next hother =>
      refine ⟨h, fun r hr heq => hother ?_⟩
      rw [h, Option.bind_some, hr]
      exact decide_eq_true (congrArg some heq)

/-- The head is empty once its ref is deleted. -/
theorem gitRefDelete_tracks (h : Anchored env app) {ref : Ref} (hmutable : ref.isMutable = true) :
    Program.Returns (gitRefDelete inputs ref) app fun _ app' =>
      Anchored env app' ∧ Tracks env none app app' := by
  have hne := Ref.ne_headFile_of_isMutable hmutable
  unfold gitRefDelete
  refine .update_bind ?_
  let app₁ : App κ ω :=
    { app with
      revs := app.revs.filter fun rev => !Ref.same rev.ref (some ref)
      repoState := State.refRemove app.repoState ref.fullName }
  have hready₁ : Ready env app₁ := h.ready.congr rfl rfl rfl
  refine .bind_ends (((gitDetachHeadIfEqual_ends hready₁ ref).and
    (gitDetachHeadIfEqual_of_ne ref)).mono ?_ fun _ _ _ => trivial)
  rintro wasHead app₂ ⟨⟨rfl, hrests, hdetached⟩, hstays, hreattached⟩
  have hdetached₂ := hdetached (mutableName_of_isMutable hmutable)
  refine headDeleted_ends (.bind (.update (.zoom ((refDelete_returns ref).mono ?_))))
  rintro - _ rfl
  have hgone : Gone app
      { app₂ with
        repo := app₂.repo.remove ref.fullName
        head := if Ref.same (app₁.head.bind GitRev.ref) (some ref) then none else app₂.head
        selection := selectionDeleted ref app₂.selection } ref.fullName none := by
    refine Gone.of_removed app app₁ hne rfl rfl rfl (fun _ _ hsome => hsome) (fun _ _ _ => rfl) hrests
      hdetached₂ hstays hreattached ?_ ?_ fun _ hm => (nomatch hm)
    · rw [hrests.head]
      exact headRef_deleted
    · intro hcases
      rw [hrests.head]
      rcases hcases with hnone | ⟨hwas, -⟩
      · rw [show app₁.head = none from hnone, ite_self]
      · exact if_pos (decide_eq_true hwas)
  refine ⟨hgone.anchored h (named_removed h.named hrests.refs) ?_ ?_, hgone.tracks h fun _ => rfl⟩
  · -- a rev that is left has another ref
    intro rev hrev r hr
    rw [show app₂.revs = _ from hrests.revs] at hrev
    obtain ⟨hmem, hother⟩ := List.mem_filter.mp hrev
    refine hgone.others _ (fun heq => ?_) (h.revs rev hmem r hr)
    rw [hr] at hother
    simp [Ref.same, heq] at hother
  · intro rev hrev r hr
    change (selectionDeleted ref app₂.selection).rev = some rev at hrev
    rw [hrests.selection] at hrev
    obtain ⟨hrev, hother⟩ := rev_of_selectionDeleted hrev
    exact hgone.others _ (hother r hr) (h.selection rev hrev r hr)

end Methods

end App
end Debase
