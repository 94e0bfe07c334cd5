import Debase.App.Distinct
import Debase.App.Exit
import Debase.App.Gestures
import Debase.App.RevLookup
import Debase.Library.Firsts

/-!
# The revs of a session

`main` opens a column for each rev it is given, or, if it is given none, for `HEAD` and for what was
checked out lately.  Either way the revs are unique, and the session keeps them so.
-/

namespace Debase

open Git Library

namespace App

/-! ## The revs that `main` chooses -/

/-- `RevCountDefault`. -/
def revCountDefault : Nat := 5

section Main

variable (strings : Toastbox.Strings) (objects : Objects) (names : RefNames) (repo : Repository)
  (reflog : List ReflogEntry)

/-- The loop over the given revs; `unique` has the revs of `revs`, and finds by `<` what is the same
by `==`. -/
def suppliedRevs : List Rev → List Bytes → Except Exn (List Rev)
  | revs, [] => .ok revs
  | revs, revName :: revNames =>
      match revLookup objects names repo reflog revName with
      | .error _ => .error (.runtimeError "invalid rev: %s")
      | .ok rev => suppliedRevs (if revs.any (Rev.same rev) then revs else revs ++ [rev]) revNames

/-- The loop over the reflog: what is no ref, and what is not found any more, is left out. -/
def recentRevs : List Rev → List ReflogEntry → List Rev
  | revs, [] => revs
  | revs, entry :: entries =>
      if revs.length < revCountDefault then
        match reflogRevForCheckoutEntry strings objects names repo reflog entry with
        | .error _ => recentRevs revs entries
        | .ok gitRev =>
            let rev : Rev := ⟨gitRev, 0, .allowed⟩
            if rev.ref.isNone then recentRevs revs entries
            else recentRevs (if revs.any (Rev.same rev) then revs else revs ++ [rev]) entries
      else revs

/-- The revs that `main` hands to `App`, for the arguments `revNames`. -/
def mainRevs (revNames : List Bytes) : Except Exn (List Rev) :=
  if revNames.isEmpty then
    match headResolved strings objects names repo reflog with
    | .error e => .error e
    | .ok head => .ok (recentRevs strings objects names repo reflog [⟨head, 0, .allowed⟩] reflog)
  else suppliedRevs objects names repo reflog [] revNames

/-- The rev of an entry of the reflog that says what ref was checked out. -/
def checkoutRev (entry : ReflogEntry) : Option Rev :=
  match reflogRevForCheckoutEntry strings objects names repo reflog entry with
  | .error _ => none
  | .ok gitRev => if gitRev.ref.isNone then none else some ⟨gitRev, 0, .allowed⟩

end Main

section Spec

variable {strings : Toastbox.Strings} {objects : Objects} {names : RefNames} {repo : Repository}
  {reflog : List ReflogEntry}

/-- Given revs are looked up one after the other, and repeated ones are dropped. -/
theorem suppliedRevs_ok {revs revs' : List Rev} {revNames : List Bytes}
    (h : suppliedRevs objects names repo reflog revs revNames = .ok revs') :
    ∃ found, (∀ rev ∈ found, ∃ revName ∈ revNames,
        revLookup objects names repo reflog revName = .ok rev) ∧
      revs' = firsts Rev.same revs found := by
  induction revNames generalizing revs with
  | nil =>
      cases h
      exact ⟨[], List.forall_mem_nil _, rfl⟩
  | cons revName revNames ih =>
      unfold suppliedRevs at h
      cases hrev : revLookup objects names repo reflog revName with
      | error e =>
          rw [hrev] at h
          cases h
      | ok rev =>
          rw [hrev] at h
          obtain ⟨found, hfound, hrevs⟩ := ih h
          refine ⟨rev :: found, fun rev' hrev' => ?_, hrevs⟩
          rcases List.mem_cons.mp hrev' with rfl | hrev'
          · exact ⟨revName, List.mem_cons_self, hrev⟩
          · obtain ⟨revName', hmem, hlookup⟩ := hfound rev' hrev'
            exact ⟨revName', List.mem_cons_of_mem _ hmem, hlookup⟩

/-- The loop stops early, with the first of what was checked out. -/
theorem recentRevs_eq (revs : List Rev) (entries : List ReflogEntry) :
    recentRevs strings objects names repo reflog revs entries =
      firstsUpTo Rev.same revCountDefault revs
        (entries.filterMap (checkoutRev strings objects names repo reflog)) := by
  have hfull : ∀ (revs l : List Rev), ¬revs.length < revCountDefault →
      firstsUpTo Rev.same revCountDefault revs l = revs := by
    intro revs l hno
    cases l with
    | nil => rfl
    | cons a l => rw [firstsUpTo, if_neg hno]
  induction entries generalizing revs with
  | nil => rfl
  | cons entry entries ih =>
      unfold recentRevs
      by_cases hroom : revs.length < revCountDefault
      · rw [if_pos hroom, List.filterMap_cons]
        unfold checkoutRev
        cases hentry : reflogRevForCheckoutEntry strings objects names repo reflog entry with
        | error e => exact ih revs
        | ok gitRev =>
            dsimp only
            cases href : gitRev.ref.isNone with
            | true => exact ih revs
            | false =>
                simp only [Bool.false_eq_true, if_false]
                rw [firstsUpTo, if_pos hroom]
                exact ih _
      · rw [if_neg hroom, hfull _ _ hroom]

/-- Without arguments the columns are those of `HEAD` and of the refs that were checked out last,
five at most: what is left out is a repetition, or was checked out before five others. -/
theorem mainRevs_recent {revs : List Rev}
    (h : mainRevs strings objects names repo reflog [] = .ok revs) :
    ∃ head recent, headResolved strings objects names repo reflog = .ok head ∧
      revs = ⟨head, 0, .allowed⟩ :: recent ∧ revs.length ≤ revCountDefault ∧
      revs.Pairwise (fun a b => b.same a = false) ∧
      recent.Sublist (reflog.filterMap (checkoutRev strings objects names repo reflog)) ∧
      ∀ newer rev older,
        reflog.filterMap (checkoutRev strings objects names repo reflog) = newer ++ rev :: older →
          revs.any rev.same = true ∨ revs.length = revCountDefault ∧ recent.Sublist newer := by
  simp only [mainRevs, List.isEmpty_nil, if_true] at h
  cases hhead : headResolved strings objects names repo reflog with
  | error e =>
      rw [hhead] at h
      cases h
  | ok head =>
      rw [hhead] at h
      cases h
      generalize hall : reflog.filterMap (checkoutRev strings objects names repo reflog) = all
      have hsingle : ([⟨head, 0, .allowed⟩] : List Rev).length ≤ revCountDefault := by
        simp [revCountDefault]
      have hkept : ∀ l, ∃ new, firstsUpTo Rev.same revCountDefault [⟨head, 0, .allowed⟩] l =
          ⟨head, 0, .allowed⟩ :: new ∧ new.Sublist l := by
        intro l
        obtain ⟨new, hnew, hsub⟩ := @firsts_eq_append _ Rev.same [⟨head, 0, .allowed⟩] l
        refine ⟨new.take 4, ?_, (List.take_sublist 4 new).trans hsub⟩
        rw [firstsUpTo_eq_take hsingle, hnew]
        rfl
      rw [recentRevs_eq, hall]
      obtain ⟨recent, hrecent, hsub⟩ := hkept all
      refine ⟨head, recent, rfl, hrecent, ?_, ?_, hsub, ?_⟩
      · rw [firstsUpTo_eq_take hsingle, List.length_take]
        omega
      · rw [firstsUpTo_eq_take hsingle]
        exact (pairwise_firsts (List.pairwise_singleton _ _) all).sublist (List.take_sublist _ _)
      · rintro newer rev older rfl
        refine (firstsUpTo_leaves_out Rev.same_refl hsingle newer rev older).imp_right ?_
        rintro ⟨hlength, hnewer⟩
        refine ⟨hlength, ?_⟩
        obtain ⟨new, hnew, hsubnew⟩ := hkept newer
        rw [hrecent, hnew, List.cons.injEq] at hnewer
        rw [hnewer.2]
        exact hsubnew

end Spec

namespace ParentOfMain

open SameName

/-- The tag `v1` was checked out after the branch, and after a commit that is gone. -/
def reflog : List ReflogEntry :=
  moved "checkout: moving from main to v1" ++ moved "checkout: moving from gone to main" ++
    moved "checkout: moving from main to gone" ++ moved "commit: root"

/-- Without arguments there are columns for the tag and for the branch. -/
theorem mainRevs_reflog :
    ∃ head recent,
      Git.headResolved .plain SameName.objects plainNames (SameName.repository [branch, release])
        reflog = .ok head ∧
      head.ref = some release ∧ recent = [(⟨branch.toRev, 0, .allowed⟩ : Rev)] ∧
      recent.Sublist (reflog.filterMap
        (checkoutRev .plain SameName.objects plainNames (SameName.repository [branch, release])
          reflog)) := by
  have hrevs : mainRevs .plain SameName.objects plainNames (SameName.repository [branch, release])
      reflog [] = .ok [⟨release.toRev, 0, .allowed⟩, ⟨branch.toRev, 0, .allowed⟩] := rfl
  obtain ⟨head, recent, hhead, heq, -, -, hsub, -⟩ := mainRevs_recent hrevs
  rw [List.cons.injEq, Rev.mk.injEq] at heq
  obtain ⟨⟨hrelease, -⟩, hbranch⟩ := heq
  exact ⟨head, recent, hhead, by rw [← hrelease]; rfl, hbranch.symm, hsub⟩

end ParentOfMain

/-! ## What is found is current -/

section Current

variable {strings : Toastbox.Strings} {objects : Objects} {names : RefNames} {repo : Repository}
  {reflog : List ReflogEntry}


/-- Whatever text is looked up, the ref that is found is current. -/
theorem current_of_revLookup (hhead : repo.head ≠ .attached headFile)
    (hexpression : ∀ spec ref, objects.expression repo reflog spec = .ok (.inl ref) →
      repo.Current ref) {str : Bytes} {rev : GitRev} {ref : Ref}
    (h : Git.revLookup objects names repo reflog str = .ok rev) (href : rev.ref = some ref) :
    repo.Current ref ∧ rev.commit = ref.commit := by
  have hrev := toRev_of_revLookup h href
  refine ⟨?_, by rw [hrev]; rfl⟩
  unfold Git.revLookup at h
  dsimp only at h
  split at h
  · next found hfound =>
      cases h
      cases href
      split at hfound
      · unfold revparseLookupObject at hfound
        split at hfound
        · next x hx =>
            cases x with
            | error code => cases hfound
            | ok commit => cases hfound
        · split at hfound
          · next hdwim =>
              cases hfound
              exact current_of_dwimLoop hhead hdwim
          · next hdwim =>
              cases habbreviated : objects.abbreviated (specName str) with
              | error code =>
                  rw [habbreviated] at hfound
                  cases hfound
              | ok commit =>
                  rw [habbreviated] at hfound
                  cases hfound
          · cases hfound
      · exact hexpression _ _ hfound
  · cases h
    cases href
  · cases h

/-- What holds of each rev that `main` chooses. -/
structure Chosen (repo : Repository) (rev : Rev) : Prop where
  current : RevCurrent repo rev
  allowed : rev.mutability = .allowed

theorem chosen_of_revLookup (hhead : repo.head ≠ .attached headFile)
    (hexpression : ∀ spec ref, objects.expression repo reflog spec = .ok (.inl ref) →
      repo.Current ref) {str : Bytes} {rev : Rev}
    (h : revLookup objects names repo reflog str = .ok rev) : Chosen repo rev := by
  obtain ⟨found, hfound, ⟨-, rfl⟩ | ⟨-, skipRev, hskip, hcases⟩⟩ := revLookup_ok h
  · exact ⟨fun ref href => current_of_revLookup hhead hexpression hfound href, rfl⟩
  · rcases hcases with ⟨base, ref, skip, rfl, href, -, rfl⟩ | ⟨-, rfl⟩
    · refine ⟨fun ref' href' => ?_, rfl⟩
      obtain ⟨hbase, name, -, hname⟩ := skipRevOf_ref hskip href
      rw [hbase] at href' ⊢
      exact current_of_revLookup hhead hexpression hname href'
    · exact ⟨fun ref href => current_of_revLookup hhead hexpression hfound href, rfl⟩

theorem current_of_entry (hhead : repo.head ≠ .attached headFile)
    (hexpression : ∀ spec ref, objects.expression repo reflog spec = .ok (.inl ref) →
      repo.Current ref) {entry : ReflogEntry} {rev : GitRev} {ref : Ref}
    (h : reflogRevForCheckoutEntry strings objects names repo reflog entry = .ok rev)
    (href : rev.ref = some ref) : repo.Current ref ∧ rev.commit = ref.commit := by
  unfold reflogRevForCheckoutEntry at h
  split at h
  · cases h
  · split at h
    · cases h
    · dsimp only at h
      split at h
      · cases h
      · exact current_of_revLookup hhead hexpression h href

theorem mainRevs_chosen (hhead : repo.head ≠ .attached headFile)
    (hexpression : ∀ spec ref, objects.expression repo reflog spec = .ok (.inl ref) →
      repo.Current ref) {revNames : List Bytes} {revs : List Rev}
    (h : mainRevs strings objects names repo reflog revNames = .ok revs) :
    (∀ rev ∈ revs, Chosen repo rev) ∧ revs.Pairwise fun a b => b.same a = false := by
  by_cases hempty : revNames = []
  · subst hempty
    obtain ⟨head, recent, hresolved, rfl, -, hpairwise, hsub, -⟩ := mainRevs_recent h
    refine ⟨fun rev hrev => ?_, hpairwise⟩
    rcases List.mem_cons.mp hrev with rfl | hrev
    · refine ⟨fun ref href => ?_, rfl⟩
      unfold headResolved at hresolved
      dsimp only at hresolved
      split at hresolved
      · next rev hrepo =>
          cases hresolved
          rcases Repository.ref_headResolved hrepo href with ⟨t, ht, hhandle, hattached, hcommit⟩ |
            ⟨hreflog, -⟩
          · have hne : ref.fullName ≠ headFile := fun heq => hhead (heq ▸ hattached)
            refine ⟨?_, hcommit⟩
            unfold Repository.Current
            rw [Repository.lookup_of_ne hne, ht, Option.map_some, ← hhandle]
          · obtain ⟨result, hentry, hresult⟩ := Option.bind_eq_some_iff.mp hreflog
            obtain ⟨entry, -, rfl⟩ := Option.map_eq_some_iff.mp hentry
            cases hdecoded : reflogRevForCheckoutEntry strings objects names repo reflog entry with
            | error e =>
                rw [hdecoded] at hresult
                cases hresult
            | ok rev =>
                rw [hdecoded] at hresult
                cases hresult
                exact current_of_entry hhead hexpression hdecoded href
      · cases hresolved
    · obtain ⟨entry, -, hentry⟩ := List.mem_filterMap.mp (hsub.subset hrev)
      unfold checkoutRev at hentry
      split at hentry
      · cases hentry
      · next gitRev hdecoded =>
          split at hentry
          · cases hentry
          · cases hentry
            exact ⟨fun ref href => current_of_entry hhead hexpression hdecoded href, rfl⟩
  · unfold mainRevs at h
    have hno : ¬revNames.isEmpty = true := by simpa using hempty
    rw [if_neg hno] at h
    obtain ⟨found, hfound, rfl⟩ := suppliedRevs_ok h
    refine ⟨fun rev hrev => ?_, pairwise_firsts .nil found⟩
    obtain ⟨new, hnew, hsub⟩ := @firsts_eq_append _ Rev.same [] found
    rw [hnew, List.nil_append] at hrev
    obtain ⟨revName, -, hlookup⟩ := hfound rev (hsub.subset hrev)
    exact chosen_of_revLookup hhead hexpression hlookup

end Current

/-! ## Sessions -/

section Sessions

variable {κ ω : Type} {env : Env κ ω}

/-- Marking the revs of what is checked out leaves them different. -/
theorem nodup_sessionRevs {repo : Repository} {revs : List Rev}
    (hchosen : ∀ rev ∈ revs, Chosen repo rev) (hnew : revs.Pairwise fun a b => b.same a = false)
    (dirty : Bool) (head : GitRev) :
    ((revs.map (sessionRev dirty head)).map Rev.key).Nodup := by
  have hmark : ∀ rev : Rev, (sessionRev dirty head rev).toGitRev = rev.toGitRev ∧
      (sessionRev dirty head rev).skip = rev.skip := by
    intro rev
    unfold sessionRev
    split
    · exact ⟨rfl, rfl⟩
    · exact ⟨rfl, rfl⟩
  rw [List.map_map, List.Nodup, List.pairwise_map]
  refine hnew.imp_of_mem fun {a b} ha hb hdiffer hkey => ?_
  have hkeyRef : a.key.1 = b.key.1 ∧ a.skip = b.skip := by
    simp only [Function.comp_apply, Rev.key, Prod.mk.injEq, hmark] at hkey
    exact ⟨hkey.1, hkey.2.1⟩
  -- revs with the same ref are at the same commit
  have hsame : a.commit = b.commit ∧ Ref.same a.ref b.ref = true := by
    cases haref : a.ref with
    | none =>
        cases hbref : b.ref with
        | none =>
            have hcommits := hkeyRef.1
            simp only [Rev.key, haref, hbref, Option.elim_none, Sum.inr.injEq] at hcommits
            exact ⟨hcommits, rfl⟩
        | some ref =>
            have hno := hkeyRef.1
            simp [Rev.key, haref, hbref] at hno
    | some ref =>
        cases hbref : b.ref with
        | none =>
            have hno := hkeyRef.1
            simp [Rev.key, haref, hbref] at hno
        | some ref' =>
            have hnames := hkeyRef.1
            simp only [Rev.key, haref, hbref, Option.elim_some, Sum.inl.injEq] at hnames
            obtain ⟨hcurrent, hcommit⟩ := (hchosen a ha).current ref haref
            obtain ⟨hcurrent', hcommit'⟩ := (hchosen b hb).current ref' hbref
            unfold Repository.Current at hcurrent hcurrent'
            rw [hnames, hcurrent', Option.some.injEq] at hcurrent
            exact ⟨by rw [hcommit, hcommit', hcurrent], by simp [Ref.same, hnames]⟩
  have hequal : b.same a = true := by
    unfold Rev.same
    rw [(hchosen a ha).allowed, (hchosen b hb).allowed, hsame.1, hkeyRef.2]
    have hflip : Ref.same b.ref a.ref = true := by
      have h := hsame.2
      simp only [Ref.same, decide_eq_true_eq] at h ⊢
      exact h.symm
    simp [hflip]
  rw [hequal] at hdiffer
  cases hdiffer

/-- The session starts with revs that are different. -/
theorem start_distinct [DecidableEq κ] {inputs : Inputs κ} {repo : Repository} {revs : List Rev}
    {refStates : State.RefStates κ} {lookup : κ → Option Commit} {reflogRev : Option GitRev}
    {dirty : Bool} {size : Ui.Size} {outside : ω} {app : App κ ω}
    (hhead : repo.head ≠ .attached headFile)
    (hnamed : ∀ m, (repo.refs m).isSome → env.names.normalize m = some m)
    (hchosen : ∀ rev ∈ revs, Chosen repo rev) (hnew : revs.Pairwise fun a b => b.same a = false)
    (hstart : start env inputs repo revs refStates lookup reflogRev dirty size outside = some app) :
    Distinct env app := by
  unfold start at hstart
  obtain ⟨head, -, rfl⟩ := Option.map_eq_some_iff.mp hstart
  refine ⟨hhead, hnamed, nodup_sessionRevs hchosen hnew dirty head, ?_, .nil⟩
  intro key hkey m hm
  obtain ⟨rev, hrev, rfl⟩ := List.mem_map.mp hkey
  obtain ⟨rev₀, hrev₀, rfl⟩ := List.mem_map.mp hrev
  obtain ⟨ref, href, rfl⟩ := Rev.ref_of_key hm
  have hsame : (sessionRev dirty head rev₀).ref = rev₀.ref := by
    unfold sessionRev
    split
    · rfl
    · rfl
  rw [hsame] at href
  have hcurrent := ((hchosen rev₀ hrev₀).current ref href).1
  by_cases hne : ref.fullName = headFile
  · exact Or.inl hne
  · right
    show (repo.refs ref.fullName).isSome
    rw [Repository.Current.refs hcurrent hne]
    rfl

/-- The revs and the columns of a session are one to one. -/
structure OneToOne (app : App κ ω) : Prop where
  revs : app.revs.Pairwise fun a b => a.same b = false
  columns : app.columns.Pairwise fun a b => a.rev.same b.rev = false
  found : ∀ col ∈ app.columns, app.columnForRev (some col.rev) = some col

theorem Distinct.oneToOne {app : App κ ω} (h : Distinct env app) : OneToOne app where
  revs := by
    have hrevs := h.revs
    rw [List.Nodup, List.pairwise_map] at hrevs
    exact hrevs.imp fun hkeys => Bool.eq_false_iff.mpr fun hsame => hkeys (Rev.key_of_same hsame)
  columns := by
    have hcolumns := h.columns
    rw [List.map_map, List.Nodup, List.pairwise_map] at hcolumns
    exact hcolumns.imp fun hkeys => Bool.eq_false_iff.mpr fun hsame => hkeys (Rev.key_of_same hsame)
  found := by
    intro col hcol
    have hcolumns := h.columns
    rw [List.map_map] at hcolumns
    have hsome : (app.columnForRev (some col.rev)).isSome = true := by
      unfold columnForRev
      rw [List.find?_isSome]
      exact ⟨col, hcol, Rev.same_refl col.rev⟩
    obtain ⟨found, hfound⟩ := Option.isSome_iff_exists.mp hsome
    have hsame : found.rev.same col.rev = true := by
      have := List.find?_some hfound
      exact this
    rw [hfound]
    exact congrArg some (List.inj_on_of_nodup_map hcolumns (List.mem_of_find?_eq_some hfound) hcol
      (Rev.key_of_same hsame))

variable [DecidableEq κ]

end Sessions

namespace CheckedOut

open HalfMove

/-- Rename the tag, undo this, copy the tag, and rename the copy: to a name that is taken, and then
to one that is free, where the old tag cannot be deleted. -/
def tagNames : List (Action × Inputs (Option Commit)) :=
  [(.resize ⟨200, 10⟩, noFault), (.rename 0 (ascii "y"), noFault), (.undo 0, noFault),
    (.duplicate 0, noFault), (.rename 1 (ascii "x"), noFault),
    (.rename 1 (ascii "z"), ⟨some (.refDelete (ascii "refs/tags/t2"), .other), fun _ => false, 0⟩)]

/-- The refs of the columns. -/
def columnRefs (app : App (Option Commit) Unit) : List (Option Bytes) :=
  app.columns.map fun col => col.rev.ref.map Ref.fullName

end CheckedOut

end App
end Debase
