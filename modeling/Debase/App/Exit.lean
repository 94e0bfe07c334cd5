import Debase.App.Tracked

/-!
# Restoring the head at exit

`run` ends with `headAttach`: what was checked out at the start of the session is
checked out again.  `follow` is a run next to which the name of that ref is kept, as
nothing but the repository and the names that were asked for say what it is.  Every run
leaves `HEAD` before it touches the ref, `_head` has the ref and its commit, and the ref
is what is checked out in the end.  The one thing that gets in the way is a tag that is
checked out and renamed to a name under which another tag is found (`HeadFound`).
-/

namespace Debase

open Git Library

namespace Git

/-- A repository and the tree in its working directory. -/
structure Checkout where
  repo : Repository
  tree : Git.Tree

/-- The calls of `checkout` that can fail. -/
inductive CheckoutCall where
  | tree
  | setHead
deriving DecidableEq

/-- `git_repository_set_head`: `HEAD` is attached to a local branch, even to one that does
not exist, and detached at the commit of any other ref. -/
def Repository.setHead (repo : Repository) (fullName : Bytes) : Option Head :=
  match repo.lookup fullName with
  | some ref => if ref.isLocalBranch then some (.attached fullName) else some (.detached ref.commit)
  | none => if Ref.headsDir.isPrefixOf fullName then some (.attached fullName) else none

theorem Repository.setHead_of_current {repo : Repository} {ref : Ref} (h : repo.Current ref) :
    repo.setHead ref.fullName =
      some (if ref.isLocalBranch then .attached ref.fullName else .detached ref.commit) := by
  have hlookup : repo.lookup ref.fullName = some ref := h
  unfold setHead
  rw [hlookup]
  dsimp only
  split
  · rfl
  · rfl

/-- `checkout`, which fails without effect where it would overwrite files. -/
def checkout (fault : Option (CheckoutCall × ErrorCode)) (rev : GitRev) :
    Program Checkout Exn Unit := do
  let call (c : CheckoutCall) : Program Checkout Exn Unit :=
    match fault with
    | none => pure ()
    | some (failing, code) => if failing = c then .fail (.gitError code) else pure ()
  call .tree
  Program.update fun checkout => { checkout with tree := rev.commit.tree }
  call .setHead
  let checkout ← Program.read
  let head := match rev.ref with
    | some ref => checkout.repo.setHead ref.fullName
    | none => some (.detached rev.commit)
  match head with
  | none => .fail (.gitError .notFound)
  | some head =>
      Program.update fun checkout => { checkout with repo := { checkout.repo with head := head } }

/-- `headAttach`. -/
def headAttach (fault : Option (CheckoutCall × ErrorCode)) (rev : GitRev) :
    Program Checkout Exn Unit :=
  checkout fault rev

end Git

namespace App

variable {κ ω : Type}

/-- What `run` does in the end; an error is only shown. -/
def atExit (fault : Option (CheckoutCall × ErrorCode)) (app : App κ ω) :
    Program Checkout Exn Unit :=
  match app.reattached with
  | none => pure ()
  | some head => (headAttach fault head).handle fun _ => pure ()

/-- A repository with the ref `k` checked out. -/
def checkedOutAt (repo : Repository) (k : Bytes) : Option Checkout :=
  (repo.lookup k).map fun ref =>
    { repo := { repo with head := if ref.isLocalBranch then .attached k else .detached ref.commit }
      tree := ref.commit.tree }

section Exit

variable {env : Env κ ω} {app : App κ ω}

/-- What is left at exit: the ref of the name is checked out if `HEAD` was left and the ref
is still there, and otherwise nothing is changed. -/
def ExitsWith (app : App κ ω) (name : Option Bytes) (tree : Git.Tree) (checkout : Checkout) :
    Prop :=
  if app.headReattach then
    match name with
    | some k => checkedOutAt app.repo k = some checkout
    | none => checkout = ⟨app.repo, tree⟩
  else checkout = ⟨app.repo, tree⟩

/-- Nothing is thrown at exit, and what is checked out is the ref of `_head`. -/
theorem atExit_ends (h : Settled env app) (tree : Git.Tree) :
    Program.Ends (atExit none app) ⟨app.repo, tree⟩
      (fun _ checkout => ExitsWith app app.headRef tree checkout) fun _ _ => False := by
  unfold atExit reattached ExitsWith
  cases hflag : app.headReattach with
  | false => exact .pure rfl
  | true =>
      simp only [if_true]
      cases href : app.headRef with
      | none =>
          -- a commit that is checked out is never left
          rcases h.headFixed href with hnone | hno
          · rw [hnone]
            exact .pure rfl
          · rw [hflag] at hno
            cases hno
      | some k =>
          obtain ⟨ref, hfind, rfl⟩ := Option.map_eq_some_iff.mp href
          obtain ⟨head, hhead, hrefEq⟩ := Option.bind_eq_some_iff.mp hfind
          obtain ⟨hcurrent, hcommit⟩ := h.headCurrent head ref hhead hrefEq
          rw [hhead]
          refine .handle ?_
          unfold headAttach checkout
          refine .bind (.pure (.bind (.update (.bind (.pure (.bind (.read ?_)))))))
          rw [hrefEq]
          dsimp only
          rw [Repository.setHead_of_current hcurrent]
          refine .update ?_
          show checkedOutAt app.repo ref.fullName = some _
          unfold checkedOutAt
          rw [hcurrent, hcommit]
          rfl

end Exit

/-! ## Every session -/

section Sessions

variable [DecidableEq κ] {env : Env κ ω}

/-- What a session is started with comes from lookups, and `HEAD` is not attached to
anything but a branch: git does not allow it to point to a tag. -/
structure LookedUp (env : Env κ ω) (repo : Repository) (revs : List Rev)
    (reflogRev : Option GitRev) : Prop where
  named : ∀ k t, repo.refs k = some t → env.names.normalize k = some k
  headBranch : ∀ k, repo.head = .attached k → Ref.headsDir <+: k
  revs : ∀ rev ∈ revs, RevExists repo rev
  reflog : ∀ rev ref, reflogRev = some rev → rev.ref = some ref →
    repo.Current ref ∧ rev.commit = ref.commit

theorem start_settled {inputs : Inputs κ} {repo : Repository} {revs : List Rev}
    {refStates : State.RefStates κ} {lookup : κ → Option Commit} {reflogRev : Option GitRev}
    {dirty : Bool} {size : Ui.Size} {outside : ω} {app : App κ ω}
    (hlooked : LookedUp env repo revs reflogRev)
    (hstart : start env inputs repo revs refStates lookup reflogRev dirty size outside = some app) :
    Settled env app := by
  unfold start at hstart
  obtain ⟨head, hresolved, rfl⟩ := Option.map_eq_some_iff.mp hstart
  have hcurrent : ∀ ref, head.ref = some ref → repo.Current ref ∧ head.commit = ref.commit := by
    intro ref href
    rcases Repository.ref_headResolved hresolved href with ⟨t, ht, hhandle, hattached, hcommit⟩ |
      ⟨hreflog, -⟩
    · have hne := Repository.ne_headFile_of_dir (Or.inl rfl) (hlooked.headBranch _ hattached)
      refine ⟨?_, hcommit⟩
      unfold Repository.Current
      rw [Repository.lookup_of_ne hne, ht, Option.map_some, ← hhandle]
    · exact hlooked.reflog head ref hreflog href
  -- `HEAD` resolves, and to its branch if it is attached
  obtain ⟨found, hfound, hhead⟩ := Option.map_eq_some_iff.mp hresolved
  unfold Repository.lookupResolved at hfound
  rw [if_pos rfl] at hfound
  exact
    { named := hlooked.named
      headLocal := by
        intro k hk
        have hlocal := hlooked.headBranch k hk
        rw [show repo.head = .attached k from hk] at hfound
        obtain ⟨t, ht, rfl⟩ := Option.map_eq_some_iff.mp hfound
        have hbranch : (t.handle k).isBranch = true := by
          have hprefix : Ref.headsDir.isPrefixOf k = true := by simpa using hlocal
          simp [Ref.isBranch, Ref.isLocalBranch, hprefix]
        rw [hbranch, Bool.true_or, if_pos rfl] at hhead
        refine ⟨hlocal, rfl, ?_⟩
        show head.ref.map Ref.fullName = some k
        rw [← hhead]
        rfl
      headResolves := by
        show (repo.lookup headFile).isSome
        unfold Repository.lookup
        rw [if_pos rfl]
        cases hrepo : repo.head with
        | attached b =>
            rw [hrepo] at hfound
            obtain ⟨t, ht, -⟩ := Option.map_eq_some_iff.mp hfound
            simp [ht]
        | detached c => rfl
      headExists := by
        intro k hk
        obtain ⟨ref, href, rfl⟩ := Option.map_eq_some_iff.mp hk
        show (repo.lookup ref.fullName).isSome
        rw [(hcurrent ref href).1]
        rfl
      headFixed := fun _ => Or.inr rfl
      revs := by
        intro rev hrev
        obtain ⟨rev₀, hrev₀, rfl⟩ := List.mem_map.mp hrev
        have hsame : (sessionRev dirty head rev₀).ref = rev₀.ref := by
          unfold sessionRev
          split
          · rfl
          · rfl
        unfold RevExists
        rw [hsame]
        exact hlooked.revs rev₀ hrev₀
      selection := nofun
      headCurrent := by
        rintro _ ref ⟨⟩ href
        exact hcurrent ref href
      columns := nofun }

/-- One action, and the name that the ref `name` has after it. -/
def follow (env : Env κ ω) (s : App κ ω × Option Bytes) (l : Action × Inputs κ) :
    Option (App κ ω × Option Bytes) :=
  (succeed env s.1 l).map fun app' =>
    (app', s.2.bind (nameAfter env.names (s.1.asked env l.2 l.1) app'.repo))

/-- If the action renames the tag in `_head`, it is found by its new name. -/
def HeadFound (env : Env κ ω) (s : App κ ω × Option Bytes) (l : Action × Inputs κ) : Prop :=
  ∀ x, s.1.renamesTo env l.2 l.1 = some x → RenameFound env s.1 x.1 x.2

instance (env : Env κ ω) (s : App κ ω × Option Bytes) (l : Action × Inputs κ) :
    Decidable (HeadFound env s l) :=
  inferInstanceAs (Decidable (∀ x, s.1.renamesTo env l.2 l.1 = some x → _))

/-- What holds of every session that follows its ref: nothing touched the ref while `HEAD`
was attached to it, and what is checked out at exit is the ref. -/
structure Follows (env : Env κ ω) (app : App κ ω) (s : App κ ω × Option Bytes) : Prop where
  tracked : s.1.headRef = s.2
  current : ∀ head ref, s.1.head = some head → head.ref = some ref →
    s.1.repo.Current ref ∧ head.commit = ref.commit
  left : HeadLeft app s.1
  step : ∀ l s', HeadFound env s l → follow env s l = some s' → HeadLeft s.1 s'.1
  exit : ∀ tree, Program.Ends (atExit none s.1) ⟨s.1.repo, tree⟩
    (fun _ checkout => ExitsWith s.1 s.2 tree checkout) fun _ _ => False

theorem follow_tracks {s s' : App κ ω × Option Bytes} {l : Action × Inputs κ}
    (h : Settled env s.1) (hfound : HeadFound env s l) (hfollow : follow env s l = some s') :
    Settled env s'.1 ∧ HeadLeft s.1 s'.1 ∧ (s.1.headRef = s.2 → s'.1.headRef = s'.2) := by
  obtain ⟨app', hsucceed, rfl⟩ := Option.map_eq_some_iff.mp hfollow
  obtain ⟨hoffers, hrun⟩ := succeed_eq_some.mp hsucceed
  obtain ⟨h', htracks⟩ := Program.Ends.of_ok (perform_tracks h hoffers fun k name => hfound (k, name)) hrun
  refine ⟨h', htracks.left, fun hname => ?_⟩
  rw [htracks.head, hname]

/-- In every run of successful actions, `_head` follows the ref that was checked out at the
start, as long as a checked out tag that is renamed is found by its new name. -/
theorem run_follows {inputs : Inputs κ} {repo : Repository} {revs : List Rev}
    {refStates : State.RefStates κ} {lookup : κ → Option Commit} {reflogRev : Option GitRev}
    {dirty : Bool} {size : Ui.Size} {outside : ω} {app : App κ ω}
    {s : App κ ω × Option Bytes} {ls : List (Action × Inputs κ)}
    (hlooked : LookedUp env repo revs reflogRev)
    (hstart : start env inputs repo revs refStates lookup reflogRev dirty size outside = some app)
    (hrun : run (follow env) (app, app.headRef) ls = some s)
    (hmeet : StepsMeet (follow env) (HeadFound env) (app, app.headRef) ls) :
    Follows env app s := by
  let Inv (s : App κ ω × Option Bytes) : Prop :=
    Settled env s.1 ∧ s.1.headRef = s.2 ∧ HeadLeft app s.1
  have hinv : Inv s := by
    refine Run.invariant ?_ hrun hmeet ⟨start_settled hlooked hstart, rfl, .refl⟩
    rintro s₁ l s₂ ⟨h₁, hname₁, hleft₁⟩ hfound hfollow
    obtain ⟨h₂, hleft₂, hname₂⟩ := follow_tracks h₁ hfound hfollow
    exact ⟨h₂, hname₂ hname₁, hleft₁.trans hleft₂⟩
  obtain ⟨hsettled, hname, hleft⟩ := hinv
  refine ⟨hname, hsettled.headCurrent, hleft, ?_, ?_⟩
  · intro l s' hfound hfollow
    exact (follow_tracks hsettled hfound hfollow).2.1
  · intro tree
    rw [← hname]
    exact atExit_ends hsettled tree

end Sessions

/-! ## A branch and a tag that are checked out and renamed -/

namespace CheckedOut

open HalfMove

def branch : Ref := ⟨ascii "refs/heads/main", top, none⟩

def branchRepo : Repository where
  refs name := if name = branch.fullName then some branch.target else none
  head := .attached branch.fullName
  upstreams _ := none

def branchApp : App (Option Commit) Unit :=
  (start plainEnv noFault branchRepo [rev branch] (fun _ => none) (fun _ => none) none false
    ⟨100, 10⟩ ()).getD (plainApp branchRepo none [])

/-- Show the branch, rename it, undo and redo this, and rename it again. -/
def branchRenames : List (Action × Inputs (Option Commit)) :=
  [(.resize ⟨100, 10⟩, noFault), (.rename 0 (ascii "next"), noFault), (.undo 0, noFault),
    (.redo 0, noFault), (.rename 0 (ascii "last"), noFault)]

theorem branch_lookedUp : LookedUp plainEnv branchRepo [rev branch] none where
  named k t hk := by
    unfold branchRepo at hk
    dsimp only at hk
    split at hk
    · next hname =>
        subst hname
        rfl
    · cases hk
  headBranch k hk := by
    cases hk
    decide
  revs r hr ref href := by
    obtain rfl := List.mem_singleton.mp hr
    cases href
    decide
  reflog _ _ hno := by cases hno

/-- The branch is checked out at exit, under its last name. -/
theorem run_branchRenames :
    ∃ s, run (follow plainEnv) (branchApp, branchApp.headRef) branchRenames = some s ∧
      s.2 = some (ascii "refs/heads/last") ∧ s.1.headReattach = true ∧
      Follows plainEnv branchApp s := by
  have hruns : (run (follow plainEnv) (branchApp, branchApp.headRef) branchRenames).map
      (fun s => (s.2, s.1.headReattach)) = some (some (ascii "refs/heads/last"), true) := by
    decide +kernel
  obtain ⟨s, hrun, hs⟩ := Option.map_eq_some_iff.mp hruns
  obtain ⟨hname, hflag⟩ := Prod.ext_iff.mp hs
  exact ⟨s, hrun, hname, hflag, run_follows branch_lookedUp rfl hrun (by decide +kernel)⟩

/-- The commit of the tag that is checked out. -/
def old : Commit := .mk ⟨2⟩ [] (text "old")

def tag : Ref := ⟨ascii "refs/tags/t", old, none⟩

/-- Another tag. -/
def other : Ref := ⟨ascii "refs/tags/x", top, none⟩

def tagRepo : Repository where
  refs name :=
    if name = tag.fullName then some tag.target
    else if name = other.fullName then some other.target
    else none
  head := .detached old
  upstreams _ := none

def tagApp : App (Option Commit) Unit :=
  (start plainEnv noFault tagRepo [rev tag, rev other] (fun _ => none) (fun _ => none)
    (some (.ofRef tag)) false ⟨100, 10⟩ ()).getD (plainApp tagRepo none [])

/-- Rename the tag that is checked out. -/
def tagRenames : List (Action × Inputs (Option Commit)) :=
  [(.resize ⟨100, 10⟩, noFault), (.rename 0 (ascii "tags/x"), noFault)]

theorem tag_lookedUp : LookedUp plainEnv tagRepo [rev tag, rev other] (some (.ofRef tag)) where
  named k t hk := by
    unfold tagRepo at hk
    dsimp only at hk
    split at hk
    · next hname =>
        subst hname
        rfl
    · split at hk
      · next hname =>
          subst hname
          rfl
      · cases hk
  headBranch k hk := by cases hk
  revs r hr ref href := by
    rcases List.mem_cons.mp hr with rfl | hr
    · cases href
      decide
    · obtain rfl := List.mem_singleton.mp hr
      cases href
      decide
  reflog rev ref hrev href := by
    cases hrev
    cases href
    exact ⟨rfl, rfl⟩

/-- The name `tags/x` finds the tag `x`: this is the tag in `_head` then, and the tree of
its commit is checked out at exit. -/
theorem run_tagRenames :
    LookedUp plainEnv tagRepo [rev tag, rev other] (some (.ofRef tag)) ∧
      start plainEnv noFault tagRepo [rev tag, rev other] (fun _ => none) (fun _ => none)
        (some (.ofRef tag)) false ⟨100, 10⟩ () = some tagApp ∧
      tagApp.headRef = some tag.fullName ∧
      (run (follow plainEnv) (tagApp, tagApp.headRef) tagRenames).map
          (fun s => (s.2, s.1.repo.refs (ascii "refs/tags/tags/x"))) =
        some (some (ascii "refs/tags/tags/x"), some tag.target) ∧
      (run (follow plainEnv) (tagApp, tagApp.headRef) tagRenames).map
          (fun s => (s.1.headRef, (atExit none s.1 ⟨s.1.repo, old.tree⟩).2.tree)) =
        some (some other.fullName, top.tree) ∧
      top.tree ≠ old.tree :=
  ⟨tag_lookedUp, rfl, rfl, by decide +kernel, by decide +kernel, by decide⟩

end CheckedOut

end App
end Debase
