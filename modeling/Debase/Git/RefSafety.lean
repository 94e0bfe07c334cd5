import Debase.Git.RefCalls

/-!
# Assertions while refs are replaced

`refReplace` fails an assertion only for tags: `Tag::ForRef` asserts that the short
name of a tag that was just written finds a tag, and an annotated tag without a
tagger is replaced with a null author.
-/

namespace Debase
namespace Git

open Library

/-- Whatever the short name of a tag finds is a tag. -/
def FindsTag (names : RefNames) (repo : Repository) (name : Bytes) : Prop :=
  ∀ ref, dwimLoop names repo (dwimNames name) .notFound = .ok ref → ref.isTag = true

/-- A ref that can be replaced without a failed assertion: an annotated tag has a
tagger, and the short name of a tag finds a tag. -/
def SafeToReplace (names : RefNames) (repo : Repository) (ref : Ref) : Prop :=
  ref.isTag = true → (∀ ann, ref.annotation = some ann → ann.author.isSome) ∧
    FindsTag names repo ref.name

/-- libgit2 refuses to overwrite the branch: it is named `HEAD`, or checked out. -/
def Refused (repo : Repository) (ref : Ref) : Prop :=
  ref.isLocalBranch = true ∧ (ref.name = headFile ∨ repo.head = .attached ref.fullName)

theorem Ref.isTag_congr {ref ref' : Ref} (h : ref'.fullName = ref.fullName) :
    ref'.isTag = ref.isTag := by
  unfold isTag
  rw [h]

theorem Ref.isTag_of_isLocalBranch {ref : Ref} (h : ref.isLocalBranch = true) :
    ref.isTag = false := by
  obtain ⟨n, hn⟩ := isPrefix_of_isLocalBranch h
  rw [isTag, ← hn]
  rfl

/-! ## Repositories with the same names -/

/-- The same refs exist, and `HEAD` is attached to the same branch or to none. -/
structure SameNames (repo repo' : Repository) : Prop where
  refs (b : Bytes) : (repo'.refs b).isSome = (repo.refs b).isSome
  head (b : Bytes) : repo'.head = .attached b ↔ repo.head = .attached b

section Names

variable {names : RefNames} {repo repo' : Repository} {k m : Bytes} {t : Target}

theorem SameNames.trans {repo'' : Repository} (h : SameNames repo repo')
    (h' : SameNames repo' repo'') : SameNames repo repo'' :=
  ⟨fun b => (h'.refs b).trans (h.refs b), fun b => (h'.head b).trans (h.head b)⟩

/-- Writing a ref that exists makes no new name. -/
theorem sameNames_write (hk : (repo.refs k).isSome) : SameNames repo (repo.write k t) where
  refs b := by
    by_cases hb : b = k
    · rw [hb, Repository.refs_write_self, hk]
      rfl
    · rw [Repository.refs_write_of_ne hb]
  head _ := Iff.rfl

/-- Every name finds a ref of the same full name. -/
theorem SameNames.lookupResolved (h : SameNames repo repo') (m : Bytes) :
    (repo'.lookupResolved m).map Ref.fullName = (repo.lookupResolved m).map Ref.fullName := by
  have hrefs : ∀ b, (repo'.refs b).map (fun _ => b) = (repo.refs b).map fun _ => b := by
    intro b
    have hsome := h.refs b
    cases hw : repo'.refs b with
    | none =>
        rw [hw] at hsome
        cases hr : repo.refs b with
        | none => rfl
        | some u => simp [hr] at hsome
    | some u =>
        rw [hw] at hsome
        cases hr : repo.refs b with
        | none => simp [hr] at hsome
        | some v => rfl
  unfold Repository.lookupResolved
  split
  · cases hr : repo.head with
    | attached b =>
        rw [(h.head b).mpr hr]
        simp only [Option.map_map]
        exact hrefs b
    | detached c =>
        cases hw : repo'.head with
        | attached b =>
            have := (h.head b).mp hw
            rw [hr] at this
            cases this
        | detached c' => rfl
  · simp only [Option.map_map]
    exact hrefs m

theorem SameNames.headCommit (h : SameNames repo repo') :
    repo'.headCommit.isSome = repo.headCommit.isSome := by
  unfold Repository.headCommit Repository.lookup
  rw [if_pos rfl, if_pos rfl]
  cases hr : repo.head with
  | attached b =>
      rw [(h.head b).mpr hr]
      simpa using h.refs b
  | detached c =>
      cases hw : repo'.head with
      | attached b =>
          have := (h.head b).mp hw
          rw [hr] at this
          cases this
      | detached c' => rfl

theorem SameNames.dwimLoop (names : RefNames) (h : SameNames repo repo') (l : List Bytes)
    (code : ErrorCode) :
    (dwimLoop names repo' l code).map Ref.fullName =
      (dwimLoop names repo l code).map Ref.fullName := by
  induction l generalizing code with
  | nil => rfl
  | cons f l ih =>
      unfold Git.dwimLoop
      by_cases hvalid : names.isValid f = true
      · rw [if_pos hvalid, if_pos hvalid]
        cases hm : names.normalize f with
        | none => exact ih _
        | some m =>
            have hfound := h.lookupResolved m
            simp only [Option.bind_some]
            cases hw : repo'.lookupResolved m with
            | none =>
                cases hr : repo.lookupResolved m with
                | none => exact ih _
                | some ref => simp [hw, hr] at hfound
            | some ref =>
                cases hr : repo.lookupResolved m with
                | none => simp [hw, hr] at hfound
                | some ref' =>
                    rw [hw, hr] at hfound
                    exact congrArg Except.ok (Option.some.inj hfound)
      · rw [if_neg hvalid, if_neg hvalid]
        exact ih _

theorem SameNames.findsTag (h : SameNames repo repo') (name : Bytes) :
    FindsTag names repo' name ↔ FindsTag names repo name := by
  have hsame := h.dwimLoop names (dwimNames name) .notFound
  unfold FindsTag
  cases hw : Git.dwimLoop names repo' (dwimNames name) .notFound with
  | error e =>
      cases hr : Git.dwimLoop names repo (dwimNames name) .notFound with
      | error e' => simp
      | ok ref => simp [hw, hr, Except.map] at hsame
  | ok ref =>
      cases hr : Git.dwimLoop names repo (dwimNames name) .notFound with
      | error e' => simp [hw, hr, Except.map] at hsame
      | ok ref' =>
          rw [hw, hr] at hsame
          simp [Ref.isTag_congr (Except.ok.inj hsame)]

theorem SameNames.safeToReplace (h : SameNames repo repo') (ref : Ref) :
    SafeToReplace names repo' ref ↔ SafeToReplace names repo ref := by
  unfold SafeToReplace
  rw [h.findsTag]

theorem SameNames.refused (h : SameNames repo repo') (ref : Ref) :
    Refused repo' ref ↔ Refused repo ref := by
  unfold Refused
  rw [h.head]

/-- A tag that exists is found, or another ref before it. -/
theorem dwimLoop_total {name : Bytes} (hname : names.normalize (Ref.tagsDir ++ name) = some k)
    (hk : k = Ref.tagsDir ++ name) (hexists : (repo.refs k).isSome) (code : ErrorCode) :
    ∃ ref, dwimLoop names repo (dwimNames name) code = .ok ref := by
  obtain ⟨hne, hdir⟩ := names.normalize_dir (Or.inr rfl) hname
  have hhead := Repository.ne_headFile_of_dir (Or.inr rfl) hdir
  have hskip : ∀ f rest, (∀ code, ∃ ref, dwimLoop names repo rest code = .ok ref) →
      ∀ code, ∃ ref, dwimLoop names repo (f :: rest) code = .ok ref := by
    intro f rest hrest code
    unfold dwimLoop
    split
    · split
      · next ref _ => exact ⟨ref, rfl⟩
      · exact hrest _
    · exact hrest _
  unfold dwimNames
  rw [if_neg hne]
  refine hskip _ _ (hskip _ _ fun code' => ?_) code
  have hvalid : names.isValid (Ref.tagsDir ++ name) = true :=
    names.isValid_of_normalize (by rw [hname, hk])
  obtain ⟨u, hu⟩ := Option.isSome_iff_exists.mp hexists
  have hfound : repo.lookupResolved k = some (u.handle k) := by
    unfold Repository.lookupResolved
    rw [if_neg hhead, hu]
    rfl
  refine ⟨u.handle k, ?_⟩
  unfold dwimLoop
  rw [if_pos hvalid, hname, Option.bind_some, hfound]

end Names

/-! ## Replacing one ref -/

section Replace

variable {names : RefNames} {fault : Fault} {repo : Repository} {ref : Ref}

/-- A call that fails throws what can be caught, and it needs a fault. -/
theorem call_throws {σ : Type} {c : Call} {s : σ} {Q : Unit → σ → Prop} {A B : Prop} (h : Q () s) :
    Program.Ends (call fault c) s Q fun e _ =>
      (e = .abort → A) ∧ (fault = none → e ≠ .abort → B) := by
  refine call_ends h fun code hcode => ⟨by simp, fun hnone => ?_⟩
  rw [hnone] at hcode
  cases hcode

/-- What a return and an exception of a replacement say about the ref. -/
def ReplaceEnds (names : RefNames) (fault : Fault) (repo : Repository) (ref : Ref)
    (x : Program Repository Exn Ref) : Prop :=
  Program.Ends x repo
    (fun _ repo' => SafeToReplace names repo ref ∧ ¬Refused repo ref ∧
      ∃ t, repo' = repo.write ref.fullName t)
    (fun e _ => (e = .abort → ¬SafeToReplace names repo ref) ∧
      (fault = none → e ≠ .abort → Refused repo ref))

theorem branchReplace_safety (hbranch : ref.isLocalBranch = true)
    (hname : names.normalize (Ref.headsDir ++ ref.name) = some ref.fullName)
    (hexists : (repo.refs ref.fullName).isSome) (commit : Commit) :
    ReplaceEnds names fault repo ref (branchReplace names fault ref commit) := by
  have hsafe : SafeToReplace names repo ref := by
    intro htag
    rw [Ref.isTag_of_isLocalBranch hbranch] at htag
    cases htag
  have hrefused : ∀ {s : Repository}, Refused repo ref → Program.Ends
      (Program.fail (.gitError .other) : Program Repository Exn Ref) s
      (fun ref' repo' => SafeToReplace names repo ref ∧ ¬Refused repo ref ∧
        ref'.fullName = ref.fullName ∧ ∃ t, repo' = repo.write ref.fullName t)
      (fun e _ => (e = .abort → ¬SafeToReplace names repo ref) ∧
        (fault = none → e ≠ .abort → Refused repo ref)) :=
    fun h => .fail ⟨by simp, fun _ _ => h⟩
  have hcreate : Program.Ends (branchCreate names fault ref.name commit true) repo
      (fun ref' repo' => SafeToReplace names repo ref ∧ ¬Refused repo ref ∧
        ref'.fullName = ref.fullName ∧ ∃ t, repo' = repo.write ref.fullName t)
      (fun e _ => (e = .abort → ¬SafeToReplace names repo ref) ∧
        (fault = none → e ≠ .abort → Refused repo ref)) := by
    unfold branchCreate
    refine .bind (call_throws (.bind (.read ?_)))
    by_cases hhead : ref.name = headFile
    · rw [if_pos hhead]
      exact hrefused ⟨hbranch, Or.inl hhead⟩
    · rw [if_neg hhead, hname]
      simp only [hexists, Bool.not_true, Bool.and_false, Bool.false_eq_true, if_false,
        Bool.true_and, decide_eq_true_eq]
      by_cases hattached : repo.head = .attached ref.fullName
      · rw [if_pos hattached]
        exact hrefused ⟨hbranch, Or.inr hattached⟩
      · rw [if_neg hattached]
        refine .bind (.update (.pure ⟨hsafe, ?_, rfl, _, rfl⟩))
        rintro ⟨-, hname | hhead'⟩
        · exact hhead hname
        · exact hattached hhead'
  unfold ReplaceEnds branchReplace upstream
  refine .bind (.bind (call_throws (.bind (.read (.pure ?_)))))
  refine .bind (hcreate.mono ?_ fun _ _ he => he)
  rintro ref' repo' ⟨-, hnot, hfull, t, rfl⟩
  refine .bind (.bind (call_throws (.bind (.read (.pure ?_)))))
  rw [hfull]
  split
  · next up hup hnone =>
      -- the upstream that was found is still found
      obtain ⟨m, hm, hlookup⟩ := Option.bind_eq_some_iff.mp hup
      have hstays : ((repo.write ref.fullName t).lookup m).isSome :=
        Repository.isSome_lookup_write (by rw [hlookup]; rfl)
      have hm' : (repo.write ref.fullName t).upstreams ref.fullName = some m := hm
      rw [hm', Option.bind_some] at hnone
      rw [hnone] at hstays
      cases hstays
  · exact .bind (.pure (.pure ⟨hsafe, hnot, t, rfl⟩))

/-- Writing a tag that exists and looking it up. -/
theorem tagWrite_safety (hname : names.normalize (Ref.tagsDir ++ ref.name) = some ref.fullName)
    (hfull : ref.fullName = Ref.tagsDir ++ ref.name) (hexists : (repo.refs ref.fullName).isSome)
    (hauthor : ∀ ann, ref.annotation = some ann → ann.author.isSome) (commit : Commit)
    (ann : Option TagAnnotation) :
    ReplaceEnds names fault repo ref
      (gitTagCreate names fault ref.name commit ann true >>= fun _ =>
        tagLookup names fault ref.name) := by
  have hbranch : ¬Refused repo ref := by
    rintro ⟨hlocal, -⟩
    have htag := Ref.isTag_of_isLocalBranch hlocal
    rw [Ref.isTag, hfull] at htag
    cases htag
  unfold ReplaceEnds gitTagCreate
  refine .bind (.bind (call_throws (.bind (.read ?_))))
  rw [hname]
  simp only [hexists, Bool.not_true, Bool.and_false, Bool.false_eq_true, if_false]
  refine .update ?_
  unfold tagLookup refLookup
  refine .bind (call_throws (.bind (.bind (.read ?_))))
  obtain ⟨found, hfound⟩ : ∃ found, dwimLoop names (repo.write ref.fullName ⟨commit, ann⟩)
      (dwimNames ref.name) .notFound = .ok found := dwimLoop_total hname hfull
    (by rw [Repository.refs_write_self]; rfl) .notFound
  rw [hfound]
  refine .pure ?_
  by_cases htag : found.isTag = true
  · rw [if_pos htag]
    refine .pure ⟨fun _ => ⟨hauthor, ?_⟩, hbranch, _, rfl⟩
    rw [← (sameNames_write (t := ⟨commit, ann⟩) hexists).findsTag]
    intro ref' href'
    rw [hfound] at href'
    cases href'
    exact htag
  · rw [if_neg htag]
    refine .fail ⟨fun _ hsafe => ?_, fun _ habort => absurd rfl habort⟩
    have hisTag : ref.isTag = true := by
      rw [Ref.isTag, hfull]
      rfl
    obtain ⟨-, hfinds⟩ := hsafe hisTag
    rw [← (sameNames_write (t := ⟨commit, ann⟩) hexists).findsTag] at hfinds
    exact htag (hfinds found hfound)

theorem refReplace_safety (hmutable : ref.isMutable = true)
    (hname : names.normalize ref.fullName = some ref.fullName)
    (hexists : (repo.refs ref.fullName).isSome) (commit : Commit) :
    ReplaceEnds names fault repo ref (refReplace names fault ref commit) := by
  obtain ⟨-, hfull, hlocal⟩ := Ref.copyDir_of_isMutable hmutable
  unfold refReplace
  by_cases hbranch : ref.isLocalBranch = true
  · rw [if_pos hbranch]
    have hdir : ref.copyDir = Ref.headsDir := if_pos (hlocal.mp hbranch)
    rw [hdir] at hfull
    exact branchReplace_safety hbranch (by rw [hfull, hname]) hexists commit
  · have htag : ref.isTag = true := by simpa [Ref.isMutable, hbranch] using hmutable
    have hdir : ref.copyDir = Ref.tagsDir := if_neg fun h => hbranch (hlocal.mpr h)
    rw [hdir] at hfull
    have hname' : names.normalize (Ref.tagsDir ++ ref.name) = some ref.fullName := by
      rw [hfull, hname]
    rw [if_neg hbranch, if_pos htag]
    unfold tagReplace
    cases hann : ref.annotation with
    | none => exact tagWrite_safety hname' hfull.symm hexists (by simp [hann]) commit none
    | some ann =>
        dsimp only
        unfold tagCreateAnnotated
        cases hauthor : ann.author with
        | none =>
            refine .fail ⟨fun _ hsafe => ?_, fun _ habort => absurd rfl habort⟩
            have := (hsafe htag).1 ann hann
            rw [hauthor] at this
            cases this
        | some author =>
            apply tagWrite_safety hname' hfull.symm hexists
            intro ann' hann'
            rw [hann] at hann'
            cases hann'
            rw [hauthor]
            rfl

end Replace

end Git
end Debase
