import Debase.Git.RefSafety

/-!
# A ref that is left alone

What the calls that create, replace and delete refs do to a ref that they are not
about, and to `HEAD`: nothing, also where they throw.  They return a handle of another
ref, unless a tag that was just written is found by its short name as that ref
(`FoundAs`).
-/

namespace Debase
namespace Git

open Library

/-- The ref and `HEAD` are as before, and no ref is gone. -/
structure Untouched (k : Bytes) (repo repo' : Repository) : Prop where
  ref : repo'.refs k = repo.refs k
  head : repo'.head = repo.head
  grows : ∀ b, (repo.refs b).isSome → (repo'.refs b).isSome

/-- A handle of another ref, with the name that libgit2 gives it. -/
structure Elsewhere (names : RefNames) (k : Bytes) (ref : Ref) : Prop where
  ne : ref.fullName ≠ k
  normal : names.normalize ref.fullName = some ref.fullName

/-- Once a tag of this name is written, its short name finds the tag `k`. -/
def FoundAs (names : RefNames) (repo : Repository) (name k : Bytes) : Prop :=
  ∃ m t ref, names.normalize (Ref.tagsDir ++ name) = some m ∧ m ≠ k ∧
    dwimLoop names (repo.write m t) (dwimNames name) .notFound = .ok ref ∧
    ref.isTag = true ∧ ref.fullName = k

/-- No tag has the name yet. -/
def tagFree (names : RefNames) (repo : Repository) (name : Bytes) : Bool :=
  (names.normalize (Ref.tagsDir ++ name)).all fun m => (repo.refs m).isNone

instance (k : Bytes) : Std.Refl (Untouched k) := ⟨fun _ => ⟨rfl, rfl, fun _ h => h⟩⟩

instance (k : Bytes) : IsTrans Repository (Untouched k) where
  trans _ _ _ h h' :=
    ⟨h'.ref.trans h.ref, h'.head.trans h.head, fun b hb => h'.grows b (h.grows b hb)⟩

section Names

variable {names : RefNames} {repo repo' : Repository} {k m : Bytes} {t : Target}

theorem untouched_write (hm : m ≠ k) : Untouched k repo (repo.write m t) where
  ref := Repository.refs_write_of_ne hm.symm
  head := rfl
  grows b hb := by
    by_cases hbm : b = m
    · rw [hbm, Repository.refs_write_self]
      rfl
    · rwa [Repository.refs_write_of_ne hbm]

/-- A name that finds nothing among more refs finds nothing among fewer. -/
theorem lookupResolved_of_grows (hhead : repo'.head = repo.head)
    (hgrows : ∀ b, (repo.refs b).isSome → (repo'.refs b).isSome) {f : Bytes}
    (h : repo'.lookupResolved f = none) : repo.lookupResolved f = none := by
  have hnone : ∀ b, repo'.refs b = none → repo.refs b = none := by
    intro b hb
    by_contra hsome
    have := hgrows b (Option.isSome_iff_ne_none.mpr hsome)
    rw [hb] at this
    cases this
  unfold Repository.lookupResolved at h ⊢
  rw [hhead] at h
  split
  · next hf =>
      rw [if_pos hf] at h
      split
      · next b hb =>
          rw [hb] at h
          simpa using hnone b (by simpa using h)
      · next c hc =>
          rw [hc] at h
          cases h
  · next hf =>
      rw [if_neg hf] at h
      simpa using hnone f (by simpa using h)

/-- What finds a ref of fewer names finds it among more names, or another one. -/
theorem dwimLoop_of_grows (hhead : repo'.head = repo.head)
    (hgrows : ∀ b, (repo.refs b).isSome → (repo'.refs b).isSome) (hk : (repo.refs k).isSome)
    {l : List Bytes} {code code' : ErrorCode} {ref : Ref}
    (h : dwimLoop names repo' l code' = .ok ref) (hfull : ref.fullName = k) :
    ∃ ref₀, dwimLoop names repo l code = .ok ref₀ ∧ ref₀.fullName = k := by
  induction l generalizing code code' with
  | nil => cases h
  | cons f l ih =>
      unfold dwimLoop at h ⊢
      by_cases hvalid : names.isValid f = true
      · rw [if_pos hvalid] at h ⊢
        cases hm : names.normalize f with
        | none =>
            rw [hm] at h
            exact ih h
        | some m =>
            rw [hm] at h
            simp only [Option.bind_some] at h ⊢
            cases hw : repo'.lookupResolved m with
            | none =>
                rw [hw] at h
                rw [lookupResolved_of_grows hhead hgrows hw]
                exact ih h
            | some ref' =>
                rw [hw] at h
                cases h
                -- the same name leads to `k` before
                obtain ⟨t, ht⟩ := Option.isSome_iff_exists.mp hk
                have hname : ∃ ref₀, repo.lookupResolved m = some ref₀ ∧ ref₀.fullName = k := by
                  unfold Repository.lookupResolved at hw ⊢
                  rw [hhead] at hw
                  by_cases hmhead : m = headFile
                  · rw [if_pos hmhead] at hw ⊢
                    cases hrepo : repo.head with
                    | attached b =>
                        rw [hrepo] at hw
                        obtain ⟨u, hu, rfl⟩ := Option.map_eq_some_iff.mp hw
                        obtain rfl : b = k := hfull
                        exact ⟨t.handle b, by simp [ht], rfl⟩
                    | detached c =>
                        rw [hrepo] at hw
                        cases hw
                        exact ⟨_, rfl, hfull⟩
                  · rw [if_neg hmhead] at hw ⊢
                    obtain ⟨u, hu, rfl⟩ := Option.map_eq_some_iff.mp hw
                    obtain rfl : m = k := hfull
                    exact ⟨t.handle m, by simp [ht], rfl⟩
                obtain ⟨ref₀, href₀, hfull₀⟩ := hname
                exact ⟨ref₀, by rw [href₀], hfull₀⟩
      · rw [if_neg hvalid] at h ⊢
        exact ih h

/-- A name that is found as `k` after other refs came up was found as `k` before. -/
theorem FoundAs.of_grows {name : Bytes} (huntouched : Untouched k repo repo')
    (hk : (repo.refs k).isSome) (h : FoundAs names repo' name k) : FoundAs names repo name k := by
  obtain ⟨m, t, ref, hm, hmk, hfound, htag, hfull⟩ := h
  have hgrows : ∀ b, ((repo.write m t).refs b).isSome → ((repo'.write m t).refs b).isSome := by
    intro b hb
    by_cases hbm : b = m
    · rw [hbm, Repository.refs_write_self]
      rfl
    · rw [Repository.refs_write_of_ne hbm] at hb ⊢
      exact huntouched.grows b hb
  have hk' : ((repo.write m t).refs k).isSome := by
    rwa [Repository.refs_write_of_ne hmk.symm]
  have hhead : (repo'.write m t).head = (repo.write m t).head := huntouched.head
  have hbefore : ∃ ref₀, dwimLoop names (repo.write m t) (dwimNames name) .notFound = .ok ref₀ ∧
      ref₀.fullName = k := dwimLoop_of_grows hhead hgrows hk' hfound hfull
  obtain ⟨ref₀, hfound₀, hfull₀⟩ := hbefore
  refine ⟨m, t, ref₀, hm, hmk, hfound₀, ?_, hfull₀⟩
  rw [Ref.isTag_congr (hfull₀.trans hfull.symm)]
  exact htag

/-- A name that is free after other refs came up was free before. -/
theorem tagFree_of_grows {name : Bytes} (huntouched : Untouched k repo repo')
    (h : tagFree names repo' name = true) : tagFree names repo name = true := by
  unfold tagFree at h ⊢
  cases hm : names.normalize (Ref.tagsDir ++ name) with
  | none => rfl
  | some m =>
      rw [hm] at h
      have hnone : repo'.refs m = none := by simpa using h
      cases hr : repo.refs m with
      | none => simp [hr]
      | some t =>
          have hsome := huntouched.grows m (by rw [hr]; rfl)
          rw [hnone] at hsome
          cases hsome

/-- What a short name finds has a normalized name, as `HEAD` has one. -/
theorem normal_of_dwimLoop (hhead : ∀ b, repo.head = .attached b → names.normalize b = some b)
    {l : List Bytes} {code : ErrorCode} {ref : Ref} (h : dwimLoop names repo l code = .ok ref) :
    names.normalize ref.fullName = some ref.fullName := by
  induction l generalizing code with
  | nil => cases h
  | cons f l ih =>
      unfold dwimLoop at h
      split at h
      · split at h
        · next found hfound =>
            cases h
            obtain ⟨m, hm, hlookup⟩ := Option.bind_eq_some_iff.mp hfound
            unfold Repository.lookupResolved at hlookup
            split at hlookup
            · next hmhead =>
                split at hlookup
                · next b hb =>
                    obtain ⟨u, -, rfl⟩ := Option.map_eq_some_iff.mp hlookup
                    exact hhead b hb
                · cases hlookup
                  rw [← hmhead]
                  exact names.normalize_normalize hm
            · obtain ⟨u, -, rfl⟩ := Option.map_eq_some_iff.mp hlookup
              exact names.normalize_normalize hm
        · exact ih h
      · exact ih h

end Names

/-! ## The calls -/

section Calls

variable {names : RefNames} {fault : Fault} {repo : Repository} {k : Bytes}

/-- A call that returns a handle leaves the ref `k` alone, and so is the handle, which is
a tag only if `tag` holds. -/
def LeavesAlone (names : RefNames) (k : Bytes) (tag : Prop) (repo : Repository)
    (x : Program Repository Exn Ref) : Prop :=
  Program.Ends x repo
    (fun ref repo' => Untouched k repo repo' ∧ Elsewhere names k ref ∧ (ref.isTag = true → tag))
    fun _ repo' => Untouched k repo repo'

theorem branchCreate_leavesAlone (hk : (repo.refs k).isSome) {name : Bytes} (commit : Commit)
    {force : Bool} (hforce : force = true → names.normalize (Ref.headsDir ++ name) ≠ some k)
    (tag : Prop) :
    LeavesAlone names k tag repo (branchCreate names fault name commit force) := by
  have hrefl := refl_of (Untouched k) repo
  unfold LeavesAlone branchCreate
  refine .bind (call_ends (.bind (.read ?_)) fun _ _ => hrefl)
  by_cases hname : name = headFile
  · rw [if_pos hname]
    exact .fail hrefl
  · rw [if_neg hname]
    cases hm : names.normalize (Ref.headsDir ++ name) with
    | none => exact .fail hrefl
    | some m =>
        dsimp only
        by_cases hexists : ((repo.refs m).isSome && !force) = true
        · rw [if_pos hexists]
          exact .fail hrefl
        · rw [if_neg hexists]
          have hmk : m ≠ k := by
            rintro rfl
            cases force with
            | false => simp [hk] at hexists
            | true => exact hforce rfl hm
          have hbranch : Ref.isLocalBranch ⟨m, commit, none⟩ = true := by
            simpa [Ref.isLocalBranch] using (names.normalize_dir (Or.inl rfl) hm).2
          split
          · exact .fail hrefl
          · refine .bind (.update (.pure ⟨untouched_write hmk,
              ⟨hmk, names.normalize_normalize hm⟩, fun htag => ?_⟩))
            rw [Ref.isTag_of_isLocalBranch hbranch] at htag
            cases htag

/-- Writing a tag and looking it up by its short name. -/
theorem tagWrite_leavesAlone (hhead : ∀ b, repo.head = .attached b → names.normalize b = some b)
    (hk : (repo.refs k).isSome) {name : Bytes} (commit : Commit) ( annotation : Option TagAnnotation)
    {force : Bool} (hforce : force = true → names.normalize (Ref.tagsDir ++ name) ≠ some k)
    (hfound : (force = false → tagFree names repo name = true) → ¬FoundAs names repo name k) :
    LeavesAlone names k True repo
      (gitTagCreate names fault name commit annotation force >>= fun _ =>
        tagLookup names fault name) := by
  have hrefl := refl_of (Untouched k) repo
  unfold LeavesAlone gitTagCreate
  refine .bind (.bind (call_ends (.bind (.read ?_)) fun _ _ => hrefl))
  cases hm : names.normalize (Ref.tagsDir ++ name) with
  | none => exact .fail hrefl
  | some m =>
      dsimp only
      by_cases hexists : ((repo.refs m).isSome && !force) = true
      · rw [if_pos hexists]
        exact .fail hrefl
      · rw [if_neg hexists]
        -- without `force` the tag is new, and with it the caller excludes this name
        have hmk : m ≠ k := by
          rintro rfl
          cases force with
          | false => simp [hk] at hexists
          | true => exact hforce rfl hm
        have hfree : force = false → tagFree names repo name = true := by
          rintro rfl
          simpa [tagFree, hm] using hexists
        refine .update ?_
        have hwrote : Untouched k repo (repo.write m ⟨commit, annotation⟩) := untouched_write hmk
        unfold tagLookup refLookup
        refine .bind (call_ends (.bind (.bind (.read ?_))) fun _ _ => hwrote)
        cases hdwim : dwimLoop names (repo.write m ⟨commit, annotation⟩) (dwimNames name)
            .notFound with
        | error code => exact .fail hwrote
        | ok ref =>
            refine .pure ?_
            split
            · next htag =>
                have hhead' : ∀ b, (repo.write m ⟨commit, annotation⟩).head = .attached b →
                    names.normalize b = some b := hhead
                refine .pure ⟨hwrote, ⟨fun hfull => hfound hfree ?_,
                  normal_of_dwimLoop hhead' hdwim⟩, fun _ => trivial⟩
                -- the tag that was written is found as another one
                exact ⟨m, _, ref, hm, hmk, hdwim, htag, hfull⟩
            · exact .fail hwrote

theorem tagCreate_leavesAlone (hhead : ∀ b, repo.head = .attached b → names.normalize b = some b)
    (hk : (repo.refs k).isSome) {ref : Ref} {name : Bytes} (commit : Commit) {force : Bool}
    (hforce : force = true → names.normalize (Ref.tagsDir ++ name) ≠ some k)
    (hfound : (force = false → tagFree names repo name = true) → ¬FoundAs names repo name k) :
    LeavesAlone names k True repo
      (match ref.annotation with
        | some ann => tagCreateAnnotated names fault name commit ann.author ann.message force
        | none => tagCreate names fault name commit force) := by
  cases ref.annotation with
  | none => exact tagWrite_leavesAlone hhead hk commit none hforce hfound
  | some ann =>
      dsimp only
      unfold tagCreateAnnotated
      cases ann.author with
      | none => exact Program.Ends.fail (refl_of (Untouched k) repo)
      | some author => exact tagWrite_leavesAlone hhead hk commit _ hforce hfound

theorem refReplace_leavesAlone (hhead : ∀ b, repo.head = .attached b → names.normalize b = some b)
    (hk : (repo.refs k).isSome) {ref : Ref} (href : Elsewhere names k ref) (commit : Commit)
    (hfound : ref.isTag = true → ¬FoundAs names repo ref.name k) :
    LeavesAlone names k (ref.isTag = true) repo (refReplace names fault ref commit) := by
  have hrefl := refl_of (Untouched k) repo
  unfold refReplace
  by_cases hbranch : ref.isLocalBranch = true
  · rw [if_pos hbranch]
    obtain ⟨n, hn⟩ := Ref.isPrefix_of_isLocalBranch hbranch
    have hfull : Ref.headsDir ++ ref.name = ref.fullName := by
      rw [Ref.name, ← hn, Ref.shorthand_append (Or.inl rfl)]
    unfold LeavesAlone branchReplace upstream
    refine .bind (.bind (call_ends (.bind (.read (.pure ?_))) fun _ _ => hrefl))
    refine .bind ((branchCreate_leavesAlone hk commit ?_ (ref.isTag = true)).mono ?_ fun _ _ he => he)
    · rw [hfull, href.normal]
      exact fun _ heq => href.ne (Option.some.inj heq)
    · rintro ref' repo' ⟨huntouched, hresult⟩
      refine .bind (.bind (call_ends (.bind (.read (.pure ?_))) fun _ _ => huntouched))
      -- the upstream of the branch is set again on the new one
      split
      · unfold upstreamSet
        refine .bind (.bind (call_ends (.bind (.read ?_)) fun _ _ => huntouched))
        dsimp only
        split
        · exact .fail huntouched
        · exact .update (.pure ⟨⟨huntouched.ref, huntouched.head, huntouched.grows⟩, hresult⟩)
      · exact .bind (.pure (.pure ⟨huntouched, hresult⟩))
  · rw [if_neg hbranch]
    by_cases htag : ref.isTag = true
    · rw [if_pos htag]
      obtain ⟨n, hn⟩ := Ref.isPrefix_of_isTag htag
      have hfull : Ref.tagsDir ++ ref.name = ref.fullName := by
        rw [Ref.name, ← hn, Ref.shorthand_append (Or.inr rfl)]
      refine (tagCreate_leavesAlone hhead hk commit ?_ fun _ => hfound htag).mono ?_
        fun _ _ he => he
      · rw [hfull, href.normal]
        exact fun _ heq => href.ne (Option.some.inj heq)
      · rintro ref' repo' ⟨huntouched, helsewhere, -⟩
        exact ⟨huntouched, helsewhere, fun _ => htag⟩
    · rw [if_neg htag]
      exact .fail hrefl

theorem refCopy_leavesAlone (hhead : ∀ b, repo.head = .attached b → names.normalize b = some b)
    (hk : (repo.refs k).isSome) {ref : Ref} {name : Bytes} (commit : Option Commit)
    (hfound : ref.isTag = true → tagFree names repo name = true → ¬FoundAs names repo name k) :
    LeavesAlone names k (ref.isTag = true) repo (refCopy names fault ref name commit) := by
  unfold refCopy
  dsimp only
  split
  · exact branchCreate_leavesAlone hk _ (fun h => by cases h) _
  · split
    · next htag =>
        refine (tagCreate_leavesAlone hhead hk _ (fun h => by cases h) fun hfree =>
          hfound htag (hfree rfl)).mono ?_ fun _ _ he => he
        rintro ref' repo' ⟨huntouched, helsewhere, -⟩
        exact ⟨huntouched, helsewhere, fun _ => htag⟩
    · exact Program.Ends.fail (refl_of (Untouched k) repo)

theorem ne_exists_of_dwimLoop {l : List Bytes} {code code' : ErrorCode} (hcode : code ≠ .exists)
    (h : dwimLoop names repo l code = .error code') : code' ≠ .exists := by
  induction l generalizing code with
  | nil =>
      cases h
      exact hcode
  | cons f l ih =>
      unfold dwimLoop at h
      split at h
      · split at h
        · cases h
        · exact ih (by simp) h
      · exact ih (by simp) h

/-- A copy of a tag fails without effect where its name is taken, and where it is free it
does not fail with the error for a taken one. -/
theorem tagCopy_errors {ref : Ref} (htag : ref.isTag = true) {name : Bytes} (commit : Commit)
    (hfault : ∀ c, fault ≠ some (c, .exists)) :
    Program.Ends (refCopy names fault ref name (some commit)) repo
      (fun _ _ => tagFree names repo name = true)
      fun e repo' => (tagFree names repo name = false → repo' = repo) ∧
        (tagFree names repo name = true → e ≠ .gitError .exists) := by
  -- no call says by itself that a ref exists
  have hcall : ∀ {c : Call} {s : Repository} {Q : Unit → Repository → Prop}
      {E : Exn → Repository → Prop}, Q () s →
      (∀ e, e ≠ .gitError .exists → E e s) → Program.Ends (call fault c) s Q E := by
    intro c s Q E hQ hE
    refine call_ends hQ fun code hcode => hE _ ?_
    rintro ⟨⟩
    exact hfault c hcode
  have hwrite : ∀ ann, Program.Ends
      (gitTagCreate names fault name commit ann false >>= fun _ => tagLookup names fault name) repo
      (fun _ _ => tagFree names repo name = true)
      fun e repo' => (tagFree names repo name = false → repo' = repo) ∧
        (tagFree names repo name = true → e ≠ .gitError .exists) := by
    intro ann
    unfold gitTagCreate tagFree
    refine .bind (.bind (hcall (.bind (.read ?_)) fun e he => ⟨fun _ => rfl, fun _ => he⟩))
    cases hm : names.normalize (Ref.tagsDir ++ name) with
    | none => exact .fail ⟨fun _ => rfl, fun _ => by simp⟩
    | some m =>
        dsimp only
        by_cases hexists : (repo.refs m).isSome = true
        · rw [hexists]
          refine .fail ⟨fun _ => rfl, fun hfree => ?_⟩
          obtain ⟨u, hu⟩ := Option.isSome_iff_exists.mp hexists
          simp [hu] at hfree
        · have hnone : repo.refs m = none := by simpa using hexists
          have hfree : (some m).all (fun m => (repo.refs m).isNone) = true := by simp [hnone]
          rw [hnone, hfree]
          -- the tag is written, and only the lookup can fail now
          refine .update ?_
          unfold tagLookup refLookup
          refine .bind (hcall (.bind (.bind (.read ?_))) fun e he => ⟨nofun, fun _ => he⟩)
          cases hdwim : dwimLoop names (repo.write m ⟨commit, ann⟩) (dwimNames name) .notFound with
          | error code =>
              refine .fail ⟨nofun, fun _ heq => ?_⟩
              exact ne_exists_of_dwimLoop (by simp) hdwim (Exn.gitError.inj heq)
          | ok found =>
              refine .pure ?_
              split
              · exact .pure rfl
              · exact .fail ⟨nofun, fun _ => by simp⟩
  have hbranch := Ref.isBranch_of_isTag htag
  unfold refCopy
  simp only [hbranch, htag, Bool.false_eq_true, if_false, if_true, Option.getD_some]
  cases ref.annotation with
  | none => exact hwrite none
  | some ann =>
      dsimp only
      unfold tagCreateAnnotated
      cases ann.author with
      | none => exact .fail ⟨fun _ => rfl, fun _ => by simp⟩
      | some author => exact hwrite _

/-- Deleting another ref. -/
theorem refDelete_leavesAlone {ref : Ref} (hne : ref.fullName ≠ k) :
    Program.Ends (refDelete fault ref) repo
      (fun _ repo' => repo'.refs k = repo.refs k ∧ repo'.head = repo.head)
      fun _ repo' => repo'.refs k = repo.refs k ∧ repo'.head = repo.head := by
  unfold refDelete
  split
  · refine .bind (call_ends (.bind (.read ?_)) fun _ _ => ⟨rfl, rfl⟩)
    split
    · exact .update ⟨Repository.refs_remove_of_ne hne.symm, rfl⟩
    · exact .fail ⟨rfl, rfl⟩
  · exact .fail ⟨rfl, rfl⟩

end Calls

end Git
end Debase
