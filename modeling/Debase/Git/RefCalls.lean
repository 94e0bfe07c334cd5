import Debase.Git.Refs

/-!
# What the methods of a repository do to its refs

One lemma for each method of `Git/Refs.lean`: what a return and what an exception
say about the refs.  A written tag comes back as its own handle only if its short
name finds it (`CopyClear`); an exception without a failed late call means that
nothing was written.
-/

namespace Debase
namespace Git

open Library

/-- A tag of this name is found by its short name. -/
def TagNameClear (names : RefNames) (repo : Repository) (name : Bytes) : Prop :=
  names.isValid (Ref.tagsDir ++ name) = true ∧
    ∀ f ∈ [name, Ref.refsDir ++ name],
      names.isValid f = true → (names.normalize f).bind repo.lookupResolved = none

instance (names : RefNames) (repo : Repository) (name : Bytes) :
    Decidable (TagNameClear names repo name) :=
  inferInstanceAs (Decidable (_ ∧ ∀ f ∈ [name, Ref.refsDir ++ name], _))

/-- A copy of the ref under this name is found by its short name. -/
def CopyClear (names : RefNames) (repo : Repository) (ref : Ref) (name : Bytes) : Prop :=
  ref.isBranch = false → TagNameClear names repo name

instance (names : RefNames) (repo : Repository) (ref : Ref) (name : Bytes) :
    Decidable (CopyClear names repo ref name) :=
  inferInstanceAs (Decidable (_ → _))

/-- The name is free for a copy of the ref. -/
def Creatable (names : RefNames) (repo : Repository) (ref : Ref) (name : Bytes) : Prop :=
  (ref.isBranch = true → name ≠ headFile) ∧
    ∃ k, names.normalize (ref.copyDir ++ name) = some k ∧ repo.refs k = none

instance (names : RefNames) (repo : Repository) (ref : Ref) (name : Bytes) :
    Decidable (Creatable names repo ref name) :=
  inferInstanceAs
    (Decidable (_ ∧ ∃ k, k ∈ names.normalize (ref.copyDir ++ name) ∧ repo.refs k = none))

/-- The handle says what its ref holds now. -/
def Repository.Current (repo : Repository) (ref : Ref) : Prop :=
  repo.lookup ref.fullName = some ref

namespace Repository

variable {repo : Repository} {k m : Bytes} {t : Target} {ref : Ref}

theorem ne_headFile_of_dir {dir : Bytes} (hdir : dir = Ref.headsDir ∨ dir = Ref.tagsDir)
    (h : dir <+: k) : k ≠ headFile := by
  rintro rfl
  rcases hdir with rfl | rfl
  · exact absurd h (by decide)
  · exact absurd h (by decide)

theorem lookup_of_ne (h : k ≠ headFile) : repo.lookup k = (repo.refs k).map fun t => t.handle k := by
  unfold lookup
  rw [if_neg h]

@[simp] theorem refs_write_self : (repo.write k t).refs k = some t := by
  simp [write]

theorem refs_write_of_ne (h : m ≠ k) : (repo.write k t).refs m = repo.refs m := by
  simp [write, h]

@[simp] theorem refs_remove_self : (repo.remove k).refs k = none := by
  simp [remove]

theorem refs_remove_of_ne (h : m ≠ k) : (repo.remove k).refs m = repo.refs m := by
  simp [remove, h]

theorem lookup_write_self (h : k ≠ headFile) : (repo.write k t).lookup k = some (t.handle k) := by
  rw [lookup_of_ne h, refs_write_self]
  rfl

/-- The ref that is checked out is the one that `HEAD` is attached to, or the one that the
reflog names while `HEAD` is detached at its commit. -/
theorem ref_headResolved {reflogRev : Option GitRev} {head : GitRev}
    (h : repo.headResolved reflogRev = some head) (href : head.ref = some ref) :
    (∃ t, repo.refs ref.fullName = some t ∧ ref = t.handle ref.fullName ∧
        repo.head = .attached ref.fullName ∧ head.commit = ref.commit) ∨
      reflogRev = some head ∧ repo.headCommit = some head.commit := by
  unfold headResolved at h
  obtain ⟨found, hfound, hhead⟩ := Option.map_eq_some_iff.mp h
  unfold lookupResolved at hfound
  rw [if_pos rfl] at hfound
  have hcommit : repo.headCommit = some found.commit := by
    unfold headCommit lookup
    rw [if_pos rfl]
    cases hrepo : repo.head with
    | attached b =>
        rw [hrepo] at hfound
        obtain ⟨t, ht, rfl⟩ := Option.map_eq_some_iff.mp hfound
        simp [ht, Target.handle]
    | detached c =>
        rw [hrepo] at hfound
        cases hfound
        rfl
  by_cases hdir : (found.isBranch || found.isTag) = true
  · rw [if_pos hdir] at hhead
    cases hhead
    cases href
    left
    cases hrepo : repo.head with
    | attached b =>
        rw [hrepo] at hfound
        obtain ⟨t, ht, rfl⟩ := Option.map_eq_some_iff.mp hfound
        exact ⟨t, ht, rfl, rfl, rfl⟩
    | detached c =>
        rw [hrepo] at hfound
        cases hfound
        exact absurd (show (Ref.mk headFile c none).isBranch || (Ref.mk headFile c none).isTag from
          hdir) (by
            show ¬(((Ref.headsDir.isPrefixOf headFile || Ref.remotesDir.isPrefixOf headFile) ||
              Ref.tagsDir.isPrefixOf headFile) = true)
            decide)
  · right
    rw [if_neg hdir] at hhead
    cases reflogRev with
    | none =>
        cases hhead
        cases href
    | some rev =>
        by_cases hsame : (rev.ref.isSome && rev.commit = found.commit) = true
        · simp only [hsame, if_true] at hhead
          subst hhead
          have heq : rev.commit = found.commit := by simpa using (Bool.and_eq_true_iff.mp hsame).2
          exact ⟨rfl, heq ▸ hcommit⟩
        · simp only [hsame, Bool.false_eq_true, if_false] at hhead
          cases hhead
          cases href

/-- What a lookup found before is found after a ref was written, if `HEAD` is not
attached to that ref. -/
theorem lookup_write_of_ne (hhead : repo.head ≠ .attached k) (h : m ≠ k) :
    (repo.write k t).lookup m = repo.lookup m := by
  by_cases hm : m = headFile
  · subst hm
    unfold lookup write
    rw [if_pos rfl, if_pos rfl]
    cases hrepo : repo.head with
    | detached c => rfl
    | attached b =>
        have hb : b ≠ k := fun heq => hhead (by rw [hrepo, heq])
        simp [hb]
  · rw [lookup_of_ne hm, lookup_of_ne hm, refs_write_of_ne h]

theorem lookup_remove_of_ne (hhead : repo.head ≠ .attached k) (h : m ≠ k) :
    (repo.remove k).lookup m = repo.lookup m := by
  by_cases hm : m = headFile
  · subst hm
    unfold lookup remove
    rw [if_pos rfl, if_pos rfl]
    cases hrepo : repo.head with
    | detached c => rfl
    | attached b =>
        have hb : b ≠ k := fun heq => hhead (by rw [hrepo, heq])
        simp [hb]
  · rw [lookup_of_ne hm, lookup_of_ne hm, refs_remove_of_ne h]

/-- A ref that is removed is not found any more. -/
theorem lookup_remove_self (h : k ≠ headFile) : (repo.remove k).lookup k = none := by
  rw [lookup_of_ne h, refs_remove_self]
  rfl

/-- Writing a ref takes no lookup away. -/
theorem isSome_lookup_write (h : (repo.lookup m).isSome) :
    ((repo.write k t).lookup m).isSome := by
  have hrefs : ∀ b, (repo.refs b).isSome → ((repo.write k t).refs b).isSome := by
    intro b hb
    by_cases hbk : b = k
    · rw [hbk, refs_write_self]
      rfl
    · rwa [refs_write_of_ne hbk]
  by_cases hm : m = headFile
  · subst hm
    unfold lookup at h ⊢
    rw [if_pos rfl] at h ⊢
    rw [show (repo.write k t).head = repo.head from rfl]
    cases hrepo : repo.head with
    | detached c => rfl
    | attached b =>
        rw [hrepo] at h
        simpa using hrefs b (by simpa using h)
  · rw [lookup_of_ne hm] at h ⊢
    simpa using hrefs m (by simpa using h)

/-- A name that was free before is free or names the written ref. -/
theorem lookupResolved_write (h : repo.lookupResolved m = none) :
    (repo.write k t).lookupResolved m = none ∨
      (repo.write k t).lookupResolved m = some (t.handle k) := by
  have hrefs : ∀ b, repo.refs b = none →
      (repo.write k t).refs b = none ∨ (b = k ∧ (repo.write k t).refs b = some t) := by
    intro b hb
    by_cases hbk : b = k
    · rw [hbk]
      exact Or.inr ⟨rfl, refs_write_self⟩
    · exact Or.inl (by rw [refs_write_of_ne hbk, hb])
  unfold lookupResolved at h ⊢
  by_cases hm : m = headFile
  · rw [if_pos hm] at h ⊢
    rw [show (repo.write k t).head = repo.head from rfl]
    cases hrepo : repo.head with
    | detached c =>
        rw [hrepo] at h
        cases h
    | attached b =>
        rw [hrepo] at h
        rcases hrefs b (by simpa using h) with hnone | ⟨rfl, hsome⟩
        · exact Or.inl (by simp [hnone])
        · refine Or.inr ?_
          simp [refs_write_self]
  · rw [if_neg hm] at h ⊢
    rcases hrefs m (by simpa using h) with hnone | ⟨rfl, hsome⟩
    · exact Or.inl (by simp [hnone])
    · exact Or.inr (by simp)

/-- What a short name finds is a current handle. -/
theorem current_of_lookupResolved (hhead : repo.head ≠ .attached headFile)
    (h : repo.lookupResolved m = some ref) : repo.Current ref := by
  unfold lookupResolved at h
  unfold Current lookup
  split at h
  · split at h
    · next branch hbranch =>
        obtain ⟨t, ht, rfl⟩ := Option.map_eq_some_iff.mp h
        have hne : branch ≠ headFile := fun heq => hhead (by rw [hbranch, heq])
        simp [hne, ht]
    · next commit hcommit =>
        cases h
        simp
  · next hm =>
      obtain ⟨t, ht, rfl⟩ := Option.map_eq_some_iff.mp h
      simp [hm, ht]

theorem current_write (h : k ≠ headFile) : (repo.write k t).Current (t.handle k) :=
  lookup_write_self h

/-- The ref of a current handle holds what the handle says. -/
theorem Current.refs (h : repo.Current ref) (hne : ref.fullName ≠ headFile) :
    repo.refs ref.fullName = some ref.target := by
  unfold Current at h
  rw [lookup_of_ne hne] at h
  obtain ⟨t, ht, heq⟩ := Option.map_eq_some_iff.mp h
  rw [ht, ← heq]
  rfl

end Repository

namespace Ref

theorem shorthand_append {dir : Bytes} (hdir : dir = headsDir ∨ dir = tagsDir) (n : Bytes) :
    shorthand (dir ++ n) = n := by
  rcases hdir with rfl | rfl
  · rfl
  · rfl

/-! What a ref is depends on its full name alone. -/

theorem name_congr {ref ref' : Ref} (h : ref'.fullName = ref.fullName) : ref'.name = ref.name := by
  rw [name, h, name]

theorem isBranch_congr {ref ref' : Ref} (h : ref'.fullName = ref.fullName) :
    ref'.isBranch = ref.isBranch := by
  unfold isBranch isLocalBranch isRemoteBranch
  rw [h]

theorem isMutable_congr {ref ref' : Ref} (h : ref'.fullName = ref.fullName) :
    ref'.isMutable = ref.isMutable := by
  unfold isMutable isLocalBranch isTag
  rw [h]

theorem copyDir_congr {ref ref' : Ref} (h : ref'.fullName = ref.fullName) :
    ref'.copyDir = ref.copyDir := by
  unfold copyDir
  rw [isBranch_congr h]

theorem isPrefix_of_isLocalBranch {ref : Ref} (h : ref.isLocalBranch = true) :
    headsDir <+: ref.fullName := by
  simpa [isLocalBranch] using h

theorem isPrefix_of_isTag {ref : Ref} (h : ref.isTag = true) : tagsDir <+: ref.fullName := by
  simpa [isTag] using h

/-- A mutable ref is a local branch or a tag, and its full name is its directory
and its short name. -/
theorem copyDir_of_isMutable {ref : Ref} (h : ref.isMutable = true) :
    (ref.copyDir = headsDir ∨ ref.copyDir = tagsDir) ∧
      ref.copyDir ++ ref.name = ref.fullName ∧
      (ref.isLocalBranch = true ↔ ref.isBranch = true) := by
  unfold isMutable at h
  rcases Bool.or_eq_true_iff.mp h with hbranch | htag
  · obtain ⟨n, hn⟩ := isPrefix_of_isLocalBranch hbranch
    have hdir : ref.copyDir = headsDir := by simp [copyDir, isBranch, hbranch]
    refine ⟨Or.inl hdir, ?_, by simp [isBranch, hbranch]⟩
    rw [hdir, name, ← hn, shorthand_append (Or.inl rfl)]
  · obtain ⟨n, hn⟩ := isPrefix_of_isTag htag
    have hlocal : ref.isLocalBranch = false := by
      rw [isLocalBranch, ← hn]
      rfl
    have hremote : ref.isRemoteBranch = false := by
      rw [isRemoteBranch, ← hn]
      rfl
    have hbranch : ref.isBranch = false := by rw [isBranch, hlocal, hremote]; rfl
    have hdir : ref.copyDir = tagsDir := by simp [copyDir, hbranch]
    refine ⟨Or.inr hdir, ?_, by simp [hlocal, hbranch]⟩
    rw [hdir, name, ← hn, shorthand_append (Or.inr rfl)]

theorem isBranch_of_isTag {ref : Ref} (htag : ref.isTag = true) : ref.isBranch = false := by
  obtain ⟨n, hn⟩ := isPrefix_of_isTag htag
  unfold isBranch isLocalBranch isRemoteBranch
  rw [← hn]
  rfl

theorem ne_headFile_of_isMutable {ref : Ref} (h : ref.isMutable = true) :
    ref.fullName ≠ headFile := by
  obtain ⟨hdir, hname, -⟩ := copyDir_of_isMutable h
  exact Repository.ne_headFile_of_dir hdir ⟨ref.name, hname⟩

end Ref

section Specs

variable {names : RefNames} {fault : Fault}

theorem call_ends {σ : Type} {c : Call} {s : σ} {Q : Unit → σ → Prop} {E : Exn → σ → Prop}
    (hQ : Q () s) (hE : ∀ code, fault = some (c, code) → E (.gitError code) s) :
    Program.Ends (call fault c) s Q E := by
  unfold call
  cases hfault : fault with
  | none => exact Program.Ends.pure hQ
  | some f =>
      obtain ⟨failing, code⟩ := f
      dsimp only
      by_cases hc : failing = c
      · rw [if_pos hc]
        exact Program.Ends.fail (hE code (by rw [hfault, hc]))
      · rw [if_neg hc]
        exact Program.Ends.pure hQ

theorem Fault.isLate_of_eq {c : Call} {code : ErrorCode} (h : fault = some (c, code))
    (hc : c.isLate = true) : fault.IsLate := ⟨c, code, h, hc⟩

/-- Whatever a short name finds, it finds a current handle. -/
theorem current_of_dwimLoop {repo : Repository} (hhead : repo.head ≠ .attached headFile)
    {l : List Bytes} {code : ErrorCode} {ref : Ref} (h : dwimLoop names repo l code = .ok ref) :
    repo.Current ref := by
  induction l generalizing code with
  | nil => cases h
  | cons f l ih =>
      unfold dwimLoop at h
      split at h
      · split at h
        · next found hfound =>
            cases h
            obtain ⟨m, -, hm⟩ := Option.bind_eq_some_iff.mp hfound
            exact Repository.current_of_lookupResolved hhead hm
        · exact ih h
      · exact ih h

/-- A name that is clear finds the tag that was just written. -/
theorem dwimLoop_of_clear {repo : Repository} {name k : Bytes} {t : Target} {code : ErrorCode}
    (hclear : TagNameClear names repo name) (hk : names.normalize (Ref.tagsDir ++ name) = some k) :
    dwimLoop names (repo.write k t) (dwimNames name) code = .ok (t.handle k) := by
  obtain ⟨hne, hdir⟩ := names.normalize_dir (Or.inr rfl) hk
  have hhead := Repository.ne_headFile_of_dir (Or.inr rfl) hdir
  -- the two names tried before are free, or stand for the tag itself
  have hskip : ∀ f ∈ [name, Ref.refsDir ++ name], ∀ rest code', (∀ code'',
      dwimLoop names (repo.write k t) rest code'' = .ok (t.handle k)) →
      dwimLoop names (repo.write k t) (f :: rest) code' = .ok (t.handle k) := by
    intro f hf rest code' hrest
    unfold dwimLoop
    by_cases hvalid : names.isValid f = true
    · rw [if_pos hvalid]
      have hfree := hclear.2 f hf hvalid
      cases hm : names.normalize f with
      | none => exact hrest _
      | some m =>
          rw [hm] at hfree
          rcases Repository.lookupResolved_write (k := k) (t := t) hfree with hnone | hsome
          · simp only [Option.bind_some, hnone]
            exact hrest _
          · simp only [Option.bind_some, hsome]
    · rw [if_neg hvalid]
      exact hrest _
  unfold dwimNames
  rw [if_neg hne]
  refine hskip name (by simp) _ _ fun code₁ => hskip _ (by simp) _ _ fun code₂ => ?_
  unfold dwimLoop
  have hfound : (repo.write k t).lookupResolved k = some (t.handle k) := by
    unfold Repository.lookupResolved
    rw [if_neg hhead, Repository.refs_write_self]
    rfl
  rw [if_pos hclear.1, hk, Option.bind_some, hfound]

/-- `tagLookup` does not change the repository; for a tag just written under a
clear name it returns its handle. -/
theorem tagLookup_ends {repo : Repository} {name : Bytes} (hhead : repo.head ≠ .attached headFile) :
    Program.Ends (tagLookup names fault name) repo
      (fun ref repo' => repo' = repo ∧ repo.Current ref ∧
        dwimLoop names repo (dwimNames name) .notFound = .ok ref)
      (fun e repo' => repo' = repo ∧ (e ≠ .abort → ¬fault.IsLate →
        ∃ code, dwimLoop names repo (dwimNames name) .notFound = .error code)) := by
  unfold tagLookup refLookup
  refine .bind (call_ends ?_ fun code hcode => ?_)
  · refine .bind (.bind (.read ?_))
    cases hdwim : dwimLoop names repo (dwimNames name) .notFound with
    | error code => exact .fail ⟨rfl, fun _ _ => ⟨code, rfl⟩⟩
    | ok ref =>
        refine .pure ?_
        by_cases htag : ref.isTag = true
        · rw [if_pos htag]
          exact .pure ⟨rfl, current_of_dwimLoop hhead hdwim, rfl⟩
        · rw [if_neg htag]
          exact .fail ⟨rfl, fun habort => absurd rfl habort⟩
  · exact ⟨rfl, fun _ hlate => absurd (Fault.isLate_of_eq hcode rfl) hlate⟩

/-! ### Creating and replacing -/

theorem branchCreate_ends {repo : Repository} (name : Bytes) (commit : Commit) (force : Bool) :
    Program.Ends (branchCreate names fault name commit force) repo
      (fun ref repo' => ∃ k, names.normalize (Ref.headsDir ++ name) = some k ∧
        (force = false → repo.refs k = none) ∧ repo' = repo.write k ⟨commit, none⟩ ∧
        ref = Target.handle ⟨commit, none⟩ k)
      (fun e repo' => repo' = repo ∧ e ≠ .abort ∧ (name ≠ headFile →
        (∃ k, names.normalize (Ref.headsDir ++ name) = some k ∧
          (repo.refs k = none ∨ force = true ∧ repo.head ≠ .attached k)) →
          fault.At (.branchCreate name))) := by
  unfold branchCreate
  refine .bind (call_ends (.bind (.read ?_)) fun code hcode => ?_)
  · by_cases hname : name = headFile
    · rw [if_pos hname]
      exact .fail ⟨rfl, by simp, fun hne => absurd hname hne⟩
    · rw [if_neg hname]
      cases hk : names.normalize (Ref.headsDir ++ name) with
      | none =>
          refine .fail ⟨rfl, by simp, ?_⟩
          rintro - ⟨k, hnorm, -⟩
          cases hnorm
      | some k =>
          dsimp only
          by_cases hexists : ((repo.refs k).isSome && !force) = true
          · rw [if_pos hexists]
            refine .fail ⟨rfl, by simp, ?_⟩
            rintro - ⟨k', hk', hfree | ⟨rfl, -⟩⟩
            · cases hk'
              simp [hfree] at hexists
            · simp at hexists
          · rw [if_neg hexists]
            -- git refuses to overwrite the branch that is checked out
            by_cases hhead : ((repo.refs k).isSome && repo.head = .attached k) = true
            · rw [if_pos hhead]
              refine .fail ⟨rfl, by simp, ?_⟩
              rintro - ⟨k', hk', hfree | ⟨-, hdetached⟩⟩
              · cases hk'
                simp [hfree] at hhead
              · cases hk'
                simp [hdetached] at hhead
            · rw [if_neg hhead]
              refine .bind (.update (.pure ⟨k, rfl, ?_, rfl, rfl⟩))
              rintro rfl
              simpa using hexists
  · exact ⟨rfl, by simp, fun _ _ => ⟨code, hcode⟩⟩

/-- Writing a tag and looking it up by its short name. -/
theorem tagWrite_ends {repo : Repository} (hhead : repo.head ≠ .attached headFile)
    (name : Bytes) (commit : Commit) (ann : Option TagAnnotation) (force : Bool) :
    Program.Ends
      (gitTagCreate names fault name commit ann force >>= fun _ => tagLookup names fault name) repo
      (fun ref repo' => ∃ k, names.normalize (Ref.tagsDir ++ name) = some k ∧
        (force = false → repo.refs k = none) ∧ repo' = repo.write k ⟨commit, ann⟩ ∧
        repo'.Current ref ∧ (TagNameClear names repo name → ref = Target.handle ⟨commit, ann⟩ k))
      (fun e repo' => (repo' = repo ∨ ∃ k, names.normalize (Ref.tagsDir ++ name) = some k ∧
          (force = false → repo.refs k = none) ∧ repo' = repo.write k ⟨commit, ann⟩) ∧
        (TagNameClear names repo name → e ≠ .abort → ¬fault.IsLate → repo' = repo ∧
          ((∃ k, names.normalize (Ref.tagsDir ++ name) = some k ∧
              (repo.refs k = none ∨ force = true)) →
            fault.At (.tagCreate name)))) := by
  unfold gitTagCreate
  refine .bind (.bind (call_ends (.bind (.read ?_)) fun code hcode => ?_))
  · cases hk : names.normalize (Ref.tagsDir ++ name) with
    | none =>
        refine .fail ⟨Or.inl rfl, fun _ _ _ => ⟨rfl, ?_⟩⟩
        rintro ⟨k, hnorm, -⟩
        cases hnorm
    | some k =>
        dsimp only
        by_cases hexists : ((repo.refs k).isSome && !force) = true
        · rw [if_pos hexists]
          refine .fail ⟨Or.inl rfl, fun _ _ _ => ⟨rfl, ?_⟩⟩
          rintro ⟨k', hk', hfree | rfl⟩
          · cases hk'
            simp [hfree] at hexists
          · simp at hexists
        · rw [if_neg hexists]
          have hnew : force = false → repo.refs k = none := by
            rintro rfl
            simpa using hexists
          have hhead' : (repo.write k ⟨commit, ann⟩).head ≠ .attached headFile := hhead
          -- the tag is written before it is looked up, so a failed lookup leaves it behind
          refine .update ((tagLookup_ends hhead').mono ?_ ?_)
          · rintro ref _ ⟨rfl, hcurrent, hdwim⟩
            refine ⟨k, rfl, hnew, rfl, hcurrent, fun hclear => ?_⟩
            rw [dwimLoop_of_clear hclear hk] at hdwim
            exact (Except.ok.inj hdwim).symm
          · rintro e _ ⟨rfl, hthrown⟩
            refine ⟨Or.inr ⟨k, rfl, hnew, rfl⟩, fun hclear habort hlate => ?_⟩
            obtain ⟨code, hdwim⟩ := hthrown habort hlate
            rw [dwimLoop_of_clear hclear hk] at hdwim
            cases hdwim
  · exact ⟨Or.inl rfl, fun _ _ _ => ⟨rfl, fun _ => ⟨code, hcode⟩⟩⟩

/-- A copy created one ref. -/
def Copied (names : RefNames) (repo : Repository) (ref : Ref) (name : Bytes) (commit : Commit)
    (ref' : Ref) (repo' : Repository) : Prop :=
  ∃ k t, names.normalize (ref.copyDir ++ name) = some k ∧ repo.refs k = none ∧
    t.commit = commit ∧ repo' = repo.write k t ∧ repo'.Current ref' ∧
    (CopyClear names repo ref name → ref' = t.handle k)

/-- A copy failed: if the name was free and clear and no late call failed, then
before it created the ref and because the creation failed. -/
def CopyFailed (names : RefNames) (fault : Fault) (repo : Repository) (ref : Ref) (name : Bytes)
    (e : Exn) (repo' : Repository) : Prop :=
  (repo' = repo ∨
    ∃ k t, names.normalize (ref.copyDir ++ name) = some k ∧ repo.refs k = none ∧
      repo' = repo.write k t) ∧
  (CopyClear names repo ref name → e ≠ .abort → ¬fault.IsLate → repo' = repo ∧
    (ref.isMutable = true → Creatable names repo ref name →
      fault.At (.branchCreate name) ∨ fault.At (.tagCreate name)))

theorem refCopy_ends {repo : Repository} (hhead : repo.head ≠ .attached headFile)
    (ref : Ref) (name : Bytes) (commit : Option Commit) :
    Program.Ends (refCopy names fault ref name commit) repo
      (Copied names repo ref name (commit.getD ref.commit))
      (CopyFailed names fault repo ref name) := by
  unfold refCopy
  dsimp only
  by_cases hbranch : ref.isBranch = true
  · have hdirs : ref.copyDir = Ref.headsDir := if_pos hbranch
    rw [if_pos hbranch]
    refine (branchCreate_ends name (commit.getD ref.commit) false).mono ?_ ?_
    · rintro ref' repo' ⟨k, hk, hfree, rfl, rfl⟩
      have hdir := (names.normalize_dir (Or.inl rfl) hk).2
      exact ⟨k, _, hdirs ▸ hk, hfree rfl, rfl, rfl,
        Repository.current_write (Repository.ne_headFile_of_dir (Or.inl rfl) hdir), fun _ => rfl⟩
    · rintro e repo' ⟨rfl, -, hblocked⟩
      refine ⟨Or.inl rfl, fun _ _ _ => ⟨rfl, fun _ hcreatable => ?_⟩⟩
      obtain ⟨hname, k, hk, hfree⟩ := hcreatable
      rw [hdirs] at hk
      exact Or.inl (hblocked (hname hbranch) ⟨k, hk, Or.inl hfree⟩)
  · have hbranch' : ref.isBranch = false := by simpa using hbranch
    have hdirs : ref.copyDir = Ref.tagsDir := if_neg hbranch
    rw [if_neg hbranch]
    by_cases htag : ref.isTag = true
    · rw [if_pos htag]
      -- an annotation changes what is written, and not where
      have hwrite : ∀ ann, Program.Ends
          (gitTagCreate names fault name (commit.getD ref.commit) ann false >>= fun _ =>
            tagLookup names fault name) repo
          (Copied names repo ref name (commit.getD ref.commit))
          (CopyFailed names fault repo ref name) := by
        intro ann
        refine (tagWrite_ends hhead name (commit.getD ref.commit) ann false).mono ?_ ?_
        · rintro ref' repo' ⟨k, hk, hfree, rfl, hcurrent, hclear⟩
          exact ⟨k, _, hdirs ▸ hk, hfree rfl, rfl, rfl, hcurrent, fun h => hclear (h hbranch')⟩
        · rintro e repo' ⟨hrepo, hblocked⟩
          refine ⟨?_, fun hclear habort hlate => ?_⟩
          · rcases hrepo with rfl | ⟨k, hk, hfree, rfl⟩
            · exact Or.inl rfl
            · exact Or.inr ⟨k, _, hdirs ▸ hk, hfree rfl, rfl⟩
          · obtain ⟨rfl, hat⟩ := hblocked (hclear hbranch') habort hlate
            refine ⟨rfl, fun _ hcreatable => ?_⟩
            obtain ⟨-, k, hk, hfree⟩ := hcreatable
            rw [hdirs] at hk
            exact Or.inr (hat ⟨k, hk, Or.inl hfree⟩)
      cases ref.annotation with
      | none => exact hwrite none
      | some ann =>
          dsimp only
          unfold tagCreateAnnotated
          cases ann.author with
          | none => exact .fail ⟨Or.inl rfl, fun _ habort => absurd rfl habort⟩
          | some author => exact hwrite _
    · rw [if_neg htag]
      refine .fail ⟨Or.inl rfl, fun _ _ _ => ⟨rfl, fun hmutable => ?_⟩⟩
      simp only [Ref.isBranch, Bool.or_eq_false_iff] at hbranch'
      simp [Ref.isMutable, hbranch'.1, htag] at hmutable

/-- A ref was replaced. -/
def Replaced (repo : Repository) (ref : Ref) (commit : Commit) (ref' : Ref)
    (repo' : Repository) : Prop :=
  ∃ ann, repo' = repo.write ref.fullName ⟨commit, ann⟩ ∧
    ref' = Target.handle ⟨commit, ann⟩ ref.fullName

/-- Nothing but a failed call stands in the way of replacing the ref. -/
def Replaceable (repo : Repository) (ref : Ref) : Prop :=
  (ref.isBranch = true → ref.name ≠ headFile) ∧ repo.head ≠ .attached ref.fullName

/-- The call that fails is one of those before a ref is replaced. -/
def Fault.AtReplace (fault : Fault) (ref : Ref) : Prop :=
  fault.At (.upstream ref.fullName) ∨ fault.At (.branchCreate ref.name) ∨
    fault.At (.tagCreate ref.name)

/-- A replacement failed: before it had an effect, unless a late call failed. -/
def ReplaceFailed (fault : Fault) (repo : Repository) (ref : Ref) (e : Exn)
    (repo' : Repository) : Prop :=
  e ≠ .abort → ¬fault.IsLate →
    repo' = repo ∧ (Replaceable repo ref → fault.AtReplace ref)

/-- The upstream of a branch is still there after the branch was replaced, so
`upstreamSet` is never called. -/
theorem branchReplace_ends {repo : Repository} {branch : Ref} (commit : Commit)
    (hname : names.normalize (Ref.headsDir ++ branch.name) = some branch.fullName)
    (hbranch : branch.isBranch = true) :
    Program.Ends (branchReplace names fault branch commit) repo (Replaced repo branch commit)
      (ReplaceFailed fault repo branch) := by
  unfold branchReplace upstream
  refine .bind (.bind (call_ends (.bind (.read (.pure ?_))) fun code hcode _ _ =>
    ⟨rfl, fun _ => Or.inl ⟨code, hcode⟩⟩))
  refine .bind ((branchCreate_ends branch.name commit true).mono ?_ ?_)
  · rintro ref' repo' ⟨k, hk, -, rfl, rfl⟩
    rw [hname] at hk
    cases hk
    refine .bind (.bind (call_ends (.bind (.read (.pure ?_))) fun code hcode _ hlate => ?_))
    · have hstays : ∀ up, (repo.upstreams branch.fullName).bind repo.lookup = some up →
          (((repo.write branch.fullName ⟨commit, none⟩).upstreams branch.fullName).bind
            (repo.write branch.fullName ⟨commit, none⟩).lookup).isSome := by
        intro up hup
        obtain ⟨m, hm, hlookup⟩ := Option.bind_eq_some_iff.mp hup
        have hm' : (repo.write branch.fullName ⟨commit, none⟩).upstreams branch.fullName =
            some m := hm
        rw [hm', Option.bind_some]
        exact Repository.isSome_lookup_write (by rw [hlookup]; rfl)
      rw [Target.fullName_handle]
      split
      · next up hup hnone =>
          have := hstays up hup
          rw [hnone] at this
          cases this
      · exact .bind (.pure (.pure ⟨none, rfl, rfl⟩))
    · exact absurd (Fault.isLate_of_eq hcode rfl) hlate
  · rintro e repo' ⟨rfl, -, hblocked⟩ - -
    refine ⟨rfl, fun hreplaceable => Or.inr (Or.inl ?_)⟩
    exact hblocked (hreplaceable.1 hbranch) ⟨_, hname, Or.inr ⟨rfl, hreplaceable.2⟩⟩

theorem refReplace_ends {repo : Repository} {ref : Ref} (hhead : repo.head ≠ .attached headFile)
    (hmutable : ref.isMutable = true) (hname : names.normalize ref.fullName = some ref.fullName)
    (hclear : CopyClear names repo ref ref.name) (commit : Commit) :
    Program.Ends (refReplace names fault ref commit) repo (Replaced repo ref commit)
      (ReplaceFailed fault repo ref) := by
  obtain ⟨-, hfull, hlocal⟩ := Ref.copyDir_of_isMutable hmutable
  unfold refReplace
  by_cases hbranch : ref.isLocalBranch = true
  · rw [if_pos hbranch]
    have hdir : ref.copyDir = Ref.headsDir := if_pos (hlocal.mp hbranch)
    rw [hdir] at hfull
    exact branchReplace_ends commit (by rw [hfull, hname]) (hlocal.mp hbranch)
  · have hnot : ref.isBranch = false := by
      cases h : ref.isBranch with
      | false => rfl
      | true => exact absurd (hlocal.mpr h) hbranch
    have hdir : ref.copyDir = Ref.tagsDir := if_neg (by rw [hnot]; exact Bool.false_ne_true)
    have htag : ref.isTag = true := by simpa [Ref.isMutable, hbranch] using hmutable
    rw [if_neg hbranch, if_pos htag]
    rw [hdir] at hfull
    -- a tag is written by its short name, which is the one of `ref`
    have hwrite : ∀ ann, Program.Ends
        (gitTagCreate names fault ref.name commit ann true >>= fun _ =>
          tagLookup names fault ref.name) repo (Replaced repo ref commit)
        (ReplaceFailed fault repo ref) := by
      intro ann
      refine (tagWrite_ends hhead ref.name commit ann true).mono ?_ ?_
      · rintro ref' repo' ⟨k, hk, -, rfl, -, hfound⟩
        rw [hfull, hname] at hk
        cases hk
        exact ⟨ann, rfl, hfound (hclear hnot)⟩
      · rintro e repo' ⟨-, hblocked⟩ habort hlate
        obtain ⟨hrepo, hat⟩ := hblocked (hclear hnot) habort hlate
        refine ⟨hrepo, fun _ => Or.inr (Or.inr ?_)⟩
        exact hat ⟨_, by rw [hfull, hname], Or.inr rfl⟩
    unfold tagReplace
    cases ref.annotation with
    | none => exact hwrite none
    | some ann =>
        dsimp only
        unfold tagCreateAnnotated
        cases ann.author with
        | none => exact .fail fun habort => absurd rfl habort
        | some author => exact hwrite _

/-! ### Deleting, `HEAD` and the reflog -/

theorem refDelete_ends {repo : Repository} {ref : Ref} (hmutable : ref.isMutable = true)
    (hcurrent : repo.refs ref.fullName = some ref.target) :
    Program.Ends (refDelete fault ref) repo (fun _ repo' => repo' = repo.remove ref.fullName)
      (fun _ repo' => repo' = repo ∧ fault.IsLate) := by
  unfold refDelete
  rw [if_pos (show (ref.isLocalBranch || ref.isTag) = true from hmutable)]
  refine .bind (call_ends (.bind (.read ?_)) fun code hcode => ?_)
  · rw [if_pos hcurrent]
    exact .update rfl
  · exact ⟨rfl, Fault.isLate_of_eq hcode rfl⟩

theorem headDetach_ends {repo : Repository} {commit : Commit}
    (hcommit : repo.headCommit = some commit) :
    Program.Ends (headDetach fault) repo
      (fun _ repo' => repo' = { repo with head := .detached commit })
      (fun _ repo' => repo' = repo ∧ fault.IsLate) := by
  unfold headDetach
  refine .bind (call_ends (.bind (.read ?_)) fun code hcode => ?_)
  · rw [hcommit]
    exact .update rfl
  · exact ⟨rfl, Fault.isLate_of_eq hcode rfl⟩

/-- A call that only reads. -/
theorem branchNameLocal_ends {repo : Repository} (ref : Ref) :
    Program.Ends (branchNameLocal names fault ref) repo (fun _ repo' => repo' = repo)
      fun _ repo' => repo' = repo := by
  unfold branchNameLocal
  split
  · exact .pure rfl
  · refine .bind (call_ends ?_ fun _ _ => rfl)
    split
    · exact .fail rfl
    · dsimp only
      split
      · exact .pure rfl
      · exact .fail rfl

theorem reflogRememberRef_ends {repo : Repository} (ref : Ref) (hcommit : repo.headCommit.isSome) :
    Program.Ends (reflogRememberRef fault ref) repo (fun _ repo' => repo' = repo)
      (fun _ repo' => repo' = repo ∧ fault.IsLate) := by
  unfold reflogRememberRef
  refine .bind (call_ends (.bind (.read ?_)) fun code hcode => ?_)
  · obtain ⟨commit, hsome⟩ := Option.isSome_iff_exists.mp hcommit
    rw [hsome]
    exact .pure rfl
  · exact ⟨rfl, Fault.isLate_of_eq hcode rfl⟩

theorem revReload_ends {repo : Repository} {c : Call} {rev : GitRev}
    (hexists : ∀ ref, rev.ref = some ref → (repo.lookup ref.fullName).isSome) :
    Program.Ends (revReload fault c rev) repo
      (fun rev' repo' => repo' = repo ∧
        (rev.ref = none → rev' = rev) ∧
        ∀ ref, rev.ref = some ref → ∃ ref', repo.lookup ref.fullName = some ref' ∧
          rev' = ⟨ref'.commit, some ref'⟩)
      (fun _ repo' => repo' = repo ∧ ∃ code, fault = some (c, code)) := by
  unfold revReload
  cases href : rev.ref with
  | none => exact .pure ⟨rfl, fun _ => rfl, by rintro ref ⟨⟩⟩
  | some ref =>
      obtain ⟨ref', hlookup⟩ := Option.isSome_iff_exists.mp (hexists ref href)
      refine .bind (call_ends ?_ fun code hcode => ⟨rfl, code, hcode⟩)
      unfold refFullNameLookup
      refine .bind (.bind (.read ?_))
      rw [hlookup]
      refine .pure (.pure ⟨rfl, by rintro ⟨⟩, ?_⟩)
      rintro _ ⟨⟩
      exact ⟨ref', hlookup, rfl⟩

end Specs

end Git
end Debase
