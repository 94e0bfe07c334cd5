import Debase.Git.Combine
import Debase.Git.MergeText

/-!
# Assertions while commits are rewritten

The asserts, aborts and null dereferences that `Modify::Exec` can reach before it
replaces a ref, as far as the callers' guarantees (`Op.Issued`) go.  Walks down a
chain stop before they run off the root, a conflict is always resolved from an
entry that is there, and the only assertion left is the one of `commitAmend`, which
has room for four parents.

The same lemmas serve two kinds of surroundings: one where every call may throw
anything a caller can catch, and one where no call throws.
-/

namespace Debase
namespace Git

open Library

/-- Everything on the right of related lists is related to something on the left. -/
theorem exists_of_forall₂ {α β : Type} {R : α → β → Prop} {l : List α} {l' : List β}
    (h : List.Forall₂ R l l') {b : β} (hb : b ∈ l') : ∃ a ∈ l, R a b := by
  induction h with
  | nil => simp at hb
  | cons hab _ ih =>
      rcases List.mem_cons.mp hb with rfl | hb
      · exact ⟨_, List.mem_cons_self, hab⟩
      · obtain ⟨a, ha, hrest⟩ := ih hb
        exact ⟨a, List.mem_cons_of_mem _ ha, hrest⟩

/-- What a caller can catch: every exception but a failed assertion. -/
def Catchable (e : Exn) : Prop := e ≠ .abort

/-! ## Conflicts -/

namespace Index

/-- At most one entry for each path and stage. -/
def Distinct (index : Index) : Prop :=
  index.entries.Pairwise fun d e => ¬(d.path = e.path ∧ d.stage = e.stage)

/-- One of the sides that `ConflictResolve` takes the mode from is there. -/
def HasSide (index : Index) (path : Path) : Prop :=
  ((index.find path .theirs).or (index.find path .ours)).isSome

/-- The entries of all other paths are the same. -/
def SameElsewhere (path : Path) (index index' : Index) : Prop :=
  index'.entries.filter (fun e => e.path ≠ path) = index.entries.filter fun e => e.path ≠ path

variable {index index' : Index} {path p : Path}

theorem SameElsewhere.trans {index'' : Index} (h : SameElsewhere path index index')
    (h' : SameElsewhere path index' index'') : SameElsewhere path index index'' :=
  Eq.trans h' h

/-- What is found for a path depends on its entries alone. -/
theorem find_eq (h : p ≠ path) (st : Stage) :
    index.find p st =
      (index.entries.filter fun e => e.path ≠ path).find? fun e => e.path = p && e.stage = st := by
  unfold find
  rw [List.find?_filter]
  congr 1
  ext e
  by_cases hp : e.path = p
  · have hne : e.path ≠ path := hp ▸ h
    simp [hp, h]
  · simp [hp]

theorem SameElsewhere.hasSide (h : SameElsewhere path index index') (hp : p ≠ path)
    (hside : index.HasSide p) : index'.HasSide p := by
  unfold HasSide at hside ⊢
  rwa [find_eq hp, find_eq hp, show index'.entries.filter _ = _ from h, ← find_eq hp, ← find_eq hp]

theorem sameElsewhere_add {entry : IndexEntry} (h : entry.path = path) (index : Index) :
    SameElsewhere path index (index.add entry) := by
  subst h
  unfold SameElsewhere add
  rw [List.filter_append, List.filter_filter]
  rw [List.filter_cons_of_neg (by simp), List.filter_nil, List.append_nil]
  apply List.filter_congr
  intro e _
  by_cases hpath : e.path = entry.path
  · simp [hpath]
  · simp [hpath]

theorem sameElsewhere_remove (h : index.remove path = .ok index') :
    SameElsewhere path index index' := by
  unfold remove at h
  split at h
  · cases h
    unfold SameElsewhere
    dsimp only
    induction index.entries with
    | nil => rfl
    | cons e es ih =>
        by_cases hpath : e.path = path
        · simp [hpath]
        · simpa [List.eraseP_cons, hpath] using ih
  · cases h

theorem sameElsewhere_conflictClear (h : index.conflictClear path = .ok index') :
    SameElsewhere path index index' := by
  unfold conflictClear at h
  split at h
  · cases h
    unfold SameElsewhere
    dsimp only
    rw [List.filter_filter]
    apply List.filter_congr
    intro e _
    by_cases hpath : e.path = path
    · simp [hpath]
    · simp [hpath]
  · cases h

end Index

/-- The stage of an entry is free if no scanned entry has its path and stage. -/
theorem collectEntry_total {done : List IndexEntry} {m : ConflictMap} (h : SourcedFrom done m)
    {e : IndexEntry} (hfree : ∀ d ∈ done, ¬(d.path = e.path ∧ d.stage = e.stage)) :
    ∃ m', collectEntry m e = .ok m' := by
  by_cases hstage : e.stage = .normal
  · exact ⟨m, collectEntry_normal hstage m⟩
  · have hnone : (m[e.path]?.getD {}).entryAt e.stage = none := by
      cases hx : (m[e.path]?.getD {}).entryAt e.stage with
      | none => rfl
      | some x =>
          obtain ⟨hmem, hpath, hst⟩ := h.record hx
          exact absurd ⟨hpath, hst⟩ (hfree x hmem)
    exact ⟨_, by rw [collectEntry_eq hstage, hnone, if_neg (by simp)]⟩

theorem foldlM_collectEntry_total {entries : List IndexEntry} (done : List IndexEntry)
    {m : ConflictMap}
    (h : SourcedFrom done m)
    (hdistinct : entries.Pairwise fun d e => ¬(d.path = e.path ∧ d.stage = e.stage))
    (hfree : ∀ d ∈ done, ∀ e ∈ entries, ¬(d.path = e.path ∧ d.stage = e.stage)) :
    ∃ m', entries.foldlM collectEntry m = .ok m' := by
  induction entries generalizing done m with
  | nil => exact ⟨m, rfl⟩
  | cons e entries ih =>
      rw [List.pairwise_cons] at hdistinct
      obtain ⟨m₁, hfirst⟩ := collectEntry_total h fun d hd => hfree d hd e List.mem_cons_self
      obtain ⟨m', hrest⟩ := ih _ (h.collectEntry hfirst) hdistinct.2 (by
        intro d hd x hx
        rcases List.mem_append.mp hd with hd | hd
        · exact hfree d hd x (List.mem_cons_of_mem _ hx)
        · rw [List.mem_singleton.mp hd]
          exact hdistinct.1 x hx)
      refine ⟨m', ?_⟩
      rw [List.foldlM_cons, hfirst]
      exact hrest

/-- The calls of a repo throw what can be caught, and a merge of trees makes an index
as libgit2 keeps one. -/
structure Repo.Civil {σ : Type} (repo : Repo σ) : Prop where
  mergeTrees (favor : FileFavor) (ancestor ours theirs : Option Tree) :
    Program.Yields Index.Distinct Catchable (repo.mergeTrees favor ancestor ours theirs)
  indexWrite (index : Index) :
    Program.Yields (fun _ => True) Catchable (repo.indexWrite index)
  commitStore (commit : Commit) :
    Program.Yields (fun _ => True) Catchable (repo.commitStore commit)
  merge (ancestor ours theirs : Option IndexEntry) :
    Program.Yields (fun _ => True) Catchable (repo.merge ancestor ours theirs)
  blobLookup (id : Oid) : Program.Yields (fun _ => True) Catchable (repo.blobLookup id)
  blobCreate (data : Bytes) : Program.Yields (fun _ => True) Catchable (repo.blobCreate data)

theorem Repo.Civil.zoom {σ τ : Type} {get : τ → σ} {set : σ → τ → τ} {repo : Repo σ}
    (h : repo.Civil) : (repo.zoom get set).Civil where
  mergeTrees _ _ _ _ := (h.mergeTrees _ _ _ _).zoom
  indexWrite _ := (h.indexWrite _).zoom
  commitStore _ := (h.commitStore _).zoom
  merge _ _ _ := (h.merge _ _ _).zoom
  blobLookup _ := (h.blobLookup _).zoom
  blobCreate _ := (h.blobCreate _).zoom

section Conflicts

variable {σ : Type} {strings : Toastbox.Strings} {repo : Repo σ}

theorem conflictOf_yields {E : Exn → Prop}
    (hmerge : ∀ ancestor ours theirs,
      Program.Yields (fun _ => True) E (repo.merge ancestor ours theirs))
    (hlookup : ∀ id, Program.Yields (fun _ => True) E (repo.blobLookup id))
    (hunsupported : E (.runtimeError "unsupported conflict scenario")) (path : Path)
    (c : IndexConflict) :
    Program.Yields (fun fc => fc.path = path ∧ (c.ours.isSome ∨ c.theirs.isSome)) E
      (conflictOf strings repo path c) := by
  have hlines : ∀ e, Program.Yields (fun _ => True) E (sideLines strings repo e) := by
    intro e
    unfold sideLines
    split
    · split
      · exact (hlookup _).bind fun _ _ => .pure trivial
      · exact .pure trivial
    · exact .pure trivial
  have hside : ∀ e : Option IndexEntry, objType e ≠ objTypeNone → e.isSome := by
    intro e he
    cases e with
    | none => exact absurd rfl he
    | some e => rfl
  have hfile : objTypeFile ≠ objTypeNone := by decide
  have hlink : objTypeGitlink ≠ objTypeNone := by decide
  unfold conflictOf
  dsimp only
  split
  · next hboth =>
      exact (hmerge _ _ _).bind fun _ _ =>
        .pure ⟨rfl, Or.inl (hside _ (hboth.1 ▸ hfile))⟩
  · split
    · next hboth => exact .pure ⟨rfl, Or.inl (hside _ (hboth.1 ▸ hlink))⟩
    · split
      · next hone =>
          have hsome : c.ours.isSome ∨ c.theirs.isSome := by
            rcases hone with hours | htheirs
            · exact Or.inl (hside _ (hours.1 ▸ hfile))
            · exact Or.inr (hside _ (htheirs.2 ▸ hfile))
          exact (hlines _).bind fun _ _ => (hlines _).bind fun _ _ => .pure ⟨rfl, hsome⟩
      · exact Program.Yields.fail hunsupported

/-- The conflicts of an index have a path each, with a side in the index, and no
other path is in conflict. -/
structure Index.Conflicted (index : Index) (fcs : List Conflict) : Prop where
  paths : (fcs.map Conflict.path).Nodup
  sides : ∀ fc ∈ fcs, index.HasSide fc.path
  covers : ∀ e ∈ index.entries, e.stage ≠ .normal → e.path ∈ fcs.map Conflict.path

theorem conflictsGet_yields {E : Exn → Prop}
    (hmerge : ∀ ancestor ours theirs,
      Program.Yields (fun _ => True) E (repo.merge ancestor ours theirs))
    (hlookup : ∀ id, Program.Yields (fun _ => True) E (repo.blobLookup id))
    (hunsupported : E (.runtimeError "unsupported conflict scenario")) {index : Index}
    (hindex : index.Distinct) :
    Program.Yields index.Conflicted E (conflictsGet strings repo index) := by
  obtain ⟨m, hm⟩ := foldlM_collectEntry_total [] (sourcedFrom_empty []) hindex (by simp)
  have hsourced := (sourcedFrom_empty []).foldlM hm
  rw [List.nil_append] at hsourced
  obtain ⟨hcollected, -⟩ := foldlM_collectEntry_ok hm
  unfold conflictsGet
  rw [hm, Program.lift_ok, pure_bind]
  refine (Program.Yields.mapM (P := fun x fc => fc.path = x.1 ∧ (x.2.ours.isSome ∨ x.2.theirs.isSome))
    m.toList fun x _ => conflictOf_yields hmerge hlookup hunsupported x.1 x.2).mono ?_
    fun _ he => he
  intro fcs hfcs
  have hpaths : fcs.map Conflict.path = m.keys := by
    rw [← Std.ExtTreeMap.map_fst_toList_eq_keys]
    generalize m.toList = l at hfcs
    induction hfcs with
    | nil => rfl
    | cons hfc _ ih => rw [List.map_cons, List.map_cons, ih, hfc.1]
  constructor
  · rw [hpaths]
    exact Std.ExtTreeMap.nodup_keys
  · intro fc hfc
    obtain ⟨⟨path, c⟩, hx, hpath, hsome⟩ := exists_of_forall₂ hfcs hfc
    have hget : m[path]? = some c := Std.ExtTreeMap.mem_toList_iff_getElem?_eq_some.mp hx
    have hfound : ∀ st e, c.entryAt st = some e → (index.find fc.path st).isSome := by
      intro st e he
      obtain ⟨hmem, hepath, hest⟩ := hsourced path c hget st e he
      unfold Index.find
      rw [List.find?_isSome]
      exact ⟨e, hmem, by simp [hepath, hest, hpath]⟩
    unfold Index.HasSide
    rw [Option.isSome_or, Bool.or_eq_true]
    rcases hsome with hours | htheirs
    · obtain ⟨e, he⟩ := Option.isSome_iff_exists.mp hours
      exact Or.inr (hfound .ours e he)
    · obtain ⟨e, he⟩ := Option.isSome_iff_exists.mp htheirs
      exact Or.inl (hfound .theirs e he)
  · intro e he hstage
    obtain ⟨c, hc, -⟩ := hcollected e he hstage
    rw [hpaths, Std.ExtTreeMap.mem_keys]
    exact Std.ExtTreeMap.mem_iff_isSome_getElem?.mpr (by rw [hc]; rfl)

/-- A conflict with a side in the index is resolved or ends in an exception, and
nothing happens to the other paths. -/
theorem conflictResolve_yields (hrepo : repo.Civil) {index : Index} {conflict : Conflict}
    (hside : index.HasSide conflict.path) (content : Option Bytes) :
    Program.Yields (Index.SameElsewhere conflict.path index) Catchable
      (conflictResolve repo index conflict content) := by
  have hremove : ∀ e, index.remove conflict.path = .error e → Catchable e := by
    intro e he
    unfold Index.remove at he
    split at he
    · cases he
    · cases he
      simp [Catchable]
  have hclear : ∀ (i : Index) e, i.conflictClear conflict.path = .error e → Catchable e := by
    intro i e he
    unfold Index.conflictClear at he
    split at he
    · cases he
    · cases he
      simp [Catchable]
  -- an error of `IdFromString` can be caught
  have hid : ∀ s e, idFromString s = .error e → Catchable e := by
    intro s e he
    unfold idFromString at he
    split at he
    · split at he
      · cases he
      · cases he
        simp [Catchable]
    · cases he
      simp [Catchable]
  unfold conflictResolve
  unfold Index.HasSide at hside
  split
  · next hnone =>
      rw [hnone] at hside
      cases hside
  · next entryPrev _ =>
      have hadd : ∀ id, Index.SameElsewhere conflict.path index
          (index.add ⟨conflict.path, .normal, entryPrev.mode, id⟩) := by
        intro id
        apply Index.sameElsewhere_add
        rfl
      have hreplace : Program.Yields (Index.SameElsewhere conflict.path index) Catchable
          (conflictReplace repo index conflict content entryPrev) := by
        unfold conflictReplace
        split
        · exact (hrepo.blobCreate _).bind fun _ _ => .pure (hadd _)
        · exact .lift (fun _ h => Index.sameElsewhere_remove h) hremove
        · apply Program.Yields.fail
          simp [Catchable]
        · exact (Program.Yields.lift (Q := fun _ => True) (fun _ _ => trivial) (hid _)).bind
            fun _ _ => .pure (hadd _)
      exact hreplace.bind fun i hi =>
        .lift (fun _ h => hi.trans (Index.sameElsewhere_conflictClear h)) (hclear i)

end Conflicts

/-! ## Surroundings -/

/-- Every call of an operation's surroundings throws what can be caught. -/
structure Ctx.Civil {σ : Type} (ctx : Ctx σ) : Prop where
  repo : ctx.repo.Civil
  spawn (content : Bytes) : Program.Yields (fun _ => True) Catchable (ctx.spawn content)
  conflictsResolve (index : Index) (conflicts : List Conflict) :
    Program.Yields (fun _ => True) Catchable (ctx.conflictsResolve index conflicts)

/-- Merging trees, with the conflicts handled, and writing objects throw exceptions in
`E` only. -/
structure Ctx.Throws {σ : Type} (E : Exn → Prop) (ctx : Ctx σ) : Prop where
  merges {favor : FileFavor} (hfavor : favor = .normal ∨ favor = .theirs)
    (ancestor ours theirs : Option Tree) : Program.Yields (fun _ => True) E
      (ctx.repo.mergeTrees favor ancestor ours theirs >>= Modify.conflictsHandle ctx favor)
  indexWrite (index : Index) : Program.Yields (fun _ => True) E (ctx.repo.indexWrite index)
  commitStore (commit : Commit) : Program.Yields (fun _ => True) E (ctx.repo.commitStore commit)

namespace Modify

section Rewriting

variable {σ : Type} {ctx : Ctx σ} {E : Exn → Prop}

/-- Handling the conflicts of an index reaches no assertion. -/
theorem conflictsHandle_yields (hctx : ctx.Civil) {favor : FileFavor}
    (hfavor : favor = .normal ∨ favor = .theirs) {index : Index} (hindex : index.Distinct) :
    Program.Yields (fun _ => True) Catchable (conflictsHandle ctx favor index) := by
  unfold conflictsHandle
  split
  · exact .pure trivial
  · have hunsupported : Catchable (.runtimeError "unsupported conflict scenario") := by
      simp [Catchable]
    apply (conflictsGet_yields hctx.repo.merge hctx.repo.blobLookup hunsupported hindex).bind
    intro fcs hfcs
    rcases hfavor with rfl | rfl
    · exact hctx.conflictsResolve _ _
    · -- the conflicts that are left still have a side to resolve them from
      refine (Program.Yields.foldlM (I := fun fcs index =>
        (fcs.map Conflict.path).Nodup ∧ ∀ fc ∈ fcs, index.HasSide fc.path)
        ?_ fcs ⟨hfcs.paths, hfcs.sides⟩).mono (fun _ _ => trivial) fun _ he => he
      rintro fc fcs index ⟨hnodup, hall⟩
      rw [List.map_cons, List.nodup_cons] at hnodup
      refine (conflictResolve_yields hctx.repo (hall fc List.mem_cons_self) _).mono ?_
        fun _ he => he
      intro index' hsame
      refine ⟨hnodup.2, fun fc' hfc' => hsame.hasSide ?_ (hall fc' (List.mem_cons_of_mem _ hfc'))⟩
      intro heq
      exact hnodup.1 (heq ▸ List.mem_map_of_mem hfc')

theorem throws_of_civil (hctx : ctx.Civil) : ctx.Throws Catchable where
  merges hfavor ancestor ours theirs :=
    (hctx.repo.mergeTrees _ ancestor ours theirs).bind fun _ hindex =>
      conflictsHandle_yields hctx hfavor hindex
  indexWrite := hctx.repo.indexWrite
  commitStore := hctx.repo.commitStore

/-- Conflicts are only handled by the user or by taking their side. -/
theorem fileFavor_cases (src : Rev) (dst : Option Rev) :
    fileFavor src dst = .normal ∨ fileFavor src dst = .theirs := by
  unfold fileFavor
  split
  · exact Or.inr rfl
  · split
    · exact Or.inr rfl
    · exact Or.inl rfl

/-- A run that always fails an assertion. -/
abbrev Aborts {α : Type} (x : Program σ Exn α) : Prop :=
  Program.Yields (fun _ => False) (fun e => e = .abort) x

/-- What comes first throws nothing, and what follows always aborts. -/
theorem Aborts.bind {α β : Type} {P : β → Prop} {x : Program σ Exn β}
    {f : β → Program σ Exn α} (hx : Program.Yields P (fun _ => False) x)
    (hf : ∀ b, P b → Aborts (f b)) : Aborts (x >>= f) :=
  (hx.mono (fun _ hb => hb) fun _ he => he.elim).bind hf

/-- The array of `commitAmend` has room for the parents that a commit gets when it is
written anew on top of a commit, or as a root. -/
def HasRoom (onto : Bool) (c : Commit) : Prop := c.parents.length ≤ if onto then 4 else 5

instance (onto : Bool) (c : Commit) : Decidable (HasRoom onto c) := inferInstanceAs (Decidable (_ ≤ _))

/-- `HasRoom` for commits that are applied on top of each other, oldest first. -/
def AllHaveRoom : Bool → List Commit → Prop
  | _, [] => True
  | onto, c :: cs => HasRoom onto c ∧ AllHaveRoom true cs

theorem allHaveRoom_true {cs : List Commit} : AllHaveRoom true cs ↔ ∀ c ∈ cs, HasRoom true c := by
  induction cs with
  | nil => simp [AllHaveRoom]
  | cons c cs ih => rw [AllHaveRoom, ih, List.forall_mem_cons]

theorem hasRoom_iff {parent : Option Commit} {c : Commit} :
    HasRoom parent.isSome c ↔ (parent.toList ++ c.parents.drop 1).length ≤ 4 := by
  unfold HasRoom
  cases parent with
  | none => simp
  | some p =>
      simp only [Option.isSome_some, if_true, Option.toList_some, List.length_append,
        List.length_singleton, List.length_drop]
      omega

theorem commitCreate_yields (hctx : ctx.Throws E) (tree : Tree) (parents : List Commit)
    (author committer : Signature) (encoding : Option Bytes) (message : Bytes) :
    Program.Yields (fun c => c = Commit.create tree parents author committer encoding message) E
      (ctx.repo.commitCreate tree parents author committer encoding message) :=
  (hctx.commitStore _).bind fun _ _ => .pure rfl

/-- The merge and the handling of conflicts, which come first. -/
theorem commitParentSet_eq_bind (favor : FileFavor) (commit : Commit) (parent : Option Commit) :
    commitParentSet ctx favor commit parent =
      (ctx.repo.mergeTrees favor (commit.parent.map Commit.tree) (parent.map Commit.tree)
        (some commit.tree) >>= conflictsHandle ctx favor) >>= fun index =>
          ctx.repo.commitParentSetFinish index commit parent := by
  unfold commitParentSet
  rw [Repo.commitParentSet_eq, bind_assoc]

theorem commitParentSet_yields (hctx : ctx.Throws E) {favor : FileFavor}
    (hfavor : favor = .normal ∨ favor = .theirs) {commit : Commit} (parent : Option Commit)
    (hroom : HasRoom parent.isSome commit) :
    Program.Yields (fun _ => True) E (commitParentSet ctx favor commit parent) := by
  rw [commitParentSet_eq_bind]
  refine (hctx.merges hfavor _ _ _).bind fun index _ => (hctx.indexWrite index).bind fun tree _ => ?_
  unfold Repo.commitAmendParents
  rw [if_neg (Nat.not_lt.mpr (hasRoom_iff.mp hroom))]
  exact (commitCreate_yields hctx _ _ _ _ _ _).mono (fun _ _ => trivial) fun _ he => he

theorem commitParentSet_aborts (hctx : ctx.Throws fun _ => False) {favor : FileFavor}
    (hfavor : favor = .normal ∨ favor = .theirs) {commit : Commit} (parent : Option Commit)
    (hroom : ¬HasRoom parent.isSome commit) : Aborts (commitParentSet ctx favor commit parent) := by
  rw [commitParentSet_eq_bind]
  refine .bind (hctx.merges hfavor _ _ _) fun index _ => .bind (hctx.indexWrite index) fun tree _ => ?_
  unfold Repo.commitAmendParents
  rw [if_pos (Nat.lt_of_not_le fun hle => hroom (hasRoom_iff.mpr hle))]
  exact .fail rfl

theorem applyCombined_yields (hctx : ctx.Throws E) {favor : FileFavor}
    (hfavor : favor = .normal ∨ favor = .theirs) {combined : List CommitAdded}
    {r : AddRemoveResult}
    (hroom : AllHaveRoom r.commit.isSome (combined.map CommitAdded.commit)) :
    Program.Yields (fun r' => r'.commit = none ↔ combined = [] ∧ r.commit = none) E
      (applyCombined ctx favor combined r) := by
  induction combined generalizing r with
  | nil => exact .pure (by simp)
  | cons c cs ih =>
      refine (commitParentSet_yields hctx hfavor _ hroom.1).bind fun head _ => ?_
      refine (ih (r := ⟨some head, _⟩) hroom.2).mono (fun r' hr' => ?_) fun _ he => he
      rw [hr']
      simp

theorem applyCombined_aborts (hctx : ctx.Throws fun _ => False) {favor : FileFavor}
    (hfavor : favor = .normal ∨ favor = .theirs) {combined : List CommitAdded}
    {r : AddRemoveResult}
    (hroom : ¬AllHaveRoom r.commit.isSome (combined.map CommitAdded.commit)) :
    Aborts (applyCombined ctx favor combined r) := by
  induction combined generalizing r with
  | nil => exact absurd trivial hroom
  | cons c cs ih =>
      by_cases hfirst : HasRoom r.commit.isSome c.commit
      · refine .bind (commitParentSet_yields hctx hfavor _ hfirst) fun head _ => ?_
        exact ih (r := ⟨some head, _⟩) fun hrest => hroom ⟨hfirst, hrest⟩
      · exact Program.Yields.bind (commitParentSet_aborts hctx hfavor _ hfirst) fun _ h => h.elim

/-- With its commits on the chains it walks, `_AddRemoveCommits` is the loop that
applies the plan. -/
theorem addRemoveCommits_eq (ctx : Ctx σ) {dst : Commit} {add : Finset Commit}
    {addSrc addPosition : Option Commit} {remove : Finset Commit}
    (hadd : ∀ c ∈ add, c ∈ chainOf addSrc) (hremove : ∀ c ∈ remove, c ∈ dst.chain)
    (hposition : add ≠ ∅ → ∀ p, addPosition = some p → p ∈ dst.chain) :
    ∃ (base : Option Commit) (combined : List CommitAdded),
      (∀ favor, addRemoveCommits ctx favor dst add addSrc addPosition remove =
        applyCombined ctx favor combined ⟨base, ∅⟩) ∧
      combined.map CommitAdded.commit =
        (rewritten ((chainOf addSrc).filter (· ∈ add)) addPosition remove dst.chain).reverse ∧
      chainOf base = kept ((chainOf addSrc).filter (· ∈ add)) addPosition remove dst.chain := by
  obtain ⟨addv, hsorted⟩ := sorted_total hadd
  obtain ⟨haddv, -⟩ := sorted_ok hsorted
  have hto : PlanState.toAdd addv ⟨remove, false, []⟩ = (chainOf addSrc).filter (· ∈ add) := by
    simpa [PlanState.toAdd] using haddv
  obtain ⟨⟨base, combined⟩, hplan⟩ : ∃ plan,
      planLoop addv addPosition dst.chain ⟨remove, false, []⟩ = .ok plan := by
    apply planLoop_total (nodup_chain dst) hremove
    · intro hsome
      rw [hto] at hsome
      have hne : add ≠ ∅ := by
        rintro rfl
        simp at hsome
      cases hp : addPosition with
      | none => exact Or.inl rfl
      | some p => exact Or.inr ⟨p, hposition hne p hp, rfl⟩
    · intro hfalse
      cases hfalse
  obtain ⟨hcombined, hbase, -, -⟩ := planLoop_ok (nodup_chain dst) (c := some dst) rfl hplan
  rw [hto] at hcombined hbase
  refine ⟨base, combined, fun favor => ?_, by simp [hcombined, rewritten], hbase⟩
  unfold addRemoveCommits
  rw [hsorted, Program.lift_ok, pure_bind, hplan, Program.lift_ok, pure_bind]

end Rewriting

/-- The commits of a rewrite that are written anew have room for their parents. -/
def Rewrite.HasRoom (rw : Rewrite) : Prop :=
  AllHaveRoom (kept rw.added rw.position rw.removed rw.head.chain).head?.isSome
    rw.renewed.reverse

section AddRemove

variable {σ : Type} {ctx : Ctx σ} {E : Exn → Prop} {favor : FileFavor} (rw : Rewrite)
  {add : Finset Commit} {addSrc : Option Commit}

theorem addRemoveCommits_yields (hctx : ctx.Throws E) (hfavor : favor = .normal ∨ favor = .theirs)
    (hadded : rw.added = (chainOf addSrc).filter (· ∈ add))
    (hadd : ∀ c ∈ add, c ∈ chainOf addSrc) (hremove : ∀ c ∈ rw.removed, c ∈ rw.head.chain)
    (hposition : add ≠ ∅ → ∀ p, rw.position = some p → p ∈ rw.head.chain) (hroom : rw.HasRoom) :
    Program.Yields (fun r => r.commit = none ↔ rw.history = []) E
      (addRemoveCommits ctx favor rw.head add addSrc rw.position rw.removed) := by
  obtain ⟨base, combined, heq, hcombined, hbase⟩ :=
    addRemoveCommits_eq ctx hadd hremove hposition
  have hsome : (chainOf base).head? = base := head?_chainOf base
  unfold Rewrite.HasRoom Rewrite.renewed at hroom
  rw [hadded, ← hbase, hsome, ← hcombined] at hroom
  have hempty : rewritten ((chainOf addSrc).filter (· ∈ add)) rw.position rw.removed rw.head.chain =
      [] ↔ combined = [] := by
    rw [← @List.reverse_eq_nil_iff _ (rewritten _ _ _ _), ← hcombined, List.map_eq_nil_iff]
  rw [heq]
  refine (applyCombined_yields hctx hfavor hroom).mono (fun r hr => ?_) fun _ he => he
  rw [hr, Rewrite.history, hadded, ← rewritten_append_kept, List.append_eq_nil_iff, ← hbase,
    hempty]
  cases base with
  | none => simp
  | some b => simp

theorem addRemoveCommits_aborts (hctx : ctx.Throws fun _ => False)
    (hfavor : favor = .normal ∨ favor = .theirs)
    (hadded : rw.added = (chainOf addSrc).filter (· ∈ add))
    (hadd : ∀ c ∈ add, c ∈ chainOf addSrc) (hremove : ∀ c ∈ rw.removed, c ∈ rw.head.chain)
    (hposition : add ≠ ∅ → ∀ p, rw.position = some p → p ∈ rw.head.chain) (hroom : ¬rw.HasRoom) :
    Aborts (addRemoveCommits ctx favor rw.head add addSrc rw.position rw.removed) := by
  obtain ⟨base, combined, heq, hcombined, hbase⟩ :=
    addRemoveCommits_eq ctx hadd hremove hposition
  have hsome : (chainOf base).head? = base := head?_chainOf base
  unfold Rewrite.HasRoom Rewrite.renewed at hroom
  rw [hadded, ← hbase, hsome, ← hcombined] at hroom
  rw [heq]
  exact applyCombined_aborts hctx hfavor hroom

end AddRemove

/-- Nothing is left of a chain exactly when every commit of it is removed. -/
theorem edited_remove_eq_nil_iff {p : Option Commit} {remove : Finset Commit}
    {chain : List Commit} :
    edited [] p remove chain = [] ↔ ∀ c ∈ chain, c ∈ remove := by
  induction chain with
  | nil => simp [edited, insertedAt]
  | cons c cs ih =>
      rw [edited, List.forall_mem_cons, ← ih]
      simp [insertedAt]

/-- An added commit is in the edited chain. -/
theorem edited_add_ne_nil {add : List Commit} {position : Option Commit}
    {remove : Finset Commit} {chain : List Commit} (hadd : add ≠ [])
    (hposition : ∀ p, position = some p → p ∈ chain) : edited add position remove chain ≠ [] := by
  induction chain with
  | nil =>
      cases position with
      | none => simpa [edited, insertedAt] using hadd
      | some p => simpa using hposition p rfl
  | cons c cs ih =>
      rw [edited]
      by_cases hhere : some c = position
      · simp [insertedAt, hhere, hadd]
      · have hbelow := ih fun p hp => (List.mem_cons.mp (hposition p hp)).resolve_left
          fun heq => hhere (heq ▸ hp.symm)
        simp [hbelow]

/-- With nothing removed the edited chain has the chain's commits. -/
theorem edited_keep_ne_nil {add : List Commit} {position : Option Commit} {chain : List Commit}
    (hchain : chain ≠ []) : edited add position ∅ chain ≠ [] := by
  cases chain with
  | nil => exact absurd rfl hchain
  | cons c cs => simp [edited]

end Modify

end Git
end Debase
