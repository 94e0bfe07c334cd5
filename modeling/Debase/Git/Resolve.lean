import Debase.Git.Safety

/-!
# What a resolution leaves in the index

`conflictResolve` changes the entries of its own path only, so its effect is
described by the list of these entries, `Index.entriesAt`.  Content is put at
stage 0 and the other stages are cleared.  A file that should not exist is
removed first and cleared then, and clearing fails when the removal has taken the
only entry of the path: the file that one side has where the other side has a
directory.
-/

namespace Debase
namespace Git

open Library

/-- The number of a stage (`GIT_INDEX_ENTRY_STAGE`). -/
def Stage.number : Stage → Nat
  | .normal => 0
  | .ancestor => 1
  | .ours => 2
  | .theirs => 3

/-! ## The entries of a path -/

namespace Index

variable {index index' : Index} {path p : Path}

/-- The entries of a path, in index order. -/
def entriesAt (index : Index) (path : Path) : List IndexEntry :=
  index.entries.filter fun e => e.path = path

/-- The order of an index: the entries of a path are sorted by stage, and every
stage is taken once. -/
def Sorted (index : Index) : Prop :=
  ∀ path, (index.entriesAt path).Pairwise fun d e => d.stage.number < e.stage.number

theorem Sorted.distinct (h : index.Sorted) : index.Distinct := by
  unfold Distinct
  rw [List.pairwise_iff_forall_sublist]
  intro d e hsub hsame
  have hat : [d, e].Sublist (index.entriesAt d.path) := by
    have hfilter := hsub.filter fun x => x.path = d.path
    rwa [List.filter_cons_of_pos (by simp), List.filter_cons_of_pos (by simp [hsame.1]),
      List.filter_nil] at hfilter
  have hlt := List.pairwise_iff_forall_sublist.mp (h d.path) hat
  rw [hsame.2] at hlt
  omega

theorem mem_entriesAt {e : IndexEntry} :
    e ∈ index.entriesAt path ↔ e ∈ index.entries ∧ e.path = path := by
  unfold entriesAt
  rw [List.mem_filter, decide_eq_true_eq]

/-- The order can be seen from the pairs of entries. -/
theorem sorted_of_pairwise
    (h : index.entries.Pairwise fun d e => d.path = e.path → d.stage.number < e.stage.number) :
    index.Sorted := by
  intro path
  unfold entriesAt
  rw [List.pairwise_filter]
  apply List.Pairwise.imp _ h
  intro d e hlt hd he
  rw [decide_eq_true_eq] at hd he
  exact hlt (hd.trans he.symm)

/-- Another path keeps its entries. -/
theorem SameElsewhere.entriesAt (h : SameElsewhere path index index') (hp : p ≠ path) :
    index'.entriesAt p = index.entriesAt p := by
  have hsplit : ∀ i : Index, i.entriesAt p =
      (i.entries.filter fun e => e.path ≠ path).filter fun e => e.path = p := by
    intro i
    unfold Index.entriesAt
    rw [List.filter_filter]
    apply List.filter_congr
    intro e _
    by_cases hpath : e.path = p
    · simp [hpath, hp]
    · simp [hpath]
  rw [hsplit index', show index'.entries.filter _ = _ from h, ← hsplit index]

/-- What is found at a path is one of its entries. -/
theorem find_eq_entriesAt (st : Stage) :
    index.find path st = (index.entriesAt path).find? fun e => e.stage = st := by
  unfold find entriesAt
  rw [List.find?_filter]
  simp only [decide_eq_true_eq, Bool.decide_and]

theorem entriesAt_ne_nil_of_hasSide (h : index.HasSide path) : index.entriesAt path ≠ [] := by
  intro hnil
  unfold HasSide at h
  rw [find_eq_entriesAt, find_eq_entriesAt, hnil] at h
  cases h

theorem any_path_iff :
    (index.entries.any fun e => e.path = path) = true ↔ index.entriesAt path ≠ [] := by
  rw [List.any_eq_true]
  constructor
  · rintro ⟨e, he, hpath⟩
    rw [decide_eq_true_eq] at hpath
    exact List.ne_nil_of_mem (mem_entriesAt.mpr ⟨he, hpath⟩)
  · intro hne
    obtain ⟨e, he⟩ := List.exists_mem_of_ne_nil _ hne
    obtain ⟨hmem, hpath⟩ := mem_entriesAt.mp he
    exact ⟨e, hmem, decide_eq_true hpath⟩

/-! ## The three steps on the index -/

/-- Adding puts an entry at stage 0 and keeps the other stages. -/
theorem entriesAt_add (index : Index) (entry : IndexEntry) :
    (index.add entry).entriesAt entry.path =
      (index.entriesAt entry.path).filter (fun e => e.stage ≠ .normal) ++
        [{ entry with stage := .normal }] := by
  unfold add entriesAt
  dsimp only
  rw [List.filter_append, List.filter_cons_of_pos (by simp), List.filter_nil,
    List.filter_filter, List.filter_filter]
  congr 1
  apply List.filter_congr
  intro e _
  by_cases hpath : e.path = entry.path
  · simp [hpath]
  · simp [hpath]

/-- Removing takes the first entry of the path. -/
theorem remove_ok (h : index.entriesAt path ≠ []) :
    ∃ index', index.remove path = .ok index' ∧
      index'.entriesAt path = (index.entriesAt path).tail := by
  unfold remove
  rw [if_pos (any_path_iff.mpr h)]
  refine ⟨_, rfl, ?_⟩
  unfold entriesAt
  dsimp only
  induction index.entries with
  | nil => rfl
  | cons e es ih =>
      by_cases hpath : e.path = path
      · simp [hpath]
      · simpa [List.eraseP_cons, hpath] using ih

/-- Clearing keeps the entry at stage 0. -/
theorem conflictClear_ok (h : index.entriesAt path ≠ []) :
    ∃ index', index.conflictClear path = .ok index' ∧
      index'.entriesAt path = (index.entriesAt path).filter fun e => e.stage = .normal := by
  unfold conflictClear
  rw [if_pos (any_path_iff.mpr h)]
  refine ⟨_, rfl, ?_⟩
  unfold entriesAt
  dsimp only
  rw [List.filter_filter, List.filter_filter]
  apply List.filter_congr
  intro e _
  by_cases hpath : e.path = path
  · simp [hpath]
  · simp [hpath]

/-- A path without entries cannot be cleared. -/
theorem conflictClear_error (h : index.entriesAt path = []) :
    index.conflictClear path = .error (.gitError .notFound) := by
  unfold conflictClear
  rw [if_neg (fun hany => any_path_iff.mp hany h)]

end Index

/-! ## One resolution -/

/-- A blob that is created is stored under the id that it is looked up by. -/
def Repo.StoresBlobs {σ : Type} (repo : Repo σ) : Prop :=
  ∀ data s, ∃ id s', repo.blobCreate data s = (.ok id, s') ∧
    (repo.blobLookup id s').1 = .ok data

namespace Conflict

/-- The resolutions that callers give: some content or no file for a file, the
digits of an id for a submodule. -/
def Takes (fc : Conflict) (content : Option Bytes) : Prop :=
  fc.type = .submodule → ∃ text id, content = some text ∧ idFromString text = .ok id

section

variable {σ : Type} (repo : Repo σ)

/-- An id stands for a content: of the blob for a file, of the digits for a
submodule. -/
def StandsFor (fc : Conflict) (s : σ) (id : Oid) (content : Bytes) : Prop :=
  match fc.type with
  | .file => (repo.blobLookup id s).1 = .ok content
  | .submodule => idFromString content = .ok id

/-- What a resolution should leave of the path: an entry at stage 0 for exactly the
given content, and nothing if the file should not exist. -/
def ResolvedTo (fc : Conflict) (content : Option Bytes) (index : Index) (s : σ) : Prop :=
  match content with
  | none => index.entriesAt fc.path = []
  | some content => ∃ e, index.entriesAt fc.path = [e] ∧ e.stage = .normal ∧
      fc.StandsFor repo s e.id content

end

/-- The resolution leaves an entry to clear. -/
def Clearable (fc : Conflict) (index : Index) (content : Option Bytes) : Prop :=
  content.isSome ∨ 2 ≤ (index.entriesAt fc.path).length

end Conflict

section Resolve

variable {σ : Type} {repo : Repo σ} {index : Index} {fc : Conflict}

/-- Adding an entry and clearing the path leaves that entry. -/
theorem conflictClear_add (index : Index) {entry : IndexEntry} (hpath : entry.path = fc.path)
    (hstage : entry.stage = .normal) :
    ∃ index', (index.add entry).conflictClear fc.path = .ok index' ∧
      index'.entriesAt fc.path = [entry] ∧ Index.SameElsewhere fc.path index index' := by
  have hadd := index.entriesAt_add entry
  rw [hpath] at hadd
  have hne : (index.add entry).entriesAt fc.path ≠ [] := by
    rw [hadd]
    simp
  obtain ⟨index', hclear, hentries⟩ := Index.conflictClear_ok hne
  refine ⟨index', hclear, ?_,
    (Index.sameElsewhere_add hpath index).trans (Index.sameElsewhere_conflictClear hclear)⟩
  rw [hentries, hadd, List.filter_append, List.filter_filter]
  have hnone : (index.entriesAt fc.path).filter
      (fun e => decide (e.stage = .normal) && decide (e.stage ≠ .normal)) = [] := by
    rw [List.filter_eq_nil_iff]
    intro e _
    simp
  rw [hnone, ← hstage, ← hpath]
  simp

/-- With content, the path is left with that content. -/
theorem conflictResolve_some (hstores : repo.StoresBlobs) (hside : index.HasSide fc.path)
    {content : Bytes} (htakes : fc.Takes (some content)) (s : σ) :
    ∃ index' s', conflictResolve repo index fc (some content) s = (.ok index', s') ∧
      fc.ResolvedTo repo (some content) index' s' ∧ Index.SameElsewhere fc.path index index' := by
  obtain ⟨entryPrev, hprev⟩ := Option.isSome_iff_exists.mp hside
  -- both kinds of conflict add one entry and clear the path
  have hrun : ∀ id s', conflictReplace repo index fc (some content) entryPrev s =
      (.ok (index.add ⟨fc.path, .normal, entryPrev.mode, id⟩), s') →
      fc.StandsFor repo s' id content →
      ∃ index' s', conflictResolve repo index fc (some content) s = (.ok index', s') ∧
        fc.ResolvedTo repo (some content) index' s' ∧
        Index.SameElsewhere fc.path index index' := by
    intro id s' hreplace hstands
    obtain ⟨index', hclear, hentries, hsame⟩ := @conflictClear_add fc index
      ⟨fc.path, .normal, entryPrev.mode, id⟩ rfl rfl
    refine ⟨index', s', ?_, ⟨_, hentries, rfl, hstands⟩, hsame⟩
    unfold conflictResolve
    rw [hprev]
    show (conflictReplace repo index fc (some content) entryPrev >>= _) s = _
    rw [Program.bind_run_ok hreplace, hclear]
    rfl
  cases htype : fc.type with
  | file =>
      obtain ⟨id, s', hcreate, hread⟩ := hstores content s
      apply hrun id s'
      · unfold conflictReplace
        rw [htype]
        show (repo.blobCreate content >>= _) s = _
        rw [Program.bind_run_ok hcreate]
        rfl
      · unfold Conflict.StandsFor
        rw [htype]
        exact hread
  | submodule =>
      obtain ⟨text, id, htext, hid⟩ := htakes htype
      cases htext
      apply hrun id s
      · unfold conflictReplace
        rw [htype]
        show (Program.lift (idFromString content) >>= _) s = _
        rw [hid]
        rfl
      · unfold Conflict.StandsFor
        rw [htype]
        exact hid

/-- Without content, the removal and the clearing are both of the path. -/
theorem conflictResolve_none_eq (hside : index.HasSide fc.path) (htype : fc.type = .file)
    (s : σ) : conflictResolve repo index fc none s =
      ((index.remove fc.path >>= fun index => index.conflictClear fc.path), s) := by
  obtain ⟨entryPrev, hprev⟩ := Option.isSome_iff_exists.mp hside
  unfold conflictResolve conflictReplace
  rw [hprev, htype]
  dsimp only
  cases index.remove fc.path with
  | error e => rfl
  | ok index₁ =>
      rw [Program.lift_ok, pure_bind]
      change Program.lift (index₁.conflictClear fc.path) s = (index₁.conflictClear fc.path, s)
      cases index₁.conflictClear fc.path with
      | error e => rfl
      | ok index₂ => rfl

/-- Without content, a path with two entries or more is left with none. -/
theorem conflictResolve_none (hside : index.HasSide fc.path) (hsorted : index.Sorted)
    (htype : fc.type = .file) (hentries : 2 ≤ (index.entriesAt fc.path).length) (s : σ) :
    ∃ index', conflictResolve repo index fc none s = (.ok index', s) ∧
      index'.entriesAt fc.path = [] ∧ Index.SameElsewhere fc.path index index' := by
  have hne := Index.entriesAt_ne_nil_of_hasSide hside
  obtain ⟨index₁, hremove, htail⟩ := Index.remove_ok hne
  have htailNe : index₁.entriesAt fc.path ≠ [] := by
    intro hnil
    have hlen := congrArg List.length htail
    rw [hnil, List.length_tail, List.length_nil] at hlen
    omega
  obtain ⟨index₂, hclear, hrest⟩ := Index.conflictClear_ok htailNe
  refine ⟨index₂, ?_, ?_, (Index.sameElsewhere_remove hremove).trans
    (Index.sameElsewhere_conflictClear hclear)⟩
  · rw [conflictResolve_none_eq hside htype, hremove]
    show (index₁.conflictClear fc.path, s) = _
    rw [hclear]
  · rw [hrest, htail, List.filter_eq_nil_iff]
    intro e he hstage
    -- an entry behind the first one is not at stage 0
    have hordered := hsorted fc.path
    cases hlist : index.entriesAt fc.path with
    | nil => exact hne hlist
    | cons d es =>
        rw [hlist] at he hordered
        have hlt := List.rel_of_pairwise_cons hordered he
        rw [of_decide_eq_true hstage] at hlt
        exact Nat.not_lt_zero _ hlt

/-- Without content, the only entry of a path is removed and then missed. -/
theorem conflictResolve_single (hside : index.HasSide fc.path) (htype : fc.type = .file)
    (hentries : (index.entriesAt fc.path).length < 2) (s : σ) :
    conflictResolve repo index fc none s = (.error (.gitError .notFound), s) := by
  obtain ⟨index₁, hremove, htail⟩ :=
    Index.remove_ok (Index.entriesAt_ne_nil_of_hasSide hside)
  have hnil : index₁.entriesAt fc.path = [] := by
    rw [← List.length_eq_zero_iff, htail, List.length_tail]
    omega
  rw [conflictResolve_none_eq hside htype, hremove]
  show (index₁.conflictClear fc.path, s) = _
  rw [Index.conflictClear_error hnil]

/-- A path that is left with one entry or none keeps the index sorted. -/
theorem Index.Sorted.resolved {index' : Index} {content : Option Bytes} {s : σ}
    (hsorted : index.Sorted) (hsame : Index.SameElsewhere fc.path index index')
    (hresolved : fc.ResolvedTo repo content index' s) : index'.Sorted := by
  intro path
  by_cases hpath : path = fc.path
  · subst hpath
    cases content with
    | none =>
        rw [show index'.entriesAt fc.path = [] from hresolved]
        exact List.Pairwise.nil
    | some content =>
        obtain ⟨e, hentries, -⟩ := hresolved
        rw [hentries]
        exact List.pairwise_singleton _ e
  · rw [hsame.entriesAt hpath]
    exact hsorted path

theorem Conflict.not_clearable_iff {content : Option Bytes} :
    ¬fc.Clearable index content ↔ content = none ∧ (index.entriesAt fc.path).length < 2 := by
  unfold Conflict.Clearable
  rw [not_or, Option.not_isSome_iff_eq_none, Nat.not_le]

/-- A resolution does what it should if it leaves an entry to clear, and throws
otherwise. -/
theorem conflictResolve_cases (hstores : repo.StoresBlobs) (hside : index.HasSide fc.path)
    (hsorted : index.Sorted) {content : Option Bytes} (htakes : fc.Takes content) (s : σ) :
    (fc.Clearable index content ∧
        ∃ index' s', conflictResolve repo index fc content s = (.ok index', s') ∧
          fc.ResolvedTo repo content index' s' ∧ Index.SameElsewhere fc.path index index') ∨
      (¬fc.Clearable index content ∧
        conflictResolve repo index fc content s = (.error (.gitError .notFound), s)) := by
  cases content with
  | some content =>
      exact Or.inl ⟨Or.inl rfl, conflictResolve_some hstores hside htakes s⟩
  | none =>
      have htype : fc.type = .file := by
        cases htype : fc.type with
        | file => rfl
        | submodule =>
            obtain ⟨text, id, htext, -⟩ := htakes htype
            cases htext
      by_cases hentries : 2 ≤ (index.entriesAt fc.path).length
      · obtain ⟨index', hrun, hnil, hsame⟩ :=
          @conflictResolve_none _ repo _ _ hside hsorted htype hentries s
        exact Or.inl ⟨Or.inr hentries, index', s, hrun, hnil, hsame⟩
      · have hfew := Nat.lt_of_not_le hentries
        exact Or.inr ⟨Conflict.not_clearable_iff.mpr ⟨rfl, hfew⟩,
          conflictResolve_single hside htype hfew s⟩

/-! ## All resolutions -/

/-- Resolving one conflict after the other. -/
def conflictsResolve (repo : Repo σ) (resolutions : List (Conflict × Option Bytes))
    (index : Index) : Program σ Exn Index :=
  resolutions.foldlM (fun index r => conflictResolve repo index r.1 r.2) index

/-- An index without conflicts. -/
theorem Index.Conflicted.conflicts_eq_false (h : index.Conflicted []) :
    index.conflicts = false := by
  unfold Index.conflicts
  rw [List.any_eq_false]
  intro e he hstage
  exact absurd (h.covers e he (of_decide_eq_true hstage)) List.not_mem_nil

/-- The conflicts of an index after one of them is resolved. -/
theorem Index.Conflicted.resolved {index' : Index} {content : Option Bytes} {s : σ}
    {fcs : List Conflict} (h : index.Conflicted (fc :: fcs))
    (hsame : Index.SameElsewhere fc.path index index')
    (hresolved : fc.ResolvedTo repo content index' s) : index'.Conflicted fcs := by
  have hpaths := h.paths
  rw [List.map_cons, List.nodup_cons] at hpaths
  constructor
  · exact hpaths.2
  · intro fc' hfc'
    apply hsame.hasSide
    · intro heq
      exact hpaths.1 (heq ▸ List.mem_map_of_mem hfc')
    · exact h.sides fc' (List.mem_cons_of_mem _ hfc')
  · intro e he hstage
    have hat : e ∈ index'.entriesAt e.path := Index.mem_entriesAt.mpr ⟨he, rfl⟩
    by_cases hpath : e.path = fc.path
    · -- no entry of the resolved path is in conflict
      rw [hpath] at hat
      cases content with
      | none =>
          rw [show index'.entriesAt fc.path = [] from hresolved] at hat
          cases hat
      | some content =>
          obtain ⟨d, hentries, hd, -⟩ := hresolved
          rw [hentries, List.mem_singleton] at hat
          exact absurd (hat ▸ hd) hstage
    · rw [hsame.entriesAt hpath, Index.mem_entriesAt] at hat
      have hmem := h.covers e hat.1 hstage
      rw [List.map_cons] at hmem
      exact (List.mem_cons.mp hmem).resolve_left hpath

/-- Resolving all conflicts leaves none, if every resolution leaves an entry to
clear, and throws otherwise. -/
theorem conflictsResolve_iff (hstores : repo.StoresBlobs)
    {resolutions : List (Conflict × Option Bytes)} {index : Index}
    (hconflicted : index.Conflicted (resolutions.map Prod.fst)) (hsorted : index.Sorted)
    (htakes : ∀ r ∈ resolutions, r.1.Takes r.2) (s : σ) :
    (∃ index' s', conflictsResolve repo resolutions index s = (.ok index', s') ∧
        index'.conflicts = false) ↔
      ∀ r ∈ resolutions, r.1.Clearable index r.2 := by
  induction resolutions generalizing index s with
  | nil =>
      exact ⟨fun _ r hr => absurd hr List.not_mem_nil,
        fun _ => ⟨index, s, rfl, hconflicted.conflicts_eq_false⟩⟩
  | cons r rs ih =>
      have hfirst := htakes r List.mem_cons_self
      have hrest : ∀ r ∈ rs, r.1.Takes r.2 := fun r hr => htakes r (List.mem_cons_of_mem _ hr)
      rw [List.map_cons] at hconflicted
      have hside := hconflicted.sides r.1 List.mem_cons_self
      rcases conflictResolve_cases hstores hside hsorted hfirst s with
        ⟨hclearable, index₁, s₁, hrun, hresolved, hsame⟩ | ⟨hnot, hrun⟩
      · -- the first conflict is cleared, and the entries of the others are as they were
        have hstep : conflictsResolve repo (r :: rs) index s =
            conflictsResolve repo rs index₁ s₁ := by
          unfold conflictsResolve
          rw [List.foldlM_cons, Program.bind_run_ok hrun]
        have hkept : ∀ r' ∈ rs, r'.1.Clearable index₁ r'.2 ↔ r'.1.Clearable index r'.2 := by
          intro r' hr'
          -- the paths of the conflicts are all different
          have hne : r'.1.path ≠ r.1.path := by
            intro heq
            have hpaths := hconflicted.paths
            rw [List.map_cons, List.nodup_cons] at hpaths
            exact hpaths.1 (heq ▸ List.mem_map_of_mem (List.mem_map_of_mem hr'))
          unfold Conflict.Clearable
          rw [hsame.entriesAt hne]
        rw [hstep, ih (hconflicted.resolved hsame hresolved) (hsorted.resolved hsame hresolved)
          hrest s₁, List.forall_mem_cons]
        constructor
        · exact fun hall => ⟨hclearable, fun r' hr' => (hkept r' hr').mp (hall r' hr')⟩
        · exact fun hall r' hr' => (hkept r' hr').mpr (hall.2 r' hr')
      · -- the first conflict throws, so that no index is returned
        constructor
        · rintro ⟨index', s', hall, -⟩
          unfold conflictsResolve at hall
          rw [List.foldlM_cons, Program.bind_run_error hrun] at hall
          cases hall
        · exact fun hall => absurd (hall r List.mem_cons_self) hnot

/-- A conflict of an index is resolved as it should be if and only if content is
given or its path has two entries or more; and all conflicts of an index are
resolved if and only if this holds for each of them. -/
theorem resolve_iff {strings : Toastbox.Strings} (hstores : repo.StoresBlobs) {index : Index}
    (hsorted : index.Sorted) {s s₁ : σ} {fcs : List Conflict}
    (hget : conflictsGet strings repo index s = (.ok fcs, s₁)) (s₂ : σ) :
    (∀ fc ∈ fcs, ∀ content, fc.Takes content →
      ((∃ index' s', conflictResolve repo index fc content s₂ = (.ok index', s') ∧
          fc.ResolvedTo repo content index' s') ↔ fc.Clearable index content)) ∧
      ∀ resolutions : List (Conflict × Option Bytes), resolutions.map Prod.fst = fcs →
        (∀ r ∈ resolutions, r.1.Takes r.2) →
        ((∃ index' s', conflictsResolve repo resolutions index s₂ = (.ok index', s') ∧
            index'.conflicts = false) ↔
          ∀ r ∈ resolutions, r.1.Clearable index r.2) := by
  have hconflicted : index.Conflicted fcs :=
    (conflictsGet_yields (fun _ _ _ => .trivial) (fun _ => .trivial) trivial
      hsorted.distinct).of_ok hget
  constructor
  · intro fc hfc content htakes
    rcases conflictResolve_cases hstores (hconflicted.sides fc hfc) hsorted htakes s₂ with
      ⟨hclearable, index', s', hrun, hresolved, -⟩ | ⟨hnot, hrun⟩
    · exact ⟨fun _ => hclearable, fun _ => ⟨index', s', hrun, hresolved⟩⟩
    · constructor
      · rintro ⟨index', s'', hok, -⟩
        rw [hrun] at hok
        cases hok
      · exact fun hclearable => absurd hclearable hnot
  · intro resolutions hmap htakes
    subst hmap
    exact conflictsResolve_iff hstores hconflicted hsorted htakes s₂

end Resolve

/-! ## A file deleted on one side, and a file against a directory -/

/-- A store of blobs, numbered in the order they are created in. -/
def blobStore : Repo (List (Oid × Bytes)) where
  mergeTrees _ _ _ _ := pure ⟨[]⟩
  indexWrite _ := pure ⟨0⟩
  commitStore _ := pure ()
  merge _ _ _ := .fail (.gitError .other)
  blobLookup id := fun blobs =>
    match blobs.find? fun b => b.1 = id with
    | some b => (.ok b.2, blobs)
    | none => (.error (.gitError .notFound), blobs)
  blobCreate data := fun blobs =>
    (.ok (BitVec.ofNat 160 blobs.length), (BitVec.ofNat 160 blobs.length, data) :: blobs)

theorem blobStore_storesBlobs : blobStore.StoresBlobs := by
  intro data blobs
  refine ⟨_, _, rfl, ?_⟩
  simp [blobStore]

namespace Deleted

/-- A file and a changed version of it. -/
def blobs : List (Oid × Bytes) := [(1, ascii "y\n"), (0, ascii "x\n")]

/-- Ours has deleted the file, theirs has changed it. -/
def index : Index :=
  ⟨[⟨[ascii "a.c"], .ancestor, 0o100644, 0⟩, ⟨[ascii "a.c"], .theirs, 0o100644, 1⟩]⟩

def conflict : Conflict :=
  ⟨.file, [ascii "a.c"], [.ofConflict [] [ascii "y", []]]⟩

theorem conflictsGet_index :
    conflictsGet .plain blobStore index blobs = (.ok [conflict], blobs) := rfl

/-- The deletion is taken. -/
theorem resolve_deleted :
    (∃ index' s', conflictResolve blobStore index conflict none blobs = (.ok index', s') ∧
        conflict.ResolvedTo blobStore none index' s') ∧
      ∃ index' s', conflictsResolve blobStore [(conflict, none)] index blobs =
        (.ok index', s') ∧ index'.conflicts = false := by
  have hsorted : index.Sorted := Index.sorted_of_pairwise (by decide)
  have htakes : conflict.Takes none := fun htype => nomatch htype
  have hclearable : conflict.Clearable index none := Or.inr (by decide)
  obtain ⟨hone, hall⟩ :=
    resolve_iff blobStore_storesBlobs hsorted conflictsGet_index blobs
  exact ⟨(hone conflict (List.mem_singleton_self _) none htakes).mpr hclearable,
    (hall [(conflict, none)] rfl (by simpa using htakes)).mpr (by simpa using hclearable)⟩

end Deleted

namespace FileOrDirectory

/-- Theirs has a file where ours has a directory. -/
def index : Index :=
  ⟨[⟨[ascii "lib"], .theirs, 0o100644, 1⟩, ⟨[ascii "lib", ascii "a.c"], .normal, 0o100644, 0⟩]⟩

def conflict : Conflict :=
  ⟨.file, [ascii "lib"], [.ofConflict [] [ascii "y", []]]⟩

/-- Taking the side without the file fails. -/
theorem resolve_fails :
    blobStore.StoresBlobs ∧ index.Sorted ∧
      conflictsGet .plain blobStore index Deleted.blobs = (.ok [conflict], Deleted.blobs) ∧
      conflict.content .plain .ours = none ∧
      conflictResolve blobStore index conflict (conflict.content .plain .ours) Deleted.blobs =
        (.error (.gitError .notFound), Deleted.blobs) :=
  ⟨blobStore_storesBlobs, Index.sorted_of_pairwise (by decide), rfl, rfl, rfl⟩

end FileOrDirectory

end Git
end Debase
