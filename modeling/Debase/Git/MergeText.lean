import Debase.Git.Conflict

/-!
# What the line parser finds in a merge text

`conflictsGet` hands the text of a content merge to the line parser and does not
look at `automergeable`.  A conflict hunk comes out exactly when some block that
the parser opens is not empty.  The empty text that libgit2 returns for binary
files has no block at all, so the conflict is lost.
-/

namespace Debase
namespace Git

open Library Toastbox

/-! ## Blocks in a text -/

/-- Every block that the parser opens in these lines, from a state on, is empty:
the start marker is followed by the separator and the separator by the end
marker. -/
def onlyEmptyBlocks (m : ConflictMarkers) : ParseState → List Bytes → Bool
  | _, [] => true
  | .normal, l :: ls =>
      onlyEmptyBlocks m (if startsWith m.start l then .conflictOurs else .normal) ls
  | .conflictOurs, l :: ls => startsWith m.separator l && onlyEmptyBlocks m .conflictTheirs ls
  | .conflictTheirs, l :: ls => startsWith m.finish l && onlyEmptyBlocks m .normal ls

/-- Some hunk is a conflict. -/
def HasConflict (hunks : List Hunk) : Prop := ∃ h ∈ hunks, h.type = .conflict

@[simp] theorem hasConflict_append (hs : List Hunk) (h : Hunk) :
    HasConflict (hs ++ [h]) ↔ HasConflict hs ∨ h.type = .conflict := by
  simp [HasConflict, or_and_right, exists_or]

/-- Between two lines the type of the hunk that is being read is that of the
state, and a normal hunk has no conflict lines. -/
def HunkParser.Coherent (p : HunkParser) : Prop :=
  match p.state with
  | .normal => p.hunk.type = .normal ∧ p.hunk.linesOurs = [] ∧ p.hunk.linesTheirs = []
  | .conflictOurs => p.hunk.type = .conflict
  | .conflictTheirs => p.hunk.type = .conflict

/-- The hunk that is being read is a conflict and holds lines. -/
def HunkParser.Holds (p : HunkParser) : Prop := p.hunk.type = .conflict ∧ p.hunk.empty = false

theorem HunkParser.hasConflict_push (p : HunkParser) :
    HasConflict p.push.hunks ↔ HasConflict p.hunks ∨ p.Holds := by
  unfold HunkParser.push HunkParser.Holds
  by_cases hempty : p.hunk.empty
  · simp [hempty]
  · simp [hempty]

/-- What is left of a hunk after a push is empty. -/
private theorem push_hunk_lines (p : HunkParser) (hp : p.hunk.type = .conflict) :
    p.push.hunk.linesOurs = [] ∧ p.push.hunk.linesTheirs = [] := by
  unfold HunkParser.push
  split
  · next hempty =>
      unfold Hunk.empty at hempty
      rw [hp] at hempty
      simpa using hempty
  · exact ⟨rfl, rfl⟩

private theorem push_hunk_lines_normal (p : HunkParser) (hours : p.hunk.linesOurs = [])
    (htheirs : p.hunk.linesTheirs = []) :
    p.push.hunk.linesOurs = [] ∧ p.push.hunk.linesTheirs = [] := by
  unfold HunkParser.push
  split
  · exact ⟨hours, htheirs⟩
  · exact ⟨rfl, rfl⟩

/-- One line: the state stays coherent, and a conflict is found in what follows
exactly when it is found from here on. -/
theorem HunkParser.line_step (strings : Strings) (m : ConflictMarkers) (p : HunkParser) (hp : p.Coherent)
    (l : Bytes) (ls : List Bytes) :
    (p.line strings m l).Coherent ∧
      (HasConflict (p.line strings m l).hunks ∨ (p.line strings m l).Holds ∨
          onlyEmptyBlocks m (p.line strings m l).state ls = false ↔
        HasConflict p.hunks ∨ p.Holds ∨ onlyEmptyBlocks m p.state (l :: ls) = false) := by
  obtain ⟨hunks, hunk, state⟩ := p
  cases state with
  | normal =>
      obtain ⟨htype, hours, htheirs⟩ := hp
      dsimp only at htype hours htheirs
      by_cases hstart : startsWith m.start l
      · obtain ⟨hours', htheirs'⟩ :=
          push_hunk_lines_normal ⟨hunks, hunk, .normal⟩ hours htheirs
        have hpush := hasConflict_push ⟨hunks, hunk, .normal⟩
        simp only [line, strings.startsWith_eq, hstart, if_true, Coherent, onlyEmptyBlocks, true_and]
        rw [hpush]
        simp [Holds, Hunk.empty, htype, hours', htheirs']
      · simp [line, hstart, Coherent, onlyEmptyBlocks, Holds, htype, hours, htheirs]
  | conflictOurs =>
      have htype : hunk.type = .conflict := hp
      by_cases hsep : startsWith m.separator l
      · simp [line, hsep, Coherent, onlyEmptyBlocks, Holds, Hunk.empty, htype]
      · simp [line, hsep, Coherent, onlyEmptyBlocks, Holds, Hunk.empty, htype]
  | conflictTheirs =>
      have htype : hunk.type = .conflict := hp
      by_cases hend : startsWith m.finish l
      · obtain ⟨hours', htheirs'⟩ := push_hunk_lines ⟨hunks, hunk, .conflictTheirs⟩ htype
        have hpush := hasConflict_push ⟨hunks, hunk, .conflictTheirs⟩
        simp only [line, strings.startsWith_eq, hend, if_true, Coherent, onlyEmptyBlocks, true_and, Bool.true_and]
        rw [hpush]
        simp [Holds, hours', htheirs', or_assoc]
      · simp [line, hend, Coherent, onlyEmptyBlocks, Holds, Hunk.empty, htype]

/-- The parser over the rest of the lines. -/
theorem HunkParser.hasConflict_foldl (strings : Strings) (m : ConflictMarkers)
    (lines : List Bytes) (p : HunkParser) (hp : p.Coherent) :
    HasConflict (lines.foldl (HunkParser.line strings m) p).push.hunks ↔
      HasConflict p.hunks ∨ p.Holds ∨ onlyEmptyBlocks m p.state lines = false := by
  induction lines generalizing p with
  | nil =>
      rw [List.foldl_nil, hasConflict_push]
      cases p.state <;> simp [onlyEmptyBlocks]
  | cons l ls ih =>
      obtain ⟨hcoherent, hiff⟩ := p.line_step strings m hp l ls
      rw [List.foldl_cons, ih _ hcoherent, hiff]

/-- A text gives a conflict hunk exactly when one of the blocks in it is not
empty. -/
theorem hasConflict_hunksFromLines (strings : Strings) (m : ConflictMarkers)
    (lines : List Bytes) :
    HasConflict (hunksFromLines strings m lines) ↔ onlyEmptyBlocks m .normal lines = false := by
  unfold hunksFromLines
  rw [HunkParser.hasConflict_foldl strings m lines .init ⟨rfl, rfl, rfl⟩]
  simp [HasConflict, HunkParser.init, HunkParser.Holds, Hunk.ofNormal]

/-! ## The content merge of libgit2 -/

/-- A piece of a merge text: text without conflict, or the two sides of a
conflict.  A side is empty or ends in a newline; the marker lines end in CR LF where
the files do. -/
inductive MergeChunk where
  | unchanged (text : Bytes)
  | conflict (crlf : Bool) (ours theirs : Bytes)
deriving DecidableEq

/-- The end of a marker line, without the newline. -/
def markerEnd (crlf : Bool) : Bytes := if crlf then [13] else []

/-- The text of a piece; a conflict becomes a block between marker lines. -/
def MergeChunk.render : MergeChunk → Bytes
  | unchanged text => text
  | conflict crlf ours theirs =>
      mergeMarkers.start ++ markerEnd crlf ++ [newline] ++ ours ++
        (mergeMarkers.separator ++ markerEnd crlf ++ [newline] ++ theirs ++
          (mergeMarkers.finish ++ markerEnd crlf ++ [newline]))

/-- Whether a piece is a conflict. -/
def MergeChunk.isConflict : MergeChunk → Bool
  | unchanged _ => false
  | conflict _ _ _ => true

/-- `merge_file__is_binary`: a NUL in the first 8000 bytes, or more bytes than
xdiff takes. -/
def isBinary (data : Bytes) : Bool :=
  1024 * 1024 * 1023 < data.length || (data.take 8000).contains 0

/-- One of the three sides is binary. -/
def anyBinary (blob : Oid → Bytes) (ancestor ours theirs : Option IndexEntry) : Bool :=
  [ancestor, ours, theirs].any fun e => (e.map fun e => isBinary (blob e.id)).getD false

/-- What libgit2 promises of `git_merge_file_from_index` without a favour: an
empty result that is not automergeable for binary sides, and otherwise a text
with one block for each conflict that is left. -/
def MergesFiles {σ : Type} (repo : Repo σ) (blob : Oid → Bytes) : Prop :=
  ∀ ancestor ours theirs s result s', repo.merge ancestor ours theirs s = (.ok result, s') →
    if anyBinary blob ancestor ours theirs then result = ⟨false, []⟩
    else ∃ chunks : List MergeChunk, result.content = chunks.flatMap MergeChunk.render ∧
      result.automergeable = !chunks.any MergeChunk.isConflict

/-! ## From the index to the hunks -/

namespace IndexConflict

/-- The entry at a stage. -/
def entryAt (c : IndexConflict) : Stage → Option IndexEntry
  | .normal => none
  | .ancestor => c.ancestor
  | .ours => c.ours
  | .theirs => c.theirs

/-- The record with an entry put at its stage. -/
def put (c : IndexConflict) (e : IndexEntry) : IndexConflict :=
  match e.stage with
  | .normal => c
  | .ancestor => { c with ancestor := some e }
  | .ours => { c with ours := some e }
  | .theirs => { c with theirs := some e }

theorem entryAt_put {c : IndexConflict} {e : IndexEntry} (hstage : e.stage ≠ .normal)
    (st : Stage) : (c.put e).entryAt st = if st = e.stage then some e else c.entryAt st := by
  unfold put
  cases he : e.stage with
  | normal => exact absurd he hstage
  | ancestor => cases st <;> rfl
  | ours => cases st <;> rfl
  | theirs => cases st <;> rfl

end IndexConflict

/-- One entry of the scan: it is put into the record of its path, where its stage
must be free. -/
theorem collectEntry_eq {e : IndexEntry} (hstage : e.stage ≠ .normal) (m : ConflictMap) :
    collectEntry m e =
      if ((m[e.path]?.getD {}).entryAt e.stage).isSome then .error .abort
      else .ok (m.insert e.path ((m[e.path]?.getD {}).put e)) := by
  unfold collectEntry IndexConflict.put IndexConflict.entryAt
  cases he : e.stage with
  | normal => exact absurd he hstage
  | ancestor => rfl
  | ours => rfl
  | theirs => rfl

/-- An entry at stage 0 is not collected. -/
theorem collectEntry_normal {e : IndexEntry} (hstage : e.stage = .normal) (m : ConflictMap) :
    collectEntry m e = .ok m := by
  unfold collectEntry
  rw [hstage]

/-- The map has the entry at its path and stage. -/
def Collected (m : ConflictMap) (e : IndexEntry) : Prop :=
  ∃ c, m[e.path]? = some c ∧ c.entryAt e.stage = some e

/-- One entry of the scan is collected, and no entry is lost. -/
theorem collectEntry_ok {m m' : ConflictMap} {e : IndexEntry} (h : collectEntry m e = .ok m') :
    (e.stage ≠ .normal → Collected m' e) ∧ ∀ d, Collected m d → Collected m' d := by
  by_cases hstage : e.stage = .normal
  · rw [collectEntry_normal hstage] at h
    cases h
    exact ⟨fun hne => absurd hstage hne, fun d hd => hd⟩
  · rw [collectEntry_eq hstage] at h
    split at h
    · cases h
    · next hfree =>
        cases h
        constructor
        · intro _
          refine ⟨_, Std.ExtTreeMap.getElem?_insert_self, ?_⟩
          rw [IndexConflict.entryAt_put hstage, if_pos rfl]
        · rintro d ⟨c, hc, hd⟩
          by_cases hpath : e.path = d.path
          · refine ⟨(m[e.path]?.getD {}).put e, ?_, ?_⟩
            · rw [← hpath]
              exact Std.ExtTreeMap.getElem?_insert_self
            · rw [hpath, hc] at hfree ⊢
              rw [IndexConflict.entryAt_put hstage]
              split
              · next hsame =>
                  rw [← hsame] at hfree
                  exact absurd (by simp [hd]) hfree
              · exact hd
          · refine ⟨c, ?_, hd⟩
            rw [Std.ExtTreeMap.getElem?_insert, if_neg (by simpa using hpath)]
            exact hc

/-- The scan collects every entry of the index that is not at stage 0. -/
theorem foldlM_collectEntry_ok {entries : List IndexEntry} {m m' : ConflictMap}
    (h : entries.foldlM collectEntry m = .ok m') :
    (∀ e ∈ entries, e.stage ≠ .normal → Collected m' e) ∧
      ∀ d, Collected m d → Collected m' d := by
  induction entries generalizing m with
  | nil =>
      cases h
      exact ⟨by simp, fun d hd => hd⟩
  | cons e entries ih =>
      rw [List.foldlM_cons] at h
      cases hfirst : collectEntry m e with
      | error err => simp [hfirst, bind, Except.bind] at h
      | ok m₁ =>
          simp only [hfirst, bind, Except.bind] at h
          obtain ⟨hself, hkeep⟩ := collectEntry_ok hfirst
          obtain ⟨hrest, hkeep'⟩ := ih h
          refine ⟨?_, fun d hd => hkeep' d (hkeep d hd)⟩
          intro d hd hstage
          rcases List.mem_cons.mp hd with rfl | hd
          · exact hkeep' _ (hself hstage)
          · exact hrest d hd hstage

/-- The records of the map hold entries of the list, at their paths and stages. -/
def SourcedFrom (es : List IndexEntry) (m : ConflictMap) : Prop :=
  ∀ path c, m[path]? = some c → ∀ st e, c.entryAt st = some e →
    e ∈ es ∧ e.path = path ∧ e.stage = st

theorem sourcedFrom_empty (es : List IndexEntry) : SourcedFrom es ∅ := by
  intro path c hc
  simp at hc

namespace SourcedFrom

variable {done entries : List IndexEntry} {m m' : ConflictMap} {e : IndexEntry}

/-- The record of a path that is not in the map is empty. -/
theorem record (h : SourcedFrom done m) {path : Path} {st : Stage}
    (he : (m[path]?.getD {}).entryAt st = some e) : e ∈ done ∧ e.path = path ∧ e.stage = st := by
  cases hm : m[path]? with
  | none =>
      rw [hm] at he
      cases st <;> cases he
  | some c =>
      rw [hm] at he
      exact h path c hm st e he

theorem collectEntry (h : SourcedFrom done m) (hrun : Git.collectEntry m e = .ok m') :
    SourcedFrom (done ++ [e]) m' := by
  have hweaken : SourcedFrom (done ++ [e]) m := by
    intro path c hc st x hx
    obtain ⟨hmem, hrest⟩ := h path c hc st x hx
    exact ⟨List.mem_append_left _ hmem, hrest⟩
  by_cases hstage : e.stage = .normal
  · rw [collectEntry_normal hstage] at hrun
    cases hrun
    exact hweaken
  · rw [collectEntry_eq hstage] at hrun
    split at hrun
    · cases hrun
    · cases hrun
      intro path c hc st x hx
      rw [Std.ExtTreeMap.getElem?_insert] at hc
      split at hc
      · next hpath =>
          have hpath : e.path = path := by simpa using hpath
          cases hc
          rw [IndexConflict.entryAt_put hstage] at hx
          split at hx
          · next hst =>
              cases hx
              exact ⟨List.mem_append_right _ List.mem_cons_self, hpath, hst.symm⟩
          · obtain ⟨hmem, hxpath, hxst⟩ := h.record hx
            exact ⟨List.mem_append_left _ hmem, hxpath.trans hpath, hxst⟩
      · exact hweaken path c hc st x hx

theorem foldlM (h : SourcedFrom done m) (hrun : entries.foldlM Git.collectEntry m = .ok m') :
    SourcedFrom (done ++ entries) m' := by
  induction entries generalizing done m with
  | nil =>
      cases hrun
      rwa [List.append_nil]
  | cons e entries ih =>
      rw [List.foldlM_cons] at hrun
      cases hfirst : Git.collectEntry m e with
      | error err => simp [hfirst, bind, Except.bind] at hrun
      | ok m₁ =>
          simp only [hfirst, bind, Except.bind] at hrun
          have hall := ih (h.collectEntry hfirst) hrun
          rwa [List.append_assoc] at hall

end SourcedFrom

section ConflictsGet

variable {σ : Type} {strings : Strings} {repo : Repo σ}

/-- The `Conflict` of a path has that path. -/
theorem path_conflictOf {path : Path} {c : IndexConflict} {s s' : σ} {fc : Conflict}
    (h : conflictOf strings repo path c s = (.ok fc, s')) : fc.path = path := by
  unfold conflictOf at h
  split at h
  · obtain ⟨_, _, _, hpure⟩ := Program.bind_eq_ok.mp h
    cases hpure
    rfl
  · split at h
    · cases h
      rfl
    · split at h
      · obtain ⟨_, _, _, hrest⟩ := Program.bind_eq_ok.mp h
        obtain ⟨_, _, _, hpure⟩ := Program.bind_eq_ok.mp hrest
        cases hpure
        rfl
      · cases h

/-- The hunks of a file against file conflict are those of the merge text. -/
theorem conflictOf_file {path : Path} {c : IndexConflict} {s s' : σ} {fc : Conflict}
    (hours : objType c.ours = objTypeFile) (htheirs : objType c.theirs = objTypeFile)
    (h : conflictOf strings repo path c s = (.ok fc, s')) :
    ∃ result s₁, repo.merge c.ancestor c.ours c.theirs s = (.ok result, s₁) ∧
      fc.hunks = hunksFromConflictString strings mergeMarkers result.content := by
  unfold conflictOf at h
  simp only [hours, htheirs, and_self, if_true] at h
  obtain ⟨result, s₁, hmerge, hpure⟩ := Program.bind_eq_ok.mp h
  cases hpure
  exact ⟨result, s', hmerge, rfl⟩

/-- `conflictsGet` comes to the conflict `i` in the state `s₁`: it has made those before
it, from `s` on. -/
def Reaches (strings : Strings) (repo : Repo σ) (index : Index) (s : σ) (i : Nat) (s₁ : σ) : Prop :=
  ∃ conflicts fcs, index.entries.foldlM collectEntry ∅ = .ok conflicts ∧
    ((conflicts.toList.take i).mapM fun (path, c) => conflictOf strings repo path c :
      Program σ Exn (List Conflict)) s = (.ok fcs, s₁)

/-- An entry of a conflict is the one that the index has at its path and stage. -/
theorem find_of_mem {index : Index} {s s' : σ} {fcs : List Conflict}
    (h : conflictsGet strings repo index s = (.ok fcs, s')) {e : IndexEntry} (he : e ∈ index.entries)
    (hstage : e.stage ≠ .normal) : index.find e.path e.stage = some e := by
  obtain ⟨m, s₁, hcollect, -⟩ := Program.bind_eq_ok.mp h
  obtain ⟨hcollect, -⟩ := Program.lift_eq_ok.mp hcollect
  obtain ⟨hall, -⟩ := foldlM_collectEntry_ok hcollect
  obtain ⟨c, hc, hat⟩ := hall e he hstage
  unfold Index.find
  cases hfind : index.entries.find? fun d => d.path = e.path && d.stage = e.stage with
  | some d =>
      have hprop := List.find?_some hfind
      rw [Bool.and_eq_true, decide_eq_true_eq, decide_eq_true_eq] at hprop
      obtain ⟨c', hc', hd⟩ := hall d (List.mem_of_find?_eq_some hfind) (by rwa [hprop.2])
      rw [hprop.1, hc, Option.some.injEq] at hc'
      rw [← hc', hprop.2, hat] at hd
      exact hd.symm
  | none => exact absurd (List.find?_eq_none.mp hfind e he) (by simp)

/-- A conflict is made of the entries that the index has for its path. -/
theorem conflictsGet_record {index : Index} {s s' : σ} {fcs : List Conflict}
    (h : conflictsGet strings repo index s = (.ok fcs, s')) {i : Nat} {fc : Conflict}
    (hfc : fcs[i]? = some fc) :
    ∃ c s₁ s₂, Reaches strings repo index s i s₁ ∧ conflictOf strings repo fc.path c s₁ = (.ok fc, s₂) ∧
      ∀ st, st ≠ .normal → c.entryAt st = index.find fc.path st := by
  have hfind := fun {e : IndexEntry} => @find_of_mem _ _ _ _ _ _ _ h e
  obtain ⟨m, s₁, hlift, hmap⟩ := Program.bind_eq_ok.mp h
  obtain ⟨hcollect, rfl⟩ := Program.lift_eq_ok.mp hlift
  obtain ⟨hall, -⟩ := foldlM_collectEntry_ok hcollect
  have hsourced := (sourcedFrom_empty []).foldlM hcollect
  rw [List.nil_append] at hsourced
  obtain ⟨⟨path, c⟩, s₂, s₃, hat, hbefore, hrun⟩ := Program.getElem?_of_mapM_ok hmap hfc
  obtain rfl : fc.path = path := path_conflictOf hrun
  have hget : m[fc.path]? = some c :=
    Std.ExtTreeMap.mem_toList_iff_getElem?_eq_some.mp (List.mem_of_getElem? hat)
  refine ⟨c, s₂, s₃, ⟨m, _, hcollect, hbefore⟩, hrun, fun st hst => ?_⟩
  cases hentry : c.entryAt st with
  | some e =>
      obtain ⟨hmem, hpath, hstage⟩ := hsourced fc.path c hget st e hentry
      rw [← hpath, ← hstage]
      exact (hfind hmem (by rwa [hstage])).symm
  | none =>
      cases hindex : index.find fc.path st with
      | none => rfl
      | some e =>
          have hprop := List.find?_some hindex
          rw [Bool.and_eq_true, decide_eq_true_eq, decide_eq_true_eq] at hprop
          obtain ⟨c', hc', he⟩ :=
            hall e (List.mem_of_find?_eq_some hindex) (by rwa [hprop.2])
          rw [hprop.1, hget, Option.some.injEq] at hc'
          rw [← hc', hprop.2, hentry] at he
          cases he

/-- A conflict that `conflictsGet` returned for a path with file entries on both
sides was made from the content merge of these entries and the ancestor's. -/
theorem conflictsGet_file {index : Index} {ours theirs : IndexEntry} {s s' : σ}
    {fcs : List Conflict} (h : conflictsGet strings repo index s = (.ok fcs, s'))
    (hours : ours ∈ index.entries) (htheirs : theirs ∈ index.entries)
    (hoursStage : ours.stage = .ours) (htheirsStage : theirs.stage = .theirs)
    (hpath : theirs.path = ours.path) (hoursFile : objType (some ours) = objTypeFile)
    (htheirsFile : objType (some theirs) = objTypeFile) :
    (∃ fc ∈ fcs, fc.path = ours.path) ∧ ∀ i fc, fcs[i]? = some fc → fc.path = ours.path →
      ∃ s₁ result s₂, Reaches strings repo index s i s₁ ∧
        repo.merge (index.find ours.path .ancestor) (some ours) (some theirs) s₁ =
          (.ok result, s₂) ∧
        fc.hunks = hunksFromConflictString strings mergeMarkers result.content := by
  have hfindOurs := find_of_mem h hours (by simp [hoursStage])
  have hfindTheirs := find_of_mem h htheirs (by simp [htheirsStage])
  rw [hoursStage] at hfindOurs
  rw [htheirsStage, hpath] at hfindTheirs
  constructor
  · obtain ⟨m, s₁, hcollect, hmap⟩ := Program.bind_eq_ok.mp h
    obtain ⟨hcollect, -⟩ := Program.lift_eq_ok.mp hcollect
    obtain ⟨hall, -⟩ := foldlM_collectEntry_ok hcollect
    obtain ⟨c, hc, -⟩ := hall ours hours (by simp [hoursStage])
    have hmem : (ours.path, c) ∈ m.toList :=
      Std.ExtTreeMap.mem_toList_iff_getElem?_eq_some.mpr hc
    obtain ⟨fc, hfc, s₂, s₃, hrun⟩ := Program.exists_of_mapM_ok hmap hmem
    exact ⟨fc, hfc, path_conflictOf hrun⟩
  · intro i fc hfc hfcPath
    obtain ⟨c, s₁, s₂, hreaches, hrun, hentry⟩ := conflictsGet_record h hfc
    rw [hfcPath] at hentry
    have hcancestor : c.ancestor = index.find ours.path .ancestor := hentry .ancestor (by simp)
    have hcours : c.ours = some ours := (hentry .ours (by simp)).trans hfindOurs
    have hctheirs : c.theirs = some theirs := (hentry .theirs (by simp)).trans hfindTheirs
    obtain ⟨result, s₃, hmerge, hhunks⟩ :=
      conflictOf_file (by rw [hcours]; exact hoursFile) (by rw [hctheirs]; exact htheirsFile) hrun
    rw [hcancestor, hcours, hctheirs] at hmerge
    exact ⟨s₁, result, s₃, hreaches, hmerge, hhunks⟩

/-- For a path conflicted as file against file whose content merge is not
automergeable, the `Conflict` has a conflict hunk exactly when no side is binary
and some block in the merge text is not empty. -/
theorem conflictsGet_hasConflict_iff {blob : Oid → Bytes} (hrepo : MergesFiles repo blob)
    {index : Index} {ours theirs : IndexEntry} {s s' : σ} {fcs : List Conflict}
    (h : conflictsGet strings repo index s = (.ok fcs, s'))
    (hours : ours ∈ index.entries) (htheirs : theirs ∈ index.entries)
    (hoursStage : ours.stage = .ours) (htheirsStage : theirs.stage = .theirs)
    (hpath : theirs.path = ours.path) (hoursFile : objType (some ours) = objTypeFile)
    (htheirsFile : objType (some theirs) = objTypeFile) :
    (∃ fc ∈ fcs, fc.path = ours.path) ∧ ∀ i fc, fcs[i]? = some fc → fc.path = ours.path →
      ∃ s₁ result s₂, Reaches strings repo index s i s₁ ∧
        repo.merge (index.find ours.path .ancestor) (some ours) (some theirs) s₁ =
          (.ok result, s₂) ∧
        (result.automergeable = false →
          (HasConflict fc.hunks ↔
            anyBinary blob (index.find ours.path .ancestor) (some ours) (some theirs) = false ∧
              onlyEmptyBlocks mergeMarkers .normal (splitLines result.content) = false)) := by
  obtain ⟨hexists, hfile⟩ := conflictsGet_file h hours htheirs hoursStage htheirsStage hpath
    hoursFile htheirsFile
  refine ⟨hexists, ?_⟩
  intro i fc hfc hfcPath
  obtain ⟨s₁, result, s₂, hreaches, hmerge, hhunks⟩ := hfile i fc hfc hfcPath
  refine ⟨s₁, result, s₂, hreaches, hmerge, fun _ => ?_⟩
  rw [hhunks]
  unfold hunksFromConflictString
  rw [hasConflict_hunksFromLines, strings.split_eq]
  have hspec := hrepo _ _ _ _ _ _ hmerge
  by_cases hbinary :
      anyBinary blob (index.find ours.path .ancestor) (some ours) (some theirs)
  · rw [if_pos hbinary] at hspec
    subst hspec
    simp only [hbinary]
    decide
  · simp [hbinary]

end ConflictsGet

/-! ## Two whole files in conflict -/

/-- A repository that holds the given blobs and merges two files into one
conflict of the whole contents. -/
def wholeFileRepo (blob : Oid → Bytes) : Repo Unit where
  mergeTrees _ _ _ _ := pure ⟨[]⟩
  indexWrite _ := pure ⟨0⟩
  commitStore _ := pure ()
  merge ancestor ours theirs :=
    let content := fun e : Option IndexEntry => (e.map fun e => blob e.id).getD []
    pure (if anyBinary blob ancestor ours theirs then ⟨false, []⟩
      else ⟨false, (MergeChunk.conflict false (content ours) (content theirs)).render⟩)
  blobLookup id := pure (blob id)
  blobCreate _ := pure 0

theorem wholeFileRepo_mergesFiles (blob : Oid → Bytes) : MergesFiles (wholeFileRepo blob) blob := by
  intro ancestor ours theirs s result s' h
  cases h
  split
  · simp
  · refine ⟨[.conflict false ((ours.map fun e => blob e.id).getD [])
      ((theirs.map fun e => blob e.id).getD [])], ?_, rfl⟩
    simp

namespace TwoFiles

/-- The blob 0 is binary, the others are a line of text. -/
def blob (id : Oid) : Bytes := if id = 0 then [0] else if id = 1 then ascii "a\n" else ascii "b\n"

def entry (stage : Stage) (id : Oid) : IndexEntry := ⟨[ascii "data"], stage, 0o100644, id⟩

/-- Both sides are text. -/
def textIndex : Index := ⟨[entry .ours 1, entry .theirs 2]⟩

/-- Both sides are binary. -/
def binaryIndex : Index := ⟨[entry .ours 0, entry .theirs 0]⟩

/-- What `conflictsGet` returns for the text files. -/
def textConflict : Conflict :=
  ⟨.file, [ascii "data"], [.ofConflict [ascii "a"] [ascii "b"], .ofNormal [[]]]⟩

/-- What `conflictsGet` returns for the binary files: an empty file without
conflict. -/
def binaryConflict : Conflict := ⟨.file, [ascii "data"], [.ofNormal [[]]]⟩

theorem conflictsGet_textIndex :
    conflictsGet .plain (wholeFileRepo blob) textIndex () = (.ok [textConflict], ()) := rfl

theorem hasConflict_textIndex :
    (∃ fc ∈ [textConflict], fc.path = (entry .ours 1).path) ∧
      ∀ i fc, [textConflict][i]? = some fc → fc.path = (entry .ours 1).path →
        ∃ s₁ result s₂, Reaches .plain (wholeFileRepo blob) textIndex () i s₁ ∧
          (wholeFileRepo blob).merge (textIndex.find (entry .ours 1).path .ancestor)
            (some (entry .ours 1)) (some (entry .theirs 2)) s₁ = (.ok result, s₂) ∧
          (result.automergeable = false →
            (HasConflict fc.hunks ↔
              anyBinary blob (textIndex.find (entry .ours 1).path .ancestor)
                  (some (entry .ours 1)) (some (entry .theirs 2)) = false ∧
                onlyEmptyBlocks mergeMarkers .normal (splitLines result.content) = false)) :=
  conflictsGet_hasConflict_iff (wholeFileRepo_mergesFiles blob) conflictsGet_textIndex
    (by decide) (by decide) rfl rfl rfl rfl rfl

/-- The content merge of the binary files is not automergeable, the conflict that
comes out of it has no conflict hunk, and its theirs side is an empty file. -/
theorem conflictsGet_binaryIndex :
    MergesFiles (wholeFileRepo blob) blob ∧
      (wholeFileRepo blob).merge none (some (entry .ours 0)) (some (entry .theirs 0)) () =
        (.ok ⟨false, []⟩, ()) ∧
      conflictsGet .plain (wholeFileRepo blob) binaryIndex () = (.ok [binaryConflict], ()) ∧
      ¬HasConflict binaryConflict.hunks ∧ binaryConflict.content .plain .theirs = some [] := by
  refine ⟨wholeFileRepo_mergesFiles blob, rfl, rfl, ?_, rfl⟩
  simp [HasConflict, binaryConflict, Hunk.ofNormal]

end TwoFiles

end Git
end Debase
