import Debase.Git.MergeSides

/-!
# Resolving a conflict in the panel

`_gitRunConflictPanel` shows a panel for every conflict hunk of a file and collects
the lines that the user chooses.  `Conflict::content` collects the lines of a side
when nobody is asked.  They differ in when they take the file for deleted: the
panel when it has collected no line, `noFile` when the only hunk is a conflict
without lines on that side.
-/

namespace Debase
namespace App

open Library Toastbox Git

/-! ## The panel -/

/-- A result of `UI::ConflictPanel`; for the editor, how editing the file ended
(`_gitConflictResolveInEditor`). -/
inductive Click where
  | chooseOurs
  | chooseTheirs
  | openInEditor (edited : Except Exn Bytes)
  | cancel

/-- How `_gitRunConflictPanel` ends, or that it waits for a click. -/
inductive PanelOutcome where
  | content (content : Option Bytes)
  | threw (e : Exn)
  | waiting

/-- What a panel does for its hunk: append lines, or leave the function. -/
inductive PanelStep where
  | append (lines : List Bytes)
  | leave (outcome : PanelOutcome)

/-- The loop around one panel, on the clicks of the user. -/
def hunkPanel (fc : Conflict) (hunk : Hunk) : List Click → PanelStep
  | [] => .leave .waiting
  | .chooseOurs :: _ => .append hunk.linesOurs
  | .chooseTheirs :: _ => .append hunk.linesTheirs
  | .openInEditor (.ok editorContent) :: _ =>
      -- a cleared text stands for no file only if one of the sides is no file
      if editorContent.isEmpty && (fc.noFile .ours || fc.noFile .theirs) then
        .leave (.content none)
      else .leave (.content (some editorContent))
  | .openInEditor (.error e) :: clicks =>
      if e = .conflictResolveCanceled then hunkPanel fc hunk clicks else .leave (.threw e)
  | .cancel :: _ => .leave (.threw .conflictResolveCanceled)

/-- The loop over the hunks from the `i`-th on. -/
def hunkPanels (strings : Strings) (fc : Conflict) (clicks : Nat → List Click) :
    Nat → List Hunk → List Bytes → PanelOutcome
  | _, [], lines => .content (if lines.isEmpty then none else some (strings.join lines))
  | i, hunk :: hunks, lines =>
      match hunk.type with
      | .normal => hunkPanels strings fc clicks (i + 1) hunks (lines ++ hunk.normal)
      | .conflict =>
          match hunkPanel fc hunk (clicks i) with
          | .append chosen => hunkPanels strings fc clicks (i + 1) hunks (lines ++ chosen)
          | .leave outcome => outcome

/-- `_gitRunConflictPanel`, with the clicks on the panel of each hunk. -/
def gitRunConflictPanel (strings : Strings) (fc : Conflict) (clicks : Nat → List Click) :
    PanelOutcome :=
  hunkPanels strings fc clicks 0 fc.hunks []

/-! ## Choosing one side throughout -/

/-- The button of a side. -/
def Click.choose : Side → Click
  | .ours => .chooseOurs
  | .theirs => .chooseTheirs

/-- The user may open the editor and cancel, and chooses the side then. -/
def Chooses (side : Side) (clicks : List Click) : Prop :=
  ∃ n rest, clicks = List.replicate n (.openInEditor (.error .conflictResolveCanceled)) ++
    Click.choose side :: rest

theorem hunkPanel_of_chooses (fc : Conflict) {hunk : Hunk} (htype : hunk.type = .conflict)
    {side : Side} {clicks : List Click} (h : Chooses side clicks) :
    hunkPanel fc hunk clicks = .append (hunk.lines side) := by
  obtain ⟨n, rest, rfl⟩ := h
  induction n with
  | zero =>
      unfold Hunk.lines
      rw [htype]
      cases side <;> rfl
  | succ n ih =>
      rw [List.replicate_succ, List.cons_append]
      unfold hunkPanel
      rw [if_pos rfl]
      exact ih

/-- The side is chosen in the panel of every conflict hunk. -/
def ChoosesSide (side : Side) (hunks : List Hunk) (clicks : Nat → List Click) : Prop :=
  ∀ i hunk, hunks[i]? = some hunk → hunk.type = .conflict → Chooses side (clicks i)

theorem hunkPanels_of_chooses (strings : Strings) (fc : Conflict) {side : Side}
    {hunks : List Hunk} {clicks : Nat → List Click} {i : Nat}
    (h : ChoosesSide side hunks fun k => clicks (i + k)) (lines : List Bytes) :
    hunkPanels strings fc clicks i hunks lines =
      hunkPanels strings fc clicks 0 [] (lines ++ hunks.flatMap fun hunk => hunk.lines side) := by
  induction hunks generalizing i lines with
  | nil =>
      rw [List.flatMap_nil, List.append_nil]
      rfl
  | cons hunk hunks ih =>
      have hrest : ChoosesSide side hunks fun k => clicks (i + 1 + k) := by
        intro k hunk' hk htype
        have hchooses : Chooses side (clicks (i + (k + 1))) := h (k + 1) hunk' hk htype
        rwa [show i + (k + 1) = i + 1 + k by omega] at hchooses
      rw [List.flatMap_cons, ← List.append_assoc]
      unfold hunkPanels
      cases htype : hunk.type with
      | normal =>
          have hlines : hunk.lines side = hunk.normal := by
            unfold Hunk.lines
            rw [htype]
          rw [hlines]
          exact ih hrest _
      | conflict =>
          have hfirst : Chooses side (clicks i) := h 0 hunk rfl htype
          dsimp only
          rw [hunkPanel_of_chooses fc htype hfirst]
          exact ih hrest _

/-- The lines of the side are collected. -/
theorem gitRunConflictPanel_some {strings : Strings} {fc : Conflict} {side : Side}
    {clicks : Nat → List Click} (h : ChoosesSide side fc.hunks clicks)
    (hlines : (fc.hunks.flatMap fun hunk => hunk.lines side) ≠ []) :
    gitRunConflictPanel strings fc clicks =
      .content (some (joinLines (fc.hunks.flatMap fun hunk => hunk.lines side))) := by
  unfold gitRunConflictPanel
  rw [hunkPanels_of_chooses strings fc (by simpa using h), List.nil_append]
  unfold hunkPanels
  rw [if_neg (by simpa using hlines), strings.join_eq]

/-- A file without any line on the side is taken for no file. -/
theorem gitRunConflictPanel_none {strings : Strings} {fc : Conflict} {side : Side}
    {clicks : Nat → List Click} (h : ChoosesSide side fc.hunks clicks)
    (hlines : (fc.hunks.flatMap fun hunk => hunk.lines side) = []) :
    gitRunConflictPanel strings fc clicks = .content none := by
  unfold gitRunConflictPanel
  rw [hunkPanels_of_chooses strings fc (by simpa using h), List.nil_append, hlines]
  rfl

/-! ## The sides of the conflicts of an index -/

/-- The stage of a side. -/
def stageOf : Side → Stage
  | .ours => .ours
  | .theirs => .theirs

/-- The kind of object that an index has for a side of a path. -/
def sideKind (index : Index) (path : Path) (side : Side) : Nat :=
  objType (index.find path (stageOf side))

section Sides

variable {σ : Type} {strings : Strings} {repo : Repo σ}

theorem sideLines_ok {e : Option IndexEntry} {s s' : σ} {lines : List Bytes}
    (h : sideLines strings repo e s = (.ok lines, s')) :
    (objType e = objTypeNone → lines = [] ∧ s' = s) ∧
      (objType e = objTypeFile → ∃ entry content, e = some entry ∧
        repo.blobLookup entry.id s = (.ok content, s') ∧ lines = splitLines content) := by
  have hfile : objTypeFile ≠ objTypeNone := by decide
  unfold sideLines at h
  split at h
  · next entry =>
      split at h
      · next hkind =>
          obtain ⟨content, s₁, hlookup, hpure⟩ := Program.bind_eq_ok.mp h
          cases hpure
          exact ⟨fun hnone => absurd (hkind.symm.trans hnone) hfile,
            fun _ => ⟨entry, content, rfl, hlookup, strings.split_eq content⟩⟩
      · next hkind =>
          cases h
          exact ⟨fun _ => ⟨rfl, rfl⟩, fun heq => absurd heq hkind⟩
  · cases h
    exact ⟨fun _ => ⟨rfl, rfl⟩, fun heq => absurd heq.symm hfile⟩

/-- A side that is not merged is no file, a submodule, or the lines of a blob. -/
theorem conflictOf_side {path : Path} {c : IndexConflict} {s s' : σ} {fc : Conflict}
    (h : conflictOf strings repo path c s = (.ok fc, s'))
    (hnot : ¬(objType c.ours = objTypeFile ∧ objType c.theirs = objTypeFile)) (side : Side) :
    (objType (c.entryAt (stageOf side)) = objTypeNone ∧ fc.noFile side = true ∧
        (fc.hunks.flatMap fun hunk => hunk.lines side) = []) ∨
      (objType (c.entryAt (stageOf side)) = objTypeGitlink ∧
        (fc.hunks.flatMap fun hunk => hunk.lines side) ≠ []) ∨
      (objType (c.entryAt (stageOf side)) = objTypeFile ∧ ∃ entry content s₁,
        c.entryAt (stageOf side) = some entry ∧
          repo.blobLookup entry.id s = (.ok content, s₁) ∧
          (fc.hunks.flatMap fun hunk => hunk.lines side) = splitLines content) := by
  unfold conflictOf at h
  rw [if_neg hnot] at h
  split at h
  · next hlinks =>
      cases h
      -- two submodules: each side is the line of its id
      have hsome : ∀ e : Option IndexEntry, objType e = objTypeGitlink →
          (e.map fun e => stringFromId e.id).toList ≠ [] := by
        intro e he
        cases e with
        | none => exact absurd he (by decide)
        | some e => simp
      rw [List.flatMap_singleton]
      cases side with
      | ours => exact Or.inr (Or.inl ⟨hlinks.1, hsome c.ours hlinks.1⟩)
      | theirs => exact Or.inr (Or.inl ⟨hlinks.2, hsome c.theirs hlinks.2⟩)
  · split at h
    · next hone =>
        -- one file, and nothing on the other side
        obtain ⟨linesOurs, s₁, hours, hrest⟩ := Program.bind_eq_ok.mp h
        obtain ⟨linesTheirs, s₂, htheirs, hpure⟩ := Program.bind_eq_ok.mp hrest
        cases hpure
        have hside : ∃ lines t t',
            sideLines strings repo (c.entryAt (stageOf side)) t = (.ok lines, t') ∧
            (Hunk.ofConflict linesOurs linesTheirs).lines side = lines ∧
            (objType (c.entryAt (stageOf side)) = objTypeNone ∨
              objType (c.entryAt (stageOf side)) = objTypeFile ∧ t = s) := by
          cases side with
          | ours =>
              refine ⟨linesOurs, s, s₁, hours, rfl, ?_⟩
              exact hone.elim (fun h => Or.inr ⟨h.1, rfl⟩) fun h => Or.inl h.1
          | theirs =>
              -- nothing is read for ours where theirs is the file
              refine ⟨linesTheirs, s₁, s', htheirs, rfl, ?_⟩
              exact hone.elim (fun h => Or.inl h.2) fun h =>
                Or.inr ⟨h.2, ((sideLines_ok hours).1 h.1).2⟩
        obtain ⟨lines, t, t', hread, hlines, hkind⟩ := hside
        obtain ⟨hnone, hfile⟩ := sideLines_ok hread
        rw [List.flatMap_singleton, hlines]
        rcases hkind with hkind | ⟨hkind, rfl⟩
        · refine Or.inl ⟨hkind, ?_, (hnone hkind).1⟩
          unfold Conflict.noFile
          dsimp only
          rw [hlines, (hnone hkind).1]
          rfl
        · obtain ⟨entry, content, hentry, hlookup, heq⟩ := hfile hkind
          exact Or.inr (Or.inr ⟨hkind, entry, content, t', hentry, hlookup, heq⟩)
    · cases h

end Sides

/-- A last line is a line of both sides if the reader is out of the conflicts there. -/
theorem contentOf_ne_nil_of_last {m : ConflictMarkers} {side : Side} {state : ParseState}
    {lines : List Bytes} {last : Bytes} (hlast : startsWith m.start last = false)
    (hstate : ((roles m state lines).getLast?.map fun x => x.1.next).getD state = .normal) :
    contentOf side (roles m state (lines ++ [last])) ≠ [] := by
  induction lines generalizing state with
  | nil =>
      have hstate : state = .normal := hstate
      subst hstate
      have hrole : role m .normal last = .normal := by
        show (if startsWith m.start last then Role.start else Role.normal) = .normal
        rw [hlast]
        rfl
      rw [List.nil_append, roles_cons, hrole, contentOf_cons]
      simp [Role.on]
  | cons l ls ih =>
      rw [List.cons_append, roles_cons, contentOf_cons]
      split
      · simp
      · apply ih
        rw [roles_cons, List.getLast?_cons] at hstate
        cases hls : (roles m (role m state l).next ls).getLast? with
        | none =>
            rw [hls] at hstate
            exact hstate
        | some x =>
            rw [hls] at hstate
            exact hstate

/-! ## The panel against the automatic resolution -/

/-- The panel ends with the content that is taken without asking, which is no file
exactly when the index has none for the side. -/
def Agrees (strings : Strings) (index : Index) (fc : Conflict) (side : Side)
    (outcome : PanelOutcome) : Prop :=
  outcome = .content (fc.content strings side) ∧
    (fc.content strings side = none ↔ sideKind index fc.path side = objTypeNone)

/-- They agree as soon as a line is collected for a side that exists. -/
theorem agrees_of_lines {strings : Strings} {index : Index} {fc : Conflict}
    {side : Side} {clicks : Nat → List Click} (hclicks : ChoosesSide side fc.hunks clicks)
    (hlines : (fc.hunks.flatMap fun hunk => hunk.lines side) ≠ [])
    (hkind : sideKind index fc.path side ≠ objTypeNone) :
    Agrees strings index fc side (gitRunConflictPanel strings fc clicks) := by
  unfold Agrees
  rw [gitRunConflictPanel_some hclicks hlines, content_of_ne_nil hlines]
  refine ⟨rfl, fun hnone => ?_, fun hnone => absurd hnone hkind⟩
  cases hnone

/-- Without a line they agree on a side that is no file only. -/
theorem kind_of_agrees {strings : Strings} {index : Index} {fc : Conflict}
    {side : Side} {clicks : Nat → List Click} (hclicks : ChoosesSide side fc.hunks clicks)
    (hlines : (fc.hunks.flatMap fun hunk => hunk.lines side) = [])
    (h : Agrees strings index fc side (gitRunConflictPanel strings fc clicks)) :
    sideKind index fc.path side = objTypeNone := by
  obtain ⟨hcontent, hkind⟩ := h
  rw [gitRunConflictPanel_none hclicks hlines, PanelOutcome.content.injEq] at hcontent
  exact hkind.mp hcontent.symm

/-- They agree on a text where the reader is out of the last conflict before the last
line, which is no start marker. -/
theorem agrees_of_closed {strings : Strings} {index : Index} {fc : Conflict}
    {side : Side} {clicks : Nat → List Click} (hclicks : ChoosesSide side fc.hunks clicks)
    {lines : List Bytes} {last : Bytes}
    (hhunks : fc.hunks = hunksFromLines strings mergeMarkers (lines ++ [last]))
    (hlast : startsWith mergeMarkers.start last = false)
    (hstate : ((roles mergeMarkers .normal lines).getLast?.map fun x => x.1.next).getD .normal =
      .normal)
    (hkind : sideKind index fc.path side ≠ objTypeNone) :
    Agrees strings index fc side (gitRunConflictPanel strings fc clicks) := by
  apply agrees_of_lines hclicks _ hkind
  rw [hhunks, content_hunksFromLines]
  exact contentOf_ne_nil_of_last hlast hstate

section ConflictsGet

variable {σ : Type} {strings : Strings} {repo : Repo σ}

/-- Both sides of the path are files. -/
def BothFiles (index : Index) (path : Path) : Prop :=
  sideKind index path .ours = objTypeFile ∧ sideKind index path .theirs = objTypeFile

/-- Choosing a side in the panel gives the content of that side, unless both sides
are files and no line of the merge text is read as a line of the side; and a file
against no file has the content of its blob. -/
theorem gitRunConflictPanel_iff {index : Index} {s s' : σ} {fcs : List Conflict}
    (h : conflictsGet strings repo index s = (.ok fcs, s')) {i : Nat} {fc : Conflict}
    (hfc : fcs[i]? = some fc) {side : Side} {clicks : Nat → List Click}
    (hclicks : ChoosesSide side fc.hunks clicks) :
    (BothFiles index fc.path → ∃ s₁ result s₂, Reaches strings repo index s i s₁ ∧
        repo.merge (index.find fc.path .ancestor) (index.find fc.path .ours)
          (index.find fc.path .theirs) s₁ = (.ok result, s₂) ∧
        (Agrees strings index fc side (gitRunConflictPanel strings fc clicks) ↔
          contentOf side (roles mergeMarkers .normal (splitLines result.content)) ≠ [])) ∧
      (¬BothFiles index fc.path →
        Agrees strings index fc side (gitRunConflictPanel strings fc clicks)) ∧
      (¬BothFiles index fc.path → sideKind index fc.path side = objTypeFile →
        ∃ entry s₁ content s₂, index.find fc.path (stageOf side) = some entry ∧
          Reaches strings repo index s i s₁ ∧ repo.blobLookup entry.id s₁ = (.ok content, s₂) ∧
          fc.content strings side = some content) := by
  have hfile : objTypeFile ≠ objTypeNone := by decide
  have hlink : objTypeGitlink ≠ objTypeNone := by decide
  have hlinkFile : objTypeGitlink ≠ objTypeFile := by decide
  obtain ⟨c, s₁, s₂, hreaches, hrun, hentry⟩ := conflictsGet_record h hfc
  have hancestor : c.ancestor = index.find fc.path .ancestor := hentry .ancestor (by simp)
  have hours : c.ours = index.find fc.path .ours := hentry .ours (by simp)
  have htheirs : c.theirs = index.find fc.path .theirs := hentry .theirs (by simp)
  have hside : c.entryAt (stageOf side) = index.find fc.path (stageOf side) := by
    cases side with
    | ours => exact hours
    | theirs => exact htheirs
  constructor
  · intro hboth
    -- two files: the hunks are read from the merged text
    obtain ⟨result, s₃, hmerge, hhunks⟩ :=
      conflictOf_file (by rw [hours]; exact hboth.1) (by rw [htheirs]; exact hboth.2) hrun
    rw [hancestor, hours, htheirs] at hmerge
    refine ⟨s₁, result, s₃, hreaches, hmerge, ?_⟩
    have hkind : sideKind index fc.path side ≠ objTypeNone := by
      cases side with
      | ours => rw [hboth.1]; exact hfile
      | theirs => rw [hboth.2]; exact hfile
    rw [hunksFromConflictString, strings.split_eq] at hhunks
    rw [← @content_hunksFromLines strings, ← hhunks]
    exact ⟨fun hagrees hnil => hkind (kind_of_agrees hclicks hnil hagrees),
      fun hlines => agrees_of_lines hclicks hlines hkind⟩
  · -- no merge: the hunks are made from the entries themselves
    have hcases : ¬BothFiles index fc.path → _ := fun hnot =>
      conflictOf_side hrun (by rw [hours, htheirs]; exact hnot) side
    rw [hside] at hcases
    constructor
    · intro hnot
      rcases hcases hnot with ⟨hkind, hno, hlines⟩ | ⟨hkind, hlines⟩ |
        ⟨hkind, entry, content, s₃, hentry, hlookup, hlines⟩
      · -- neither of them has a line
        have hcontent : fc.content strings side = none := by
          unfold Conflict.content
          rw [if_pos hno]
        unfold Agrees
        rw [gitRunConflictPanel_none hclicks hlines, hcontent]
        exact ⟨rfl, fun _ => hkind, fun _ => rfl⟩
      · -- a submodule has the line of its id
        exact agrees_of_lines hclicks hlines fun hnone => hlink (hkind.symm.trans hnone)
      · -- even an empty file has one line, the empty one
        refine agrees_of_lines hclicks ?_ fun hnone => hfile (hkind.symm.trans hnone)
        rw [hlines]
        exact List.splitOn_ne_nil _ _
    · intro hnot hkindFile
      rcases hcases hnot with ⟨hkind, -⟩ | ⟨hkind, -⟩ |
        ⟨-, entry, content, s₃, hentry, hlookup, hlines⟩
      · exact absurd (hkindFile.symm.trans hkind) hfile
      · exact absurd (hkind.symm.trans hkindFile) hlinkFile
      · refine ⟨entry, s₁, content, s₃, hentry, hreaches, hlookup, ?_⟩
        have hne : (fc.hunks.flatMap fun hunk => hunk.lines side) ≠ [] := by
          rw [hlines]
          exact List.splitOn_ne_nil _ _
        rw [content_of_ne_nil hne, hlines, joinLines_splitLines]

end ConflictsGet

/-- Theirs is chosen for the conflict of two text files. -/
theorem gitRunConflictPanel_textConflict :
    Agrees .plain TwoFiles.textIndex TwoFiles.textConflict .theirs
      (gitRunConflictPanel .plain TwoFiles.textConflict fun _ => [.chooseTheirs]) := by
  have hclicks : ChoosesSide .theirs TwoFiles.textConflict.hunks fun _ => [.chooseTheirs] :=
    fun _ _ _ _ => ⟨0, [], rfl⟩
  have hfirst : [TwoFiles.textConflict][0]? = some TwoFiles.textConflict := rfl
  obtain ⟨s₁, result, s₂, -, hmerge, hiff⟩ :=
    (gitRunConflictPanel_iff TwoFiles.conflictsGet_textIndex hfirst hclicks).1 ⟨by decide, by decide⟩
  cases hmerge
  apply hiff.mpr
  split
  · decide
  · decide

/-! ## An unchanged line that looks like a start marker -/

namespace MarkerLine

/-- Ours has `a` and theirs nothing before a line that is the start marker. -/
def runs : List MergeRun :=
  [.conflict false [ascii "a"] [], .unchanged [mergeMarkers.start]]

/-- A repository where all merges of files give this text. -/
def repo : Repo Unit :=
  { wholeFileRepo (fun _ => []) with merge := fun _ _ _ => pure ⟨false, mergedText runs []⟩ }

/-- The line after the conflict is read as the start of another conflict. -/
def conflict : Conflict :=
  ⟨.file, [ascii "data"], [.ofConflict [ascii "a"] [], .ofConflict [[]] []]⟩

/-- Theirs is an empty file for the automatic resolution, and no file after the panel. -/
theorem panel_deletes :
    MergesFiles repo (fun _ => []) ∧
      conflictsGet .plain repo TwoFiles.textIndex () = (.ok [conflict], ()) ∧
      BothFiles TwoFiles.textIndex conflict.path ∧
      (mergedText runs []).getLast? = some newline ∧
      conflict.content .plain .theirs = some [] ∧
      gitRunConflictPanel .plain conflict (fun _ => [.chooseTheirs]) = .content none := by
  refine ⟨?_, rfl, ⟨by decide, by decide⟩, rfl, rfl, rfl⟩
  intro ancestor ours theirs s result s' h
  cases h
  have hbinary : anyBinary (fun _ => []) ancestor ours theirs = false := by
    unfold anyBinary
    cases ancestor <;> cases ours <;> cases theirs <;> rfl
  rw [hbinary, if_neg (by simp)]
  exact ⟨runs.map MergeRun.chunk ++ [.unchanged []], rfl, rfl⟩

end MarkerLine

end App
end Debase
