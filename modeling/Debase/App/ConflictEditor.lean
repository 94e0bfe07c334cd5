import Debase.App.ConflictPanel
import Debase.Git.HunkRoundTrip
import Debase.Git.Reflog
import Debase.Git.Resolve
import Debase.Library.Run

/-!
# Resolving a conflict in the editor

`_gitConflictResolveInEditor` runs the editor on the text of a conflicted file until what the
editor leaves can be taken.  Each turn goes on with the text of the turn before, and the user is
asked in between.

A text can be taken if no line of it looks like a conflict marker; for a submodule it must also
be the id of a commit that the submodule has.
-/

namespace Debase
namespace Git

open Toastbox

/-- `MergeMarkerBareStart`, `MergeMarkerBareSeparator` and `MergeMarkerBareEnd`. -/
def bareMarkers : ConflictMarkers where
  start := ascii "<<<<<<<"
  separator := ascii "======="
  finish := ascii ">>>>>>>"

/-- A line that begins with one of the markers. -/
def ConflictMarkers.marks (m : ConflictMarkers) (line : Bytes) : Bool :=
  startsWith m.start line || startsWith m.separator line || startsWith m.finish line

/-- `ConflictStringContainsConflictMarkers`. -/
def conflictStringContainsConflictMarkers (strings : Strings) (m : ConflictMarkers)
    (str : Bytes) : Bool :=
  (strings.split str).any fun line =>
    strings.startsWith m.start line || strings.startsWith m.separator line ||
      strings.startsWith m.finish line

theorem conflictStringContainsConflictMarkers_eq (strings : Strings) (m : ConflictMarkers)
    (str : Bytes) :
    conflictStringContainsConflictMarkers strings m str = (splitLines str).any m.marks := by
  unfold conflictStringContainsConflictMarkers
  simp only [strings.split_eq, strings.startsWith_eq]
  rfl

end Git

namespace App

open Library Toastbox Git

/-! ## The loop -/

/-- What the editing of a conflict needs from outside: the functions of strings, and the repository
of a submodule. -/
structure EditEnv where
  trim (s : Bytes) : Bytes
  strings : Strings
  /-- `Repo::Open(_repo.path() / fc.path)`. -/
  submoduleOpen (path : Path) : Except Exn Unit
  /-- Whether `commitLookup` finds a commit there. -/
  submoduleCommit (path : Path) (id : Oid) : Bool

/-- One turn of the loop: what the editor makes of the text, and whether the user chooses "Edit"
if an alert asks. -/
structure EditTurn where
  edit (content : Bytes) : Except Exn Bytes
  again : Bool

/-- What becomes of the text that the editor leaves; a refused one is edited further. -/
inductive Verdict where
  | accepted (text : Bytes)
  | refused (text : Bytes)
  | threw (e : Exn)

namespace EditEnv

variable (env : EditEnv) (fc : Conflict)

/-- The checks after the editor has run. -/
def judge (conflictStr : Bytes) : Verdict :=
  if conflictStringContainsConflictMarkers env.strings bareMarkers conflictStr then
    .refused conflictStr
  else
    match fc.type with
    | .file => .accepted conflictStr
    | .submodule =>
        match env.submoduleOpen fc.path with
        | .error e => .threw e
        | .ok () =>
            let conflictStr := env.trim conflictStr
            match idFromString conflictStr with
            | .ok id => if env.submoduleCommit fc.path id then .accepted conflictStr
                else .refused conflictStr
            | .error _ => .refused conflictStr

/-- The loop from a text on; `none` if it waits for the user. -/
def editLoop : Bytes → List EditTurn → Option (Except Exn Bytes)
  | _, [] => none
  | conflictStr, turn :: turns =>
      match turn.edit conflictStr with
      | .error e => some (.error e)
      | .ok edited =>
          match env.judge fc edited with
          | .accepted text => some (.ok text)
          | .threw e => some (.error e)
          | .refused text =>
              if turn.again then editLoop text turns else some (.error .conflictResolveCanceled)

/-- `_gitConflictResolveInEditor`. -/
def gitConflictResolveInEditor (turns : List EditTurn) : Option (Except Exn Bytes) :=
  env.editLoop fc (conflictStringFromHunks env.strings bareMarkers fc.hunks) turns

/-! ## When a text is taken -/

/-- What is left of the text that the editor wrote: of a submodule, without the space around it. -/
def left (edited : Bytes) : Bytes :=
  match fc.type with
  | .file => edited
  | .submodule => env.trim edited

/-- The text is taken that the editor leaves: no line of it looks like a marker, and for a submodule
it is the id of a commit that is there. -/
structure Taken (edited text : Bytes) : Prop where
  eq : text = env.left fc edited
  unmarked : ∀ line ∈ splitLines edited, bareMarkers.marks line = false
  opened : fc.type = .submodule → env.submoduleOpen fc.path = .ok ()
  commit : fc.type = .submodule →
    ∃ id, idFromString text = .ok id ∧ env.submoduleCommit fc.path id = true

/-- A turn after which the user goes on, with the text of the next one. -/
def refusal (conflictStr : Bytes) (turn : EditTurn) : Option Bytes :=
  match turn.edit conflictStr with
  | .error _ => none
  | .ok edited =>
      match env.judge fc edited with
      | .refused text => if turn.again then some text else none
      | _ => none

variable {env} {fc}

theorem judge_accepted_iff {edited text : Bytes} :
    env.judge fc edited = .accepted text ↔ env.Taken fc edited text := by
  have hmarks : conflictStringContainsConflictMarkers env.strings bareMarkers edited = false ↔
      ∀ line ∈ splitLines edited, bareMarkers.marks line = false := by
    rw [conflictStringContainsConflictMarkers_eq, List.any_eq_false]
    simp
  unfold judge
  cases hcontains : conflictStringContainsConflictMarkers env.strings bareMarkers edited with
  | true =>
      rw [if_pos rfl]
      constructor
      · intro h
        cases h
      · intro h
        rw [hmarks.mpr h.unmarked] at hcontains
        cases hcontains
  | false =>
      have hunmarked := hmarks.mp hcontains
      rw [if_neg Bool.false_ne_true]
      cases htype : fc.type with
      | file =>
          have hleft : env.left fc edited = edited := by
            simp [left, htype]
          dsimp only
          rw [Verdict.accepted.injEq]
          constructor
          · rintro rfl
            exact ⟨hleft.symm, hunmarked, by simp [htype], by simp [htype]⟩
          · intro h
            rw [h.eq, hleft]
      | submodule =>
          have hleft : env.left fc edited = env.trim edited := by
            simp [left, htype]
          dsimp only
          constructor
          · intro h
            split at h
            · cases h
            · next hopen =>
                split at h
                · next id hid =>
                    split at h
                    · next hcommit =>
                        cases h
                        exact ⟨hleft.symm, hunmarked, fun _ => hopen, fun _ => ⟨id, hid, hcommit⟩⟩
                    · cases h
                · cases h
          · intro h
            obtain ⟨id, hid, hcommit⟩ := h.commit htype
            have htext := h.eq
            rw [hleft] at htext
            subst htext
            rw [h.opened htype]
            dsimp only
            rw [hid]
            dsimp only
            rw [if_pos hcommit]

/-- The loop ends with a text if and only if one turn ends with it, and the user goes on after each
turn before. -/
theorem editLoop_ok_iff {turns : List EditTurn} {conflictStr text : Bytes} :
    env.editLoop fc conflictStr turns = some (.ok text) ↔
      ∃ pre turn post mid edited, turns = pre ++ turn :: post ∧
        run (env.refusal fc) conflictStr pre = some mid ∧ turn.edit mid = .ok edited ∧
        env.Taken fc edited text := by
  induction turns generalizing conflictStr with
  | nil => simp [editLoop]
  | cons turn turns ih =>
      constructor
      · intro h
        unfold editLoop at h
        split at h
        · cases h
        · next edited hedit =>
            split at h
            · next text' hjudge =>
                cases h
                exact ⟨[], turn, turns, conflictStr, edited, rfl, rfl, hedit,
                  judge_accepted_iff.mp hjudge⟩
            · cases h
            · next text' hjudge =>
                split at h
                · next hagain =>
                    obtain ⟨pre, last, post, mid, edited', rfl, hrun, hlast, htaken⟩ := ih.mp h
                    have hrefusal : env.refusal fc conflictStr turn = some text' := by
                      simp [refusal, hedit, hjudge, hagain]
                    exact ⟨turn :: pre, last, post, mid, edited', rfl,
                      Run.cons_eq_some.mpr ⟨text', hrefusal, hrun⟩, hlast, htaken⟩
                · cases h
      · rintro ⟨pre, last, post, mid, edited, heq, hrun, hlast, htaken⟩
        cases pre with
        | nil =>
            cases hrun
            cases heq
            unfold editLoop
            rw [hlast]
            dsimp only
            rw [judge_accepted_iff.mpr htaken]
        | cons first pre =>
            cases heq
            obtain ⟨text', hrefusal, hrest⟩ := Run.cons_eq_some.mp hrun
            have hloop := ih.mpr ⟨pre, last, post, mid, edited, rfl, hrest, hlast, htaken⟩
            unfold refusal at hrefusal
            unfold editLoop
            split at hrefusal
            · cases hrefusal
            · next edited' hedit =>
                split at hrefusal
                · next text'' hjudge =>
                    rw [hjudge]
                    split at hrefusal
                    · next hagain =>
                        cases hrefusal
                        dsimp only
                        rw [if_pos hagain]
                        exact hloop
                    · cases hrefusal
                · cases hrefusal

end EditEnv

/-! ### Markers in texts -/

theorem mem_splitLines_joinLines {lines : List Bytes} {line : Bytes} (hline : line ∈ lines)
    (hone : newline ∉ line) : line ∈ splitLines (joinLines lines) := by
  induction lines with
  | nil => cases hline
  | cons first rest ih =>
      have hsplit : splitLines line = [line] := List.splitOn_eq_singleton hone
      cases rest with
      | nil =>
          obtain rfl := List.mem_singleton.mp hline
          have hjoin : joinLines [line] = line := by
            simp [joinLines]
          rw [hjoin, hsplit]
          exact List.mem_singleton_self line
      | cons second rest =>
          have hjoin : joinLines (first :: second :: rest) =
              first ++ newline :: joinLines (second :: rest) := by
            simp [joinLines, List.intercalate_cons_cons]
          rw [hjoin, splitLines, List.splitOn_append_cons_self, ← splitLines, ← splitLines]
          rcases List.mem_cons.mp hline with rfl | hline
          · rw [hsplit]
            exact List.mem_append_left _ (List.mem_singleton_self line)
          · exact List.mem_append_right _ (ih hline)

/-- The text of a file with a conflict has a marker, whatever its lines are. -/
theorem marks_conflictString (strings : Strings) {hunks : List Hunk} (h : HasConflict hunks) :
    ∃ line ∈ splitLines (conflictStringFromHunks strings bareMarkers hunks),
      bareMarkers.marks line = true := by
  obtain ⟨hunk, hmem, htype⟩ := h
  rw [conflictStringFromHunks, strings.join_eq]
  refine ⟨bareMarkers.start, mem_splitLines_joinLines (List.mem_flatMap.mpr ⟨hunk, hmem, ?_⟩)
    (by decide), by decide⟩
  unfold Hunk.rendered
  rw [htype]
  exact List.mem_cons_self

/-- The editor's text is taken if and only if the last turn leaves one that can be taken and the
user goes on after every other turn, each of which starts from the text of the turn before; and the
text of a conflict is not taken as it is. -/
theorem gitConflictResolveInEditor_ok_iff (env : EditEnv) (fc : Conflict) (turns : List EditTurn)
    (text : Bytes) :
    (env.gitConflictResolveInEditor fc turns = some (.ok text) ↔
      ∃ pre turn post mid edited, turns = pre ++ turn :: post ∧
        run (env.refusal fc) (conflictStringFromHunks env.strings bareMarkers fc.hunks) pre =
          some mid ∧
        turn.edit mid = .ok edited ∧ env.Taken fc edited text) ∧
      (HasConflict fc.hunks →
        ¬env.Taken fc (conflictStringFromHunks env.strings bareMarkers fc.hunks) text) := by
  refine ⟨EditEnv.editLoop_ok_iff, fun hconflict htaken => ?_⟩
  obtain ⟨line, hline, hmarks⟩ := marks_conflictString env.strings hconflict
  rw [htaken.unmarked line hline] at hmarks
  cases hmarks

end App
end Debase
