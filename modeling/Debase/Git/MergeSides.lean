import Mathlib.Algebra.GroupWithZero.Nat
import Debase.Git.HunkText

/-!
# The sides of a merge text

libgit2 renders the runs of a content merge as a text with debase's markers, and
`conflictOf` reads that text.  A line of a run that begins with the marker the reader
waits for there is taken for that marker.  Counting the lines that look like each of
the three markers shows that every such line changes the content of a side.
-/

namespace Debase
namespace Git

open Library Toastbox

/-! ## Runs -/

/-- The marker that the reader waits for in a state. -/
def awaited : ParseState → Bytes
  | .normal => mergeMarkers.start
  | .conflictOurs => mergeMarkers.separator
  | .conflictTheirs => mergeMarkers.finish

/-- Whether a line would be taken for the marker that ends the state. -/
def looks (state : ParseState) (l : Bytes) : Bool := startsWith (awaited state) l

/-- A run of lines in a merge: lines without conflict, or the lines of both sides.
The marker lines of a conflict end in CR LF where the files do. -/
inductive MergeRun where
  | unchanged (lines : List Bytes)
  | conflict (crlf : Bool) (ours theirs : List Bytes)
deriving DecidableEq

/-- The text of lines that end in a newline. -/
def terminated (lines : List Bytes) : Bytes := lines.flatMap fun l => l ++ [newline]

namespace MergeRun

/-- The lines of a side. -/
def lines : MergeRun → Side → List Bytes
  | unchanged ls, _ => ls
  | conflict _ ours _, .ours => ours
  | conflict _ _ theirs, .theirs => theirs

/-- The piece of the merge text. -/
def chunk : MergeRun → MergeChunk
  | unchanged ls => .unchanged (terminated ls)
  | conflict crlf ours theirs => .conflict crlf (terminated ours) (terminated theirs)

/-- The lines of the piece. -/
def rendered : MergeRun → List Bytes
  | unchanged ls => ls
  | conflict crlf ours theirs =>
      (mergeMarkers.start ++ markerEnd crlf) :: (ours ++
        (mergeMarkers.separator ++ markerEnd crlf) :: (theirs ++
          [mergeMarkers.finish ++ markerEnd crlf]))

/-- How many conflicts a run has. -/
def conflicts : MergeRun → Nat
  | unchanged _ => 0
  | conflict _ _ _ => 1

/-- How many lines look like the marker that ends a state of the reader in which they
are read. -/
def misread : MergeRun → ParseState → Nat
  | unchanged ls, .normal => ls.countP (looks .normal)
  | conflict _ ours _, .conflictOurs => ours.countP (looks .conflictOurs)
  | conflict _ _ theirs, .conflictTheirs => theirs.countP (looks .conflictTheirs)
  | _, _ => 0

/-- No line of the run begins with a marker in the place where it would be taken for
one. -/
def Clear : MergeRun → Prop
  | unchanged ls => ∀ l ∈ ls, looks .normal l = false
  | conflict _ ours theirs =>
      (∀ l ∈ ours, looks .conflictOurs l = false) ∧ ∀ l ∈ theirs, looks .conflictTheirs l = false

/-- The lines of the run are lines. -/
def OneLiners (run : MergeRun) : Prop := ∀ side, ∀ l ∈ run.lines side, newline ∉ l

end MergeRun

/-- The text that libgit2 makes of the runs and the unterminated last line. -/
def mergedText (runs : List MergeRun) (rest : Bytes) : Bytes :=
  (runs.map MergeRun.chunk ++ [MergeChunk.unchanged rest]).flatMap MergeChunk.render

/-- The text of a side of the merge. -/
def sideText (side : Side) (runs : List MergeRun) (rest : Bytes) : Bytes :=
  terminated (runs.flatMap fun run => run.lines side) ++ rest

/-! ## The lines of the merge text -/

theorem joinLines_concat (ls : List Bytes) (l : Bytes) :
    joinLines (ls ++ [l]) = terminated ls ++ l := by
  induction ls with
  | nil => simp [joinLines, terminated, List.intercalate]
  | cons a ls ih =>
      have hne : ls ++ [l] ≠ [] := by simp
      obtain ⟨b, bs, hbs⟩ := List.exists_cons_of_ne_nil hne
      have hcons : joinLines (a :: (ls ++ [l])) = a ++ [newline] ++ joinLines (ls ++ [l]) := by
        rw [hbs]
        simp [joinLines, List.intercalate]
      rw [List.cons_append, hcons, ih]
      simp [terminated]

theorem terminated_append (ls ls' : List Bytes) :
    terminated (ls ++ ls') = terminated ls ++ terminated ls' := List.flatMap_append

theorem terminated_cons (l : Bytes) (ls : List Bytes) :
    terminated (l :: ls) = l ++ [newline] ++ terminated ls := rfl

theorem render_chunk (run : MergeRun) : run.chunk.render = terminated run.rendered := by
  cases run with
  | unchanged ls => rfl
  | conflict crlf ours theirs =>
      unfold MergeRun.chunk MergeChunk.render MergeRun.rendered
      simp [terminated_append, terminated_cons]
      simp [terminated]

theorem mergedText_eq (runs : List MergeRun) (rest : Bytes) :
    mergedText runs rest = joinLines (runs.flatMap MergeRun.rendered ++ [rest]) := by
  rw [joinLines_concat]
  unfold mergedText
  rw [List.flatMap_append, List.flatMap_singleton]
  show _ ++ rest = _
  congr 1
  induction runs with
  | nil => rfl
  | cons run runs ih =>
      rw [List.map_cons, List.flatMap_cons, ih, render_chunk, List.flatMap_cons,
        terminated_append]

theorem sideText_eq (side : Side) (runs : List MergeRun) (rest : Bytes) :
    sideText side runs rest = joinLines ((runs.flatMap fun run => run.lines side) ++ [rest]) :=
  (joinLines_concat _ _).symm

theorem newline_notMem_marker (state : ParseState) (crlf : Bool) :
    newline ∉ awaited state ++ markerEnd crlf := by
  cases state <;> cases crlf <;> decide +kernel

theorem newline_notMem_rendered {run : MergeRun} (h : run.OneLiners) {l : Bytes}
    (hl : l ∈ run.rendered) : newline ∉ l := by
  cases run with
  | unchanged ls => exact h .ours l hl
  | conflict crlf ours theirs =>
      unfold MergeRun.rendered at hl
      simp only [List.mem_cons, List.mem_append, List.not_mem_nil, or_false] at hl
      rcases hl with rfl | hl | rfl | hl | rfl
      · exact newline_notMem_marker .normal crlf
      · exact h .ours l hl
      · exact newline_notMem_marker .conflictOurs crlf
      · exact h .theirs l hl
      · exact newline_notMem_marker .conflictTheirs crlf

/-- The lines that are read are the lines of the runs and the last line. -/
theorem splitLines_mergedText {runs : List MergeRun} (hruns : ∀ run ∈ runs, run.OneLiners)
    {rest : Bytes} (hrest : newline ∉ rest) :
    splitLines (mergedText runs rest) = runs.flatMap MergeRun.rendered ++ [rest] := by
  rw [mergedText_eq]
  refine splitLines_joinLines (by simp) fun l hl => ?_
  rcases List.mem_append.mp hl with hl | hl
  · obtain ⟨run, hrun, hl⟩ := List.mem_flatMap.mp hl
    exact newline_notMem_rendered (hruns run hrun) hl
  · rw [List.mem_singleton.mp hl]
    exact hrest

/-! ## Lines that look like markers -/

theorem looks_head {state : ParseState} {l : Bytes} (h : looks state l = true) :
    l.head? = (awaited state).head? := by
  obtain ⟨rest, rfl⟩ := List.isPrefixOf_iff_prefix.mp h
  cases state <;> rfl

/-- A line looks like one of the three markers at most. -/
theorem looks_unique {state state' : ParseState} {l : Bytes} (h : looks state l = true)
    (h' : looks state' l = true) : state = state' := by
  have heads := (looks_head h).symm.trans (looks_head h')
  have hinjective : ∀ a b : ParseState, (awaited a).head? = (awaited b).head? → a = b := by
    intro a b hab
    cases a <;> cases b <;> first | rfl | exact absurd hab (by decide +kernel)
  exact hinjective _ _ heads

theorem looks_other {state state' : ParseState} {l : Bytes} (h : looks state l = true)
    (hne : state' ≠ state) : looks state' l = false := by
  cases hlooks : looks state' l with
  | false => rfl
  | true => exact absurd (looks_unique hlooks h) hne

theorem role_eq (state : ParseState) (l : Bytes) :
    role mergeMarkers state l =
      match state with
      | .normal => if looks .normal l then .start else .normal
      | .conflictOurs => if looks .conflictOurs l then .separator else .ours
      | .conflictTheirs => if looks .conflictTheirs l then .finish else .theirs := by
  cases state <;> rfl

/-- How many lines have a role. -/
def roleCount (r : Role) (l : List (Role × Bytes)) : Nat := l.countP fun x => x.1 = r

theorem roleCount_cons (r r' : Role) (l : Bytes) (rest : List (Role × Bytes)) :
    roleCount r ((r', l) :: rest) = roleCount r rest + if r' = r then 1 else 0 := by
  unfold roleCount
  rw [List.countP_cons]
  simp

/-- What the lines that look like a marker are read as: content of a side, or that
marker. -/
theorem countP_looks (state : ParseState) (ls : List Bytes) :
    ls.countP (looks .normal) =
        (contentOf .ours (roles mergeMarkers state ls)).countP (looks .normal) +
          (contentOf .theirs (roles mergeMarkers state ls)).countP (looks .normal) +
          roleCount .start (roles mergeMarkers state ls) ∧
      ls.countP (looks .conflictOurs) =
        (contentOf .theirs (roles mergeMarkers state ls)).countP (looks .conflictOurs) +
          roleCount .separator (roles mergeMarkers state ls) ∧
      ls.countP (looks .conflictTheirs) =
        (contentOf .ours (roles mergeMarkers state ls)).countP (looks .conflictTheirs) +
          roleCount .finish (roles mergeMarkers state ls) := by
  induction ls generalizing state with
  | nil => exact ⟨rfl, rfl, rfl⟩
  | cons l ls ih =>
      obtain ⟨hnormal, hours, htheirs⟩ := ih (role mergeMarkers state l).next
      have hrole := role_eq state l
      simp only [roles_cons, contentOf_cons, roleCount_cons, List.countP_cons, hnormal, hours,
        htheirs]
      cases hlooks : looks state l with
      -- content: what looks like a marker of another state counts for its side
      | false =>
          cases state with
          | normal =>
              simp only [hlooks] at hrole
              simp [hrole, Role.on, List.countP_cons, hlooks]
              omega
          | conflictOurs =>
              simp only [hlooks] at hrole
              simp [hrole, Role.on, List.countP_cons, hlooks]
              omega
          | conflictTheirs =>
              simp only [hlooks] at hrole
              simp [hrole, Role.on, List.countP_cons, hlooks]
              omega
      -- a marker, and a line looks like one marker at most
      | true =>
          have hother := fun q => @looks_other state q l hlooks
          cases state with
          | normal =>
              simp only [hlooks] at hrole
              simp [hrole, Role.on, hlooks, hother .conflictOurs, hother .conflictTheirs]
              omega
          | conflictOurs =>
              simp only [hlooks] at hrole
              simp [hrole, Role.on, hlooks, hother .normal, hother .conflictTheirs]
              omega
          | conflictTheirs =>
              simp only [hlooks] at hrole
              simp [hrole, Role.on, hlooks, hother .normal, hother .conflictOurs]
              omega

/-- How many blocks are open, and how many of them are past the separator. -/
def ParseState.opened : ParseState → Nat
  | .normal => 0
  | _ => 1

def ParseState.separated : ParseState → Nat
  | .conflictTheirs => 1
  | _ => 0

/-- Markers are read in order. -/
theorem roleCount_order (state : ParseState) (ls : List Bytes) :
    roleCount .finish (roles mergeMarkers state ls) ≤
        roleCount .separator (roles mergeMarkers state ls) + state.separated ∧
      roleCount .separator (roles mergeMarkers state ls) + state.separated ≤
        roleCount .start (roles mergeMarkers state ls) + state.opened := by
  induction ls generalizing state with
  | nil => cases state <;> decide
  | cons l ls ih =>
      have hih := ih (role mergeMarkers state l).next
      have hstate := @state_role mergeMarkers state l
      rw [roles_cons]
      simp only [roleCount_cons]
      cases hrole : role mergeMarkers state l with
      | _ =>
          rw [hrole] at hih hstate
          rw [← hstate]
          simp [Role.next, Role.state, ParseState.opened, ParseState.separated] at hih ⊢
          omega

/-! ## The lines of the runs -/

theorem looks_marker (state state' : ParseState) (crlf : Bool) :
    looks state (awaited state' ++ markerEnd crlf) = decide (state = state') := by
  cases state <;> cases state' <;> cases crlf <;> decide +kernel

/-- Where the lines of a run that look like a marker stand. -/
theorem MergeRun.countP_rendered (run : MergeRun) :
    run.rendered.countP (looks .normal) + run.misread .normal =
        (run.lines .ours).countP (looks .normal) + (run.lines .theirs).countP (looks .normal) +
          run.conflicts ∧
      run.rendered.countP (looks .conflictOurs) =
        (run.lines .theirs).countP (looks .conflictOurs) + run.misread .conflictOurs +
          run.conflicts ∧
      run.rendered.countP (looks .conflictTheirs) =
        (run.lines .ours).countP (looks .conflictTheirs) + run.misread .conflictTheirs +
          run.conflicts := by
  cases run with
  | unchanged ls => exact ⟨rfl, rfl, rfl⟩
  | conflict crlf ours theirs =>
      have hmarker := fun q => @looks_marker q .normal crlf
      have hseparator := fun q => @looks_marker q .conflictOurs crlf
      have hfinish := fun q => @looks_marker q .conflictTheirs crlf
      unfold awaited at hmarker hseparator hfinish
      simp [rendered, misread, lines, conflicts, List.countP_append, hmarker, hseparator,
        hfinish]
      omega

theorem MergeRun.misread_eq_zero {run : MergeRun} (h : ∀ state, run.misread state = 0) :
    run.Clear := by
  cases run with
  | unchanged ls => simpa [misread, Clear] using h .normal
  | conflict crlf ours theirs =>
      refine ⟨?_, ?_⟩
      · simpa [misread] using h .conflictOurs
      · simpa [misread] using h .conflictTheirs

/-- The counts of all runs. -/
theorem countP_runs (runs : List MergeRun) :
    (runs.flatMap MergeRun.rendered).countP (looks .normal) +
          (runs.map fun run => run.misread .normal).sum =
        (runs.flatMap fun run => run.lines .ours).countP (looks .normal) +
          (runs.flatMap fun run => run.lines .theirs).countP (looks .normal) +
          (runs.map MergeRun.conflicts).sum ∧
      (runs.flatMap MergeRun.rendered).countP (looks .conflictOurs) =
        (runs.flatMap fun run => run.lines .theirs).countP (looks .conflictOurs) +
          (runs.map fun run => run.misread .conflictOurs).sum +
          (runs.map MergeRun.conflicts).sum ∧
      (runs.flatMap MergeRun.rendered).countP (looks .conflictTheirs) =
        (runs.flatMap fun run => run.lines .ours).countP (looks .conflictTheirs) +
          (runs.map fun run => run.misread .conflictTheirs).sum +
          (runs.map MergeRun.conflicts).sum := by
  induction runs with
  | nil => exact ⟨rfl, rfl, rfl⟩
  | cons run runs ih =>
      obtain ⟨hnormal, hours, htheirs⟩ := ih
      obtain ⟨hnormal', hours', htheirs'⟩ := run.countP_rendered
      simp only [List.flatMap_cons, List.countP_append, List.map_cons, List.sum_cons]
      omega

/-- Where the sides hold as many lines that look like markers as the runs do, no line is
taken for a marker. -/
theorem clear_of_countP {runs : List MergeRun}
    (h : ∀ side state, (contentOf side
        (roles mergeMarkers .normal (runs.flatMap MergeRun.rendered))).countP (looks state) =
      (runs.flatMap fun run => run.lines side).countP (looks state)) :
    ∀ run ∈ runs, run.Clear := by
  obtain ⟨hstart, hseparator, hfinish⟩ := countP_looks .normal (runs.flatMap MergeRun.rendered)
  obtain ⟨hstart', hseparator', hfinish'⟩ := countP_runs runs
  obtain ⟨horder, horder'⟩ := roleCount_order .normal (runs.flatMap MergeRun.rendered)
  rw [h] at hseparator hfinish
  rw [h, h] at hstart
  have hzero : ∀ state, (runs.map fun run => run.misread state).sum = 0 := by
    simp only [ParseState.opened, ParseState.separated] at horder horder'
    intro state
    cases state with
    | normal => omega
    | conflictOurs => omega
    | conflictTheirs => omega
  intro run hrun
  refine MergeRun.misread_eq_zero fun state => ?_
  have hall := List.sum_eq_zero_iff_forall_eq_nat.mp (hzero state)
  exact hall _ (List.mem_map_of_mem hrun)

/-! ## The sides that are read -/

/-- The role of content in a state. -/
def ParseState.content : ParseState → Role
  | .normal => .normal
  | .conflictOurs => .ours
  | .conflictTheirs => .theirs

/-- The state after the marker that the reader waits for. -/
def ParseState.after : ParseState → ParseState
  | .normal => .conflictOurs
  | .conflictOurs => .conflictTheirs
  | .conflictTheirs => .normal

theorem contentOf_clear (side : Side) (state : ParseState) {ls : List Bytes}
    (h : ∀ l ∈ ls, looks state l = false) (rest : List Bytes) :
    contentOf side (roles mergeMarkers state (ls ++ rest)) =
      (if state.content.on side then ls else []) ++
        contentOf side (roles mergeMarkers state rest) := by
  induction ls with
  | nil => simp
  | cons l ls ih =>
      have hrole : role mergeMarkers state l = state.content := by
        have hl := h l List.mem_cons_self
        rw [role_eq]
        cases state <;> simp [hl, ParseState.content]
      have hnext : state.content.next = state := by cases state <;> rfl
      rw [List.cons_append, roles_cons, contentOf_cons, hrole, hnext,
        ih fun l' hl' => h l' (List.mem_cons_of_mem _ hl')]
      split <;> simp

theorem contentOf_marker (side : Side) (state : ParseState) (crlf : Bool) (rest : List Bytes) :
    contentOf side (roles mergeMarkers state ((awaited state ++ markerEnd crlf) :: rest)) =
      contentOf side (roles mergeMarkers state.after rest) := by
  have hlooks := looks_marker state state crlf
  rw [roles_cons, contentOf_cons, role_eq]
  cases state <;> simp [hlooks, Role.on, Role.next, ParseState.after]

/-- A clear run gives its lines to the sides. -/
theorem MergeRun.Clear.contentOf {run : MergeRun} (h : run.Clear) (side : Side)
    (rest : List Bytes) :
    contentOf side (roles mergeMarkers .normal (run.rendered ++ rest)) =
      run.lines side ++ contentOf side (roles mergeMarkers .normal rest) := by
  cases run with
  | unchanged ls =>
      rw [show (MergeRun.unchanged ls).rendered = ls from rfl, contentOf_clear side .normal h]
      rfl
  | conflict crlf ours theirs =>
      have hrendered : (MergeRun.conflict crlf ours theirs).rendered ++ rest =
          (awaited .normal ++ markerEnd crlf) :: (ours ++
            (awaited .conflictOurs ++ markerEnd crlf) :: (theirs ++
              (awaited .conflictTheirs ++ markerEnd crlf) :: rest)) := by
        simp [rendered, awaited]
      rw [hrendered, contentOf_marker, ParseState.after,
        contentOf_clear side .conflictOurs h.1, contentOf_marker, ParseState.after,
        contentOf_clear side .conflictTheirs h.2, contentOf_marker, ParseState.after,
        ← List.append_assoc]
      cases side <;> simp [ParseState.content, Role.on, lines]

/-- Clear runs give their lines to the sides. -/
theorem contentOf_runs {runs : List MergeRun} (h : ∀ run ∈ runs, run.Clear) (side : Side) :
    contentOf side (roles mergeMarkers .normal (runs.flatMap MergeRun.rendered)) =
      runs.flatMap fun run => run.lines side := by
  induction runs with
  | nil => rfl
  | cons run runs ih =>
      rw [List.flatMap_cons, (h run List.mem_cons_self).contentOf,
        ih fun r hr => h r (List.mem_cons_of_mem _ hr), List.flatMap_cons]

/-- Lines with the same text hold as many lines that look like a marker. -/
theorem countP_of_joinLines {ls ls' : List Bytes} (hls : ∀ l ∈ ls, newline ∉ l)
    (hls' : ∀ l ∈ ls', newline ∉ l) (h : joinLines ls = joinLines ls') (state : ParseState) :
    ls.countP (looks state) = ls'.countP (looks state) := by
  have hsplit : ∀ ks : List Bytes, (∀ l ∈ ks, newline ∉ l) →
      (splitLines (joinLines ks)).countP (looks state) = ks.countP (looks state) := by
    intro ks hks
    by_cases hnil : ks = []
    · subst hnil
      cases state <;> decide +kernel
    · rw [splitLines_joinLines hnil hks]
  rw [← hsplit ls hls, h, hsplit ls' hls']

/-- Hunks that hold a line on a side are a file there. -/
theorem content_of_ne_nil {strings : Strings} {c : Conflict} {side : Side}
    (h : (c.hunks.flatMap fun h => h.lines side) ≠ []) :
    c.content strings side = some (joinLines (c.hunks.flatMap fun h => h.lines side)) := by
  unfold Conflict.content
  rw [strings.join_eq]
  refine if_neg fun hno => h ?_
  unfold Conflict.noFile at hno
  split at hno
  · next hunk hhunks =>
      rw [hhunks]
      simpa using (Bool.and_eq_true_iff.mp (Bool.and_eq_true_iff.mp hno).2).2
  · simp at hno

theorem joinLines_of_content {strings : Strings} {c : Conflict} {side : Side} {text : Bytes}
    (h : c.content strings side = some text) :
    joinLines (c.hunks.flatMap fun h => h.lines side) = text := by
  unfold Conflict.content at h
  split at h
  · cases h
  · exact (strings.join_eq _).symm.trans (Option.some.inj h)

/-- The sides that are read from a merge text are those of the merge exactly when no line
looks like the marker that ends the state in which it is read. -/
theorem content_hunks_iff {strings : Strings} {runs : List MergeRun}
    (hruns : ∀ run ∈ runs, run.OneLiners) {rest : Bytes} (hrest : newline ∉ rest) {c : Conflict}
    (hc : c.hunks = hunksFromConflictString strings mergeMarkers (mergedText runs rest)) :
    (∀ side, c.content strings side = some (sideText side runs rest)) ↔
      (∀ run ∈ runs, run.Clear) ∧ looks .normal rest = false := by
  -- the last line is a run of its own
  have hrendered : runs.flatMap MergeRun.rendered ++ [rest] =
      (runs ++ [MergeRun.unchanged [rest]]).flatMap MergeRun.rendered := by
    rw [List.flatMap_append, List.flatMap_singleton]
    rfl
  have hlines : ∀ side, (runs.flatMap fun run => run.lines side) ++ [rest] =
      (runs ++ [MergeRun.unchanged [rest]]).flatMap fun run => run.lines side := by
    intro side
    rw [List.flatMap_append, List.flatMap_singleton]
    cases side <;> rfl
  have hclear : (∀ run ∈ runs ++ [MergeRun.unchanged [rest]], run.Clear) ↔
      (∀ run ∈ runs, run.Clear) ∧ looks .normal rest = false := by
    simp [or_imp, forall_and, MergeRun.Clear]
  have hread : ∀ side, (c.hunks.flatMap fun h => h.lines side) =
      contentOf side (roles mergeMarkers .normal
        ((runs ++ [MergeRun.unchanged [rest]]).flatMap MergeRun.rendered)) := by
    intro side
    rw [hc, hunksFromConflictString, content_hunksFromLines, strings.split_eq,
      splitLines_mergedText hruns hrest, hrendered]
  rw [← hclear]
  constructor
  · intro hcontent
    refine clear_of_countP fun side state => countP_of_joinLines ?_ ?_ ?_ state
    · intro l hl
      obtain ⟨x, hx, rfl⟩ := List.mem_map.mp hl
      have hmem : x.2 ∈ splitLines (mergedText runs rest) := by
        rw [splitLines_mergedText hruns hrest, hrendered,
          ← @map_snd_roles mergeMarkers .normal (List.flatMap _ _)]
        exact List.mem_map_of_mem (List.mem_filter.mp hx).1
      exact newline_notMem_splitLines hmem
    · intro l hl
      obtain ⟨run, hrun, hl⟩ := List.mem_flatMap.mp hl
      rcases List.mem_append.mp hrun with hrun | hrun
      · exact hruns run hrun side l hl
      · rw [List.mem_singleton.mp hrun] at hl
        have hl : l ∈ [rest] := by cases side <;> exact hl
        rw [List.mem_singleton.mp hl]
        exact hrest
    · rw [← hread, ← hlines, ← sideText_eq]
      exact joinLines_of_content (hcontent side)
  · intro hall side
    have heq := (hread side).trans (contentOf_runs hall side)
    rw [content_of_ne_nil, heq, ← hlines, ← sideText_eq]
    rw [heq, ← hlines]
    simp

section ConflictsGet

variable {σ : Type} {strings : Strings} {repo : Repo σ}

/-- For a path conflicted as file against file, the two sides of its `Conflict` are the
two sides of the content merge exactly when no line of the merge looks like the marker
that ends the state in which it is read. -/
theorem conflictsGet_content_iff {index : Index} {ours theirs : IndexEntry} {s s' : σ}
    {fcs : List Conflict} (h : conflictsGet strings repo index s = (.ok fcs, s'))
    (hours : ours ∈ index.entries) (htheirs : theirs ∈ index.entries)
    (hoursStage : ours.stage = .ours) (htheirsStage : theirs.stage = .theirs)
    (hpath : theirs.path = ours.path) (hoursFile : objType (some ours) = objTypeFile)
    (htheirsFile : objType (some theirs) = objTypeFile) :
    (∃ fc ∈ fcs, fc.path = ours.path) ∧ ∀ i fc, fcs[i]? = some fc → fc.path = ours.path →
      ∃ s₁ result s₂, Reaches strings repo index s i s₁ ∧
        repo.merge (index.find ours.path .ancestor) (some ours) (some theirs) s₁ =
          (.ok result, s₂) ∧
        ∀ runs rest, (∀ run ∈ runs, run.OneLiners) → newline ∉ rest →
          result.content = mergedText runs rest →
          ((∀ side, fc.content strings side = some (sideText side runs rest)) ↔
            (∀ run ∈ runs, run.Clear) ∧ looks .normal rest = false) := by
  obtain ⟨hexists, hfile⟩ := conflictsGet_file h hours htheirs hoursStage htheirsStage hpath
    hoursFile htheirsFile
  refine ⟨hexists, fun i fc hfc hfcPath => ?_⟩
  obtain ⟨s₁, result, s₂, hreaches, hmerge, hhunks⟩ := hfile i fc hfc hfcPath
  refine ⟨s₁, result, s₂, hreaches, hmerge, fun runs rest hruns hrest hcontent => ?_⟩
  rw [hcontent] at hhunks
  exact content_hunks_iff hruns hrest hhunks

end ConflictsGet

namespace TwoFiles

/-- The two text files merge to one conflict of a line each. -/
theorem content_textIndex :
    (∃ fc ∈ [textConflict], fc.path = (entry .ours 1).path) ∧
      ∀ i fc, [textConflict][i]? = some fc → fc.path = (entry .ours 1).path →
        ∃ s₁ result s₂, Reaches .plain (wholeFileRepo blob) textIndex () i s₁ ∧
          (wholeFileRepo blob).merge (textIndex.find (entry .ours 1).path .ancestor)
            (some (entry .ours 1)) (some (entry .theirs 2)) s₁ = (.ok result, s₂) ∧
          ∀ runs rest, (∀ run ∈ runs, run.OneLiners) → newline ∉ rest →
            result.content = mergedText runs rest →
            ((∀ side, fc.content .plain side = some (sideText side runs rest)) ↔
              (∀ run ∈ runs, run.Clear) ∧ looks .normal rest = false) :=
  conflictsGet_content_iff conflictsGet_textIndex (by decide) (by decide) rfl rfl rfl rfl rfl

end TwoFiles

namespace Heading

/-- One side has a heading that is underlined with `=======`. -/
def blob (id : Oid) : Bytes := if id = 1 then ascii "Title\n=======\nText\n" else ascii "b\n"

def index : Index := ⟨[TwoFiles.entry .ours 1, TwoFiles.entry .theirs 2]⟩

def runs : List MergeRun :=
  [.conflict false [ascii "Title", ascii "=======", ascii "Text"] [ascii "b"]]

/-- What `conflictsGet` returns: the text under the heading is on the wrong side. -/
def conflict : Conflict :=
  ⟨.file, [ascii "data"],
    [.ofConflict [ascii "Title"] [ascii "Text", ascii "=======", ascii "b"], .ofNormal [[]]]⟩

/-- The heading's underline is taken for the separator: ours loses the text under the
heading and theirs gains it. -/
theorem content_heading :
    MergesFiles (wholeFileRepo blob) blob ∧
      (wholeFileRepo blob).merge none (some (TwoFiles.entry .ours 1))
        (some (TwoFiles.entry .theirs 2)) () = (.ok ⟨false, mergedText runs []⟩, ()) ∧
      conflictsGet .plain (wholeFileRepo blob) index () = (.ok [conflict], ()) ∧
      conflict.content .plain .ours = some (ascii "Title\n") ∧
      sideText .ours runs [] = ascii "Title\n=======\nText\n" ∧
      conflict.content .plain .theirs = some (ascii "Text\n=======\nb\n") ∧
      sideText .theirs runs [] = ascii "b\n" :=
  ⟨wholeFileRepo_mergesFiles blob, rfl, rfl, rfl, rfl, rfl, rfl⟩

end Heading

end Git
end Debase
