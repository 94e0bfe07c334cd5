import Mathlib.Algebra.GroupWithZero.Nat
import Mathlib.Data.List.Chain
import Debase.Git.HunkText

/-!
# Hunks and their text

`ConflictStringFromHunks` writes hunks as a text with conflict markers, and
`HunksFromConflictString` reads such texts.  Reading gives the hunks back for the
`Readable` lists and for no others: a list that was read has as many lines as its
text, so no block was dropped and no two hunks were joined.
-/

namespace Debase
namespace Git

open Toastbox

/-! ## Writing -/

/-- The lines that `ConflictStringFromHunks` makes of a hunk. -/
def Hunk.rendered (m : ConflictMarkers) (h : Hunk) : List Bytes :=
  match h.type with
  | .normal => h.normal
  | .conflict => m.start :: (h.linesOurs ++ m.separator :: (h.linesTheirs ++ [m.finish]))

/-- `ConflictStringFromHunks`. -/
def conflictStringFromHunks (strings : Strings) (m : ConflictMarkers) (hunks : List Hunk) : Bytes :=
  strings.join (hunks.flatMap (Hunk.rendered m))

/-! ## What comes back -/

/-- Two hunks have the same type and the same lines on both sides. -/
def Hunk.Same (a b : Hunk) : Prop := a.type = b.type ∧ ∀ side, a.lines side = b.lines side

/-- No line of the hunk begins with a marker in the place where it would be taken for
one. -/
def Hunk.Clear (m : ConflictMarkers) (h : Hunk) : Prop :=
  match h.type with
  | .normal => ∀ l ∈ h.normal, startsWith m.start l = false
  | .conflict =>
      (∀ l ∈ h.linesOurs, startsWith m.separator l = false) ∧
        ∀ l ∈ h.linesTheirs, startsWith m.finish l = false

/-- Two normal hunks in a row would be read as one. -/
def Hunk.Apart (a b : Hunk) : Prop := ¬(a.type = .normal ∧ b.type = .normal)

/-- The hunks whose text can be read again. -/
structure Readable (m : ConflictMarkers) (hunks : List Hunk) : Prop where
  nonempty : hunks ≠ []
  full : ∀ h ∈ hunks, h.empty = false
  apart : hunks.IsChain Hunk.Apart
  lines : ∀ h ∈ hunks, ∀ side, ∀ l ∈ h.lines side, newline ∉ l
  clear : ∀ h ∈ hunks, h.Clear m

section RoundTrip

variable {strings : Strings} {m : ConflictMarkers}

/-- The hunk without the lines that its type hides. -/
def Hunk.shape (h : Hunk) : Hunk :=
  match h.type with
  | .normal => .ofNormal h.normal
  | .conflict => .ofConflict h.linesOurs h.linesTheirs

@[simp] theorem type_shape (h : Hunk) : h.shape.type = h.type := by
  unfold Hunk.shape
  cases htype : h.type <;> rfl

theorem lines_shape (h : Hunk) (side : Side) : h.shape.lines side = h.lines side := by
  unfold Hunk.shape Hunk.lines
  cases htype : h.type <;> cases side <;> rfl

theorem add_add (h : Hunk) (r : Role) (ls ls' : List Bytes) :
    (h.add r ls).add r ls' = h.add r (ls ++ ls') := by
  cases r <;> simp [Hunk.add]

/-- The reader on lines of content. -/
theorem foldl_add {r : Role} (hr : r.next = r.state) {ls : List Bytes}
    (hrole : ∀ l ∈ ls, role m r.state l = r) {p : HunkParser} (hp : p.Clean)
    (hstate : p.state = r.state) :
    ls.foldl (HunkParser.line strings m) p = ⟨p.hunks, p.hunk.add r ls, p.state⟩ := by
  induction ls generalizing p with
  | nil =>
      obtain ⟨hunks, hunk, state⟩ := p
      cases r <;> simp [Hunk.add]
  | cons l ls ih =>
      have hl := hrole l List.mem_cons_self
      have hline : p.line strings m l = ⟨p.hunks, p.hunk.add r [l], p.state⟩ := by
        rw [line_eq hp, hstate, hl]
        cases r with
        | normal => rfl
        | ours => rfl
        | theirs => rfl
        | start => cases hr
        | separator => cases hr
        | finish => cases hr
      have hclean := @clean_line strings m p hp l
      rw [List.foldl_cons, ih (fun l' hl' => hrole l' (List.mem_cons_of_mem _ hl')) hclean
        (by rw [hline, hstate]), hline]
      dsimp only
      rw [add_add, List.singleton_append]

theorem startsWith_self (pre : Bytes) : startsWith pre pre = true :=
  List.isPrefixOf_iff_prefix.mpr (List.prefix_refl pre)

/-- The reader on the lines of a conflict, after some normal lines. -/
theorem foldl_conflict {os ts : List Bytes} (hours : ∀ l ∈ os, startsWith m.separator l = false)
    (htheirs : ∀ l ∈ ts, startsWith m.finish l = false)
    (hfull : (Hunk.ofConflict os ts).empty = false) (acc : List Hunk) (ns : List Bytes) :
    ((Hunk.ofConflict os ts).rendered m).foldl (HunkParser.line strings m) ⟨acc, .ofNormal ns, .normal⟩ =
      ⟨(⟨acc, .ofNormal ns, .normal⟩ : HunkParser).push.hunks ++ [.ofConflict os ts],
        .ofNormal [], .normal⟩ := by
  have hclean : (⟨acc, .ofNormal ns, .normal⟩ : HunkParser).Clean := ⟨rfl, rfl, rfl⟩
  have hstart : role m .normal m.start = .start := if_pos (startsWith_self _)
  have hseparator : role m .conflictOurs m.separator = .separator := if_pos (startsWith_self _)
  have hfinish : role m .conflictTheirs m.finish = .finish := if_pos (startsWith_self _)
  have hours' : ∀ l ∈ os, role m (Role.state .ours) l = .ours := fun l hl =>
    if_neg (by rw [hours l hl]; exact Bool.false_ne_true)
  have htheirs' : ∀ l ∈ ts, role m (Role.state .theirs) l = .theirs := fun l hl =>
    if_neg (by rw [htheirs l hl]; exact Bool.false_ne_true)
  generalize hpush : (⟨acc, .ofNormal ns, .normal⟩ : HunkParser).push.hunks = acc'
  show (m.start :: (os ++ m.separator :: (ts ++ [m.finish]))).foldl (HunkParser.line strings m) _ = _
  have hclean₀ : (⟨acc', ⟨.conflict, [], [], []⟩, .conflictOurs⟩ : HunkParser).Clean :=
    ⟨rfl, rfl, rfl⟩
  rw [List.foldl_cons, line_eq hclean, hstart]
  dsimp only
  rw [hpush, List.foldl_append, foldl_add rfl hours' hclean₀ rfl, List.foldl_cons]
  have hclean₁ : (⟨acc', .ofConflict os [], .conflictOurs⟩ : HunkParser).Clean := ⟨rfl, rfl, rfl⟩
  have hline₁ : (⟨acc', .ofConflict os [], .conflictOurs⟩ : HunkParser).line strings m m.separator =
      ⟨acc', .ofConflict os [], .conflictTheirs⟩ := by
    rw [line_eq hclean₁, hseparator]
    rfl
  have hclean₂ : (⟨acc', .ofConflict os [], .conflictTheirs⟩ : HunkParser).Clean := ⟨rfl, rfl⟩
  have hclean₃ : (⟨acc', .ofConflict os ts, .conflictTheirs⟩ : HunkParser).Clean := ⟨rfl, rfl⟩
  change (ts ++ [m.finish]).foldl (HunkParser.line strings m)
    ((⟨acc', .ofConflict os [], .conflictOurs⟩ : HunkParser).line strings m m.separator) = _
  rw [hline₁, List.foldl_append, foldl_add rfl htheirs' hclean₂ rfl]
  change (⟨acc', .ofConflict os ts, .conflictTheirs⟩ : HunkParser).line strings m m.finish = _
  rw [line_eq hclean₃, hfinish]
  dsimp only
  rw [push_of_not_empty hfull]
  rfl

theorem rendered_shape (h : Hunk) : h.shape.rendered m = h.rendered m := by
  unfold Hunk.shape Hunk.rendered
  cases htype : h.type <;> rfl

/-- The reader on the lines of hunks, after some normal lines. -/
theorem foldl_rendered {hunks : List Hunk} (hfull : ∀ h ∈ hunks, h.empty = false)
    (happart : hunks.IsChain Hunk.Apart) (hclear : ∀ h ∈ hunks, h.Clear m) (acc : List Hunk)
    (ns : List Bytes) (hns : ns = [] ∨ ∀ h ∈ hunks.head?, h.type = .conflict) :
    ((hunks.flatMap (Hunk.rendered m)).foldl (HunkParser.line strings m)
        ⟨acc, .ofNormal ns, .normal⟩).push.hunks =
      (⟨acc, .ofNormal ns, .normal⟩ : HunkParser).push.hunks ++ hunks.map Hunk.shape := by
  induction hunks generalizing acc ns with
  | nil => rw [List.flatMap_nil, List.foldl_nil, List.map_nil, List.append_nil]
  | cons h hunks ih =>
      have hfull' := fun x hx => hfull x (List.mem_cons_of_mem _ hx)
      have hclear' := fun x hx => hclear x (List.mem_cons_of_mem _ hx)
      have hhead := hclear h List.mem_cons_self
      have hne := hfull h List.mem_cons_self
      obtain ⟨hnext, happart'⟩ := List.isChain_cons.mp happart
      unfold Hunk.Clear at hhead
      rw [List.flatMap_cons, List.foldl_append, List.map_cons]
      cases htype : h.type with
      | normal =>
          rw [htype] at hhead
          -- two normal hunks do not meet, so nothing normal is being read
          have hns' : ns = [] := by
            refine hns.resolve_right fun hconflict => ?_
            have := hconflict h rfl
            rw [htype] at this
            cases this
          subst hns'
          have hroles : ∀ l ∈ h.normal, role m (Role.state .normal) l = .normal := fun l hl =>
            if_neg (by rw [hhead l hl]; exact Bool.false_ne_true)
          have hrendered : h.rendered m = h.normal := by
            unfold Hunk.rendered
            rw [htype]
          have hshape : h.shape = .ofNormal h.normal := by
            unfold Hunk.shape
            rw [htype]
          have hclean : (⟨acc, .ofNormal [], .normal⟩ : HunkParser).Clean := ⟨rfl, rfl, rfl⟩
          rw [hrendered, foldl_add rfl hroles hclean rfl]
          change (List.foldl _ (⟨acc, .ofNormal h.normal, .normal⟩ : HunkParser) _).push.hunks = _
          rw [ih hfull' happart' hclear' acc h.normal (Or.inr fun x hx => ?_)]
          · have hpush : (⟨acc, .ofNormal h.normal, .normal⟩ : HunkParser).push.hunks =
                acc ++ [.ofNormal h.normal] := by
              rw [push_of_not_empty (by rw [← hne]; unfold Hunk.empty; rw [htype]; rfl)]
            rw [hpush, hshape, List.append_assoc]
            rfl
          · cases hx' : x.type with
            | normal => exact absurd ⟨htype, hx'⟩ (hnext x hx)
            | conflict => rfl
      | conflict =>
          rw [htype] at hhead
          have hshape : h.shape = .ofConflict h.linesOurs h.linesTheirs := by
            unfold Hunk.shape
            rw [htype]
          have hfull₁ : (Hunk.ofConflict h.linesOurs h.linesTheirs).empty = false := by
            rw [← hne]
            unfold Hunk.empty
            rw [htype]
            rfl
          -- the start marker pushes the normal lines read so far
          rw [← rendered_shape h, hshape, foldl_conflict hhead.1 hhead.2 hfull₁,
            ih hfull' happart' hclear' _ [] (Or.inl rfl)]
          simp [HunkParser.push, Hunk.ofNormal, Hunk.empty]

/-! ### What the reader can return -/

/-- How many lines of content a hunk has. -/
def Hunk.size (h : Hunk) : Nat :=
  match h.type with
  | .normal => h.normal.length
  | .conflict => h.linesOurs.length + h.linesTheirs.length

/-- How many markers of a block were read in a state. -/
def ParseState.marks : ParseState → Nat
  | .normal => 0
  | .conflictOurs => 1
  | .conflictTheirs => 2

/-- How many hunks are conflicts. -/
def conflictsIn (hunks : List Hunk) : Nat := hunks.countP fun h => h.type = .conflict

/-- The reader after `n` lines, of which `k` have ended a conflict: every line is
content or a marker, and as long as no conflict was dropped the hunks are apart. -/
structure Tally (m : ConflictMarkers) (p : HunkParser) (n k : Nat) : Prop where
  clean : p.Clean
  lines : n = (p.hunks.map Hunk.size).sum + p.hunk.size + 3 * k + p.state.marks
  few : conflictsIn p.hunks ≤ k
  apart : conflictsIn p.hunks = k →
    p.hunks.IsChain Hunk.Apart ∧ ∀ h ∈ p.hunks.getLast?, h.Apart p.hunk
  full : ∀ h ∈ p.hunks, h.empty = false
  clear : ∀ h ∈ p.hunks, h.Clear m
  reading : p.hunk.Clear m

theorem size_of_empty {h : Hunk} (hempty : h.empty = true) : h.size = 0 := by
  unfold Hunk.empty at hempty
  unfold Hunk.size
  cases htype : h.type with
  | normal =>
      rw [htype] at hempty
      simpa using hempty
  | conflict =>
      rw [htype] at hempty
      have hboth : h.linesOurs = [] ∧ h.linesTheirs = [] := by simpa using hempty
      rw [hboth.1, hboth.2]
      rfl

/-- What a push does to the tally. -/
theorem Tally.push {p : HunkParser} {n k : Nat} (h : Tally m p n k) :
    n = (p.push.hunks.map Hunk.size).sum + 3 * k + p.state.marks ∧
      (∀ h ∈ p.push.hunks, h.empty = false) ∧ (∀ h ∈ p.push.hunks, h.Clear m) ∧
      (conflictsIn p.hunks = k → p.push.hunks.IsChain Hunk.Apart ∧
        ∀ x ∈ p.push.hunks.getLast?, x = p.hunk ∨ x.Apart p.hunk) ∧
      (conflictsIn p.push.hunks = conflictsIn p.hunks ∨
        conflictsIn p.push.hunks = conflictsIn p.hunks + 1 ∧ p.hunk.type = .conflict ∧
          p.push.hunks.getLast? = some p.hunk) := by
  cases hempty : p.hunk.empty with
  | true =>
      -- an empty hunk is dropped
      rw [push_of_empty hempty]
      refine ⟨?_, h.full, h.clear,
        fun hk => ⟨(h.apart hk).1, fun x hx => Or.inr ((h.apart hk).2 x hx)⟩, Or.inl rfl⟩
      have := h.lines
      rw [size_of_empty hempty] at this
      omega
  | false =>
      rw [push_of_not_empty hempty]
      dsimp only
      refine ⟨?_, ?_, ?_, fun hk => ⟨?_, ?_⟩, ?_⟩
      · have := h.lines
        rw [List.map_append, List.sum_append, List.map_singleton, List.sum_singleton]
        omega
      · intro x hx
        rcases List.mem_append.mp hx with hx | hx
        · exact h.full x hx
        · rw [List.mem_singleton.mp hx, hempty]
      · intro x hx
        rcases List.mem_append.mp hx with hx | hx
        · exact h.clear x hx
        · rw [List.mem_singleton.mp hx]
          exact h.reading
      · -- the hunk that is pushed was apart from the last one
        obtain ⟨hchain, hlast⟩ := h.apart hk
        refine List.isChain_append.mpr ⟨hchain, List.isChain_singleton _, ?_⟩
        rintro x hx y ⟨⟩
        exact hlast x hx
      · intro x hx
        rw [List.getLast?_append_of_ne_nil _ (by simp)] at hx
        exact Or.inl (Option.some.inj hx).symm
      · unfold conflictsIn
        rw [List.countP_append, List.countP_singleton]
        cases htype : p.hunk.type with
        | normal => exact Or.inl (by simp)
        | conflict => exact Or.inr ⟨by simp, rfl, List.getLast?_concat⟩

/-- A line of content makes the hunk that is read longer. -/
theorem add_role {p : HunkParser} (hp : p.Clean) (hclear : p.hunk.Clear m) {l : Bytes}
    (hnext : (role m p.state l).next = p.state) :
    p.line strings m l = ⟨p.hunks, p.hunk.add (role m p.state l) [l], p.state⟩ ∧
      (p.hunk.add (role m p.state l) [l]).type = p.hunk.type ∧
      (p.hunk.add (role m p.state l) [l]).size = p.hunk.size + 1 ∧
      (p.hunk.add (role m p.state l) [l]).Clear m := by
  have hline := @line_eq strings m p hp l
  obtain ⟨hunks, ⟨type, normal, ours, theirs⟩, state⟩ := p
  unfold HunkParser.Clean at hp
  unfold Hunk.Clear at hclear
  cases state with
  | normal =>
      obtain ⟨rfl, rfl, rfl⟩ := hp
      cases hl : startsWith m.start l with
      | true => simp [role, hl, Role.next] at hnext
      | false =>
          have hrole : role m .normal l = .normal := by simp [role, hl]
          rw [hrole] at hline
          refine ⟨by rw [hline, hrole]; rfl, by rw [hrole]; rfl, ?_, ?_⟩
          · rw [hrole]
            exact List.length_append
          · rw [hrole]
            intro l' hl'
            rcases List.mem_append.mp hl' with hl' | hl'
            · exact hclear l' hl'
            · rw [List.mem_singleton.mp hl', hl]
  | conflictOurs =>
      obtain ⟨rfl, rfl, rfl⟩ := hp
      cases hl : startsWith m.separator l with
      | true => simp [role, hl, Role.next] at hnext
      | false =>
          have hrole : role m .conflictOurs l = .ours := by simp [role, hl]
          rw [hrole] at hline
          refine ⟨by rw [hline, hrole]; rfl, by rw [hrole]; rfl, ?_, ?_⟩
          · rw [hrole]
            show (ours ++ [l]).length + 0 = ours.length + 0 + 1
            simp
          · rw [hrole]
            refine ⟨fun l' hl' => ?_, hclear.2⟩
            rcases List.mem_append.mp hl' with hl' | hl'
            · exact hclear.1 l' hl'
            · rw [List.mem_singleton.mp hl', hl]
  | conflictTheirs =>
      obtain ⟨rfl, rfl⟩ := hp
      cases hl : startsWith m.finish l with
      | true => simp [role, hl, Role.next] at hnext
      | false =>
          have hrole : role m .conflictTheirs l = .theirs := by simp [role, hl]
          rw [hrole] at hline
          refine ⟨by rw [hline, hrole]; rfl, by rw [hrole]; rfl, ?_, ?_⟩
          · rw [hrole]
            show ours.length + (theirs ++ [l]).length = ours.length + theirs.length + 1
            simp [Nat.add_assoc]
          · rw [hrole]
            refine ⟨hclear.1, fun l' hl' => ?_⟩
            rcases List.mem_append.mp hl' with hl' | hl'
            · exact hclear.2 l' hl'
            · rw [List.mem_singleton.mp hl', hl]

/-- A line of content keeps the tally. -/
theorem Tally.add {p : HunkParser} {n k : Nat} (h : Tally m p n k) {l : Bytes}
    (hnext : (role m p.state l).next = p.state) : Tally m (p.line strings m l) (n + 1) k := by
  obtain ⟨hline, htype, hsize, hclear⟩ := add_role h.clean h.reading hnext
  have hclean := @clean_line strings m p h.clean l
  have hlines := h.lines
  rw [hline] at hclean ⊢
  refine ⟨hclean, ?_, h.few, fun hk => ⟨(h.apart hk).1, fun x hx happart => ?_⟩, h.full,
    h.clear, hclear⟩
  · dsimp only
    omega
  · exact (h.apart hk).2 x hx ⟨happart.1, htype ▸ happart.2⟩

/-- One more line keeps the tally. -/
theorem Tally.line {p : HunkParser} {n k : Nat} (h : Tally m p n k) (l : Bytes) :
    ∃ k', Tally m (p.line strings m l) (n + 1) k' := by
  have hstate := @state_role m p.state l
  have hclean := @clean_line strings m p h.clean l
  have hline := @line_eq strings m p h.clean l
  have hcleanState := h.clean
  have hlines := h.lines
  have hfewer := h.few
  obtain ⟨hpushLines, hpushFull, hpushClear, hpushApart, hpushFew⟩ := h.push
  unfold HunkParser.Clean at hcleanState
  cases hrole : role m p.state l with
  | normal =>
      rw [hrole] at hstate
      exact ⟨k, h.add (by rw [hrole]; exact hstate)⟩
  | ours =>
      rw [hrole] at hstate
      exact ⟨k, h.add (by rw [hrole]; exact hstate)⟩
  | theirs =>
      rw [hrole] at hstate
      exact ⟨k, h.add (by rw [hrole]; exact hstate)⟩
  | start =>
      have hp : p.state = .normal := by rw [← hstate, hrole]; rfl
      rw [hrole] at hline
      dsimp only at hline
      rw [hp] at hcleanState hpushLines
      -- outside of a conflict the hunk that is pushed is a normal one
      have hfew : conflictsIn p.push.hunks = conflictsIn p.hunks := by
        refine hpushFew.resolve_right fun hno => ?_
        have htype := hno.2.1
        rw [hcleanState.1] at htype
        cases htype
      rw [hline] at hclean ⊢
      refine ⟨k, hclean, ?_, hfew ▸ hfewer, fun hk => ⟨(hpushApart (hfew ▸ hk)).1, ?_⟩, hpushFull,
        hpushClear, ?_⟩
      · simp only [ParseState.marks, Hunk.size, List.length_nil] at hpushLines ⊢
        omega
      · intro x _ hno
        cases hno.2
      · exact ⟨List.forall_mem_nil _, List.forall_mem_nil _⟩
  | separator =>
      have hp : p.state = .conflictOurs := by rw [← hstate, hrole]; rfl
      rw [hrole] at hline
      dsimp only at hline
      rw [hp] at hlines
      rw [hline] at hclean ⊢
      refine ⟨k, hclean, ?_, hfewer, h.apart, h.full, h.clear, h.reading⟩
      simp only [ParseState.marks, Role.next, Hunk.add] at hlines ⊢
      omega
  | finish =>
      have hp : p.state = .conflictTheirs := by rw [← hstate, hrole]; rfl
      rw [hrole] at hline
      dsimp only at hline
      rw [hp] at hpushLines
      rw [hline] at hclean ⊢
      refine ⟨k + 1, hclean, ?_, ?_, fun hk => ?_, hpushFull, hpushClear, List.forall_mem_nil _⟩
      · simp only [ParseState.marks, Hunk.size, List.length_nil] at hpushLines ⊢
        omega
      · show conflictsIn p.push.hunks ≤ k + 1
        omega
      · -- the conflict was not dropped, so the last hunk is a conflict
        dsimp only at hk
        obtain ⟨heq, htype, hlast⟩ := hpushFew.resolve_left (by omega)
        refine ⟨(hpushApart (by omega)).1, fun x hx hno => ?_⟩
        dsimp only at hx
        rw [hlast] at hx
        rw [← Option.some.inj hx, htype] at hno
        cases hno.1

/-- The tally of the reader over a text. -/
theorem Tally.foldl (lines : List Bytes) {p : HunkParser} {n k : Nat} (h : Tally m p n k) :
    ∃ k', Tally m (lines.foldl (HunkParser.line strings m) p) (n + lines.length) k' := by
  induction lines generalizing p n k with
  | nil => exact ⟨k, h⟩
  | cons l ls ih =>
      obtain ⟨k₁, h₁⟩ := h.line l
      obtain ⟨k₂, h₂⟩ := ih h₁
      refine ⟨k₂, ?_⟩
      rw [List.foldl_cons, List.length_cons, Nat.add_comm ls.length, ← Nat.add_assoc]
      exact h₂

theorem Tally.init : Tally m .init 0 0 :=
  ⟨⟨rfl, rfl, rfl⟩, rfl, Nat.le_refl 0, fun _ => ⟨List.isChain_nil, by simp [HunkParser.init]⟩,
    List.forall_mem_nil _, List.forall_mem_nil _, List.forall_mem_nil _⟩

/-- What every list of hunks that was read is like. -/
theorem tally_hunksFromLines (lines : List Bytes) :
    (∀ h ∈ hunksFromLines strings m lines, h.empty = false) ∧
      (∀ h ∈ hunksFromLines strings m lines, h.Clear m) ∧
      (lines.length = ((hunksFromLines strings m lines).map Hunk.size).sum +
          3 * conflictsIn (hunksFromLines strings m lines) →
        (hunksFromLines strings m lines).IsChain Hunk.Apart) := by
  obtain ⟨k, h⟩ := Tally.foldl lines (@Tally.init m)
  obtain ⟨hlines, hfull, hclear, hchain, hconflicts⟩ := h.push
  refine ⟨hfull, hclear, fun hlength => (hchain ?_).1⟩
  have hfew := h.few
  have hclean := h.clean
  unfold hunksFromLines at hlength
  unfold HunkParser.Clean at hclean
  cases hstate : (lines.foldl (HunkParser.line strings m) .init).state with
  | normal =>
      rw [hstate] at hlines hclean
      have heq := hconflicts.resolve_right fun hno => by
        have htype := hno.2.1
        rw [hclean.1] at htype
        cases htype
      simp only [ParseState.marks] at hlines
      omega
  | conflictOurs =>
      rw [hstate] at hlines
      simp only [ParseState.marks] at hlines
      omega
  | conflictTheirs =>
      rw [hstate] at hlines
      simp only [ParseState.marks] at hlines
      omega

section Same

variable {a b : Hunk}

theorem empty_iff (h : Hunk) : h.empty = true ↔ ∀ side, h.lines side = [] := by
  refine ⟨fun hempty side => lines_of_empty hempty side, fun hlines => ?_⟩
  have hours := hlines .ours
  have htheirs := hlines .theirs
  unfold Hunk.lines at hours htheirs
  unfold Hunk.empty
  cases htype : h.type with
  | normal => simpa [htype] using hours
  | conflict => simpa [htype] using And.intro hours htheirs

theorem Hunk.Same.empty (h : a.Same b) : a.empty = b.empty := by
  rw [Bool.eq_iff_iff, empty_iff, empty_iff]
  exact forall_congr' fun side => by rw [h.2 side]

/-- The lines of the two sides, in the place that the type gives them. -/
theorem Hunk.Same.shape (h : a.Same b) : a.shape = b.shape := by
  have htype := h.1
  have hours := h.2 .ours
  have htheirs := h.2 .theirs
  unfold Hunk.lines at hours htheirs
  unfold Hunk.shape
  cases hb : b.type with
  | normal =>
      rw [hb] at htype
      simp only [htype, hb] at hours ⊢
      rw [hours]
  | conflict =>
      rw [hb] at htype
      simp only [htype, hb] at hours htheirs ⊢
      rw [hours, htheirs]

theorem size_shape (h : Hunk) : h.shape.size = h.size := by
  unfold Hunk.shape Hunk.size
  cases htype : h.type <;> rfl

theorem clear_shape (h : Hunk) : h.shape.Clear m ↔ h.Clear m := by
  unfold Hunk.shape Hunk.Clear
  cases htype : h.type <;> rfl

end Same

/-- Equal shapes are the same types and lines. -/
theorem same_iff {a b : Hunk} : a.Same b ↔ a.shape = b.shape := by
  refine ⟨Hunk.Same.shape, fun h => ⟨?_, fun side => ?_⟩⟩
  · rw [← type_shape a, h, type_shape]
  · rw [← lines_shape a, h, lines_shape]

theorem forall₂_same_iff {as bs : List Hunk} :
    List.Forall₂ Hunk.Same as bs ↔ as.map Hunk.shape = bs.map Hunk.shape := by
  rw [← List.forall₂_eq_eq_eq, List.forall₂_map_left_iff, List.forall₂_map_right_iff]
  constructor
  · exact fun h => h.imp fun _ _ => same_iff.mp
  · exact fun h => h.imp fun _ _ => same_iff.mpr

/-- How many lines are written for hunks. -/
theorem length_rendered (hunks : List Hunk) :
    (hunks.flatMap (Hunk.rendered m)).length =
      (hunks.map Hunk.size).sum + 3 * conflictsIn hunks := by
  induction hunks with
  | nil => rfl
  | cons h hunks ih =>
      unfold conflictsIn at ih ⊢
      rw [List.flatMap_cons, List.length_append, ih, List.map_cons, List.sum_cons,
        List.countP_cons]
      unfold Hunk.rendered Hunk.size
      cases htype : h.type with
      | normal =>
          simp
          omega
      | conflict =>
          simp
          omega

/-- The markers of a text: not empty, and each on one line. -/
structure ConflictMarkers.Proper (m : ConflictMarkers) : Prop where
  start : m.start ≠ [] ∧ newline ∉ m.start
  separator : m.separator ≠ [] ∧ newline ∉ m.separator
  finish : m.finish ≠ [] ∧ newline ∉ m.finish

/-- The lines that are written are the lines that are read. -/
theorem splitLines_rendered (hm : m.Proper) {hunks : List Hunk} (hne : hunks ≠ [])
    (hfull : ∀ h ∈ hunks, h.empty = false)
    (hlines : ∀ h ∈ hunks, ∀ side, ∀ l ∈ h.lines side, newline ∉ l) :
    splitLines (conflictStringFromHunks strings m hunks) = hunks.flatMap (Hunk.rendered m) := by
  have hmem : ∀ h ∈ hunks, ∀ l ∈ h.rendered m,
      l = m.start ∨ l = m.separator ∨ l = m.finish ∨ ∃ side, l ∈ h.lines side := by
    intro h _ l hl
    unfold Hunk.rendered at hl
    unfold Hunk.lines
    cases htype : h.type with
    | normal =>
        rw [htype] at hl
        exact Or.inr (Or.inr (Or.inr ⟨.ours, hl⟩))
    | conflict =>
        rw [htype] at hl
        simp only [List.mem_cons, List.mem_append, List.not_mem_nil, or_false] at hl
        rcases hl with hl | hl | hl | hl | hl
        · exact Or.inl hl
        · exact Or.inr (Or.inr (Or.inr ⟨.ours, hl⟩))
        · exact Or.inr (Or.inl hl)
        · exact Or.inr (Or.inr (Or.inr ⟨.theirs, hl⟩))
        · exact Or.inr (Or.inr (Or.inl hl))
  rw [conflictStringFromHunks, strings.join_eq]
  refine splitLines_joinLines ?_ fun l hl => ?_
  · -- the text has a line, as no hunk is empty
    obtain ⟨h, hunks', rfl⟩ := List.exists_cons_of_ne_nil hne
    have hhead := hfull h List.mem_cons_self
    intro hnil
    have hrendered : h.rendered m = [] := (List.append_eq_nil_iff.mp hnil).1
    unfold Hunk.rendered at hrendered
    unfold Hunk.empty at hhead
    cases htype : h.type with
    | normal =>
        rw [htype] at hrendered hhead
        dsimp only at hrendered hhead
        rw [hrendered] at hhead
        cases hhead
    | conflict =>
        rw [htype] at hrendered
        cases hrendered
  · -- and no line has a newline in it
    obtain ⟨h, hh, hl⟩ := List.mem_flatMap.mp hl
    rcases hmem h hh l hl with rfl | rfl | rfl | ⟨side, hl⟩
    · exact hm.start.2
    · exact hm.separator.2
    · exact hm.finish.2
    · exact hlines h hh side l hl

/-- Hunks whose text can be read come back. -/
theorem hunksFromConflictString_of_readable (hm : m.Proper) {hunks : List Hunk}
    (h : Readable m hunks) :
    hunksFromConflictString strings m (conflictStringFromHunks strings m hunks) = hunks.map Hunk.shape := by
  unfold hunksFromConflictString hunksFromLines
  rw [strings.split_eq, splitLines_rendered hm h.nonempty h.full h.lines]
  have hread := @foldl_rendered strings m hunks h.full h.apart h.clear [] [] (Or.inl rfl)
  exact hread

/-- A line of a hunk that was read is a line of the text. -/
theorem newline_notMem_read {s : Bytes} {h : Hunk} (hh : h ∈ hunksFromConflictString strings m s)
    (side : Side) {l : Bytes} (hl : l ∈ h.lines side) : newline ∉ l := by
  have hmem : l ∈ contentOf side (roles m .normal (splitLines s)) := by
    rw [← @content_hunksFromLines strings, ← strings.split_eq]
    exact List.mem_flatMap.mpr ⟨h, hh, hl⟩
  obtain ⟨x, hx, rfl⟩ := List.mem_map.mp hmem
  have hline : x.2 ∈ splitLines s := by
    rw [← @map_snd_roles m .normal (splitLines s)]
    exact List.mem_map_of_mem (List.mem_filter.mp hx).1
  exact newline_notMem_splitLines hline

/-- Hunks that come back could be read. -/
theorem readable_of_forall₂ (hm : m.Proper) {hunks : List Hunk}
    (h : List.Forall₂ Hunk.Same (hunksFromConflictString strings m (conflictStringFromHunks strings m hunks))
      hunks) : Readable m hunks := by
  have hshape := forall₂_same_iff.mp h
  -- every hunk has the shape of one that was read
  have hback : ∀ x ∈ hunks, ∃ y ∈ hunksFromConflictString strings m (conflictStringFromHunks strings m hunks),
      y.Same x := by
    intro x hx
    have hmem : x.shape ∈ hunks.map Hunk.shape := List.mem_map_of_mem hx
    rw [← hshape] at hmem
    obtain ⟨y, hy, hsame⟩ := List.mem_map.mp hmem
    exact ⟨y, hy, same_iff.mpr hsame⟩
  obtain ⟨hreadFull, hreadClear, hreadChain⟩ :=
    @tally_hunksFromLines strings m (strings.split (conflictStringFromHunks strings m hunks))
  have hne : hunks ≠ [] := by
    rintro rfl
    have hempty : startsWith m.start [] = false := by
      cases hstart : m.start with
      | nil => exact absurd hstart hm.start.1
      | cons _ _ => rfl
    have hone : hunksFromConflictString strings m (conflictStringFromHunks strings m []) = [.ofNormal [[]]] := by
      have hlines : strings.split (conflictStringFromHunks strings m []) = [[]] := by
        rw [strings.split_eq, conflictStringFromHunks, strings.join_eq]
        rfl
      rw [hunksFromConflictString, hlines]
      unfold hunksFromLines HunkParser.line
      simp [HunkParser.init, hempty, HunkParser.push, Hunk.ofNormal, Hunk.empty]
    rw [hone] at h
    cases h
  have hfull : ∀ x ∈ hunks, x.empty = false := by
    intro x hx
    obtain ⟨y, hy, hsame⟩ := hback x hx
    rw [← hsame.empty]
    exact hreadFull y hy
  have hlines : ∀ x ∈ hunks, ∀ side, ∀ l ∈ x.lines side, newline ∉ l := by
    intro x hx side l hl
    obtain ⟨y, hy, hsame⟩ := hback x hx
    rw [← hsame.2 side] at hl
    exact newline_notMem_read hy side hl
  refine ⟨hne, hfull, ?_, hlines, fun x hx => ?_⟩
  · have hsize : (hunksFromLines strings m (hunks.flatMap (Hunk.rendered m))).map Hunk.size =
        hunks.map Hunk.size := by
      have := congrArg (List.map Hunk.size) hshape
      rw [List.map_map, List.map_map] at this
      unfold hunksFromConflictString at this
      rw [strings.split_eq, splitLines_rendered hm hne hfull hlines] at this
      simpa only [Function.comp_def, size_shape] using this
    have htypes : (hunksFromLines strings m (hunks.flatMap (Hunk.rendered m))).map Hunk.type =
        hunks.map Hunk.type := by
      have := congrArg (List.map Hunk.type) hshape
      rw [List.map_map, List.map_map] at this
      unfold hunksFromConflictString at this
      rw [strings.split_eq, splitLines_rendered hm hne hfull hlines] at this
      simpa only [Function.comp_def, type_shape] using this
    have hconflicts : ∀ hs : List Hunk,
        conflictsIn hs = (hs.map Hunk.type).countP (· = HunkType.conflict) := by
      intro hs
      rw [List.countP_map]
      rfl
    rw [strings.split_eq, splitLines_rendered hm hne hfull hlines, length_rendered, hsize,
      hconflicts, hconflicts, htypes] at hreadChain
    have hchain := hreadChain rfl
    unfold Hunk.Apart at hchain ⊢
    have hmapped := (List.isChain_map (R := fun a b => ¬(a = HunkType.normal ∧ b = .normal))
      Hunk.type).mpr hchain
    rw [htypes] at hmapped
    exact (List.isChain_map Hunk.type).mp hmapped
  · obtain ⟨y, hy, hsame⟩ := hback x hx
    rw [← clear_shape, ← hsame.shape, clear_shape]
    exact hreadClear y hy

/-- Hunks come back from their text exactly when they are `Readable`; where the hunks
hide no lines, as the very same hunks. -/
theorem hunks_roundTrip_iff (hm : m.Proper) (hunks : List Hunk) :
    (List.Forall₂ Hunk.Same (hunksFromConflictString strings m (conflictStringFromHunks strings m hunks)) hunks ↔
      Readable m hunks) ∧
    ((∀ h ∈ hunks, h.shape = h) →
      (hunksFromConflictString strings m (conflictStringFromHunks strings m hunks) = hunks ↔
        Readable m hunks)) := by
  have hsame : List.Forall₂ Hunk.Same
      (hunksFromConflictString strings m (conflictStringFromHunks strings m hunks)) hunks ↔ Readable m hunks := by
    refine ⟨readable_of_forall₂ hm, fun h => ?_⟩
    rw [forall₂_same_iff, hunksFromConflictString_of_readable hm h, List.map_map]
    refine List.map_congr_left fun x _ => ?_
    show x.shape.shape = x.shape
    unfold Hunk.shape
    cases htype : x.type <;> rfl
  refine ⟨hsame, fun hplain => ⟨fun heq => hsame.mp ?_, fun h => ?_⟩⟩
  · rw [heq]
    exact List.forall₂_same.mpr fun _ _ => ⟨rfl, fun _ => rfl⟩
  · rw [hunksFromConflictString_of_readable hm h]
    exact (List.map_congr_left hplain).trans (List.map_id _)

/-- One conflict between two normal hunks comes back. -/
theorem hunks_roundTrip_three :
    mergeMarkers.Proper ∧
      hunksFromConflictString .plain mergeMarkers (conflictStringFromHunks .plain mergeMarkers
        [.ofNormal [ascii "a"], .ofConflict [ascii "b"] [], .ofNormal [ascii "c"]]) =
      [.ofNormal [ascii "a"], .ofConflict [ascii "b"] [], .ofNormal [ascii "c"]] := by
  have hproper : mergeMarkers.Proper :=
    ⟨by decide +kernel, by decide +kernel, by decide +kernel⟩
  refine ⟨hproper, ((hunks_roundTrip_iff hproper _).2 (by decide +kernel)).mpr
    ⟨by decide +kernel, by decide +kernel, ?_, ?_, ?_⟩⟩
  · refine List.IsChain.cons_cons ?_ (List.IsChain.cons_cons ?_ (List.isChain_singleton _))
    · intro hboth
      cases hboth.2
    · intro hboth
      cases hboth.1
  · intro h hh side l hl
    cases side <;> revert h l <;> decide +kernel
  · intro h hh
    simp only [List.mem_cons, List.not_mem_nil, or_false] at hh
    rcases hh with rfl | rfl | rfl
    · exact (by decide +kernel : ∀ l ∈ [ascii "a"], startsWith mergeMarkers.start l = false)
    · exact ⟨by decide +kernel, List.forall_mem_nil _⟩
    · exact (by decide +kernel : ∀ l ∈ [ascii "c"], startsWith mergeMarkers.start l = false)

end RoundTrip

end Git
end Debase
