import Debase.State.Sessions

/-!
# The snapshot of the session's beginning

A session that modifies a ref pushes a snapshot of the state the ref had when the
session began.  `write` decides by the history alone which refs it stores, so the
snapshot is lost where undos and redos led back to the history that was loaded.
-/

namespace Debase
namespace State

open Git Library

variable {κ : Type} [DecidableEq κ]

/-! ## What `_CleanSnapshots` keeps -/

/-- Among the snapshots is one of the same state that is as early. -/
def HasSnapshot (snapshots : List (Snapshot κ)) (snap : Snapshot κ) : Prop :=
  ∃ s ∈ snapshots, s.refState = snap.refState ∧ s.creationTime ≤ snap.creationTime

/-- The snapshot that the map has for the state is as early. -/
def Earliest (earliestSnapshot : List (Snapshot κ)) (snap : Snapshot κ) : Prop :=
  ∃ s, earliestSnapshot.find? (fun s => s.refState = snap.refState) = some s ∧
    s.creationTime ≤ snap.creationTime

/-- The replacement in the map keeps the states. -/
private theorem refState_replaced (snap t : Snapshot κ) :
    (if t.refState = snap.refState then snap else t).refState = t.refState := by
  split
  · next h => exact h.symm
  · rfl

theorem Earliest.keepEarliest {earliestSnapshot : List (Snapshot κ)} {x : Snapshot κ}
    (h : Earliest earliestSnapshot x) (snap : Snapshot κ) :
    Earliest (keepEarliest earliestSnapshot snap) x := by
  obtain ⟨s, hs, htime⟩ := h
  unfold State.keepEarliest
  split
  · exact ⟨s, by rw [List.find?_append, hs, Option.some_or], htime⟩
  · next found hfound =>
      split
      · next hearlier =>
          refine ⟨if s.refState = snap.refState then snap else s, ?_, ?_⟩
          · rw [List.find?_map]
            simp only [Function.comp_def, refState_replaced, hs, Option.map_some]
          · split
            · next heq =>
                have hsx : s.refState = x.refState := by simpa using List.find?_some hs
                rw [← hsx, heq, hfound, Option.some.injEq] at hs
                subst hs
                omega
            · exact htime
      · exact ⟨s, hs, htime⟩

theorem earliest_keepEarliest (earliestSnapshot : List (Snapshot κ)) (snap : Snapshot κ) :
    Earliest (keepEarliest earliestSnapshot snap) snap := by
  unfold keepEarliest
  split
  · next hnone =>
      refine ⟨snap, ?_, Int.le_refl _⟩
      rw [List.find?_append, hnone, Option.none_or]
      simp
  · next found hfound =>
      split
      · next hearlier =>
          refine ⟨snap, ?_, Int.le_refl _⟩
          have hsame : found.refState = snap.refState := by simpa using List.find?_some hfound
          rw [List.find?_map]
          simp only [Function.comp_def, refState_replaced, hfound, Option.map_some, hsame, if_true]
      · next hlater => exact ⟨found, hfound, by omega⟩

/-- Every snapshot is kept, or an earlier one of the same state. -/
theorem hasSnapshot_cleanSnapshots (ids : CommitIds κ) {snapshots : List (Snapshot κ)}
    {snap : Snapshot κ} (h : snap ∈ snapshots) :
    HasSnapshot (cleanSnapshots ids snapshots) snap := by
  have hfold : ∀ (rest acc : List (Snapshot κ)),
      (∀ x, Earliest acc x → Earliest (rest.foldl keepEarliest acc) x) ∧
        ∀ x ∈ rest, Earliest (rest.foldl keepEarliest acc) x := by
    intro rest
    induction rest with
    | nil => exact fun acc => ⟨fun _ hx => hx, List.forall_mem_nil _⟩
    | cons y rest ih =>
        intro acc
        obtain ⟨hkept, hrest⟩ := ih (keepEarliest acc y)
        refine ⟨fun x hx => hkept x (hx.keepEarliest y), fun x hx => ?_⟩
        rcases List.mem_cons.mp hx with rfl | hx
        · exact hkept x (earliest_keepEarliest acc x)
        · exact hrest x hx
  obtain ⟨s, hs, htime⟩ := (hfold snapshots []).2 snap h
  refine ⟨s, ?_, by simpa using List.find?_some hs, htime⟩
  exact ((List.perm_insertionSort _ _).mem_iff).mpr (List.mem_of_find?_eq_some hs)

/-! ## The session's beginning -/

/-- A session and, which is not in the program, the refs of its beginning by the names
that their entries have now.  A ref that came up during the session has none. -/
structure Observed (κ : Type) where
  session : Session κ
  origin : Bytes → Option Ref

namespace Observed

variable (ids : CommitIds κ)

/-- The constructor of `RepoState`. -/
def start (lookup : κ → Option Commit) (now : Int) (file : RefStates κ) (refs : List Ref) :
    Observed κ where
  session := .start ids lookup now file refs
  origin k := refs.find? fun ref => ref.fullName = k

/-- Where the refs of the beginning are after an act. -/
def moved (origin : Bytes → Option Ref) : Act κ → Bytes → Option Ref
  | .refReplace refPrev ref =>
      Function.update (Function.update origin ref (origin refPrev)) refPrev none
  | .refRemove ref => Function.update origin ref none
  | _ => origin

/-- One act of the session. -/
def act (s : Observed κ) (a : Act κ) : Option (Observed κ) :=
  (s.session.act ids a).map fun session => ⟨session, moved s.origin a⟩

/-- What holds of the entries of a session, as they come up, are changed and have their
initial snapshot pushed. -/
structure EntryInvariant (P : Option (LoadedRef κ) → Option Ref → Prop) : Prop where
  unloaded (origin : Option Ref) : P none origin ↔ origin = none
  late (now : Int) (ref : Ref) : P (some (loadedRef ids (fun _ => none) now ref none)) none
  change (lref : LoadedRef κ) (origin : Option Ref) (history : History (HistoryRefState κ)) :
    P (some lref) origin → P (some (lref.setHistory history)) origin
  push (lref : LoadedRef κ) (origin : Option Ref) :
    P (some lref) origin → P (some (lref.snapshotInitialPush ids)) origin

/-- The entries of a session and the refs they come from. -/
def Holds (P : Option (LoadedRef κ) → Option Ref → Prop) (s : Observed κ) : Prop :=
  ∀ k, P (s.session.loaded k) (s.origin k)

section Holds

variable {ids} {P : Option (LoadedRef κ) → Option Ref → Prop}

omit [DecidableEq κ] in
theorem Holds.update {loaded : LoadedRefs κ} {origin : Bytes → Option Ref}
    (h : ∀ k, P (loaded k) (origin k)) (ref : Bytes) {lref : Option (LoadedRef κ)}
    {from₀ : Option Ref} (href : P lref from₀) (k : Bytes) :
    P (Function.update loaded ref lref k) (Function.update origin ref from₀ k) := by
  by_cases hk : k = ref
  · subst hk
    rwa [Function.update_self, Function.update_self]
  · rw [Function.update_of_ne hk, Function.update_of_ne hk]
    exact h k

omit [DecidableEq κ] in
/-- A change of a loaded ref. -/
theorem Holds.modify {loaded : LoadedRefs κ} {origin : Bytes → Option Ref}
    (h : ∀ k, P (loaded k) (origin k)) {ref : Bytes} {lref : Option (LoadedRef κ)}
    (href : P lref (origin ref)) (k : Bytes) : P (Function.update loaded ref lref k) (origin k) := by
  have hupdate := Holds.update h ref href k
  rwa [Function.update_eq_self] at hupdate

/-- An act keeps the invariant. -/
theorem EntryInvariant.act (hP : EntryInvariant ids P) {s s' : Observed κ} (h : s.Holds P)
    {a : Act κ} (hact : s.act ids a = some s') : s'.Holds P := by
  obtain ⟨session, hsession, rfl⟩ := Option.map_eq_some_iff.mp hact
  cases a with
  | load ref now =>
      cases hsession
      intro k
      show P (loadRef ids (fun _ => none) now s.session.loaded ref none k) (s.origin k)
      rcases @loadRef_apply κ _ ids (fun _ => none) now s.session.loaded ref none k with
        hsame | ⟨-, hnone, hnew⟩
      · rw [hsame]
        exact h k
      · have horigin := h k
        rw [hnone, hP.unloaded] at horigin
        rw [hnew, horigin]
        exact hP.late now ref
  | change ref history =>
      obtain ⟨lref, hlref, rfl⟩ := Option.map_eq_some_iff.mp hsession
      have hold := h ref
      rw [hlref] at hold
      exact Holds.modify h (hP.change lref _ history hold)
  | snapshotInitialPush ref =>
      obtain ⟨lref, hlref, rfl⟩ := Option.map_eq_some_iff.mp hsession
      have hold := h ref
      rw [hlref] at hold
      exact Holds.modify h (hP.push lref _ hold)
  | refReplace refPrev ref =>
      obtain ⟨loaded, hreplace, rfl⟩ := Option.map_eq_some_iff.mp hsession
      obtain ⟨lref, hlref, rfl⟩ := refReplace_eq_some hreplace
      have hold := h refPrev
      rw [hlref] at hold
      exact Holds.update (Holds.update h ref hold) refPrev ((hP.unloaded none).mpr rfl)
  | refRemove ref =>
      cases hsession
      exact Holds.update h ref ((hP.unloaded none).mpr rfl)

/-- What holds of the entries that the constructor makes holds in the whole session. -/
theorem EntryInvariant.run (hP : EntryInvariant ids P) {lookup : κ → Option Commit} {now : Int}
    {file : RefStates κ} {refs : List Ref}
    (hstart : ∀ ref ∈ refs,
      P (some (loadedRef ids lookup now ref (file ref.fullName))) (some ref))
    {acts : List (Act κ)} {s : Observed κ}
    (hrun : Library.run (Observed.act ids) (start ids lookup now file refs) acts = some s) :
    s.Holds P := by
  have hmeets : StepsMeet (Observed.act ids) (fun _ _ => True)
      (start ids lookup now file refs) acts := Run.stepsMeet_of_forall (fun _ _ _ => trivial) _
  refine Run.invariant (fun s a s' h _ hact => hP.act h hact) hrun hmeets fun k => ?_
  show P (loadRefs ids lookup now file refs k) (refs.find? _)
  rw [loadRefs_apply]
  cases hfind : refs.find? fun ref => ref.fullName = k with
  | none => exact (hP.unloaded none).mpr rfl
  | some ref =>
      have hname : ref.fullName = k := by simpa using List.find?_some hfind
      rw [Option.map_some, ← hname]
      exact hstart ref (List.mem_of_find?_eq_some hfind)

end Holds

/-- The initial snapshot of an entry is the state of its ref at the beginning, and has been
pushed if the flag says so. -/
def EntryKept (now : Int) : Option (LoadedRef κ) → Option Ref → Prop
  | none, origin => origin = none
  | some lref, origin =>
      (∀ ref, origin = some ref → lref.snapshotInitial = ⟨now, .ofRef ids ref⟩) ∧
        (lref.snapshotInitialPushed = true →
          HasSnapshot lref.refState.snapshots lref.snapshotInitial)

variable {ids}

theorem entryInvariant_kept (now : Int) : EntryInvariant ids (EntryKept ids now) where
  unloaded _ := Iff.rfl
  late _ _ := by
    refine ⟨?_, fun hpushed => ?_⟩
    · rintro _ ⟨⟩
    · cases hpushed
  change _ _ _ h := h
  push lref origin h := by
    unfold LoadedRef.snapshotInitialPush
    split
    · exact h
    · exact ⟨h.1, fun _ => hasSnapshot_cleanSnapshots ids (by simp)⟩

/-- The stored entry holds the state that the ref had when the session began. -/
def Stored (ids : CommitIds κ) (now : Int) (ref : Ref) (file : RefStates κ) (k : Bytes) : Prop :=
  ∃ e, file k = some e ∧ HasSnapshot e.snapshots ⟨now, .ofRef ids ref⟩

/-- After any session, for a ref whose initial snapshot was pushed, the file that `write`
stores has that snapshot exactly when the ref had no entry at the beginning, or its
history is not the one that was loaded, or the file had such a snapshot before. -/
theorem stored_write_iff {lookup : κ → Option Commit} {now : Int} {file₀ : RefStates κ}
    {refs : List Ref} {acts : List (Act κ)} {s : Observed κ}
    (hrun : run (act ids) (start ids lookup now file₀ refs) acts = some s) {k : Bytes} {ref : Ref}
    {lref : LoadedRef κ} (hlref : s.session.loaded k = some lref) (horigin : s.origin k = some ref)
    (hpushed : lref.snapshotInitialPushed = true) (file : RefStates κ) :
    Stored ids now ref (write s.session.loaded file) k ↔
      lref.created = true ∨ lref.history ≠ lref.historyPrev ∨ Stored ids now ref file k := by
  have hkept := (entryInvariant_kept now).run (fun ref _ => ⟨fun _ h => by cases h; rfl, nofun⟩)
    hrun k
  rw [hlref, horigin] at hkept
  obtain ⟨hinitial, hhas⟩ := hkept
  have hsnapshot := hhas hpushed
  rw [hinitial ref rfl] at hsnapshot
  unfold Stored
  rw [write_of_some hlref, ← or_assoc]
  have hwrites : lref.writes = true ↔ lref.created = true ∨ lref.history ≠ lref.historyPrev := by
    unfold LoadedRef.writes
    simp
  rw [← hwrites]
  cases hw : lref.writes with
  | true =>
      refine iff_of_true ⟨_, if_pos rfl, hsnapshot⟩ (Or.inl rfl)
  | false => simp

end Observed

end State

/-! ## An undo and a redo -/

namespace UndoneRedone

open Git State Library

/-- The entry of a branch whose history has one state before the present one. -/
def file : RefStates (Option Commit) := fun k =>
  if k = TwoSessions.ref.fullName then some ⟨TwoSessions.changed, []⟩ else none

/-- The session loads the branch at its present head. -/
def start : Observed (Option Commit) := .start TwoSessions.ids id 7 file [TwoSessions.ref']

/-- An undo on the branch, then as many redos as asked for. -/
def acts (redos : Nat) : List (Act (Option Commit)) :=
  [.change TwoSessions.ref.fullName (TwoSessions.changed.prev.getD TwoSessions.changed),
    .snapshotInitialPush TwoSessions.ref.fullName] ++
  List.replicate redos (.change TwoSessions.ref.fullName TwoSessions.changed)

def after (redos : Nat) : Observed (Option Commit) :=
  (run (Observed.act TwoSessions.ids) start (acts redos)).getD start

def entry (redos : Nat) : LoadedRef (Option Commit) :=
  ((after redos).session.loaded TwoSessions.ref.fullName).getD
    (loadedRef TwoSessions.ids id 7 TwoSessions.ref' none)

/-- After the undo alone the snapshot is stored. -/
theorem stored_undone :
    Observed.Stored TwoSessions.ids 7 TwoSessions.ref' (write (after 0).session.loaded file)
      TwoSessions.ref.fullName := by
  have hrun : run (Observed.act TwoSessions.ids) start (acts 0) = some (after 0) := rfl
  have hentry : (after 0).session.loaded TwoSessions.ref.fullName = some (entry 0) := rfl
  exact (Observed.stored_write_iff hrun hentry rfl rfl file).mpr (Or.inr (Or.inl (by decide)))

/-- After the undo and the redo it is not, although it was pushed. -/
theorem not_stored_redone :
    run (Observed.act TwoSessions.ids) start (acts 1) = some (after 1) ∧
      (after 1).session.loaded TwoSessions.ref.fullName = some (entry 1) ∧
      (after 1).origin TwoSessions.ref.fullName = some TwoSessions.ref' ∧
      (entry 1).snapshotInitialPushed = true ∧ (entry 1).refState.snapshots ≠ [] ∧
      ¬Observed.Stored TwoSessions.ids 7 TwoSessions.ref' (write (after 1).session.loaded file)
        TwoSessions.ref.fullName := by
  refine ⟨rfl, rfl, rfl, rfl, by decide, ?_⟩
  rintro ⟨e, he, s, hs, -⟩
  have hentry : write (after 1).session.loaded file TwoSessions.ref.fullName =
      some ⟨TwoSessions.changed, []⟩ := by decide
  rw [hentry, Option.some.injEq] at he
  rw [← he] at hs
  cases hs

end UndoneRedone

end Debase
