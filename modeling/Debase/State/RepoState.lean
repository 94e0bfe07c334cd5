import Mathlib.Logic.Function.Basic
import Debase.State.History

/-!
# The state of a session

`RepoState` of `state/State.h`: the histories and snapshots of the refs a session
has loaded, how they are read from the stored entries, and which of them `write`
stores.
-/

namespace Debase
namespace State

open Git

/-- `RepoState::_RefState`: the stored entry of a ref. -/
structure StoredRefState (κ : Type) where
  history : History (HistoryRefState κ)
  snapshots : List (Snapshot κ)
deriving DecidableEq

/-- `_RepoState::refStates`: the stored entries by full name. -/
abbrev RefStates (κ : Type) := Bytes → Option (StoredRefState κ)

/-- `_LoadedRef`. -/
structure LoadedRef (κ : Type) where
  refState : StoredRefState κ
  created : Bool
  snapshotInitialPushed : Bool
  historyPrev : History (HistoryRefState κ)
  snapshotInitial : Snapshot κ
deriving DecidableEq

/-- `_loadedRefs`. -/
abbrev LoadedRefs (κ : Type) := Bytes → Option (LoadedRef κ)

/-- The history of a loaded ref. -/
def LoadedRef.history {κ : Type} (lref : LoadedRef κ) : History (HistoryRefState κ) :=
  lref.refState.history

/-- Assign to the history of a loaded ref. -/
def LoadedRef.setHistory {κ : Type} (lref : LoadedRef κ) (h : History (HistoryRefState κ)) :
    LoadedRef κ :=
  { lref with refState := { lref.refState with history := h } }

@[simp] theorem LoadedRef.history_setHistory {κ : Type} (lref : LoadedRef κ)
    (h : History (HistoryRefState κ)) : (lref.setHistory h).history = h := rfl

@[simp] theorem LoadedRef.created_setHistory {κ : Type} (lref : LoadedRef κ)
    (h : History (HistoryRefState κ)) : (lref.setHistory h).created = lref.created := rfl

@[simp] theorem LoadedRef.historyPrev_setHistory {κ : Type} (lref : LoadedRef κ)
    (h : History (HistoryRefState κ)) : (lref.setHistory h).historyPrev = lref.historyPrev := rfl

section RepoState

variable {κ : Type} [DecidableEq κ] (ids : CommitIds κ)

section Load

/- `lookup` is what `Convert(_repo, h)` finds, `none` where it throws. -/
variable (lookup : κ → Option Commit) (now : Int)

/-- The entry that `_loadRef` makes for a ref that is not loaded yet.  The stored
history is used only if its head is the ref's head. -/
def loadedRef (ref : Ref) (refState : Option (StoredRefState κ)) : LoadedRef κ :=
  let stored := refState.getD ⟨.single (.blank ids), []⟩
  let head := stored.history.current.refState.head
  let headStored := if head = ids.empty then none else lookup head
  let history :=
    if headStored = some ref.commit then stored.history else .single (.ofRef ids ref)
  { refState := ⟨history, stored.snapshots⟩
    created := refState.isNone
    snapshotInitialPushed := false
    historyPrev := history
    snapshotInitial := ⟨now, .ofRef ids ref⟩ }

/-- `_loadRef`: a ref that is loaded already stays as it is. -/
def loadRef (loaded : LoadedRefs κ) (ref : Ref) (refState : Option (StoredRefState κ)) :
    LoadedRefs κ :=
  match loaded ref.fullName with
  | some _ => loaded
  | none => Function.update loaded ref.fullName (some (loadedRef ids lookup now ref refState))

/-- The loop of the constructor of `RepoState`. -/
def loadRefs (refStates : RefStates κ) (refs : List Ref) : LoadedRefs κ :=
  refs.foldl (fun loaded ref => loadRef ids lookup now loaded ref (refStates ref.fullName))
    fun _ => none

end Load

/-- Whether `write` stores a loaded ref. -/
def LoadedRef.writes (lref : LoadedRef κ) : Bool :=
  lref.created || lref.history ≠ lref.historyPrev

/-- The entries that `write` stores. -/
def write (loaded : LoadedRefs κ) (refStates : RefStates κ) : RefStates κ := fun ref =>
  match loaded ref with
  | none => refStates ref
  | some lref => if lref.writes then some lref.refState else refStates ref

/-- `snapshotInitialPush`, on the loaded ref. -/
def LoadedRef.snapshotInitialPush (lref : LoadedRef κ) : LoadedRef κ :=
  if lref.snapshotInitialPushed then lref
  else
    { lref with
      snapshotInitialPushed := true
      refState :=
        { lref.refState with
          snapshots :=
            cleanSnapshots ids (lref.refState.snapshots ++ [lref.snapshotInitial]) } }

omit [DecidableEq κ] in
/-- `refReplace`: the entry of a ref moves to another name.  The names are
asserted to differ, and the old one to be loaded (`at`). -/
def refReplace (loaded : LoadedRefs κ) (refPrev ref : Bytes) : Option (LoadedRefs κ) :=
  if refPrev = ref then none
  else
    match loaded refPrev with
    | none => none
    | some lref =>
        some (Function.update (Function.update loaded ref (some lref)) refPrev none)

omit [DecidableEq κ] in
/-- `refRemove`. -/
def refRemove (loaded : LoadedRefs κ) (ref : Bytes) : LoadedRefs κ :=
  Function.update loaded ref none

/-! ## What the methods do -/

section Lemmas

variable {ids} {lookup : κ → Option Commit} {now : Int}

@[simp] theorem historyPrev_loadedRef (ref : Ref) (refState : Option (StoredRefState κ)) :
    (loadedRef ids lookup now ref refState).historyPrev =
      (loadedRef ids lookup now ref refState).history := rfl

@[simp] theorem created_loadedRef (ref : Ref) (refState : Option (StoredRefState κ)) :
    (loadedRef ids lookup now ref refState).created = refState.isNone := rfl

/-- The current state of a loaded history is the ref's: its head always, its name
unless a stored history was taken over. -/
theorem head_loadedRef (hlookup : ∀ id c, lookup id = some c → ids.commit id = some c)
    (ref : Ref) (refState : Option (StoredRefState κ)) :
    ids.commit (loadedRef ids lookup now ref refState).history.current.refState.head =
      some ref.commit := by
  unfold loadedRef LoadedRef.history
  dsimp only
  generalize refState.getD ⟨.single (.blank ids), []⟩ = stored
  split
  · -- an empty id was never looked up
    rw [if_neg (by simp)]
    exact ids.commit_idStr ref.commit
  · split
    · next hstored => exact hlookup _ _ hstored
    · exact ids.commit_idStr ref.commit

/-- The name as well, if the stored history has it. -/
theorem name_loadedRef {ref : Ref} {refState : Option (StoredRefState κ)}
    (hstored : ∀ stored, refState = some stored →
      stored.history.current.refState.name = ref.name) :
    (loadedRef ids lookup now ref refState).history.current.refState.name = ref.name := by
  have hname : ∀ history : History (HistoryRefState κ), ∀ p [Decidable p],
      (p → history.current.refState.name = ref.name) →
      (if p then history else .single (.ofRef ids ref)).current.refState.name = ref.name := by
    intro history p _ h
    split
    · next hp => exact h hp
    · rfl
  refine hname _ _ fun hhead => ?_
  cases refState with
  | some stored => exact hstored stored rfl
  | none =>
      -- there is no stored head
      have hblank : (HistoryRefState.blank ids).refState.head = ids.empty := rfl
      simp [hblank] at hhead

theorem loadRef_of_loaded {loaded : LoadedRefs κ} {ref : Ref} {lref : LoadedRef κ}
    (h : loaded ref.fullName = some lref) (refState : Option (StoredRefState κ)) :
    loadRef ids lookup now loaded ref refState = loaded := by
  unfold loadRef
  rw [h]

theorem loadRef_of_none {loaded : LoadedRefs κ} {ref : Ref} (h : loaded ref.fullName = none)
    (refState : Option (StoredRefState κ)) :
    loadRef ids lookup now loaded ref refState =
      Function.update loaded ref.fullName (some (loadedRef ids lookup now ref refState)) := by
  unfold loadRef
  rw [h]

/-- What is loaded afterwards was loaded before, or is the entry made now. -/
theorem loadRef_apply (loaded : LoadedRefs κ) (ref : Ref) (refState : Option (StoredRefState κ))
    (k : Bytes) :
    loadRef ids lookup now loaded ref refState k = loaded k ∨
      (k = ref.fullName ∧ loaded k = none ∧ loadRef ids lookup now loaded ref refState k =
        some (loadedRef ids lookup now ref refState)) := by
  cases h : loaded ref.fullName with
  | some lref => exact Or.inl (by rw [loadRef_of_loaded h])
  | none =>
      rw [loadRef_of_none h]
      by_cases hk : k = ref.fullName
      · subst hk
        exact Or.inr ⟨rfl, h, Function.update_self _ _ _⟩
      · exact Or.inl (Function.update_of_ne hk _ _)

/-- The constructor loads the first ref of each name, with its stored entry. -/
theorem loadRefs_apply (refStates : RefStates κ) (refs : List Ref) (k : Bytes) :
    loadRefs ids lookup now refStates refs k =
      (refs.find? fun ref => ref.fullName = k).map fun ref =>
        loadedRef ids lookup now ref (refStates k) := by
  have hgen : ∀ (refs : List Ref) (loaded : LoadedRefs κ),
      refs.foldl (fun loaded ref => loadRef ids lookup now loaded ref (refStates ref.fullName))
          loaded k =
        (loaded k).or ((refs.find? fun ref => ref.fullName = k).map fun ref =>
          loadedRef ids lookup now ref (refStates k)) := by
    intro refs
    induction refs with
    | nil => exact fun loaded => (Option.or_none).symm
    | cons ref refs ih =>
        intro loaded
        have hcases := @loadRef_apply κ _ ids lookup now loaded ref (refStates ref.fullName) k
        rw [List.foldl_cons, ih, List.find?_cons]
        by_cases hk : ref.fullName = k
        · subst hk
          simp only [decide_true]
          rcases hcases with hsame | ⟨-, hnone, hnew⟩
          · rw [hsame]
            cases hloaded : loaded ref.fullName with
            | some lref => rfl
            | none =>
                rw [loadRef_of_none hloaded, Function.update_self, hloaded] at hsame
                cases hsame
          · rw [hnew, hnone]
            rfl
        · rw [hcases.resolve_right fun hno => hk hno.1.symm]
          simp only [hk, decide_false]
  unfold loadRefs
  rw [hgen]
  rfl

/-- Every ref that the constructor loads is loaded with its stored entry. -/
theorem loadRefs_some {refStates : RefStates κ} {refs : List Ref} {k : Bytes}
    {lref : LoadedRef κ} (h : loadRefs ids lookup now refStates refs k = some lref) :
    ∃ ref ∈ refs, ref.fullName = k ∧ lref = loadedRef ids lookup now ref (refStates k) := by
  rw [loadRefs_apply] at h
  obtain ⟨ref, href, rfl⟩ := Option.map_eq_some_iff.mp h
  exact ⟨ref, List.mem_of_find?_eq_some href, by simpa using List.find?_some href, rfl⟩

omit [DecidableEq κ] in
theorem refReplace_eq_some {loaded loaded' : LoadedRefs κ} {refPrev ref : Bytes}
    (h : refReplace loaded refPrev ref = some loaded') :
    ∃ lref, loaded refPrev = some lref ∧
      loaded' = Function.update (Function.update loaded ref (some lref)) refPrev none := by
  unfold refReplace at h
  split at h
  · cases h
  · split at h
    · cases h
    · next lref hlref =>
        cases h
        exact ⟨lref, hlref, rfl⟩

theorem write_of_none {loaded : LoadedRefs κ} {k : Bytes} (h : loaded k = none)
    (refStates : RefStates κ) : write loaded refStates k = refStates k := by
  unfold write
  rw [h]

theorem write_of_some {loaded : LoadedRefs κ} {k : Bytes} {lref : LoadedRef κ}
    (h : loaded k = some lref) (refStates : RefStates κ) :
    write loaded refStates k = if lref.writes then some lref.refState else refStates k := by
  unfold write
  rw [h]

end Lemmas

end RepoState

end State
end Debase
