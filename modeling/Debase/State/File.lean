import Mathlib.Data.Finset.Sort
import Mathlib.Data.UInt
import Debase.Library.JsonText
import Debase.Library.Program
import Debase.State.RepoState

/-!
# The state file of a repository

`_RepoStateRead`, `_RepoStateWrite` and the JSON of the stored entries.  The file
is opened for writing, and so emptied, before the text is produced; when the
printer throws or the device is full, what came before stays in the file, and no
reader takes it.

The parser is a parameter: all that is used of it is that a text it takes has a
closed beginning.  What follows the value it does not look at.
-/

namespace Debase
namespace State

open Library

/-! ## JSON -/

/-- `json::at`. -/
def member (key : String) : Json → Option Json
  | .object ms => ms.lookup (ascii key)
  | _ => none

/-- `get<std::string>`. -/
def getString : Json → Option Bytes
  | .string s => some s
  | _ => none

/-- `get<int64_t>`. -/
def getNumber : Json → Option Int
  | .number n => some n
  | _ => none

/-- `get<std::vector>`. -/
def getArray {α : Type} (get : Json → Option α) : Json → Option (List α)
  | .array es => es.mapM get
  | _ => none

def RefState.toJson (x : RefState Bytes) : Json :=
  .object [(ascii "head", .string x.head), (ascii "name", .string x.name)]

def RefState.fromJson (j : Json) : Option (RefState Bytes) := do
  let name ← (member "name" j).bind getString
  let head ← (member "head" j).bind getString
  pure ⟨name, head⟩

/-- A `std::set` is written in order. -/
def setToJson (s : Finset Bytes) : Json := .array ((s.sort (· ≤ ·)).map .string)

def setFromJson (j : Json) : Option (Finset Bytes) := (getArray getString j).map List.toFinset

def HistoryRefState.toJson (x : HistoryRefState Bytes) : Json :=
  .object [(ascii "refState", x.refState.toJson), (ascii "selection", setToJson x.selection),
    (ascii "selectionPrev", setToJson x.selectionPrev)]

def HistoryRefState.fromJson (j : Json) : Option (HistoryRefState Bytes) := do
  let refState ← (member "refState" j).bind RefState.fromJson
  let selection ← (member "selection" j).bind setFromJson
  let selectionPrev ← (member "selectionPrev" j).bind setFromJson
  pure ⟨refState, selection, selectionPrev⟩

/-- `to_json(nlohmann::json& j, const History& out)`. -/
def History.toJson (h : History (HistoryRefState Bytes)) : Json :=
  .object [(ascii "current", h.current.toJson),
    (ascii "next", .array (h.nexts.map HistoryRefState.toJson)),
    (ascii "prev", .array (h.prevs.map HistoryRefState.toJson))]

/-- `from_json(const nlohmann::json& j, History& out)`. -/
def History.fromJson (j : Json) : Option (History (HistoryRefState Bytes)) := do
  let prevs ← (member "prev" j).bind (getArray HistoryRefState.fromJson)
  let nexts ← (member "next" j).bind (getArray HistoryRefState.fromJson)
  let current ← (member "current" j).bind HistoryRefState.fromJson
  pure ⟨current, prevs, nexts⟩

def Snapshot.toJson (x : Snapshot Bytes) : Json :=
  .object [(ascii "creationTime", .number x.creationTime), (ascii "refState", x.refState.toJson)]

def Snapshot.fromJson (j : Json) : Option (Snapshot Bytes) := do
  let creationTime ← (member "creationTime" j).bind getNumber
  let refState ← (member "refState" j).bind RefState.fromJson
  pure ⟨creationTime, refState⟩

def StoredRefState.toJson (x : StoredRefState Bytes) : Json :=
  .object [(ascii "history", x.history.toJson),
    (ascii "snapshots", .array (x.snapshots.map Snapshot.toJson))]

def StoredRefState.fromJson (j : Json) : Option (StoredRefState Bytes) := do
  let history ← (member "history" j).bind History.fromJson
  let snapshots ← (member "snapshots" j).bind (getArray Snapshot.fromJson)
  pure ⟨history, snapshots⟩

/-- `_RepoState`: the pairs of its map. -/
abbrev RepoStateDoc := List (Bytes × StoredRefState Bytes)

def RepoStateDoc.toJson (doc : RepoStateDoc) : Json :=
  .object [(ascii "refStates", .object (doc.map fun e => (e.1, e.2.toJson)))]

def RepoStateDoc.fromJson (j : Json) : Option RepoStateDoc :=
  (member "refStates" j).bind fun
    | .object ms => ms.mapM fun m => (StoredRefState.fromJson m.2).map fun x => (m.1, x)
    | _ => none

/-- Reading every element of a list that was written with `put`. -/
theorem mapM_map_some {α β : Type} {put : α → β} {get : β → Option α}
    (h : ∀ a, get (put a) = some a) (l : List α) : (l.map put).mapM get = some l := by
  induction l with
  | nil => rfl
  | cons a l ih =>
      rw [List.map_cons, List.mapM_cons, h, ih]
      rfl

@[simp] theorem RefState.fromJson_toJson (x : RefState Bytes) : fromJson x.toJson = some x := rfl

@[simp] theorem setFromJson_setToJson (s : Finset Bytes) : setFromJson (setToJson s) = some s := by
  have hstring : ∀ t, getString (.string t) = some t := fun _ => rfl
  have hstrings : ((s.sort (· ≤ ·)).map Json.string).mapM getString = some (s.sort (· ≤ ·)) :=
    mapM_map_some hstring _
  unfold setFromJson setToJson getArray
  dsimp only
  rw [hstrings, Option.map_some, Finset.sort_toFinset]

@[simp] theorem HistoryRefState.fromJson_toJson (x : HistoryRefState Bytes) :
    fromJson x.toJson = some x := by
  change (do
    let refState ← RefState.fromJson x.refState.toJson
    let selection ← setFromJson (setToJson x.selection)
    let selectionPrev ← setFromJson (setToJson x.selectionPrev)
    pure (HistoryRefState.mk refState selection selectionPrev)) = some x
  simp

@[simp] theorem History.fromJson_toJson (h : History (HistoryRefState Bytes)) :
    fromJson h.toJson = some h := by
  change (do
    let prevs ← (h.prevs.map HistoryRefState.toJson).mapM HistoryRefState.fromJson
    let nexts ← (h.nexts.map HistoryRefState.toJson).mapM HistoryRefState.fromJson
    let current ← HistoryRefState.fromJson h.current.toJson
    pure (History.mk current prevs nexts)) = some h
  simp only [mapM_map_some HistoryRefState.fromJson_toJson, HistoryRefState.fromJson_toJson]
  rfl

@[simp] theorem Snapshot.fromJson_toJson (x : Snapshot Bytes) : fromJson x.toJson = some x := rfl

@[simp] theorem StoredRefState.fromJson_toJson (x : StoredRefState Bytes) :
    fromJson x.toJson = some x := by
  change (do
    let history ← History.fromJson x.history.toJson
    let snapshots ← (x.snapshots.map Snapshot.toJson).mapM Snapshot.fromJson
    pure (StoredRefState.mk history snapshots)) = some x
  simp only [mapM_map_some Snapshot.fromJson_toJson, History.fromJson_toJson]
  rfl

/-- What is written is what is read. -/
@[simp] theorem RepoStateDoc.fromJson_toJson (doc : RepoStateDoc) :
    fromJson (toJson doc) = some doc := by
  change (doc.map fun e => (e.1, e.2.toJson)).mapM
    (fun m => (StoredRefState.fromJson m.2).map fun x => (m.1, x)) = some doc
  exact mapM_map_some (fun e => by simp) doc

/-! ## Reading and writing -/

/-- How reading or writing the file can fail. -/
inductive FileError where
  | parse
  | serialize
  | io
deriving DecidableEq

/-- What goes wrong outside during a write: an exception before the file is open,
or a file that takes only so many bytes (`none`: all of them). -/
inductive Fault where
  | early
  | opened (room : Option Nat)
deriving DecidableEq

/-- The contents of the file, `none` if there is no file. -/
abbrev File := Option Bytes

section ReadWrite

variable (parse : Bytes → Option Json)

/-- `_RepoStateRead`; no file is an empty state. -/
def repoStateRead (file : File) : Option RepoStateDoc :=
  match file with
  | none => some []
  | some text => (parse text).bind RepoStateDoc.fromJson

/-- The text and the outcome of `f << std::setw(4) << j`. -/
def RepoStateDoc.out (doc : RepoStateDoc) : Out := doc.toJson.dump 4 0

/-- What a file with this much room takes of a text. -/
def taken (room : Option Nat) (text : Bytes) : Bytes :=
  match room with
  | none => text
  | some n => text.take n

/-- `_RepoStateWrite`. -/
def repoStateWrite (fault : Fault) (doc : RepoStateDoc) : Program File FileError Unit := fun file =>
  match fault with
  | .early => (.error .io, file)
  | .opened room =>
      -- opening the file has emptied it
      let text := taken room doc.out.text
      let outcome :=
        if text ≠ doc.out.text then .error .io
        else if doc.out.ok then .ok ()
        else .error .serialize
      (outcome, some text)

/-- `repoState.refStates[ref] = refState`. -/
def setEntry {α : Type} (ref : Bytes) (refState : α) : List (Bytes × α) → List (Bytes × α)
  | [] => [(ref, refState)]
  | e :: es =>
      if e.1 = ref then (ref, refState) :: es
      else if ref < e.1 then (ref, refState) :: e :: es
      else e :: setEntry ref refState es

/-- The loop of `RepoState::write`. -/
def merged (loaded : List (Bytes × LoadedRef Bytes)) (doc : RepoStateDoc) : RepoStateDoc :=
  loaded.foldl (fun doc e => if e.2.writes then setEntry e.1 e.2.refState doc else doc) doc

/-- `RepoState::write`. -/
def writeFile (fault : Fault) (loaded : List (Bytes × LoadedRef Bytes)) :
    Program File FileError Unit := do
  let file ← Program.read
  match repoStateRead parse file with
  | none => .fail .parse
  | some doc => repoStateWrite fault (merged loaded doc)

omit parse in
private theorem lookup_cons_eq {α : Type} (key : Bytes) (value : α) (es : List (Bytes × α))
    (k : Bytes) : ((key, value) :: es).lookup k = if k = key then some value else es.lookup k := by
  rw [List.lookup_cons]
  by_cases hk : k = key
  · simp [hk]
  · rw [if_neg hk, beq_false_of_ne hk]

omit parse in
theorem lookup_setEntry {α : Type} (ref : Bytes) (refState : α) (es : List (Bytes × α))
    (k : Bytes) :
    (setEntry ref refState es).lookup k = if k = ref then some refState else es.lookup k := by
  induction es with
  | nil => rw [setEntry, lookup_cons_eq]
  | cons e es ih =>
      obtain ⟨key, value⟩ := e
      rw [setEntry]
      split
      · next hkey =>
          have hkey : key = ref := hkey
          subst hkey
          rw [lookup_cons_eq, lookup_cons_eq]
          split <;> rfl
      · split
        · rw [lookup_cons_eq]
        · next hkey _ =>
            have hkey : key ≠ ref := hkey
            rw [lookup_cons_eq, lookup_cons_eq, ih]
            by_cases hk : k = ref
            · have hne : k ≠ key := by
                rw [hk]
                exact hkey.symm
              rw [if_neg hne, if_pos hk, if_pos hk]
            · rw [if_neg hk, if_neg hk]

/-- The loop stores what `write` stores. -/
theorem lookup_merged {loaded : List (Bytes × LoadedRef Bytes)}
    (hnodup : (loaded.map Prod.fst).Nodup) (doc : RepoStateDoc) (k : Bytes) :
    List.lookup k (merged loaded doc) =
      write (fun k => List.lookup k loaded) (fun k => List.lookup k doc) k := by
  induction loaded generalizing doc with
  | nil => rfl
  | cons e loaded ih =>
      obtain ⟨ref, lref⟩ := e
      rw [List.map_cons, List.nodup_cons] at hnodup
      have hstep : merged ((ref, lref) :: loaded) doc =
          merged loaded (if lref.writes then setEntry ref lref.refState doc else doc) := rfl
      rw [hstep, ih hnodup.2]
      by_cases hk : k = ref
      · subst hk
        -- the entry of a ref is written once, as its name comes once
        have hnot : k ∉ loaded.map Prod.fst := hnodup.1
        have hnone : List.lookup k loaded = none := by
          rw [List.lookup_eq_none_iff]
          intro e he
          have hne : k ≠ e.1 := by
            intro heq
            rw [heq] at hnot
            exact hnot (List.mem_map_of_mem he)
          simpa using hne
        have hsome : List.lookup k ((k, lref) :: loaded) = some lref := by
          rw [lookup_cons_eq, if_pos rfl]
        rw [write_of_none hnone, write_of_some hsome]
        split
        · rw [lookup_setEntry, if_pos rfl]
        · rfl
      · have hlookup : List.lookup k ((ref, lref) :: loaded) = List.lookup k loaded := by
          rw [lookup_cons_eq, if_neg hk]
        have hdoc : List.lookup k (if lref.writes then setEntry ref lref.refState doc else doc) =
            List.lookup k doc := by
          split
          · rw [lookup_setEntry, if_neg hk]
          · rfl
        unfold write
        dsimp only
        rw [hlookup, hdoc]

/-! ## What is left in the file -/

/-- Afterwards the file holds what it held or the whole new document, and can be
read. -/
def Safe (doc : RepoStateDoc) (file file' : File) : Prop :=
  (file' = file ∨ (doc.out.ok = true ∧ file' = some doc.out.text)) ∧
    (repoStateRead parse file').isSome = true

variable {parse}

/-- What is taken of a text is a beginning of it. -/
theorem taken_prefix (room : Option Nat) (text : Bytes) : taken room text <+: text := by
  cases room with
  | none => exact List.prefix_refl _
  | some n => exact List.take_prefix _ _

/-- A document that was cut, by the device or by the printer, cannot be read. -/
theorem repoStateRead_cut (hclosed : ∀ text j, parse text = some j → BeginsClosed text)
    {doc : RepoStateDoc} {room : Option Nat}
    (hcut : taken room doc.out.text ≠ doc.out.text ∨ doc.toJson.validStrings = false) :
    repoStateRead parse (some (taken room doc.out.text)) = none := by
  have htaken := taken_prefix room doc.out.text
  have hopen : ¬BeginsClosed (taken room doc.out.text) := by
    by_cases hvalid : doc.toJson.validStrings = true
    · have hne := hcut.resolve_right (by simp [hvalid])
      exact Json.not_beginsClosed_of_prefix hvalid htaken hne
    · -- the printer left the beginning of another document
      obtain ⟨ms, hms, hprefix, hne⟩ := Json.dump_object_cut 4
        (Bool.eq_false_iff.mpr hvalid) 0
      refine Json.not_beginsClosed_of_prefix hms (htaken.trans hprefix) ?_
      intro heq
      rw [heq] at htaken
      exact hne (List.IsPrefix.eq_of_length_le hprefix htaken.length_le)
  unfold repoStateRead
  cases hparse : parse (taken room doc.out.text) with
  | none => simp [hparse]
  | some j => exact absurd (hclosed _ j hparse) hopen

/-- `write` leaves the old or the new document, readable, exactly when it throws
before the file is open, or when every string of the new document is valid UTF-8
and the file takes all of its text. -/
theorem writeFile_safe_iff (hclosed : ∀ text j, parse text = some j → BeginsClosed text)
    {file : File} {doc : RepoStateDoc} (hfile : repoStateRead parse file = some doc)
    {loaded : List (Bytes × LoadedRef Bytes)}
    (hread : (merged loaded doc).toJson.validStrings = true →
      parse (merged loaded doc).out.text = some (merged loaded doc).toJson)
    (fault : Fault) :
    Safe parse (merged loaded doc) file (writeFile parse fault loaded file).2 ↔
      match fault with
      | .early => True
      | .opened room =>
          (merged loaded doc).toJson.validStrings = true ∧
            taken room (merged loaded doc).out.text = (merged loaded doc).out.text := by
  have hrun : writeFile parse fault loaded file = repoStateWrite fault (merged loaded doc) file := by
    unfold writeFile
    rw [Program.bind_run_ok (Program.read_run file)]
    simp only [hfile]
  rw [hrun]
  cases fault with
  | early =>
      refine iff_of_true ⟨Or.inl rfl, ?_⟩ trivial
      rw [show (repoStateWrite .early (merged loaded doc) file).2 = file from rfl, hfile]
      rfl
  | opened room =>
      change Safe parse _ file (some (taken room (merged loaded doc).out.text)) ↔ _ ∧ _
      constructor
      · rintro ⟨-, hreadable⟩
        by_contra hnot
        rw [not_and_or, Bool.not_eq_true] at hnot
        rw [repoStateRead_cut hclosed hnot.symm] at hreadable
        cases hreadable
      · rintro ⟨hvalid, hall⟩
        have hok : (merged loaded doc).out.ok = true := by
          rw [RepoStateDoc.out, Json.ok_dump, hvalid]
        rw [hall]
        refine ⟨Or.inr ⟨hok, rfl⟩, ?_⟩
        unfold repoStateRead
        simp [hread hvalid]

end ReadWrite

end State

/-! ## Two branches, one with a name that is not UTF-8 -/

namespace TwoNames

open Git State Library

/-- A ref that came up during the session. -/
def loadedRef (name : Bytes) : LoadedRef Bytes where
  refState := ⟨.single ⟨⟨name, ascii "0c"⟩, {ascii "0c"}, ∅⟩, []⟩
  created := true
  snapshotInitialPushed := false
  historyPrev := .single ⟨⟨name, ascii "0c"⟩, ∅, ∅⟩
  snapshotInitial := ⟨0, ⟨name, ascii "0c"⟩⟩

/-- A session with one branch. -/
def loaded (name : Bytes) : List (Bytes × LoadedRef Bytes) :=
  [(ascii "refs/heads/" ++ name, loadedRef name)]

/-- What a session writes into an empty state. -/
def doc : RepoStateDoc := merged (loaded (ascii "main")) []

/-- A reader that knows this document only, whatever follows it. -/
def parse (text : Bytes) : Option Json := if doc.out.text <+: text then some doc.toJson else none

theorem beginsClosed_of_parse (text : Bytes) (j : Json) (h : parse text = some j) :
    BeginsClosed text := by
  unfold parse at h
  split at h
  · next hbegins => exact ⟨_, hbegins, Json.closed_dump (by decide +kernel)⟩
  · cases h

/-- A branch with an ASCII name is stored. -/
theorem safe_main :
    Safe parse doc none (writeFile parse (.opened none) (loaded (ascii "main")) none).2 := by
  have hread : doc.toJson.validStrings = true → parse doc.out.text = some doc.toJson :=
    fun _ => if_pos (List.prefix_refl _)
  exact (writeFile_safe_iff beginsClosed_of_parse rfl hread _).mpr ⟨by decide +kernel, rfl⟩

/-- The state after the write of a session with a branch named by the byte 255. -/
def left : File :=
  (writeFile parse (.opened none) (loaded [255]) (some doc.out.text)).2

/-- Such a branch makes the write throw, and the stored document is lost. -/
theorem not_safe_badName :
    (writeFile parse (.opened none) (loaded [255]) (some doc.out.text)).1 = .error .serialize ∧
      repoStateRead parse (some doc.out.text) = some doc ∧
      ¬Safe parse (merged (loaded [255]) doc) (some doc.out.text) left := by
  have hread : repoStateRead parse (some doc.out.text) = some doc := by
    unfold repoStateRead parse
    simp
  have hrun : writeFile parse (.opened none) (loaded [255]) (some doc.out.text) =
      repoStateWrite (.opened none) (merged (loaded [255]) doc) (some doc.out.text) := by
    unfold writeFile
    rw [Program.bind_run_ok (Program.read_run _)]
    simp only [hread]
  refine ⟨by rw [hrun]; decide +kernel, hread, ?_⟩
  rintro ⟨-, hreadable⟩
  have hcut : repoStateRead parse
      (some (taken none (merged (loaded [255]) doc).out.text)) = none :=
    repoStateRead_cut beginsClosed_of_parse (Or.inr (by decide +kernel))
  rw [left, hrun] at hreadable
  change (repoStateRead parse (some (taken none _))).isSome = true at hreadable
  rw [hcut] at hreadable
  cases hreadable

end TwoNames

end Debase
