import Std.Data.ExtTreeMap
import Debase.Toastbox
import Debase.Git.Repo

/-!
# Conflicts

`git/Conflict.h`: a conflicted path is a list of hunks.  `hunksFromConflictString`
reads the hunks from a text with conflict markers, `conflictsGet` makes one
`Conflict` for every conflicted path of an index, and `conflictResolve` writes
the chosen content back into the index.
-/

namespace Debase
namespace Git

open Library Toastbox

/-- `Conflict::Side`. -/
inductive Side where
  | ours
  | theirs
deriving DecidableEq

/-- `Conflict::Hunk::Type`. -/
inductive HunkType where
  | normal
  | conflict
deriving DecidableEq

/-- `Conflict::Hunk`: the type tag and the lines of both shapes. -/
structure Hunk where
  type : HunkType
  normal : List Bytes
  linesOurs : List Bytes
  linesTheirs : List Bytes
deriving DecidableEq

namespace Hunk

/-- A normal hunk of the given lines. -/
def ofNormal (lines : List Bytes) : Hunk := ⟨.normal, lines, [], []⟩

/-- A conflict hunk of the given lines. -/
def ofConflict (ours theirs : List Bytes) : Hunk := ⟨.conflict, [], ours, theirs⟩

/-- `Hunk::empty`. -/
def empty (h : Hunk) : Bool :=
  match h.type with
  | .normal => h.normal.isEmpty
  | .conflict => h.linesOurs.isEmpty && h.linesTheirs.isEmpty

/-- `Hunk::lines(side)`. -/
def lines (h : Hunk) (side : Side) : List Bytes :=
  match h.type, side with
  | .normal, _ => h.normal
  | .conflict, .ours => h.linesOurs
  | .conflict, .theirs => h.linesTheirs

end Hunk

/-- `Conflict::Type`. -/
inductive ConflictType where
  | file
  | submodule
deriving DecidableEq

/-- `Conflict`. -/
structure Conflict where
  type : ConflictType
  path : Path
  hunks : List Hunk
deriving DecidableEq

namespace Conflict

/-- `Conflict::noFile(side)`: the side is a file that does not exist. -/
def noFile (c : Conflict) (side : Side) : Bool :=
  c.type = .file &&
    match c.hunks with
    | [h] => h.type = .conflict && (h.lines side).isEmpty
    | _ => false

/-- `Conflict::content(side)`. -/
def content (strings : Strings) (c : Conflict) (side : Side) : Option Bytes :=
  if c.noFile side then none
  else some (strings.join (c.hunks.flatMap fun h => h.lines side))

/-- `Conflict::conflictCount`. -/
def conflictCount (c : Conflict) : Nat := c.hunks.countP fun h => h.type = .conflict

end Conflict

/-- `ConflictMarkers`. -/
structure ConflictMarkers where
  start : Bytes
  separator : Bytes
  finish : Bytes

/-- `Repo::MergeMarkerStart`, `MergeMarkerSeparator` and `MergeMarkerEnd`. -/
def mergeMarkers : ConflictMarkers where
  start := ascii "<<<<<<< llc.toaster.debase"
  separator := ascii "======="
  finish := ascii ">>>>>>> llc.toaster.debase"

/-! ## Reading hunks from a text -/

/-- `_ParseState`. -/
inductive ParseState where
  | normal
  | conflictOurs
  | conflictTheirs
deriving DecidableEq

/-- The variables of the loop in `HunksFromConflictString`. -/
structure HunkParser where
  hunks : List Hunk
  hunk : Hunk
  state : ParseState
deriving DecidableEq

namespace HunkParser

def init : HunkParser := ⟨[], .ofNormal [], .normal⟩

/-- `if (!hunk.empty()) hunks.push_back(std::move(hunk))`: the moved-from hunk
keeps its type and loses its lines. -/
def push (p : HunkParser) : HunkParser :=
  if p.hunk.empty then p
  else { p with hunks := p.hunks ++ [p.hunk], hunk := ⟨p.hunk.type, [], [], []⟩ }

/-- One turn of the loop. -/
def line (strings : Strings) (m : ConflictMarkers) (p : HunkParser) (l : Bytes) : HunkParser :=
  match p.state with
  | .normal =>
      if strings.startsWith m.start l then
        let p := p.push
        { p with state := .conflictOurs, hunk := { p.hunk with type := .conflict } }
      else { p with hunk := { p.hunk with normal := p.hunk.normal ++ [l] } }
  | .conflictOurs =>
      if strings.startsWith m.separator l then
        { p with state := .conflictTheirs, hunk := { p.hunk with type := .conflict } }
      else { p with hunk := { p.hunk with linesOurs := p.hunk.linesOurs ++ [l] } }
  | .conflictTheirs =>
      if strings.startsWith m.finish l then
        let p := p.push
        { p with state := .normal, hunk := { p.hunk with type := .normal } }
      else { p with hunk := { p.hunk with linesTheirs := p.hunk.linesTheirs ++ [l] } }

end HunkParser

/-- The parser on a list of lines. -/
def hunksFromLines (strings : Strings) (m : ConflictMarkers) (lines : List Bytes) : List Hunk :=
  (lines.foldl (HunkParser.line strings m) .init).push.hunks

/-- `HunksFromConflictString`. -/
def hunksFromConflictString (strings : Strings) (m : ConflictMarkers) (s : Bytes) : List Hunk :=
  hunksFromLines strings m (strings.split s)

/-! ## The conflicts of an index -/

/-- `_IndexConflict`: the entries of one path at stages 1 to 3. -/
structure IndexConflict where
  ancestor : Option IndexEntry := none
  ours : Option IndexEntry := none
  theirs : Option IndexEntry := none
deriving DecidableEq

instance : Std.TransCmp (compare : Path → Path → Ordering) := inferInstance

/-- `std::map<_Path,_IndexConflict>`. -/
abbrev ConflictMap := Std.ExtTreeMap Path IndexConflict

/-- One entry of the scan in `ConflictsGet`. -/
def collectEntry (m : ConflictMap) (e : IndexEntry) : Except Exn ConflictMap :=
  let c := m[e.path]?.getD {}
  match e.stage with
  | .normal => .ok m
  | .ancestor =>
      if c.ancestor.isSome then .error .abort
      else .ok (m.insert e.path { c with ancestor := some e })
  | .ours =>
      if c.ours.isSome then .error .abort
      else .ok (m.insert e.path { c with ours := some e })
  | .theirs =>
      if c.theirs.isSome then .error .abort
      else .ok (m.insert e.path { c with theirs := some e })

/-- The kind of object a mode stands for (`mode & 0xF000`). -/
def objType (e : Option IndexEntry) : Nat := (e.map fun e => e.mode &&& 0xF000).getD 0

def objTypeNone : Nat := 0x0000
def objTypeFile : Nat := 0x8000
def objTypeGitlink : Nat := 0xE000

/-- The 40 hex digits of an id (`StringFromId`). -/
def stringFromId (id : Oid) : Bytes :=
  (List.range 40).map fun i =>
    let d := (id.toNat / 16 ^ (39 - i)) % 16
    if d < 10 then UInt8.ofNat (48 + d) else UInt8.ofNat (87 + d)

/-- The value of one hex digit. -/
def hexDigit (b : UInt8) : Option Nat :=
  let n := b.toNat
  if 48 ≤ n ∧ n ≤ 57 then some (n - 48)
  else if 97 ≤ n ∧ n ≤ 102 then some (n - 87)
  else if 65 ≤ n ∧ n ≤ 70 then some (n - 55)
  else none

/-- `IdFromString` (`git_oid_fromstr` reads 40 hex digits). -/
def idFromString (s : Bytes) : Except Exn Oid :=
  match (s.take 40).mapM hexDigit with
  | some ds =>
      if ds.length = 40 then .ok (BitVec.ofNat 160 (ds.foldl (fun n d => 16 * n + d) 0))
      else .error (.gitError .other)
  | none => .error (.gitError .other)

section Sides

variable {σ : Type} (strings : Strings) (repo : Repo σ)

/-- The lines of one side of a file against no-file conflict. -/
def sideLines (e : Option IndexEntry) : Program σ Exn (List Bytes) :=
  match e with
  | some e =>
      if objType (some e) = objTypeFile then do
        let content ← repo.blobLookup e.id
        pure (strings.split content)
      else pure []
  | none => pure []

/-- The body of the second loop of `ConflictsGet`: the `Conflict` of one path. -/
def conflictOf (path : Path) (c : IndexConflict) : Program σ Exn Conflict :=
  let ours := objType c.ours
  let theirs := objType c.theirs
  if ours = objTypeFile ∧ theirs = objTypeFile then do
    let mergeResult ← repo.merge c.ancestor c.ours c.theirs
    pure ⟨.file, path, hunksFromConflictString strings mergeMarkers mergeResult.content⟩
  else if ours = objTypeGitlink ∧ theirs = objTypeGitlink then
    pure ⟨.submodule, path, [.ofConflict
      ((c.ours.map fun e => stringFromId e.id).toList)
      ((c.theirs.map fun e => stringFromId e.id).toList)]⟩
  else if (ours = objTypeFile ∧ theirs = objTypeNone) ∨
      (ours = objTypeNone ∧ theirs = objTypeFile) then do
    let linesOurs ← sideLines strings repo c.ours
    let linesTheirs ← sideLines strings repo c.theirs
    pure ⟨.file, path, [.ofConflict linesOurs linesTheirs]⟩
  else .fail (.runtimeError "unsupported conflict scenario")

/-- `ConflictsGet`. -/
def conflictsGet (index : Index) : Program σ Exn (List Conflict) := do
  let conflicts ← .lift (index.entries.foldlM collectEntry ∅)
  conflicts.toList.mapM fun (path, c) => conflictOf strings repo path c

end Sides

/-! ## Resolving a conflict -/

namespace Index

/-- `Index::find(path, stage)`. -/
def find (index : Index) (path : Path) (stage : Stage) : Option IndexEntry :=
  index.entries.find? fun e => e.path = path && e.stage = stage

/-- `git_index_add`: insert or replace the stage-0 entry of the path. -/
def add (index : Index) (entry : IndexEntry) : Index :=
  ⟨index.entries.filter (fun e => ¬(e.path = entry.path ∧ e.stage = .normal)) ++
    [{ entry with stage := .normal }]⟩

/-- `git_index_remove` with stage ANY: remove the first entry of the path. -/
def remove (index : Index) (path : Path) : Except Exn Index :=
  if index.entries.any fun e => e.path = path then
    .ok ⟨index.entries.eraseP fun e => e.path = path⟩
  else .error (.gitError .notFound)

/-- `git_index_conflict_remove`: remove the entries of the path at stages 1 to 3. -/
def conflictClear (index : Index) (path : Path) : Except Exn Index :=
  if index.entries.any fun e => e.path = path then
    .ok ⟨index.entries.filter fun e => ¬(e.path = path ∧ e.stage ≠ .normal)⟩
  else .error (.gitError .notFound)

end Index

section Resolve

variable {σ : Type} (repo : Repo σ)

/-- The `switch` of `ConflictResolve`: put the content at stage 0, or remove the
path. -/
def conflictReplace (index : Index) (conflict : Conflict) (content : Option Bytes)
    (entryPrev : IndexEntry) : Program σ Exn Index :=
  match conflict.type, content with
  | .file, some content => do
      let blob ← repo.blobCreate content
      pure (index.add ⟨conflict.path, .normal, entryPrev.mode, blob⟩)
  | .file, none => .lift (index.remove conflict.path)
  | .submodule, none => .fail (.runtimeError "unsupported conflict scenario")
  | .submodule, some content => do
      let id ← Program.lift (idFromString content)
      pure (index.add ⟨conflict.path, .normal, entryPrev.mode, id⟩)

/-- `ConflictResolve`; no content means that the file should not exist. -/
def conflictResolve (index : Index) (conflict : Conflict) (content : Option Bytes) :
    Program σ Exn Index :=
  match (index.find conflict.path .theirs).or (index.find conflict.path .ours) with
  | none => .fail .abort
  | some entryPrev => do
      let index ← conflictReplace repo index conflict content entryPrev
      .lift (index.conflictClear conflict.path)

end Resolve

/-! ## Reading and resolving conflicts writes objects only -/

section Keeps

variable {σ : Type} {repo : Repo σ} {R : σ → σ → Prop} [Std.Refl R] [IsTrans σ R]

theorem Repo.Keeps.conflictOf (hrepo : repo.Keeps R) (strings : Strings) (path : Path)
    (c : IndexConflict) : Program.Keeps R (conflictOf strings repo path c) := by
  have hlines : ∀ e, Program.Keeps R (sideLines strings repo e) := by
    intro e
    unfold sideLines
    split
    · split
      · exact (hrepo.blobLookup _).bind fun _ => Program.Keeps.pure _
      · exact Program.Keeps.pure _
    · exact Program.Keeps.pure _
  unfold Git.conflictOf
  dsimp only
  split
  · exact (hrepo.merge _ _ _).bind fun _ => Program.Keeps.pure _
  · split
    · exact Program.Keeps.pure _
    · split
      · exact (hlines _).bind fun _ => (hlines _).bind fun _ => Program.Keeps.pure _
      · exact Program.Keeps.fail _

theorem Repo.Keeps.conflictsGet (hrepo : repo.Keeps R) (strings : Strings) (index : Index) :
    Program.Keeps R (conflictsGet strings repo index) :=
  (Program.Keeps.lift (R := R) _).bind fun _ =>
    Program.Keeps.mapM (fun (path, c) => hrepo.conflictOf strings path c) _

theorem Repo.Keeps.conflictResolve (hrepo : repo.Keeps R) (index : Index)
    (conflict : Conflict) (content : Option Bytes) :
    Program.Keeps R (conflictResolve repo index conflict content) := by
  unfold Git.conflictResolve
  split
  · exact Program.Keeps.fail _
  · refine Program.Keeps.bind ?_ fun _ => Program.Keeps.lift _
    unfold conflictReplace
    split
    · exact (hrepo.blobCreate _).bind fun _ => Program.Keeps.pure _
    · exact Program.Keeps.lift _
    · exact Program.Keeps.fail _
    · exact (Program.Keeps.lift (R := R) _).bind fun _ => Program.Keeps.pure _

end Keeps

end Git
end Debase
