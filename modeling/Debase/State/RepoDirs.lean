import Debase.State.Sessions

/-!
# The state files of repositories

Every repository has a state file of its own, in a directory that is named after its
working directory.  A slash cannot stand in that name, so each is replaced by a dash;
working directories that differ only in slashes and dashes share one file.
-/

namespace Debase
namespace State

open Git Library

/-! ## The name of the directory -/

def slash : UInt8 := 47

def dash : UInt8 := 45

/-- A canonical path: absolute, and each of its names is one. -/
structure WorkDir where
  names : List Bytes
  proper : ∀ name ∈ names, name ≠ [] ∧ slash ∉ name
deriving DecidableEq

/-- The path as text. -/
def WorkDir.text (dir : WorkDir) : Bytes :=
  if dir.names = [] then [slash] else dir.names.flatMap fun name => slash :: name

/-- `std::filesystem::path::operator/`. -/
def appendPath (path name : Bytes) : Bytes :=
  if name.head? = some slash then name
  else if path = [] ∨ path.getLast? = some slash then path ++ name
  else path ++ slash :: name

/-- `std::replace(name.begin(), name.end(), '/', '-')`. -/
def replaceSlashes (name : Bytes) : Bytes := name.map fun b => if b = slash then dash else b

/-- `_RepoStateDirPath`. -/
def repoStateDirPath (rootDir : Bytes) (dir : WorkDir) : Bytes :=
  appendPath (appendPath rootDir (ascii "Repo")) (replaceSlashes dir.text)

/-- `_RepoStateFilePath`. -/
def repoStateFilePath (rootDir : Bytes) (dir : WorkDir) : Bytes :=
  appendPath (repoStateDirPath rootDir dir) (ascii "State")

/-- Two bytes that the replacement makes one. -/
def Alike (a b : UInt8) : Prop := a = b ∨ (a = slash ∨ a = dash) ∧ (b = slash ∨ b = dash)

instance (a b : UInt8) : Decidable (Alike a b) := inferInstanceAs (Decidable (_ ∨ _))

theorem text_ne_nil (dir : WorkDir) : dir.text ≠ [] := by
  unfold WorkDir.text
  split
  · simp
  · next hne =>
      obtain ⟨name, names, hnames⟩ := List.exists_cons_of_ne_nil hne
      rw [hnames]
      simp

theorem slash_notMem_replaceSlashes (name : Bytes) : slash ∉ replaceSlashes name := by
  intro h
  obtain ⟨b, -, hb⟩ := List.mem_map.mp h
  split at hb
  · exact absurd hb (by decide)
  · next hne => exact hne hb

theorem replaceSlashes_eq_iff (a b : Bytes) :
    replaceSlashes a = replaceSlashes b ↔ List.Forall₂ Alike a b := by
  unfold replaceSlashes
  rw [← List.forall₂_eq_eq_eq, List.forall₂_map_left_iff, List.forall₂_map_right_iff]
  have hbyte : ∀ x y : UInt8, ((if x = slash then dash else x) = if y = slash then dash else y) ↔
      Alike x y := by
    intro x y
    unfold Alike
    by_cases hx : x = slash
    · subst hx
      by_cases hy : y = slash
      · simp [hy]
      · simp [hy, eq_comm, show dash ≠ slash by decide]
    · by_cases hy : y = slash
      · simp [hx, hy]
      · simp only [hx, hy, if_false, false_or]
        constructor
        · exact Or.inl
        · rintro (h | ⟨h, h'⟩)
          · exact h
          · rw [h, h']
  constructor
  · exact fun h => h.imp fun x y => (hbyte x y).mp
  · exact fun h => h.imp fun x y => (hbyte x y).mpr

/-- Appending a name that is not absolute keeps names apart. -/
theorem appendPath_inj {path a b : Bytes} (ha : slash ∉ a) (hb : slash ∉ b) :
    appendPath path a = appendPath path b ↔ a = b := by
  have hrelative : ∀ c : Bytes, slash ∉ c → ¬c.head? = some slash := fun c hc h =>
    hc (List.mem_of_head? h)
  unfold appendPath
  rw [if_neg (hrelative a ha), if_neg (hrelative b hb)]
  split
  · exact List.append_right_inj path
  · rw [List.append_right_inj, List.cons.injEq]
    simp

theorem getLast?_appendPath {path name : Bytes} (hne : name ≠ []) (hslash : slash ∉ name) :
    (appendPath path name).getLast? = name.getLast? := by
  have hrelative : ¬name.head? = some slash := fun h => hslash (List.mem_of_head? h)
  unfold appendPath
  rw [if_neg hrelative]
  split
  · exact List.getLast?_append_of_ne_nil _ hne
  · rw [List.getLast?_append_of_ne_nil _ (List.cons_ne_nil _ _)]
    exact List.getLast?_cons_of_ne_nil hne

/-- Two repositories share a state file exactly when their working directories differ
at most in slashes and dashes. -/
theorem repoStateFilePath_eq_iff (rootDir : Bytes) (dir dir' : WorkDir) :
    repoStateFilePath rootDir dir = repoStateFilePath rootDir dir' ↔
      List.Forall₂ Alike dir.text dir'.text := by
  have hfile : ∀ d : WorkDir, repoStateFilePath rootDir d =
      repoStateDirPath rootDir d ++ slash :: ascii "State" := by
    intro d
    have hname := slash_notMem_replaceSlashes d.text
    have hne : replaceSlashes d.text ≠ [] := by
      unfold replaceSlashes
      simpa using text_ne_nil d
    have hlast : (repoStateDirPath rootDir d).getLast? = (replaceSlashes d.text).getLast? :=
      getLast?_appendPath hne hname
    unfold repoStateFilePath appendPath
    rw [if_neg (by decide), if_neg]
    rintro (hnil | hslash)
    · rw [hnil, List.getLast?_nil, eq_comm, List.getLast?_eq_none_iff] at hlast
      exact hne hlast
    · rw [hlast] at hslash
      exact hname (List.mem_of_getLast? hslash)
  rw [hfile, hfile, List.append_left_inj, ← replaceSlashes_eq_iff]
  exact appendPath_inj (slash_notMem_replaceSlashes _) (slash_notMem_replaceSlashes _)

/-! ## Sessions on repositories -/

section Host

variable {κ ι : Type} [DecidableEq κ] [DecidableEq ι]

/-- The state files by path and the running sessions with their working directories.
`storedBy`, which is not in the program, is the working directory of the session that
stored an entry of a file. -/
structure Host (κ ι : Type) where
  files : Bytes → RefStates κ
  sessions : ι → Option (WorkDir × Session κ)
  storedBy : Bytes → Bytes → Option WorkDir

/-- One of the sessions loads, acts or writes. -/
inductive HostLabel (κ ι : Type) where
  | load (i : ι) (dir : WorkDir) (lookup : κ → Option Commit) (now : Int) (refs : List Ref)
  | act (i : ι) (a : Act κ)
  | write (i : ι)

/-- The step is one of a session on one of these repositories, if it loads. -/
def HostLabel.On (dir dir' : WorkDir) : HostLabel κ ι → Prop
  | .load _ d _ _ _ => d = dir ∨ d = dir'
  | _ => True

/-- The loaded refs that `write` stores. -/
def Session.Stores (session : Session κ) (ref : Bytes) : Prop :=
  ∃ lref, session.loaded ref = some lref ∧ lref.writes = true

instance (session : Session κ) (ref : Bytes) : Decidable (session.Stores ref) :=
  match h : session.loaded ref with
  | none => isFalse (by rintro ⟨lref, hlref, -⟩; rw [h] at hlref; cases hlref)
  | some lref =>
      decidable_of_iff (lref.writes = true)
        ⟨fun hwrites => ⟨lref, h, hwrites⟩, by
          rintro ⟨lref', hlref', hwrites⟩
          rw [h] at hlref'
          cases hlref'
          exact hwrites⟩

namespace Host

variable (ids : CommitIds κ) (rootDir : Bytes)

/-- Nothing is stored and no session runs. -/
def empty : Host κ ι := ⟨fun _ _ => none, fun _ => none, fun _ _ => none⟩

/-- One step of one of the sessions. -/
def step (s : Host κ ι) : HostLabel κ ι → Option (Host κ ι)
  | .load i dir lookup now refs =>
      match s.sessions i with
      | some _ => none
      | none =>
          let file := s.files (repoStateFilePath rootDir dir)
          some { s with
            sessions :=
              Function.update s.sessions i (some (dir, .start ids lookup now file refs)) }
  | .act i a =>
      (s.sessions i).bind fun (dir, session) => (session.act ids a).map fun session' =>
        { s with sessions := Function.update s.sessions i (some (dir, session')) }
  | .write i =>
      (s.sessions i).map fun (dir, session) =>
        let path := repoStateFilePath rootDir dir
        { files := Function.update s.files path (State.write session.loaded (s.files path))
          sessions := Function.update s.sessions i none
          storedBy := Function.update s.storedBy path fun ref =>
            if session.Stores ref then some dir else s.storedBy path ref }

/-- All that sessions on a repository read, and all that they can overwrite, was stored
by sessions on it. -/
def Isolated (s : Host κ ι) (dir : WorkDir) : Prop :=
  ∀ ref e, s.files (repoStateFilePath rootDir dir) ref = some e →
    s.storedBy (repoStateFilePath rootDir dir) ref = some dir

/-- Sessions run on these two repositories only, and the entries of each file were
stored by sessions that use this file. -/
structure Inv (dir dir' : WorkDir) (s : Host κ ι) : Prop where
  on (i : ι) (d : WorkDir) (session : Session κ) :
    s.sessions i = some (d, session) → d = dir ∨ d = dir'
  stored (path ref : Bytes) (e : StoredRefState κ) : s.files path ref = some e →
    ∃ d, (d = dir ∨ d = dir') ∧ s.storedBy path ref = some d ∧
      repoStateFilePath rootDir d = path

variable {ids rootDir}

omit [DecidableEq κ] in
private theorem on_update {dir dir' : WorkDir} {s : Host κ ι} (h : s.Inv rootDir dir dir')
    {i : ι} {new : Option (WorkDir × Session κ)}
    (hnew : ∀ d session, new = some (d, session) → d = dir ∨ d = dir') (j : ι) (d : WorkDir)
    (session : Session κ) (hj : Function.update s.sessions i new j = some (d, session)) :
    d = dir ∨ d = dir' := by
  by_cases hij : j = i
  · subst hij
    rw [Function.update_self] at hj
    exact hnew d session hj
  · rw [Function.update_of_ne hij] at hj
    exact h.on j d session hj

theorem Inv.step {dir dir' : WorkDir} {s s' : Host κ ι} {l : HostLabel κ ι}
    (h : s.Inv rootDir dir dir') (hl : l.On dir dir') (hstep : s.step ids rootDir l = some s') :
    s'.Inv rootDir dir dir' := by
  cases l with
  | load i d lookup now refs =>
      unfold Host.step at hstep
      dsimp only at hstep
      split at hstep
      · cases hstep
      · cases hstep
        refine ⟨on_update h ?_, h.stored⟩
        rintro _ _ ⟨⟩
        exact hl
  | act i a =>
      obtain ⟨⟨d, session⟩, hi, hrest⟩ := Option.bind_eq_some_iff.mp hstep
      obtain ⟨session', -, rfl⟩ := Option.map_eq_some_iff.mp hrest
      refine ⟨on_update h ?_, h.stored⟩
      rintro _ _ ⟨⟩
      exact h.on i d session hi
  | write i =>
      obtain ⟨⟨d, session⟩, hi, rfl⟩ := Option.map_eq_some_iff.mp hstep
      refine ⟨on_update h (by simp), ?_⟩
      intro path ref e he
      dsimp only at he ⊢
      by_cases hpath : path = repoStateFilePath rootDir d
      · subst hpath
        rw [Function.update_self] at he ⊢
        split
        · exact ⟨d, h.on i d session hi, rfl, rfl⟩
        · next hstores =>
            -- the entry was in the file before
            refine h.stored _ ref e ?_
            cases hlref : session.loaded ref with
            | none => rwa [write_of_none hlref] at he
            | some lref =>
                rw [write_of_some hlref, if_neg] at he
                · exact he
                · exact fun hwrites => hstores ⟨lref, hlref, hwrites⟩
      · rw [Function.update_of_ne hpath] at he ⊢
        exact h.stored path ref e he

theorem inv_run {dir dir' : WorkDir} {labels : List (HostLabel κ ι)} {s : Host κ ι}
    (hlabels : ∀ l ∈ labels, l.On dir dir')
    (hrun : run (step ids rootDir) empty labels = some s) : s.Inv rootDir dir dir' := by
  have hstart : (empty : Host κ ι).Inv rootDir dir dir' :=
    ⟨fun _ _ _ h => absurd h (by simp [empty]), fun _ _ _ h => absurd h (by simp [empty])⟩
  have hmeets : StepsMeet (step ids rootDir) (fun _ l => l.On dir dir') empty labels :=
    Run.stepsMeet_of_forall (fun l hl _ => hlabels l hl) empty
  exact Run.invariant (fun s l s' h hl hstep => h.step hl hstep) hrun hmeets hstart

theorem step_write {s : Host κ ι} {i : ι} {dir : WorkDir} {session : Session κ}
    (h : s.sessions i = some (dir, session)) :
    s.step ids rootDir (.write i) = some
      { files := Function.update s.files (repoStateFilePath rootDir dir)
          (State.write session.loaded (s.files (repoStateFilePath rootDir dir)))
        sessions := Function.update s.sessions i none
        storedBy := Function.update s.storedBy (repoStateFilePath rootDir dir) fun ref =>
          if session.Stores ref then some dir
          else s.storedBy (repoStateFilePath rootDir dir) ref } := by
  unfold step
  dsimp only
  rw [h]
  rfl

/-- A session that loads a ref without an entry stores it. -/
theorem run_load_write (dir : WorkDir) (i : ι) (ref : Ref) :
    ∃ s, run (step ids rootDir) empty [.load i dir (fun _ => none) 0 [ref], .write i] = some s ∧
      s.files (repoStateFilePath rootDir dir) ref.fullName =
        some (loadedRef ids (fun _ => none) 0 ref none).refState ∧
      s.storedBy (repoStateFilePath rootDir dir) ref.fullName = some dir := by
  let session : Session κ := .start ids (fun _ => none) 0 (fun _ => none) [ref]
  have hloaded : session.loaded ref.fullName = some (loadedRef ids (fun _ => none) 0 ref none) := by
    show loadRef ids (fun _ => none) 0 (fun _ => none) ref none ref.fullName = _
    rw [loadRef_of_none rfl, Function.update_self]
  have hwrites : (loadedRef ids (fun _ => none) 0 ref none).writes = true := by
    unfold LoadedRef.writes
    rw [created_loadedRef]
    rfl
  have hstep := @step_write κ ι _ _ ids rootDir
    ⟨fun _ _ => none, Function.update (fun _ => none) i (some (dir, session)), fun _ _ => none⟩ i
    dir session (by dsimp only; rw [Function.update_self])
  refine ⟨_, Run.cons_eq_some.mpr ⟨_, rfl, Run.cons_eq_some.mpr ⟨_, hstep, rfl⟩⟩, ?_, ?_⟩
  · dsimp only
    rw [Function.update_self]
    exact (write_of_some hloaded _).trans (if_pos hwrites)
  · dsimp only
    rw [Function.update_self]
    exact if_pos ⟨_, hloaded, hwrites⟩

/-- Whatever sessions run on two repositories, those on one never read or overwrite what
those on the other stored, exactly when the working directories differ in more than
slashes and dashes. -/
theorem isolated_iff [Inhabited ι] {dir dir' : WorkDir} (hne : dir ≠ dir') :
    (∀ (labels : List (HostLabel κ ι)) (s : Host κ ι), (∀ l ∈ labels, l.On dir dir') →
        run (step ids rootDir) empty labels = some s →
        s.Isolated rootDir dir ∧ s.Isolated rootDir dir') ↔
      ¬List.Forall₂ Alike dir.text dir'.text := by
  rw [← repoStateFilePath_eq_iff rootDir]
  constructor
  · -- a session on the one repository stores a ref where those on the other look
    intro hall hsame
    let ref : Ref := ⟨[], .mk ⟨0⟩ [] ⟨⟨[], [], ⟨0, 0⟩⟩, ⟨[], [], ⟨0, 0⟩⟩, none, [], []⟩, none⟩
    obtain ⟨s, hrun, hfile, hstored⟩ := @run_load_write κ ι _ _ ids rootDir dir default ref
    obtain ⟨-, hisolated⟩ := hall _ s (by simp [HostLabel.On]) hrun
    have hother := hisolated ref.fullName _ (hsame ▸ hfile)
    rw [← hsame, hstored, Option.some.injEq] at hother
    exact hne hother
  · intro hdiffer labels s hlabels hrun
    have hinv := inv_run hlabels hrun
    constructor
    · intro ref e he
      obtain ⟨d, hd, hstored, hpath⟩ := hinv.stored _ ref e he
      rcases hd with rfl | rfl
      · exact hstored
      · exact absurd hpath.symm hdiffer
    · intro ref e he
      obtain ⟨d, hd, hstored, hpath⟩ := hinv.stored _ ref e he
      rcases hd with rfl | rfl
      · exact absurd hpath hdiffer
      · exact hstored

end Host

end Host

end State

namespace SharedDirs

open Git State Library

/-- `/a/b-c` -/
def dir : WorkDir := ⟨[ascii "a", ascii "b-c"], by decide⟩

/-- `/a-b/c` -/
def dir' : WorkDir := ⟨[ascii "a-b", ascii "c"], by decide⟩

/-- `/a/b` -/
def other : WorkDir := ⟨[ascii "a", ascii "b"], by decide⟩

def rootDir : Bytes := ascii "/home/user/.config/llc.toaster.debase"

/-- `/a/b` shares its file with neither of the two. -/
theorem isolated_other :
    ¬List.Forall₂ Alike dir.text other.text ∧
      ∀ (labels : List (HostLabel (Option Commit) Bool)) (s : Host (Option Commit) Bool),
        (∀ l ∈ labels, l.On dir other) →
        run (Host.step TwoSessions.ids rootDir) Host.empty labels = some s →
        s.Isolated rootDir dir ∧ s.Isolated rootDir other :=
  ⟨by decide, (Host.isolated_iff (by decide)).mpr (by decide)⟩

/-- A session on `dir` changes the history of main and writes; a session on `dir'`, where
main has the same head, loads it. -/
def labels : List (HostLabel (Option Commit) Bool) :=
  [.load false dir (fun _ => none) 0 [TwoSessions.ref],
    .act false (.change TwoSessions.ref.fullName TwoSessions.changed), .write false,
    .load true dir' id 0 [TwoSessions.ref']]

/-- The second session undoes and writes. -/
def labels' : List (HostLabel (Option Commit) Bool) :=
  [.act true (.change TwoSessions.ref.fullName (TwoSessions.changed.prev.getD TwoSessions.changed)),
    .write true]

def loaded : Host (Option Commit) Bool :=
  (run (Host.step TwoSessions.ids rootDir) .empty labels).getD .empty

def written : Host (Option Commit) Bool :=
  (run (Host.step TwoSessions.ids rootDir) loaded labels').getD .empty

/-- The second session has the history of the first one, and overwrites it. -/
theorem not_isolated :
    dir ≠ dir' ∧
      run (Host.step TwoSessions.ids rootDir) .empty labels = some loaded ∧
      run (Host.step TwoSessions.ids rootDir) loaded labels' = some written ∧
      (loaded.sessions true).bind (fun x => (x.2.loaded TwoSessions.ref.fullName).map (·.history)) =
        some TwoSessions.changed ∧
      loaded.storedBy (repoStateFilePath rootDir dir') TwoSessions.ref.fullName = some dir ∧
      (written.files (repoStateFilePath rootDir dir) TwoSessions.ref.fullName).map (·.history) =
        TwoSessions.changed.prev ∧
      written.storedBy (repoStateFilePath rootDir dir) TwoSessions.ref.fullName = some dir' :=
  ⟨by decide, rfl, rfl, by decide, by decide, by decide, by decide⟩

end SharedDirs

end Debase
