import Debase.Library.Run
import Debase.State.RepoState

/-!
# Sessions that share a state file

Any number of sessions load their refs from one state file, change histories and
write once at exit; each load and each write holds the version lock, so it is one
step (`Processes.run_refines`).  A session that changed a ref's history should be
the last word on it, and one that did not should leave the stored entry alone.

`write` stores a ref that is `created` even if its history did not change, and
`_loadRef` calls every ref `created` that had no entry when the session began.
That flag is old by the time of the write: another session may have stored an
entry in between.  `MayWrite` says when it does no harm.
-/

namespace Debase
namespace State

open Git Library

variable {κ ι : Type} [DecidableEq κ] [DecidableEq ι]

/-- A session: what it has loaded, and the histories as they were when it loaded
them.  The second field is not in the program; a ref that came up during the
session has none. -/
structure Session (κ : Type) where
  loaded : LoadedRefs κ
  atLoad : Bytes → Option (History (HistoryRefState κ))

/-- What a session does to its state between the load and the write. -/
inductive Act (κ : Type) where
  /-- `history(ref)` for a ref that came up during the session. -/
  | load (ref : Ref) (now : Int)
  /-- `history(ref)` is changed. -/
  | change (ref : Bytes) (history : History (HistoryRefState κ))
  | snapshotInitialPush (ref : Bytes)
  | refReplace (refPrev ref : Bytes)
  | refRemove (ref : Bytes)

/-- One of the sessions loads, acts or writes. -/
inductive Label (κ ι : Type) where
  | load (i : ι) (lookup : κ → Option Commit) (now : Int) (refs : List Ref)
  | act (i : ι) (a : Act κ)
  | write (i : ι)

/-- The state file and the running sessions.  `lastChange`, which is not in the
program, is the entry that the last session with a changed history wrote. -/
structure Store (κ ι : Type) where
  file : RefStates κ
  sessions : ι → Option (Session κ)
  lastChange : RefStates κ

namespace Session

variable (ids : CommitIds κ)

/-- The constructor of `RepoState`. -/
def start (lookup : κ → Option Commit) (now : Int) (file : RefStates κ) (refs : List Ref) :
    Session κ where
  loaded := loadRefs ids lookup now file refs
  atLoad ref := (loadRefs ids lookup now file refs ref).map LoadedRef.history

/-- One act of a session. -/
def act (session : Session κ) : Act κ → Option (Session κ)
  | .load ref now =>
      some { session with loaded := loadRef ids (fun _ => none) now session.loaded ref none }
  | .change ref history =>
      (session.loaded ref).map fun lref =>
        { session with
          loaded := Function.update session.loaded ref (some (lref.setHistory history)) }
  | .snapshotInitialPush ref =>
      (session.loaded ref).map fun lref =>
        { session with
          loaded := Function.update session.loaded ref (some (lref.snapshotInitialPush ids)) }
  | .refReplace refPrev ref =>
      (refReplace session.loaded refPrev ref).map fun loaded =>
        { loaded
          atLoad :=
            Function.update (Function.update session.atLoad ref (session.atLoad refPrev))
              refPrev none }
  | .refRemove ref =>
      some
        { loaded := refRemove session.loaded ref
          atLoad := Function.update session.atLoad ref none }

/-- The session holds another history of the ref than the one it loaded. -/
def Changed (session : Session κ) (ref : Bytes) : Prop :=
  ∃ lref, session.loaded ref = some lref ∧ session.atLoad ref ≠ some lref.history

instance (session : Session κ) (ref : Bytes) : Decidable (session.Changed ref) :=
  match h : session.loaded ref with
  | none => isFalse (by rintro ⟨lref, hlref, -⟩; rw [h] at hlref; cases hlref)
  | some lref =>
      decidable_of_iff (session.atLoad ref ≠ some lref.history)
        ⟨fun hne => ⟨lref, h, hne⟩, by
          rintro ⟨lref', hlref', hne⟩
          rw [h] at hlref'
          cases hlref'
          exact hne⟩

/-- A ref that the session calls created without having changed it has no stored
entry, or has the one the session holds. -/
def MayWrite (session : Session κ) (file : RefStates κ) : Prop :=
  ∀ ref lref, session.loaded ref = some lref → lref.created → ¬session.Changed ref →
    file ref = none ∨ file ref = some lref.refState

/-- What a session holds of a ref: `historyPrev` is the history at load time, and
only a ref that came up during the session has none. -/
def HonestAt : Option (LoadedRef κ) → Option (History (HistoryRefState κ)) → Prop
  | none, atLoad => atLoad = none
  | some lref, atLoad =>
      atLoad = some lref.historyPrev ∨ (atLoad = none ∧ lref.created = true)

def Honest (session : Session κ) : Prop :=
  ∀ ref, HonestAt (session.loaded ref) (session.atLoad ref)

omit [DecidableEq κ] in
theorem Honest.update {loaded : LoadedRefs κ} {atLoad : Bytes → Option (History (HistoryRefState κ))}
    (h : Honest ⟨loaded, atLoad⟩) (ref : Bytes) {lref : Option (LoadedRef κ)}
    {history : Option (History (HistoryRefState κ))} (href : HonestAt lref history) :
    Honest ⟨Function.update loaded ref lref, Function.update atLoad ref history⟩ := by
  intro k
  dsimp only
  by_cases hk : k = ref
  · subst hk
    rwa [Function.update_self, Function.update_self]
  · rw [Function.update_of_ne hk, Function.update_of_ne hk]
    exact h k

omit [DecidableEq κ] in
/-- A change of a loaded ref that keeps `historyPrev` and `created`. -/
theorem Honest.modify {session : Session κ} (h : session.Honest) {ref : Bytes}
    {lref lref' : LoadedRef κ} (hlref : session.loaded ref = some lref)
    (hprev : lref'.historyPrev = lref.historyPrev) (hcreated : lref'.created = lref.created) :
    Honest { session with loaded := Function.update session.loaded ref (some lref') } := by
  have href : HonestAt (some lref') (session.atLoad ref) := by
    have hold := h ref
    rw [hlref] at hold
    simp only [HonestAt] at hold ⊢
    rwa [hprev, hcreated]
  have hupdate := h.update ref href
  rwa [Function.update_eq_self] at hupdate

theorem honest_start (lookup : κ → Option Commit) (now : Int) (file : RefStates κ)
    (refs : List Ref) : (start ids lookup now file refs).Honest := by
  intro ref
  unfold start
  dsimp only
  cases h : loadRefs ids lookup now file refs ref with
  | none => rfl
  | some lref =>
      obtain ⟨ref', -, -, rfl⟩ := loadRefs_some h
      exact Or.inl rfl

variable {ids}

/-- An act keeps `historyPrev` what it says. -/
theorem Honest.act {session session' : Session κ} (h : session.Honest) {a : Act κ}
    (hact : session.act ids a = some session') : session'.Honest := by
  cases a with
  | load ref now =>
      cases hact
      cases hloaded : session.loaded ref.fullName with
      | some lref =>
          rw [loadRef_of_loaded hloaded]
          exact h
      | none =>
          have hnone : session.atLoad ref.fullName = none := by
            have hold := h ref.fullName
            rwa [hloaded] at hold
          have hnew : HonestAt (some (loadedRef ids (fun _ => none) now ref none))
              (session.atLoad ref.fullName) := Or.inr ⟨hnone, rfl⟩
          have hupdate := h.update ref.fullName hnew
          rwa [Function.update_eq_self, ← loadRef_of_none hloaded] at hupdate
  | change ref history =>
      obtain ⟨lref, hlref, rfl⟩ := Option.map_eq_some_iff.mp hact
      exact h.modify hlref rfl rfl
  | snapshotInitialPush ref =>
      obtain ⟨lref, hlref, rfl⟩ := Option.map_eq_some_iff.mp hact
      unfold LoadedRef.snapshotInitialPush
      split
      · exact h.modify hlref rfl rfl
      · exact h.modify hlref rfl rfl
  | refReplace refPrev ref =>
      obtain ⟨loaded, hreplace, rfl⟩ := Option.map_eq_some_iff.mp hact
      obtain ⟨lref, hlref, rfl⟩ := refReplace_eq_some hreplace
      have hmoved : HonestAt (some lref) (session.atLoad refPrev) := by
        have hold := h refPrev
        rwa [hlref] at hold
      exact (h.update ref hmoved).update refPrev rfl
  | refRemove ref =>
      cases hact
      exact h.update ref rfl

omit [DecidableEq κ] in
theorem changed_iff {session : Session κ} {ref : Bytes} {lref : LoadedRef κ}
    (hlref : session.loaded ref = some lref) :
    session.Changed ref ↔ session.atLoad ref ≠ some lref.history := by
  constructor
  · rintro ⟨lref', hlref', hne⟩
    rw [hlref] at hlref'
    cases hlref'
    exact hne
  · intro hne
    exact ⟨lref, hlref, hne⟩

/-- `write` stores every changed ref, and besides only created ones. -/
theorem Honest.writes_iff {session : Session κ} (h : session.Honest) {ref : Bytes}
    {lref : LoadedRef κ} (hlref : session.loaded ref = some lref) :
    lref.writes = true ↔ session.Changed ref ∨ lref.created = true := by
  have hold := h ref
  rw [hlref] at hold
  rw [changed_iff hlref]
  unfold LoadedRef.writes
  rcases hold with hprev | ⟨hnone, hcreated⟩
  · have hne : lref.history ≠ lref.historyPrev ↔
        some lref.historyPrev ≠ some lref.history := by
      rw [ne_eq, ne_eq, Option.some_inj, eq_comm]
    rw [hprev, ← hne, Bool.or_eq_true, decide_eq_true_iff, or_comm]
  · simp [hcreated]

/-- After a write that does no harm, the file has the entries of the changed refs,
and the entries of the other refs are what they were, or are new. -/
theorem Honest.write {session : Session κ} (h : session.Honest) {file : RefStates κ}
    (hmay : session.MayWrite file) (ref : Bytes) :
    (∀ lref, session.loaded ref = some lref → session.Changed ref →
        write session.loaded file ref = some lref.refState) ∧
      (¬session.Changed ref → ∀ e, file ref = some e → write session.loaded file ref = some e) := by
  constructor
  · intro lref hlref hchanged
    rw [write_of_some hlref, if_pos ((h.writes_iff hlref).mpr (Or.inl hchanged))]
  · intro hchanged e he
    cases hlref : session.loaded ref with
    | none => rw [write_of_none hlref, he]
    | some lref =>
        rw [write_of_some hlref]
        split
        · next hwrites =>
            have hcreated := ((h.writes_iff hlref).mp hwrites).resolve_left hchanged
            rcases hmay ref lref hlref hcreated hchanged with hnone | hsame
            · rw [hnone] at he
              cases he
            · rw [← hsame, he]
        · exact he

end Session

namespace Store

variable (ids : CommitIds κ)

/-- A state file before any of the sessions begins. -/
def initial (file : RefStates κ) : Store κ ι := ⟨file, fun _ => none, fun _ => none⟩

/-- One step of one of the sessions. -/
def step (s : Store κ ι) : Label κ ι → Option (Store κ ι)
  | .load i lookup now refs =>
      match s.sessions i with
      | some _ => none
      | none =>
          some { s with
            sessions :=
              Function.update s.sessions i (some (.start ids lookup now s.file refs)) }
  | .act i a =>
      (s.sessions i).bind fun session => (session.act ids a).map fun session' =>
        { s with sessions := Function.update s.sessions i (some session') }
  | .write i =>
      (s.sessions i).map fun session =>
        { file := State.write session.loaded s.file
          sessions := Function.update s.sessions i none
          lastChange := fun ref =>
            if session.Changed ref then (session.loaded ref).map LoadedRef.refState
            else s.lastChange ref }

/-- The condition on a step: a write does no harm to refs it did not change. -/
def Meets (s : Store κ ι) : Label κ ι → Prop
  | .load _ _ _ _ => True
  | .act _ _ => True
  | .write i => ∀ session, s.sessions i = some session → session.MayWrite s.file

/-- The sessions are honest, and the file has the entries of the last changes. -/
structure Inv (s : Store κ ι) : Prop where
  honest (i : ι) (session : Session κ) : s.sessions i = some session → session.Honest
  stored (ref : Bytes) (e : StoredRefState κ) : s.lastChange ref = some e → s.file ref = some e

variable {ids}

omit [DecidableEq κ] in
/-- Replacing one session by an honest one keeps the sessions honest. -/
private theorem honest_update {s : Store κ ι} (h : s.Inv) {i : ι} {new : Option (Session κ)}
    (hnew : ∀ session, new = some session → session.Honest) (j : ι) (session : Session κ)
    (hj : Function.update s.sessions i new j = some session) : session.Honest := by
  by_cases hij : j = i
  · subst hij
    rw [Function.update_self] at hj
    exact hnew session hj
  · rw [Function.update_of_ne hij] at hj
    exact h.honest j session hj

theorem Inv.step {s s' : Store κ ι} {l : Label κ ι} (h : s.Inv) (hmeets : s.Meets l)
    (hstep : s.step ids l = some s') : s'.Inv := by
  cases l with
  | load i lookup now refs =>
      unfold Store.step at hstep
      dsimp only at hstep
      split at hstep
      · cases hstep
      · cases hstep
        refine ⟨honest_update h ?_, h.stored⟩
        rintro session ⟨⟩
        exact Session.honest_start ids _ _ _ _
  | act i a =>
      obtain ⟨session, hi, hrest⟩ := Option.bind_eq_some_iff.mp hstep
      obtain ⟨session', hact, rfl⟩ := Option.map_eq_some_iff.mp hrest
      refine ⟨honest_update h ?_, h.stored⟩
      rintro _ ⟨⟩
      exact (h.honest i session hi).act hact
  | write i =>
      obtain ⟨session, hi, rfl⟩ := Option.map_eq_some_iff.mp hstep
      have hhonest := h.honest i session hi
      refine ⟨honest_update h (by simp), ?_⟩
      intro ref e he
      obtain ⟨hchange, hother⟩ := hhonest.write (hmeets session hi) ref
      dsimp only at he
      split at he
      · next hchanged =>
          obtain ⟨lref, hlref, rfl⟩ := Option.map_eq_some_iff.mp he
          exact hchange lref hlref hchanged
      · next hchanged => exact hother hchanged e (h.stored ref e he)

/-- In every run of sessions where each write does no harm to refs it did not
change, the stored entry of a ref is the one of the last session that changed its
history, and a write alters no stored entry of a ref whose history the session did
not change. -/
theorem run_stored {file : RefStates κ} {labels : List (Label κ ι)} {s : Store κ ι}
    (hrun : run (step ids) (initial file) labels = some s)
    (hmeets : StepsMeet (step ids) Meets (initial file) labels) :
    (∀ ref e, s.lastChange ref = some e → s.file ref = some e) ∧
      ∀ i session s', s.sessions i = some session → s.Meets (.write i) →
        s.step ids (.write i) = some s' → ∀ ref e, ¬session.Changed ref →
          s.file ref = some e → s'.file ref = some e := by
  have hstart : (initial file : Store κ ι).Inv :=
    ⟨fun _ _ h => absurd h (by simp [initial]), fun _ _ h => absurd h (by simp [initial])⟩
  have hinv : s.Inv :=
    Run.invariant (fun s l s' h hmeets hstep => h.step hmeets hstep) hrun hmeets hstart
  refine ⟨hinv.stored, ?_⟩
  intro i session s' hi hmay hstep ref e hchanged he
  obtain ⟨session', hi', rfl⟩ := Option.map_eq_some_iff.mp hstep
  rw [hi] at hi'
  cases hi'
  exact ((hinv.honest i session hi).write (hmay session hi) ref).2 hchanged e he

end Store

end State

/-! ## A ref without an entry in two sessions -/

namespace TwoSessions

open Git State Library

/-- Ids that are the commits themselves. -/
def ids : CommitIds (Option Commit) := ⟨some, id, none, fun _ _ => false, fun _ => rfl, rfl⟩

def commit (message : String) (parents : List Commit) : Commit :=
  .mk ⟨0⟩ parents ⟨⟨[], [], ⟨0, 0⟩⟩, ⟨[], [], ⟨0, 0⟩⟩, none, ascii message, []⟩

/-- The branch at the start of both sessions. -/
def ref : Ref := ⟨ascii "refs/heads/main", commit "root" [], none⟩

/-- The branch after the second session has changed it. -/
def ref' : Ref := { ref with commit := commit "edited" [] }

/-- The history of the second session at its end. -/
def changed : History (HistoryRefState (Option Commit)) :=
  (History.single (.ofRef ids ref)).push (.ofRef ids ref')

/-- Nothing is stored. -/
def start : Store (Option Commit) Bool := .initial fun _ => none

/-- Both sessions load the branch, the second one changes it and writes. -/
def labels : List (Label (Option Commit) Bool) :=
  [.load false (fun _ => none) 0 [ref], .load true (fun _ => none) 0 [ref],
    .act true (.change ref.fullName changed), .write true]

/-- The store after these steps. -/
def last : Store (Option Commit) Bool := ((run (Store.step ids) start labels).getD start)

/-- The entry of the second session is stored. -/
theorem run_labels :
    run (Store.step ids) start labels = some last ∧ last.lastChange ref.fullName ≠ none ∧
      (∀ ref e, last.lastChange ref = some e → last.file ref = some e) := by
  have hmeets : StepsMeet (Store.step ids) Store.Meets start labels := by
    refine ⟨trivial, ?_⟩
    rintro s₁ ⟨⟩
    refine ⟨trivial, ?_⟩
    rintro s₂ ⟨⟩
    refine ⟨trivial, ?_⟩
    rintro s₃ ⟨⟩
    -- nothing is stored yet
    exact ⟨fun _ _ _ _ _ _ _ => Or.inl rfl, fun _ _ => trivial⟩
  exact ⟨rfl, by decide, (Store.run_stored rfl hmeets).1⟩

/-- The first session, which changed nothing, then overwrites that entry. -/
theorem write_clobbers :
    ∃ session s', last.sessions false = some session ∧ ¬session.Changed ref.fullName ∧
      last.step ids (.write false) = some s' ∧
      last.file ref.fullName = s'.lastChange ref.fullName ∧
      s'.file ref.fullName ≠ last.file ref.fullName :=
  ⟨.start ids (fun _ => none) 0 (fun _ => none) [ref], _, rfl, by decide, rfl, by decide,
    by decide⟩

end TwoSessions

end Debase
