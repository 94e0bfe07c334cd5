import Debase.State.Sessions

/-!
# The version lock

`State::AcquireVersionLock`: whoever constructs a `RepoState` or writes one holds a lock on the file
`Version` meanwhile.  Here the processes take their steps in any order, and each may die at any
time, even while it writes the state file; the kernel then releases its lock.

What they do to the state file is what the sessions of `Store` do, where a load and a write are one
step each (`run_refines`).
-/

namespace Debase
namespace State

open Git Library

variable {κ ι : Type}

/-! ## The version -/

/-- `_Version`. -/
def stateVersion : Nat := 0

/-- The version that `_StateVersionRead` finds, or that `_StateVersionWrite` writes if it fails. -/
def versionRead (version : Option Nat) : Nat := version.getD stateVersion

/-- `_CheckVersionAndMigrate`: whether it returns. -/
def checkVersionAndMigrate (version : Nat) (migrate : Bool) : Bool :=
  if stateVersion < version then false
  else if version < stateVersion then migrate
  else true

theorem checkVersionAndMigrate_iff {version : Nat} :
    checkVersionAndMigrate version false = true ↔ version = stateVersion := by
  unfold checkVersionAndMigrate
  split
  · exact iff_of_false (by simp) (by omega)
  · split
    · exact iff_of_false (by simp) (by omega)
    · exact iff_of_true rfl (by omega)

/-! ## The processes -/

/-- What a process needs the lock for: the constructor of `RepoState`, or `write`. -/
inductive Task where
  | load
  | write
deriving DecidableEq

/-- Where a process is. -/
inductive Phase (κ : Type) where
  | outside
  /-- It has the lock. -/
  | locked (task : Task)
  /-- It has checked the version. -/
  | checked (task : Task)
  /-- It has read the state file. -/
  | hasRead (task : Task) (states : RefStates κ)
  /-- It has done it, and still has the lock. -/
  | done
  | dead

/-- What the process needs the lock for, as long as it has not done it. -/
def Phase.task : Phase κ → Option Task
  | .locked task => some task
  | .checked task => some task
  | .hasRead task _ => some task
  | _ => none

/-- The process holds the lock. -/
def Phase.Inside : Phase κ → Prop
  | .outside => False
  | .dead => False
  | _ => True

instance : DecidablePred (Phase.Inside : Phase κ → Prop)
  | .outside => inferInstanceAs (Decidable False)
  | .dead => inferInstanceAs (Decidable False)
  | .locked _ => inferInstanceAs (Decidable True)
  | .checked _ => inferInstanceAs (Decidable True)
  | .hasRead _ _ => inferInstanceAs (Decidable True)
  | .done => inferInstanceAs (Decidable True)

/-- The process found a version that it knows. -/
def Phase.Admitted : Phase κ → Prop
  | .checked _ => True
  | .hasRead _ _ => True
  | .done => True
  | _ => False

/-- The steps of the processes. -/
inductive Move (κ ι : Type) where
  | lock (i : ι) (task : Task)
  | version (i : ι)
  | read (i : ι)
  | construct (i : ι) (lookup : κ → Option Commit) (now : Int) (refs : List Ref)
  | store (i : ι)
  | unlock (i : ι)
  | act (i : ι) (a : Act κ)
  | die (i : ι)
  /-- It dies while it writes the state file, and what it leaves there is no document. -/
  | tear (i : ι)

/-- The files and the processes. -/
structure Processes (κ ι : Type) where
  /-- What can be read from the file `Version`. -/
  version : Option Nat
  /-- What can be read from the state file; where there is none, it is empty. -/
  file : Option (RefStates κ)
  holder : Option ι
  phase : ι → Phase κ
  sessions : ι → Option (Session κ)

namespace Processes

variable [DecidableEq ι] (s : Processes κ ι)

/-- Before any of the processes begins. -/
def initial (version : Option Nat) (file : RefStates κ) : Processes κ ι :=
  ⟨version, some file, none, fun _ => .outside, fun _ => none⟩

/-- The process goes on. -/
def goOn (i : ι) (phase : Phase κ) : Processes κ ι :=
  { s with phase := Function.update s.phase i phase }

/-- The process goes on without the lock. -/
def leave (i : ι) (phase : Phase κ) : Processes κ ι :=
  { s with
    holder := if s.holder = some i then none else s.holder
    phase := Function.update s.phase i phase }

/-- One step of one of the processes.  One that gets an exception under the lock ends. -/
def step [DecidableEq κ] (ids : CommitIds κ) (s : Processes κ ι) :
    Move κ ι → Option (Processes κ ι)
  | .lock i task =>
      match s.phase i, s.holder with
      | .outside, none =>
          if (s.sessions i).isSome = decide (task = .write) then
            some { s.goOn i (.locked task) with holder := some i }
          else none
      | _, _ => none
  | .version i =>
      match s.phase i with
      | .locked task =>
          let version := versionRead s.version
          let s := { s with version := some version }
          if checkVersionAndMigrate version false then some (s.goOn i (.checked task))
          else some (s.leave i .dead)
      | _ => none
  | .read i =>
      match s.phase i, s.file with
      | .checked task, some states => some (s.goOn i (.hasRead task states))
      | .checked _, none => some (s.leave i .dead)
      | _, _ => none
  | .construct i lookup now refs =>
      match s.phase i with
      | .hasRead .load states =>
          some { s.goOn i .done with
            sessions := Function.update s.sessions i (some (.start ids lookup now states refs)) }
      | _ => none
  | .store i =>
      match s.phase i, s.sessions i with
      | .hasRead .write states, some session =>
          some { s.goOn i .done with
            file := some (State.write session.loaded states)
            sessions := Function.update s.sessions i none }
      | _, _ => none
  | .unlock i =>
      match s.phase i with
      | .done => some (s.leave i .outside)
      | _ => none
  | .act i a =>
      match s.phase i with
      | .outside =>
          (s.sessions i).bind fun session => (session.act ids a).map fun session' =>
            { s with sessions := Function.update s.sessions i (some session') }
      | _ => none
  | .die i =>
      match s.phase i with
      | .dead => none
      | _ => some (s.leave i .dead)
  | .tear i =>
      match s.phase i with
      | .hasRead .write _ => some { s.leave i .dead with file := none }
      | _ => none

/-- What a step of one of the processes comes to. -/
inductive Steps [DecidableEq κ] (ids : CommitIds κ) (s : Processes κ ι) :
    Move κ ι → Processes κ ι → Prop
  | lock {i : ι} {task : Task} (hphase : s.phase i = .outside) (hfree : s.holder = none)
      (htask : (s.sessions i).isSome = decide (task = .write)) :
      Steps ids s (.lock i task) { s.goOn i (.locked task) with holder := some i }
  | accept {i : ι} {task : Task} (hphase : s.phase i = .locked task)
      (hknown : versionRead s.version = stateVersion) :
      Steps ids s (.version i)
        ({ s with version := some (versionRead s.version) }.goOn i (.checked task))
  | refuse {i : ι} {task : Task} (hphase : s.phase i = .locked task) :
      Steps ids s (.version i)
        ({ s with version := some (versionRead s.version) }.leave i .dead)
  | read {i : ι} {task : Task} {states : RefStates κ} (hphase : s.phase i = .checked task)
      (hfile : s.file = some states) :
      Steps ids s (.read i) (s.goOn i (.hasRead task states))
  | unreadable {i : ι} {task : Task} (hphase : s.phase i = .checked task) :
      Steps ids s (.read i) (s.leave i .dead)
  | construct {i : ι} {states : RefStates κ} {lookup : κ → Option Commit} {now : Int}
      {refs : List Ref} (hphase : s.phase i = .hasRead .load states) :
      Steps ids s (.construct i lookup now refs) { s.goOn i .done with
        sessions := Function.update s.sessions i (some (.start ids lookup now states refs)) }
  | store {i : ι} {states : RefStates κ} {session : Session κ}
      (hphase : s.phase i = .hasRead .write states) (hsession : s.sessions i = some session) :
      Steps ids s (.store i) { s.goOn i .done with
        file := some (State.write session.loaded states)
        sessions := Function.update s.sessions i none }
  | unlock {i : ι} (hphase : s.phase i = .done) : Steps ids s (.unlock i) (s.leave i .outside)
  | act {i : ι} {a : Act κ} {session session' : Session κ} (hphase : s.phase i = .outside)
      (hsession : s.sessions i = some session) (hact : session.act ids a = some session') :
      Steps ids s (.act i a)
        { s with sessions := Function.update s.sessions i (some session') }
  | die {i : ι} : Steps ids s (.die i) (s.leave i .dead)
  | tear {i : ι} {states : RefStates κ} (hphase : s.phase i = .hasRead .write states) :
      Steps ids s (.tear i) { s.leave i .dead with file := none }

theorem steps_of_step [DecidableEq κ] {ids : CommitIds κ} {s s' : Processes κ ι} {m : Move κ ι}
    (hstep : s.step ids m = some s') : Steps ids s m s' := by
  unfold step at hstep
  cases m with
  | lock i task =>
      dsimp only at hstep
      split at hstep
      · next hphase hfree =>
          split at hstep
          · next htask =>
              cases hstep
              exact .lock hphase hfree htask
          · cases hstep
      · cases hstep
  | version i =>
      dsimp only at hstep
      split at hstep
      · next hphase =>
          split at hstep
          · next hknown =>
              cases hstep
              exact .accept hphase (checkVersionAndMigrate_iff.mp hknown)
          · cases hstep
            exact .refuse hphase
      · cases hstep
  | read i =>
      dsimp only at hstep
      split at hstep
      · next hphase hfile =>
          cases hstep
          exact .read hphase hfile
      · next hphase _ =>
          cases hstep
          exact .unreadable hphase
      · cases hstep
  | construct i lookup now refs =>
      dsimp only at hstep
      split at hstep
      · next hphase =>
          cases hstep
          exact .construct hphase
      · cases hstep
  | store i =>
      dsimp only at hstep
      split at hstep
      · next hphase hsession =>
          cases hstep
          exact .store hphase hsession
      · cases hstep
  | unlock i =>
      dsimp only at hstep
      split at hstep
      · next hphase =>
          cases hstep
          exact .unlock hphase
      · cases hstep
  | act i a =>
      dsimp only at hstep
      split at hstep
      · next hphase =>
          obtain ⟨session, hsession, hrest⟩ := Option.bind_eq_some_iff.mp hstep
          obtain ⟨session', hact, rfl⟩ := Option.map_eq_some_iff.mp hrest
          exact .act hphase hsession hact
      · cases hstep
  | die i =>
      dsimp only at hstep
      split at hstep
      · cases hstep
      · cases hstep
        exact .die
  | tear i =>
      dsimp only at hstep
      split at hstep
      · next hphase =>
          cases hstep
          exact .tear hphase
      · cases hstep

/-! ## Who has the lock -/

/-- What holds of each process. -/
structure InvAt (i : ι) : Prop where
  holds : (s.phase i).Inside ↔ s.holder = some i
  admitted : (s.phase i).Admitted → s.version = some stateVersion
  session (task : Task) : (s.phase i).task = some task →
    ((s.sessions i).isSome = true ↔ task = .write)
  fresh (task : Task) (states : RefStates κ) : s.phase i = .hasRead task states →
    s.file = some states

def Inv : Prop := ∀ i, s.InvAt i

/-- What a step of the process `i` leaves alone: the others, and unless it has the lock, the state
file. -/
structure Frame (i : ι) (s s' : Processes κ ι) : Prop where
  phase (j : ι) : j ≠ i → s'.phase j = s.phase j
  sessions (j : ι) : j ≠ i → s'.sessions j = s.sessions j
  holder (j : ι) : j ≠ i → (s'.holder = some j ↔ s.holder = some j)
  version : s.version = some stateVersion → s'.version = some stateVersion
  file : s'.file = s.file ∨ s.holder = some i

variable {s} {ids : CommitIds κ} {s' : Processes κ ι}

theorem Inv.of_frame (h : s.Inv) {i : ι} (hframe : Frame i s s') (hown : s'.InvAt i) : s'.Inv := by
  intro j
  by_cases hj : j = i
  · rw [hj]
    exact hown
  · have hold := h j
    refine ⟨?_, ?_, ?_, ?_⟩
    · rw [hframe.phase j hj, hframe.holder j hj]
      exact hold.holds
    · rw [hframe.phase j hj]
      exact fun hadmitted => hframe.version (hold.admitted hadmitted)
    · rw [hframe.phase j hj, hframe.sessions j hj]
      exact hold.session
    · rw [hframe.phase j hj]
      intro task states hread
      rcases hframe.file with hsame | hholds
      · rw [hsame]
        exact hold.fresh task states hread
      · -- one that has read the file has the lock
        have hinside : (s.phase j).Inside := by
          rw [hread]
          exact trivial
        rw [hold.holds.mp hinside, Option.some_inj] at hholds
        exact absurd hholds hj

theorem frame_goOn (i : ι) (phase : Phase κ) : Frame i s (s.goOn i phase) where
  phase _ hj := Function.update_of_ne hj _ _
  sessions _ _ := rfl
  holder _ _ := Iff.rfl
  version h := h
  file := Or.inl rfl

theorem frame_leave (i : ι) (phase : Phase κ) : Frame i s (s.leave i phase) where
  phase _ hj := Function.update_of_ne hj _ _
  sessions _ _ := rfl
  holder j hj := by
    unfold leave
    dsimp only
    split
    · next hi =>
        rw [hi]
        exact iff_of_false (by simp) (by simpa using Ne.symm hj)
    · exact Iff.rfl
  version h := h
  file := Or.inl rfl

/-- A process that left the lock. -/
theorem invAt_leave (i : ι) {phase : Phase κ} (houtside : ¬ phase.Inside)
    (hadmitted : ¬ phase.Admitted) (htask : phase.task = none) : (s.leave i phase).InvAt i := by
  have hphase : (s.leave i phase).phase i = phase := Function.update_self _ _ _
  refine ⟨?_, ?_, ?_, ?_⟩
  · rw [hphase]
    refine iff_of_false houtside ?_
    unfold leave
    dsimp only
    split
    · simp
    · assumption
  · rw [hphase]
    exact fun h => absurd h hadmitted
  · rw [hphase, htask]
    simp
  · rw [hphase]
    rintro task states rfl
    exact absurd trivial houtside

theorem Inv.leave (h : s.Inv) (i : ι) {phase : Phase κ} (houtside : ¬ phase.Inside)
    (hadmitted : ¬ phase.Admitted) (htask : phase.task = none) : (s.leave i phase).Inv :=
  h.of_frame (frame_leave i phase) (invAt_leave i houtside hadmitted htask)

theorem Inv.dies (h : s.Inv) (i : ι) : (s.leave i .dead).Inv := h.leave i id id rfl

omit [DecidableEq ι] in
theorem inv_initial (version : Option Nat) (file : RefStates κ) :
    (initial version file : Processes κ ι).Inv := fun _ =>
  ⟨iff_of_false id (fun h => by cases h), fun h => absurd h id, fun _ h => (by cases h),
    fun _ _ h => (by cases h)⟩

/-- A process that goes on with the lock. -/
theorem InvAt.goOn {i : ι} (h : s.InvAt i) (hhas : (s.phase i).Inside) {phase : Phase κ}
    (hinside : phase.Inside) (hadmitted : s.version = some stateVersion)
    (htask : ∀ task, phase.task = some task → (s.phase i).task = some task)
    (hfresh : ∀ task states, phase = .hasRead task states → s.file = some states) :
    (s.goOn i phase).InvAt i := by
  have hphase : (s.goOn i phase).phase i = phase := Function.update_self _ _ _
  refine ⟨?_, fun _ => hadmitted, ?_, ?_⟩
  · rw [hphase]
    exact iff_of_true hinside (h.holds.mp hhas)
  · rw [hphase]
    exact fun task ht => h.session task (htask task ht)
  · rw [hphase]
    exact hfresh

theorem Inv.lock (h : s.Inv) {i : ι} {task : Task} (hfree : s.holder = none)
    (htask : (s.sessions i).isSome = decide (task = .write)) :
    ({ s.goOn i (.locked task) with holder := some i } : Processes κ ι).Inv := by
  have hphase : (s.goOn i (.locked task)).phase i = .locked task := Function.update_self _ _ _
  refine h.of_frame ⟨(frame_goOn i _).phase, fun _ _ => rfl, fun j hj => ?_, fun hv => hv,
    Or.inl rfl⟩ ⟨?_, ?_, ?_, ?_⟩
  · rw [hfree]
    exact iff_of_false (by simpa using Ne.symm hj) (by simp)
  · show (((s.goOn i (.locked task)).phase i).Inside ↔ some i = some i)
    rw [hphase]
    exact iff_of_true trivial rfl
  · show ((s.goOn i (.locked task)).phase i).Admitted → _
    rw [hphase]
    exact fun hno => absurd hno id
  · intro task' ht
    change ((s.goOn i (.locked task)).phase i).task = some task' at ht
    rw [hphase] at ht
    cases ht
    show (s.sessions i).isSome = true ↔ task = .write
    rw [htask, decide_eq_true_iff]
  · intro task' states hread
    change (s.goOn i (.locked task)).phase i = .hasRead task' states at hread
    rw [hphase] at hread
    cases hread

omit [DecidableEq ι] in
/-- Writing the version where it cannot be read changes nothing for those that have read it. -/
theorem Inv.readVersion (h : s.Inv) :
    ({ s with version := some (versionRead s.version) } : Processes κ ι).Inv := by
  refine fun i => ⟨(h i).holds, fun hadmitted => ?_, (h i).session, (h i).fresh⟩
  show some (versionRead s.version) = some stateVersion
  rw [(h i).admitted hadmitted]
  rfl

/-- A process that is done has changed the sessions and the state file. -/
theorem Inv.done (h : s.Inv) {i : ι} {task : Task} {states : RefStates κ}
    (hread : s.phase i = .hasRead task states) (file : Option (RefStates κ))
    (session : Option (Session κ)) :
    ({ s.goOn i .done with
        file := file
        sessions := Function.update s.sessions i session } : Processes κ ι).Inv := by
  have hphase : (s.goOn i .done).phase i = .done := Function.update_self _ _ _
  have hinside : (s.phase i).Inside := by
    rw [hread]
    exact trivial
  have hadmitted : s.version = some stateVersion := (h i).admitted (by rw [hread]; exact trivial)
  have hholds : s.holder = some i := (h i).holds.mp hinside
  refine h.of_frame ⟨(frame_goOn i _).phase, fun j hj => Function.update_of_ne hj _ _,
    fun _ _ => Iff.rfl, fun hv => hv, Or.inr hholds⟩ ⟨?_, fun _ => hadmitted, ?_, ?_⟩
  · show ((s.goOn i .done).phase i).Inside ↔ s.holder = some i
    rw [hphase]
    exact iff_of_true trivial hholds
  · intro task' ht
    change ((s.goOn i .done).phase i).task = some task' at ht
    rw [hphase] at ht
    cases ht
  · intro task' states' hno
    change (s.goOn i .done).phase i = .hasRead task' states' at hno
    rw [hphase] at hno
    cases hno

variable [DecidableEq κ]

theorem Inv.step (h : s.Inv) {m : Move κ ι} (hstep : s.step ids m = some s') : s'.Inv := by
  cases steps_of_step hstep with
  | lock _ hfree htask => exact h.lock hfree htask
  | @accept i task hphase hknown =>
      have hversion := h.readVersion
      refine hversion.of_frame (frame_goOn i _) ((hversion i).goOn ?_ trivial ?_ ?_ ?_)
      · show (s.phase i).Inside
        rw [hphase]
        exact trivial
      · exact congrArg some hknown
      · rintro _ ⟨⟩
        show (s.phase i).task = some task
        rw [hphase]
        rfl
      · rintro _ _ ⟨⟩
  | refuse _ => exact h.readVersion.dies _
  | @read i task states hphase hfile =>
      refine h.of_frame (frame_goOn i _) ((h i).goOn ?_ trivial ((h i).admitted ?_) ?_ ?_)
      · rw [hphase]
        exact trivial
      · rw [hphase]
        exact trivial
      · rintro _ ⟨⟩
        rw [hphase]
        rfl
      · rintro _ _ ⟨⟩
        exact hfile
  | unreadable _ => exact h.dies _
  | construct hphase => exact h.done hphase s.file _
  | store hphase _ => exact h.done hphase _ none
  | unlock _ => exact h.leave _ id id rfl
  | @act i _ _ _ hphase _ _ =>
      refine h.of_frame ⟨fun _ _ => rfl, fun j hj => Function.update_of_ne hj _ _,
        fun _ _ => Iff.rfl, fun hv => hv, Or.inl rfl⟩
        ⟨(h i).holds, (h i).admitted, fun task htask => ?_, (h i).fresh⟩
      change (s.phase i).task = some task at htask
      rw [hphase] at htask
      cases htask
  | die => exact h.dies _
  | @tear i _ hphase =>
      have hholds : s.holder = some i := (h i).holds.mp (by rw [hphase]; exact trivial)
      have hdead : (s.leave i .dead).InvAt i := invAt_leave i id id rfl
      have hframe : Frame i s (s.leave i .dead) := frame_leave i .dead
      refine h.of_frame ⟨hframe.phase, hframe.sessions, hframe.holder, hframe.version,
        Or.inr hholds⟩ ⟨hdead.holds, hdead.admitted, hdead.session, fun task states hno => ?_⟩
      change (s.leave i .dead).phase i = .hasRead task states at hno
      rw [show (s.leave i .dead).phase i = .dead from Function.update_self _ _ _] at hno
      cases hno

theorem inv_run {version : Option Nat} {file : RefStates κ} {ms : List (Move κ ι)}
    (h : run (step ids) (initial version file) ms = some s) : s.Inv :=
  Run.invariant (fun _ _ _ hs _ hstep => hs.step hstep) h
    (Run.stepsMeet_of_forall (fun _ _ _ => trivial) _) (inv_initial version file)

/-! ## What the sessions do -/

/-- The step of a session that a step of a process is, if it is one. -/
def visible : Move κ ι → Option (Label κ ι)
  | .construct i lookup now refs => some (.load i lookup now refs)
  | .store i => some (.write i)
  | .act i a => some (.act i a)
  | _ => none

/-- The processes have the sessions of a store, and the state file is the one of the store, as long
as it can be read. -/
structure Shows (s : Processes κ ι) (t : Store κ ι) : Prop where
  inv : s.Inv
  sessions : t.sessions = s.sessions
  file (states : RefStates κ) : s.file = some states → t.file = states

/-- A step that is none of a session leaves the sessions alone, the version once it can be read,
and the state file, unless a process that was admitted tears it. -/
theorem hidden_step {m : Move κ ι} (hhidden : visible m = none) (hstep : s.step ids m = some s') :
    s'.sessions = s.sessions ∧ (∀ v, s.version = some v → s'.version = some v) ∧
      (s'.file = s.file ∨ s'.file = none ∧ ∃ i, (s.phase i).Admitted) := by
  have hread (v : Nat) (hv : s.version = some v) : some (versionRead s.version) = some v := by
    rw [hv]
    rfl
  cases steps_of_step hstep with
  | lock _ _ _ => exact ⟨rfl, fun _ hv => hv, Or.inl rfl⟩
  | accept _ _ => exact ⟨rfl, hread, Or.inl rfl⟩
  | refuse _ => exact ⟨rfl, hread, Or.inl rfl⟩
  | read _ _ => exact ⟨rfl, fun _ hv => hv, Or.inl rfl⟩
  | unreadable _ => exact ⟨rfl, fun _ hv => hv, Or.inl rfl⟩
  | construct _ => cases hhidden
  | store _ _ => cases hhidden
  | unlock _ => exact ⟨rfl, fun _ hv => hv, Or.inl rfl⟩
  | act _ _ _ => cases hhidden
  | die => exact ⟨rfl, fun _ hv => hv, Or.inl rfl⟩
  | @tear i _ hphase =>
      refine ⟨rfl, fun _ hv => hv, Or.inr ⟨rfl, i, ?_⟩⟩
      rw [hphase]
      exact trivial

theorem Shows.hidden {t : Store κ ι} (h : Shows s t) {m : Move κ ι} (hhidden : visible m = none)
    (hstep : s.step ids m = some s') : Shows s' t := by
  obtain ⟨hsessions, -, hfile⟩ := hidden_step hhidden hstep
  refine ⟨h.inv.step hstep, h.sessions.trans hsessions.symm, fun states hstates => ?_⟩
  rcases hfile with hsame | ⟨hnone, -⟩
  · exact h.file states (hsame.symm.trans hstates)
  · rw [hnone] at hstates
    cases hstates

/-- What a process read is what the state file still holds when it constructs or stores. -/
theorem Shows.step {t : Store κ ι} (h : Shows s t) {m : Move κ ι} (hstep : s.step ids m = some s') :
    ∃ t', run (Store.step ids) t (visible m).toList = some t' ∧ Shows s' t' := by
  have hinv := h.inv.step hstep
  cases hvisible : visible m with
  | none => exact ⟨t, rfl, h.hidden hvisible hstep⟩
  | some label =>
      cases steps_of_step hstep with
      | @construct i states lookup now refs hphase =>
          cases hvisible
          have hnone : t.sessions i = none := by
            have htask := ((h.inv i).session .load (by rw [hphase]; rfl)).not.mpr (by decide)
            rw [h.sessions]
            exact Option.not_isSome_iff_eq_none.mp htask
          have hsame : t.file = states := h.file states ((h.inv i).fresh _ _ hphase)
          have hload : ∃ t', t.step ids (.load i lookup now refs) = some t' ∧ t'.file = t.file ∧
              t'.sessions =
                Function.update t.sessions i (some (.start ids lookup now t.file refs)) := by
            simp only [Store.step, hnone]
            exact ⟨_, rfl, rfl, rfl⟩
          obtain ⟨t', hconstruct, hfile, hsessions⟩ := hload
          refine ⟨t', ?_, hinv, ?_, fun states' hstates => ?_⟩
          · show (t.step ids (.load i lookup now refs)).bind _ = _
            rw [hconstruct]
            rfl
          · rw [hsessions, h.sessions, hsame]
          · rw [hfile]
            exact h.file states' hstates
      | @store i states session hphase hsession =>
          cases hvisible
          have hsome : t.sessions i = some session := by rw [h.sessions, hsession]
          have hsame : t.file = states := h.file states ((h.inv i).fresh _ _ hphase)
          have hwrite : ∃ t', t.step ids (.write i) = some t' ∧
              t'.file = State.write session.loaded t.file ∧
              t'.sessions = Function.update t.sessions i none := by
            simp only [Store.step, hsome]
            exact ⟨_, rfl, rfl, rfl⟩
          obtain ⟨t', hstore, hfile, hsessions⟩ := hwrite
          refine ⟨t', ?_, hinv, ?_, ?_⟩
          · show (t.step ids (.write i)).bind _ = _
            rw [hstore]
            rfl
          · rw [hsessions, h.sessions]
          · rintro _ ⟨⟩
            rw [hfile, hsame]
      | @act i a session session' hphase hsession hact =>
          cases hvisible
          have hsome : t.sessions i = some session := by rw [h.sessions, hsession]
          refine ⟨{ t with sessions := Function.update t.sessions i (some session') }, ?_, hinv, ?_,
            h.file⟩
          · show (t.step ids (.act i a)).bind _ = _
            simp only [Store.step, hsome, hact, Option.bind_some, Option.map_some]
            rfl
          · show Function.update t.sessions i _ = Function.update s.sessions i _
            rw [h.sessions]
      | lock _ _ _ => cases hvisible
      | accept _ _ => cases hvisible
      | refuse _ => cases hvisible
      | read _ _ => cases hvisible
      | unreadable _ => cases hvisible
      | unlock _ => cases hvisible
      | die => cases hvisible
      | tear _ => cases hvisible

/-! ## The lock is free again -/

/-- A step by which a process goes on under the lock. -/
def GoesOn (i : ι) : Move κ ι → Prop
  | .version j => j = i
  | .read j => j = i
  | .construct j _ _ _ => j = i
  | .store j => j = i
  | .unlock j => j = i
  | _ => False

/-- The process can go on by itself until the lock is free. -/
def Frees (ids : CommitIds κ) (i : ι) (s : Processes κ ι) : Prop :=
  ∃ ms s', (∀ m ∈ ms, GoesOn i m) ∧ run (step ids) s ms = some s' ∧ s'.holder = none

theorem Frees.of_step {i : ι} {m : Move κ ι} (hstep : s.step ids m = some s') (hm : GoesOn i m)
    (h : Frees ids i s') : Frees ids i s := by
  obtain ⟨ms, last, hms, hrun, hfree⟩ := h
  refine ⟨m :: ms, last, List.forall_mem_cons.mpr ⟨hm, hms⟩, ?_, hfree⟩
  rw [run, hstep]
  exact hrun

theorem Frees.of_free {i : ι} (h : s.holder = none) : Frees ids i s :=
  ⟨[], s, fun _ hm => (by cases hm), rfl, h⟩

omit [DecidableEq κ] in
theorem holder_leave {i : ι} (h : s.holder = some i) (phase : Phase κ) :
    (s.leave i phase).holder = none := if_pos h

theorem frees_done {i : ι} (hholds : s.holder = some i) (hdone : s.phase i = .done) :
    Frees ids i s := by
  have hstep : s.step ids (.unlock i) = some (s.leave i .outside) := by
    simp only [Processes.step, hdone]
  exact .of_step hstep rfl (.of_free (holder_leave hholds _))

theorem frees_hasRead (h : s.Inv) {i : ι} {task : Task} {states : RefStates κ}
    (hread : s.phase i = .hasRead task states) : Frees ids i s := by
  have hholds : s.holder = some i := (h i).holds.mp (by rw [hread]; exact trivial)
  cases task with
  | load =>
      have hstep : s.step ids (.construct i (fun _ => none) 0 []) = some { s.goOn i .done with
          sessions := Function.update s.sessions i
            (some (.start ids (fun _ => none) 0 states [])) } := by
        simp only [Processes.step, hread]
      exact .of_step hstep rfl (frees_done hholds (Function.update_self _ _ _))
  | write =>
      have hsome := ((h i).session .write (by rw [hread]; rfl)).mpr rfl
      obtain ⟨session, hsession⟩ := Option.isSome_iff_exists.mp hsome
      have hstep : s.step ids (.store i) = some { s.goOn i .done with
          file := some (State.write session.loaded states)
          sessions := Function.update s.sessions i none } := by
        simp only [Processes.step, hread, hsession]
      exact .of_step hstep rfl (frees_done hholds (Function.update_self _ _ _))

theorem frees_checked (h : s.Inv) {i : ι} {task : Task} (hchecked : s.phase i = .checked task) :
    Frees ids i s := by
  have hholds : s.holder = some i := (h i).holds.mp (by rw [hchecked]; exact trivial)
  cases hfile : s.file with
  | none =>
      have hstep : s.step ids (.read i) = some (s.leave i .dead) := by
        simp only [Processes.step, hchecked, hfile]
      exact .of_step hstep rfl (.of_free (holder_leave hholds _))
  | some states =>
      have hstep : s.step ids (.read i) = some (s.goOn i (.hasRead task states)) := by
        simp only [Processes.step, hchecked, hfile]
      exact .of_step hstep rfl (frees_hasRead (h.step hstep) (Function.update_self _ _ _))

/-- Whoever has the lock can go on by itself until the lock is free. -/
theorem Inv.frees (h : s.Inv) {i : ι} (hinside : (s.phase i).Inside) : Frees ids i s := by
  have hholds : s.holder = some i := (h i).holds.mp hinside
  cases hphase : s.phase i with
  | outside =>
      rw [hphase] at hinside
      exact absurd hinside id
  | dead =>
      rw [hphase] at hinside
      exact absurd hinside id
  | checked task => exact frees_checked h hphase
  | hasRead task states => exact frees_hasRead h hphase
  | done => exact frees_done hholds hphase
  | locked task =>
      cases hknown : checkVersionAndMigrate (versionRead s.version) false with
      | true =>
          have hstep : s.step ids (.version i) = some
              ({ s with version := some (versionRead s.version) }.goOn i (.checked task)) := by
            simp only [Processes.step, hphase, hknown, if_true]
          exact .of_step hstep rfl (frees_checked (h.step hstep) (Function.update_self _ _ _))
      | false =>
          have hstep : s.step ids (.version i) = some
              ({ s with version := some (versionRead s.version) }.leave i .dead) := by
            simp only [Processes.step, hphase, hknown, Bool.false_eq_true, if_false]
          exact .of_step hstep rfl (.of_free (if_pos hholds))

/-- Nothing was done to the state file, whose version is not known. -/
structure Untouched (v : Nat) (file : RefStates κ) (s : Processes κ ι) : Prop where
  inv : s.Inv
  version : s.version = some v
  file : s.file = some file
  sessions (i : ι) : s.sessions i = none

theorem Untouched.step {v : Nat} (hv : v ≠ stateVersion) {file : RefStates κ}
    (h : Untouched v file s) {m : Move κ ι} (hstep : s.step ids m = some s') :
    Untouched v file s' := by
  have hnobody (i : ι) : ¬ (s.phase i).Admitted := by
    intro hadmitted
    have hknown := (h.inv i).admitted hadmitted
    rw [h.version, Option.some_inj] at hknown
    exact hv hknown
  cases hvisible : visible m with
  | none =>
      obtain ⟨hsessions, hversion, hfile⟩ := hidden_step hvisible hstep
      refine ⟨h.inv.step hstep, hversion v h.version, ?_, fun i => ?_⟩
      · rcases hfile with hsame | ⟨-, i, hadmitted⟩
        · rw [hsame, h.file]
        · exact absurd hadmitted (hnobody i)
      · rw [hsessions, h.sessions]
  | some label =>
      -- nobody gets as far as to a step of a session
      cases steps_of_step hstep with
      | construct hphase => exact absurd (by rw [hphase]; exact trivial) (hnobody _)
      | store hphase _ => exact absurd (by rw [hphase]; exact trivial) (hnobody _)
      | act _ hsession _ =>
          rw [h.sessions] at hsession
          cases hsession
      | lock _ _ _ => cases hvisible
      | accept _ _ => cases hvisible
      | refuse _ => cases hvisible
      | read _ _ => cases hvisible
      | unreadable _ => cases hvisible
      | unlock _ => cases hvisible
      | die => cases hvisible
      | tear _ => cases hvisible

/-- In whatever order the processes take their steps, and whichever of them die at whatever time,
what they do is what sessions do that load and write in one step each; unless a process died while
it wrote the state file, the file is the one of these sessions. -/
theorem run_refines {version : Option Nat} {file : RefStates κ} {ms : List (Move κ ι)}
    (h : run (step ids) (initial version file) ms = some s) :
    ∃ t, run (Store.step ids) (.initial file) (ms.filterMap visible) = some t ∧
      t.sessions = s.sessions ∧ ∀ states, s.file = some states → t.file = states := by
  have hstart : Shows (initial version file : Processes κ ι) (.initial file) := by
    refine ⟨inv_initial version file, rfl, ?_⟩
    rintro states ⟨⟩
    rfl
  obtain ⟨t, hrun, hshows⟩ :=
    Run.simulates visible (fun _ _ _ _ hshows hstep => hshows.step hstep) h hstart
  exact ⟨t, hrun, hshows.sessions, hshows.file⟩

/-! ## A torn state file -/

/-- The state file was torn in `s₀`, and still is: no session came up since. -/
structure Torn (s₀ s : Processes κ ι) : Prop where
  inv : s.Inv
  file : s.file = none
  sessions (i : ι) : (s.sessions i).isSome = true → (s₀.sessions i).isSome = true

theorem Torn.step {s₀ : Processes κ ι} (h : Torn s₀ s) {m : Move κ ι}
    (hstep : s.step ids m = some s') : Torn s₀ s' := by
  have hinv := h.inv.step hstep
  have hnobody (i : ι) (task : Task) (states : RefStates κ) :
      s.phase i ≠ .hasRead task states := by
    intro hread
    have hfile := (h.inv i).fresh task states hread
    rw [h.file] at hfile
    cases hfile
  cases steps_of_step hstep with
  | lock _ _ _ => exact ⟨hinv, h.file, h.sessions⟩
  | accept _ _ => exact ⟨hinv, h.file, h.sessions⟩
  | refuse _ => exact ⟨hinv, h.file, h.sessions⟩
  | read _ hfile =>
      rw [h.file] at hfile
      cases hfile
  | unreadable _ => exact ⟨hinv, h.file, h.sessions⟩
  | construct hphase => exact absurd hphase (hnobody _ _ _)
  | store hphase _ => exact absurd hphase (hnobody _ _ _)
  | unlock _ => exact ⟨hinv, h.file, h.sessions⟩
  | @act i _ session _ _ hsession _ =>
      refine ⟨hinv, h.file, fun j hj => ?_⟩
      by_cases hij : j = i
      · subst hij
        exact h.sessions j (by rw [hsession]; rfl)
      · change (Function.update s.sessions i _ j).isSome = true at hj
        rw [Function.update_of_ne hij] at hj
        exact h.sessions j hj
  | die => exact ⟨hinv, h.file, h.sessions⟩
  | tear hphase => exact absurd hphase (hnobody _ _ _)

/-- Once a process died while it wrote the state file, nobody mends it, and no session comes up any
more, whatever the processes do. -/
theorem run_torn {version : Option Nat} {file : RefStates κ} {ms ms' : List (Move κ ι)}
    (h : run (step ids) (initial version file) ms = some s) (htorn : s.file = none)
    (h' : run (step ids) s ms' = some s') :
    s'.file = none ∧ ∀ i, (s'.sessions i).isSome = true → (s.sessions i).isSome = true := by
  have hinv : s.Inv := inv_run h
  have hstill : Torn s s' := Run.invariant (fun _ _ _ hs _ hstep => hs.step hstep) h'
    (Run.stepsMeet_of_forall (fun _ _ _ => trivial) _) ⟨hinv, htorn, fun _ hi => hi⟩
  exact ⟨hstill.file, hstill.sessions⟩

end Processes

/-! ## Two processes -/

namespace TwoProcesses

open Processes TwoSessions

/-- Both processes load a branch, the second one changes it, the first one dies when it has the lock
to write, and the second one writes. -/
def moves : List (Move (Option Commit) Bool) :=
  [.lock false .load, .version false, .read false, .construct false (fun _ => none) 0 [ref],
    .unlock false, .lock true .load, .version true, .read true,
    .construct true (fun _ => none) 0 [ref], .unlock true, .act true (.change ref.fullName changed),
    .lock false .write, .version false, .die false, .lock true .write, .version true, .read true,
    .store true]

/-- Nothing is stored, not even a version. -/
def start : Processes (Option Commit) Bool := initial none fun _ => none

/-- The sessions load one after the other, and the second one writes. -/
theorem run_refines_moves : ∃ s t, run (Processes.step ids) start moves = some s ∧
    run (Store.step ids) (.initial fun _ => none) labels = some t ∧ t.sessions = s.sessions ∧
      ∀ states, s.file = some states → t.file = states := by
  have hruns : (run (Processes.step ids) start moves).isSome = true := by
    decide
  obtain ⟨s, hrun⟩ := Option.isSome_iff_exists.mp hruns
  obtain ⟨t, ht⟩ := run_refines hrun
  exact ⟨s, t, hrun, ht⟩

/-- The first process dies while it writes. -/
def tearing : List (Move (Option Commit) Bool) :=
  [.lock false .load, .version false, .read false, .construct false (fun _ => none) 0 [ref],
    .unlock false, .lock false .write, .version false, .read false, .tear false]

/-- The second process then gets no session. -/
theorem run_torn_tearing : ∃ s s', run (Processes.step ids) start tearing = some s ∧
    run (Processes.step ids) s [.lock true .load, .version true, .read true] = some s' ∧
      s'.file = none ∧ ∀ i, (s'.sessions i).isSome = true → (s.sessions i).isSome = true := by
  have hruns : (run (Processes.step ids) start tearing).map (fun s => (s.file.isNone,
      (run (Processes.step ids) s [.lock true .load, .version true, .read true]).isSome)) =
      some (true, true) := by
    decide
  obtain ⟨s, hrun, hs⟩ := Option.map_eq_some_iff.mp hruns
  obtain ⟨htorn, hgoes⟩ := Prod.ext_iff.mp hs
  obtain ⟨s', hrun'⟩ := Option.isSome_iff_exists.mp hgoes
  exact ⟨s, s', hrun, hrun', run_torn hrun (Option.isNone_iff_eq_none.mp htorn) hrun'⟩

end TwoProcesses

end State
end Debase
