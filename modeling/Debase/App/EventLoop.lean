import Debase.App.Buttons

/-!
# The event loop

`App::track` reads events for as long as debase runs.  What is thrown while an event is handled
ends up here: a new size of the window reloads the columns, an error is shown, and a request to
exit ends the loop.

The views of the columns do a few actions themselves (`columnDoes`); every other event is handled by
`App::handleEvent`.
-/

namespace Debase

open Git Library
open Ui (ScreenEvent)

namespace App

variable {κ ω : Type}

/-- What happens next: an event is read that no view handles, or the views of a column read some
of what there is, and do an action or nothing. -/
inductive Happening where
  | event
  | column (action : Action) (taken : Nat)
  | nothing (taken : Nat)
deriving DecidableEq

/-- The action of a key. -/
def keyAction (ev : ScreenEvent) : Option Action :=
  if ev.type = Ui.Event.keyDelete ∨ ev.type = Ui.Event.keyFnDelete then some .deleteCommits
  else if ev.type = Ui.Event.keyB then some (.branch none)
  else if ev.type = Ui.Event.keyC then some .combine
  else if ev.type = Ui.Event.keyReturn then some .edit
  else none

namespace Gui

variable [DecidableEq κ] (env : GuiEnv κ ω) (inputs : Inputs κ)

/-- An event is read and handled. -/
def handleNext : Happening → Program (Gui κ ω) Stop Unit
  | .event => do
      let g ← Program.read
      match g.inputs with
      | [] => wait
      | input :: rest => do
          let ev ← eventNext input rest
          handleEvent env inputs ev
  | .column action taken => do
      Program.update fun g => { g with inputs := g.inputs.drop taken }
      inApp (perform env.toEnv inputs action)
  | .nothing taken => Program.update fun g => { g with inputs := g.inputs.drop taken }

/-- The handlers of `App::track`.  What they throw themselves ends the loop. -/
def caught : Stop → Program (Gui κ ω) Stop Unit
  | .interrupt (.windowResize size) => do
      Program.update fun g => { g with columnNameFocused := none }
      inApp (perform env.toEnv inputs (.resize size))
  | .interrupt .exitRequest => .fail (.interrupt .exitRequest)
  | .failed .abort => .fail (.failed .abort)
  | .failed _ => do
      -- the error is shown, until the user clicks the button
      let _ ← ask env
      pure ()
  | .waiting => .fail .waiting

/-- One turn of the loop of `App::track`. -/
def turn (happening : Happening) : Program (Gui κ ω) Stop Unit :=
  (handleNext env inputs happening).handle (caught env inputs)

end Gui

/-- A session, with what ended it. -/
structure Session (κ ω : Type) where
  gui : Gui κ ω
  stopped : Option Stop

namespace Session

variable [DecidableEq κ] (env : GuiEnv κ ω)

/-- Whether that can happen. -/
def happens (s : Session κ ω) : Happening → Bool
  | .event => true
  | .column action _ => s.gui.app.columnDoes action
  | .nothing _ => true

/-- The session goes on with what happens next, if it is not over. -/
def next (s : Session κ ω) (l : Happening × Inputs κ) : Option (Session κ ω) :=
  if s.stopped.isSome || !s.happens l.1 then none
  else
    match Gui.turn env l.2 l.1 s.gui with
    | (.ok _, gui) => some ⟨gui, none⟩
    | (.error e, gui) => some ⟨gui, some e⟩

variable {env} {s s' : Session κ ω} {l : Happening × Inputs κ}

theorem next_eq_some (h : next env s l = some s') :
    s.happens l.1 = true ∧ s'.gui = (Gui.turn env l.2 l.1 s.gui).2 := by
  unfold next at h
  split at h
  · cases h
  · next hgoes =>
      rw [Bool.or_eq_true, Bool.not_eq_true', not_or, Bool.not_eq_false] at hgoes
      refine ⟨hgoes.2, ?_⟩
      split at h
      · next hrun =>
          cases h
          rw [hrun]
      · next hrun =>
          cases h
          rw [hrun]

end Session

namespace Gui

variable [DecidableEq κ] {env : GuiEnv κ ω} {inputs : Inputs κ} {g : Gui κ ω}

omit [DecidableEq κ] in
theorem eventNext_app (input : Ui.Screen.Input) (rest : List Ui.Screen.Input) :
    Program.Ends (eventNext input rest) g (fun _ g' => g'.app = g.app) fun _ g' => g'.app = g.app := by
  refine .bind (.update ?_)
  split
  · exact .fail rfl
  · exact .pure rfl

theorem handleNext_leads {happening : Happening}
    (h : (⟨g, none⟩ : Session κ ω).happens happening = true) :
    Leads env inputs (handleNext env inputs happening) g := by
  cases happening with
  | event =>
      refine .bind (.read ?_)
      split
      · exact .bind (.update (.fail (refl_of (App.Arrives env inputs) g.app)))
      · refine .bind ((eventNext_app _ _).mono (fun ev g' happ => ?_) fun _ g' happ => ?_)
        · rw [← happ]
          exact handleEvent_leads ev
        · rw [happ]
          exact refl_of (App.Arrives env inputs) g.app
  | column action taken =>
      exact .bind (.update (leads_columnDoes h))
  | nothing taken => exact .update (refl_of (App.Arrives env inputs) g.app)

theorem caught_leads (e : Stop) : Leads env inputs (caught env inputs e) g := by
  have hask : Leads env inputs (ask env >>= fun _ => pure ()) g := by
    refine .bind (ask_ends.mono (fun _ g' happ => .pure ?_) fun _ g' happ => ?_)
    · rw [happ]
      exact refl_of (App.Arrives env inputs) g.app
    · rw [happ]
      exact refl_of (App.Arrives env inputs) g.app
  cases e with
  | interrupt e =>
      cases e with
      | windowResize size => exact .bind (.update (leads_inApp (.resize size) rfl rfl))
      | exitRequest => exact .fail (refl_of (App.Arrives env inputs) g.app)
  | failed e =>
      cases e with
      | abort => exact .fail (refl_of (App.Arrives env inputs) g.app)
      | conflictResolveCanceled => exact hask
      | runtimeError msg => exact hask
      | gitError code => exact hask
  | waiting => exact .fail (refl_of (App.Arrives env inputs) g.app)

/-- Offered actions lead to where a turn of the loop ends, whatever is thrown in it. -/
theorem turn_leads {happening : Happening}
    (h : (⟨g, none⟩ : Session κ ω).happens happening = true) :
    Leads env inputs (turn env inputs happening) g := by
  have htrans {g' : Gui κ ω} (harrives : App.Arrives env inputs g.app g'.app) (e : Stop) :
      Program.Ends (caught env inputs e) g' (fun _ g'' => App.Arrives env inputs g.app g''.app)
        fun _ g'' => App.Arrives env inputs g.app g''.app :=
    (caught_leads e).mono (fun _ _ h => trans_of (App.Arrives env inputs) harrives h)
      fun _ _ h => trans_of (App.Arrives env inputs) harrives h
  exact .handle ((handleNext_leads h).mono (fun _ _ h => h) fun e _ h => htrans h e)

end Gui

namespace Session

variable [DecidableEq κ] {env : GuiEnv κ ω} {s s' : Session κ ω}

theorem next_arrives {l : Happening × Inputs κ} (h : next env s l = some s') :
    Arrives env l.2 s.gui.app s'.gui.app := by
  obtain ⟨hhappens, hgui⟩ := next_eq_some h
  have hleads : Gui.Leads env l.2 (Gui.turn env l.2 l.1) s.gui := Gui.turn_leads (by
    cases hhappening : l.1 with
    | event => rfl
    | column action taken =>
        rw [hhappening] at hhappens
        exact hhappens
    | nothing taken => rfl)
  have harrives := Program.Ends.state (P := fun g' : Gui κ ω =>
    Arrives env l.2 s.gui.app g'.app) hleads
  rwa [← hgui] at harrives

/-- Whatever is read in a session, offered actions lead from the application at its start to the
application at its end. -/
theorem run_offered {ls : List (Happening × Inputs κ)} (h : run (next env) s ls = some s') :
    ∃ ms, (∀ m ∈ ms, ∃ l ∈ ls, m.2 = l.2) ∧ run (step env.toEnv) s.gui.app ms = some s'.gui.app := by
  refine Run.refines (fun s : Session κ ω => s.gui.app)
    (fun (l : Happening × Inputs κ) (m : Action × Inputs κ) => m.2 = l.2) (fun s l s' hnext => ?_) h
  obtain ⟨actions, hrun⟩ := next_arrives hnext
  refine ⟨actions.map fun a => (a, l.2), fun m hm => ?_, hrun⟩
  obtain ⟨a, -, rfl⟩ := List.mem_map.mp hm
  rfl

/-- Whatever is read in a session, a selection keeps its rev, and the columns stay as a reload made
them. -/
theorem run_keepsTidy {ls : List (Happening × Inputs κ)} (h : run (next env) s ls = some s') :
    KeepsTidy s.gui.app s'.gui.app := by
  have hstep (app : App κ ω) (m : Action × Inputs κ) (app' : App κ ω)
      (happ : KeepsTidy s.gui.app app) (_ : True) (hstep : step env.toEnv app m = some app') :
      KeepsTidy s.gui.app app' := by
    obtain ⟨hoffers, rfl⟩ := step_eq_some.mp hstep
    exact trans_of KeepsTidy happ (perform_tidies env.toEnv m.2 hoffers)
  have hnext (s₁ : Session κ ω) (l : Happening × Inputs κ) (s₂ : Session κ ω)
      (hs : KeepsTidy s.gui.app s₁.gui.app) (_ : True) (hnext : next env s₁ l = some s₂) :
      KeepsTidy s.gui.app s₂.gui.app := by
    obtain ⟨actions, hrun⟩ := next_arrives hnext
    exact Run.invariant hstep hrun (Run.stepsMeet_of_forall (fun _ _ _ => trivial) _) hs
  exact Run.invariant hnext h (Run.stepsMeet_of_forall (fun _ _ _ => trivial) _)
    (refl_of KeepsTidy _)

/-- At any time in a session, commits are selected in some rev, and the columns are as a reload
left them. -/
theorem run_tidy {ls : List (Happening × Inputs κ)} (h : run (next env) s ls = some s')
    (htidy : Tidy s.gui.app) : Tidy s'.gui.app := (run_keepsTidy h).tidy htidy

end Session

namespace Gui

variable [DecidableEq κ] {env : GuiEnv κ ω} {inputs : Inputs κ} {g : Gui κ ω}

/-- A key does its action where it is offered, and nothing elsewhere. -/
theorem handleEvent_key (howned : Owned g.app.selection) {ev : ScreenEvent}
    (hkey : ev.isMouse = false) : handleEvent env inputs ev g =
      match (keyAction ev).filter g.app.offers with
      | none => (.ok (), g)
      | some action => inApp (perform env.toEnv inputs action) g := by
  have hexec {op : Modify.Op} {action : Action} (hop : g.app.opOf action = some op) :
      execIf env inputs (some op) g = inApp (perform env.toEnv inputs action) g := by
    show inApp (gitOpExec env.toEnv inputs op) g = _
    unfold inApp
    rw [perform_opOf hop]
  have hgate {can : Bool} {action : Action} (x : Program (Gui κ ω) Stop Unit)
      (hcan : g.app.offers action = can)
      (hx : can = true → x g = inApp (perform env.toEnv inputs action) g) :
      (if can then x else pure ()) g =
        match (some action).filter g.app.offers with
        | none => (.ok (), g)
        | some action => inApp (perform env.toEnv inputs action) g := by
    rw [Option.filter_some, hcan]
    cases can with
    | false => rfl
    | true => exact hx rfl
  unfold handleEvent keyAction
  rw [Program.bind_run_ok (Program.read_run g), hkey, if_neg Bool.false_ne_true]
  split
  · exact hgate _ rfl fun _ => hexec rfl
  · split
    · -- `b` is offered where one commit is selected, which has a rev then
      have hoffers : g.app.offers (.branch none) = g.app.selectionCanBranch := by
        show (g.app.selection.rev.isSome && decide (g.app.selection.commits.card = 1)) = _
        by_cases hone : g.app.selection.commits.card = 1
        · have hrev : g.app.selection.rev.isSome = true := howned (by
            rintro hnone
            rw [hnone] at hone
            cases hone)
          rw [hrev, Bool.true_and]
          rfl
        · rw [decide_eq_false hone, Bool.and_false]
          exact (decide_eq_false hone).symm
      rw [Option.filter_some, hoffers]
      cases hcan : g.app.selectionCanBranch with
      | false => rfl
      | true =>
          have hone : g.app.selection.commits.card = 1 := of_decide_eq_true hcan
          obtain ⟨rev, hrev⟩ := Option.isSome_iff_exists.mp (howned (by
            rintro hnone
            rw [hnone] at hone
            cases hone))
          obtain ⟨commit, hcommit⟩ := Finset.card_eq_one.mp hone
          have honly : theOnly g.app.selection.commits = some commit := theOnly_eq_some.mpr hcommit
          rw [hrev, honly]
          show inApp _ g = inApp _ g
          unfold inApp
          have hperform : perform env.toEnv inputs (.branch none) g.app =
              revCreate env.toEnv inputs true rev commit g.app := by
            show withRev g.app.selection.rev (fun rev => withRev (theOnly g.app.selection.commits)
              fun commit => revCreate env.toEnv inputs true rev commit) g.app = _
            rw [hrev, honly]
            rfl
          rw [hperform]
    · split
      · exact hgate _ (offers_combine g.app) fun _ => hexec rfl
      · split
        · exact hgate _ (offers_edit g.app) fun _ => hexec rfl
        · rfl

end Gui

section Runs

variable [DecidableEq κ] {env : GuiEnv κ ω} {inputs : Inputs κ} {s s' : Session κ ω}

end Runs

/-! ## A commit is clicked and deleted -/

namespace OneBranch

open HalfMove

/-- A session of which this is to be read. -/
def session (inputs : List Ui.Screen.Input) : Session (Option Commit) Unit :=
  ⟨Gui.start app inputs, none⟩

/-- The window gets its size, the head of the branch is clicked, and the delete key is pressed. -/
def deletion : List Ui.Screen.Input :=
  [.resize ⟨100, 12⟩, .event (press ⟨10, 5⟩), .event (lift ⟨10, 5⟩),
    .event (key Ui.Event.keyDelete)]

/-- The three times that the loop goes round. -/
def turns : List (Happening × Inputs (Option Commit)) :=
  [(.event, noFault), (.event, noFault), (.event, noFault)]

theorem run_offered_deletion : ∃ s, run (Session.next env) (session deletion) turns = some s ∧
    (s.gui.app.repo.refs branch.fullName).map Target.commit = some root ∧
    ∃ ms, (∀ m ∈ ms, ∃ l ∈ turns, m.2 = l.2) ∧
      run (step env.toEnv) (session deletion).gui.app ms = some s.gui.app := by
  have hruns : (run (Session.next env) (session deletion) turns).map
      (fun s => (s.gui.app.repo.refs branch.fullName).map Target.commit) = some (some root) := by
    decide +kernel
  obtain ⟨s, hrun, hroot⟩ := Option.map_eq_some_iff.mp hruns
  exact ⟨s, hrun, hroot, Session.run_offered hrun⟩

end OneBranch

end App
end Debase
