import Debase.Git.Outcome
import Debase.Git.World

/-!
# Which refs an operation replaces

Each operation computes all its commits first and replaces refs last, so a run
that fails before that leaves every ref alone.  Nothing takes a replacement
back: when the second of the two replacements of a move between refs fails, the
first one stays, and so does a replacement whose handle cannot be peeled
afterwards.
-/

namespace Debase
namespace Git

open Library Modify

/-- The calls all returned. -/
def AllDone (log : List ReplaceCall) : Prop := ∀ call ∈ log, call.reply.thrown = none

section Outcomes

variable {ω : Type} (env : Env ω) (targets : List Ref)

/-- The run that left `w'` ended in an exception `e` of this call, or of the peel of the
handle that it returned. -/
def EndedIn (e : Exn) (w' : World ω) (call : ReplaceCall) : Prop :=
  call.reply.thrown = some e ∨
    ∃ ref o, call.reply = .done ref ∧ env.refPeel ref o = (.error e, w'.outside)

/-- The calls began to replace the targets, and the run ended in the last of them. -/
def StoppedBy (e : Exn) (w' : World ω) (log : List ReplaceCall) : Prop :=
  ∃ before last, log = before ++ [last] ∧ AllDone before ∧ EndedIn env e w' last ∧
    log.map ReplaceCall.ref <+: targets

/-- What the outcome of an operation says about its calls of `refReplace`. -/
def Explains : Except Exn (Option OpResult) → World ω → List ReplaceCall → Prop
  | .ok (some _), _, log => log.map ReplaceCall.ref = targets ∧ AllDone log
  | .ok none, _, log => log = []
  | .error e, w', log => log = [] ∨ StoppedBy env targets e w' log

/-- The same for `Exec`, which turns one exception into no result. -/
def ExplainsExec : Except Exn (Option OpResult) → World ω → List ReplaceCall → Prop
  | .ok (some _), _, log => log.map ReplaceCall.ref = targets ∧ AllDone log
  | .ok none, w', log => log = [] ∨ StoppedBy env targets .conflictResolveCanceled w' log
  | .error e, w', log => log = [] ∨ StoppedBy env targets e w' log

end Outcomes

section Rules

variable {ω : Type} {env : Env ω} {targets : List Ref}

/-- A run added `log` to the record and changed the refs accordingly. -/
def Recorded (w w' : World ω) (log : List ReplaceCall) : Prop :=
  w'.calls = w.calls ++ log ∧ w'.refs = log.foldl RefMap.after w.refs

theorem Recorded.of_sameRefs {w w' : World ω} (h : SameRefs w w') : Recorded w w' [] := by
  constructor
  · simp [h.2]
  · simp [h.1]

theorem Recorded.trans {w w₁ w' : World ω} {log log' : List ReplaceCall}
    (h : Recorded w w₁ log) (h' : Recorded w₁ w' log') : Recorded w w' (log ++ log') := by
  constructor
  · rw [h'.1, h.1, List.append_assoc]
  · rw [h'.2, h.2, List.foldl_append]

theorem Recorded.record (w : World ω) (call : ReplaceCall) (o : ω) :
    Recorded w (w.record call o) [call] := ⟨rfl, rfl⟩

/-- Every run of `x` is explained by its calls of `refReplace`. -/
def Writes (env : Env ω) (targets : List Ref)
    (x : Program (World ω) Exn (Option OpResult)) : Prop :=
  ∀ w, ∃ log, Recorded w (x w).2 log ∧ Explains env targets (x w).1 (x w).2 log

/-- Every run of `x` is explained, and one that throws did call `refReplace`. -/
def WritesOnly (env : Env ω) (targets : List Ref)
    (x : Program (World ω) Exn (Option OpResult)) : Prop :=
  ∀ w, ∃ log, Recorded w (x w).2 log ∧
    match (x w).1 with
    | .ok (some _) => log.map ReplaceCall.ref = targets ∧ AllDone log
    | .ok none => False
    | .error e => StoppedBy env targets e (x w).2 log

theorem Writes.fail (e : Exn) : Writes env targets (.fail e) :=
  fun w => ⟨[], .of_sameRefs (refl_of SameRefs w), Or.inl rfl⟩

theorem WritesOnly.writes {x : Program (World ω) Exn (Option OpResult)}
    (hx : WritesOnly env targets x) : Writes env targets x := by
  intro w
  obtain ⟨log, hrec, hlog⟩ := hx w
  refine ⟨log, hrec, ?_⟩
  rcases h : (x w).1 with e | _ | res
  · rw [h] at hlog
    exact Or.inr hlog
  · rw [h] at hlog
    exact hlog.elim
  · rw [h] at hlog
    exact hlog

theorem WritesOnly.result (res : OpResult) : WritesOnly env [] (pure (some res)) :=
  fun w => ⟨[], .of_sameRefs (refl_of SameRefs w), rfl, by simp [AllDone]⟩

/-- A replacement followed by the rest of the replacements. -/
theorem WritesOnly.replace {rev : Rev} {ref : Ref} {commit : Commit}
    {f : Rev → Program (World ω) Exn (Option OpResult)} (hf : ∀ r, WritesOnly env targets (f r)) :
    WritesOnly env (ref :: targets) (revReplace env.ctx rev ref (some commit) >>= f) := by
  intro w
  have hunfold : revReplace env.ctx rev ref (some commit) >>= f =
      env.replace ref commit >>= fun ref' => World.outsideRun (env.refPeel ref') >>= fun _ =>
        f { rev with commit := ref'.commit, ref := some ref' } := by
    unfold revReplace
    simp only [bind_assoc, pure_bind]
    rfl
  rw [hunfold]
  rcases h : env.replace ref commit w with ⟨e | ref', w₁⟩
  · rw [Program.bind_run_error h]
    obtain ⟨reply, o, hthrown, rfl⟩ := Env.replace_error h
    refine ⟨[⟨ref, commit, reply⟩], .record _ _ _, [], _, rfl, by simp [AllDone],
      Or.inl hthrown, ?_⟩
    simp
  rw [Program.bind_run_ok h]
  obtain ⟨o, rfl⟩ := Env.replace_ok h
  have hquiet := env.quiet.refPeel ref'
  rcases hpeel : World.outsideRun (env.refPeel ref') (w.record ⟨ref, commit, .done ref'⟩ o)
    with ⟨e | u, w₂⟩
  · -- the ref is replaced, and the handle is not peeled
    rw [Program.bind_run_error hpeel]
    refine ⟨[⟨ref, commit, .done ref'⟩],
      (Recorded.record _ _ _).trans (.of_sameRefs (hquiet.run hpeel)), [], _, rfl,
      by simp [AllDone], Or.inr ⟨ref', o, rfl, World.outsideRun_error hpeel⟩, ?_⟩
    simp
  · rw [Program.bind_run_ok hpeel]
    obtain ⟨log, hrec, hlog⟩ := hf { rev with commit := ref'.commit, ref := some ref' } w₂
    have hcall : Recorded w w₂ [⟨ref, commit, .done ref'⟩] :=
      (Recorded.record _ _ _).trans (.of_sameRefs (hquiet.run hpeel))
    refine ⟨⟨ref, commit, .done ref'⟩ :: log, hcall.trans hrec, ?_⟩
    -- the first call returned, so the outcome is decided by the rest
    generalize f { rev with commit := ref'.commit, ref := some ref' } w₂ = r at hlog
    rcases r with ⟨e | _ | res, w'⟩
    · obtain ⟨before, last, rfl, hbefore, hlast, hpre⟩ := hlog
      refine ⟨⟨ref, commit, .done ref'⟩ :: before, last, rfl, ?_, hlast, ?_⟩
      · simpa [AllDone, ReplaceReply.thrown] using hbefore
      · simpa using hpre
    · exact hlog
    · obtain ⟨hrefs, hdone⟩ := hlog
      constructor
      · simp [hrefs]
      · simpa [AllDone, ReplaceReply.thrown] using hdone

/-- A single replacement at the end. -/
theorem Writes.replaceLast {rev : Rev} {ref : Ref} (commit : Option Commit)
    {g : Rev → OpResult} :
    Writes env [ref] (revReplace env.ctx rev ref commit >>= fun r => pure (some (g r))) := by
  cases commit with
  | none => exact Writes.fail _
  | some commit => exact (WritesOnly.replace fun r => WritesOnly.result _).writes

end Rules

/-! ## The operations -/

section Operations

variable {ω : Type} (env : Env ω)

/-- Every run of one of the programs that replace the refs replaces the targets. -/
theorem writes_replacing {op : Op} {x : Program (World ω) Exn (Option OpResult)}
    (h : Replacing env.ctx op x) : Writes env op.targets x := by
  cases h with
  | src commit _ _ htargets =>
      rw [htargets]
      exact Writes.replaceLast commit
  | dst commit _ _ _ htargets =>
      rw [htargets]
      exact Writes.replaceLast commit
  | both srcCommit dstCommit _ _ _ _ _ htargets =>
      rw [htargets]
      exact (WritesOnly.replace fun _ => WritesOnly.replace fun _ => WritesOnly.result _).writes

/-- What ends before any replacement leaves no trace. -/
theorem writes_dispatch (op : Op) : Writes env op.targets (dispatch env.ctx op) := by
  intro w
  rcases prepares_dispatch env.quiet op w with ⟨hsame, hout⟩ | ⟨w₁, x, hx, hsame, hrun⟩
  · refine ⟨[], .of_sameRefs hsame, ?_⟩
    rcases h : (dispatch env.ctx op w).1 with e | _ | res
    · exact Or.inl rfl
    · rfl
    · rw [h] at hout
      cases hout
  · rw [hrun]
    obtain ⟨log, hrec, hlog⟩ := writes_replacing env hx w₁
    exact ⟨log, (Recorded.of_sameRefs hsame).trans hrec, hlog⟩

/-- The refs after any run of `Exec` are those before it with the replacements
of its calls of `refReplace`.  A result means that each ref to rewrite was
replaced once, the source before the destination.  No result and an exception
mean that no ref was touched, unless a call of `refReplace` itself threw, or the peel of
the handle it returned: then what the calls up to there replaced stays replaced. -/
theorem exec_refs (op : Op) (w : World ω) :
    ∃ log, Recorded w (exec env.ctx op w).2 log ∧
      ExplainsExec env op.targets (exec env.ctx op w).1 (exec env.ctx op w).2 log := by
  obtain ⟨log, hrec, hlog⟩ := writes_dispatch env op w
  refine ⟨log, ?_⟩
  unfold exec Program.handle
  rcases h : dispatch env.ctx op w with ⟨e | _ | res, w₁⟩
  · rw [h] at hrec hlog
    dsimp only
    by_cases he : e = .conflictResolveCanceled
    · subst he
      exact ⟨hrec, hlog⟩
    · rw [if_neg he]
      exact ⟨hrec, hlog⟩
  · rw [h] at hrec hlog
    exact ⟨hrec, Or.inl hlog⟩
  · rw [h] at hrec hlog
    exact ⟨hrec, hlog⟩

end Operations

/-! ## A move that stops half way -/

namespace HalfMove

def tree : Tree := ⟨1⟩

def person : Signature := ⟨ascii "a", ascii "a@a", ⟨0, 0⟩⟩

def text (message : String) : CommitText := ⟨person, person, none, ascii message, []⟩

/-- The root of both branches. -/
def root : Commit := .mk tree [] (text "root")

/-- The head of the source branch. -/
def top : Commit := .mk tree [root] (text "top")

def srcRef : Ref := ⟨ascii "refs/heads/src", top, none⟩

def dstRef : Ref := ⟨ascii "refs/heads/dst", root, none⟩

def rev (ref : Ref) : Rev := ⟨⟨ref.commit, some ref⟩, 0, .allowed⟩

/-- Move the head of `src` on top of `dst`. -/
def op : Op := ⟨.move, ⟨some (rev srcRef), {top}⟩, ⟨some (rev dstRef), some root⟩⟩

/-- The ref `dst` cannot be replaced. -/
def env : Env Unit :=
  { plainEnv [] with
    refReplace := fun ref commit o =>
      if ref.fullName = dstRef.fullName then (.refused (.gitError .other), o)
      else (.done { ref with commit := commit }, o) }

def world : World Unit :=
  { plainWorld with
    refs := fun name =>
      if name = srcRef.fullName then some top
      else if name = dstRef.fullName then some root
      else none }

/-- The move throws, and the moved commit is gone from the source branch without
having arrived on the destination branch. -/
theorem exec_half_done :
    (exec env.ctx op world).1 = .error (.gitError .other) ∧
      world.refs srcRef.fullName = some top ∧
      (exec env.ctx op world).2.refs srcRef.fullName = some root ∧
      (exec env.ctx op world).2.refs dstRef.fullName = some root := by
  decide

end HalfMove

end Git
end Debase
