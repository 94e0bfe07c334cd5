import Mathlib.Logic.Function.Basic
import Debase.Git.Modify

/-!
# A world around the commit operations

`Exec` runs in a world of refs that only `refReplace` changes.  An `Env` says how
everything outside the operations behaves: each libgit2 call, the editor, the
user who resolves conflicts and the replacement of a ref may answer anything or
fail, and may answer differently at every call, because each of them reads and
changes the state `ω` of the outside.

The world also keeps a record that the program itself does not have: the calls
of `refReplace` and the number of times the user was asked to resolve conflicts.
-/

namespace Debase
namespace Git

open Library Modify

/-- How a call of `refReplace` ends. -/
inductive ReplaceReply where
  /-- The ref was replaced; the handle looked up afterwards is returned. -/
  | done (ref : Ref)
  /-- An exception before the ref was replaced. -/
  | refused (e : Exn)
  /-- An exception after the ref was replaced. -/
  | late (e : Exn)
deriving DecidableEq

namespace ReplaceReply

/-- The exception of a call that did not return. -/
def thrown : ReplaceReply → Option Exn
  | done _ => none
  | refused e => some e
  | late e => some e

/-- Whether the ref was replaced. -/
def took : ReplaceReply → Bool
  | done _ => true
  | refused _ => false
  | late _ => true

end ReplaceReply

/-- A call of `refReplace` and how it ended. -/
structure ReplaceCall where
  ref : Ref
  commit : Commit
  reply : ReplaceReply
deriving DecidableEq

/-- The commits of the refs, by full name. -/
abbrev RefMap := Bytes → Option Commit

/-- The refs, the outside and the record of the run. -/
structure World (ω : Type) where
  refs : RefMap
  calls : List ReplaceCall
  asked : Nat
  outside : ω

/-- The behaviour of everything outside the operations. -/
structure Env (ω : Type) where
  repo : Repo ω
  refReplace (ref : Ref) (commit : Commit) : ω → ReplaceReply × ω
  refPeel (ref : Ref) : Program ω Exn Unit
  spawn (content : Bytes) : Program ω Exn Bytes
  conflictsResolve (index : Index) (conflicts : List Conflict) : Program ω Exn Index
  trim : Bytes → Bytes
  strings : Toastbox.Strings

/-- The refs after a call of `refReplace`. -/
def RefMap.after (refs : RefMap) (call : ReplaceCall) : RefMap :=
  if call.reply.took then Function.update refs call.ref.fullName (some call.commit) else refs

namespace World

variable {ω : Type}

/-- Run a program of the outside in the world. -/
def outsideRun {α : Type} (x : Program ω Exn α) : Program (World ω) Exn α :=
  x.zoom outside fun o w => { w with outside := o }

theorem outsideRun_ok {α : Type} {x : Program ω Exn α} {w w' : World ω} {a : α}
    (h : outsideRun x w = (.ok a, w')) : ∃ o, x w.outside = (.ok a, o) := by
  unfold outsideRun Program.zoom at h
  rcases hx : x w.outside with ⟨r, o⟩
  rw [hx] at h
  cases h
  exact ⟨o, rfl⟩

theorem outsideRun_error {α : Type} {x : Program ω Exn α} {w w' : World ω} {e : Exn}
    (h : outsideRun x w = (.error e, w')) : x w.outside = (.error e, w'.outside) := by
  unfold outsideRun Program.zoom at h
  rcases hx : x w.outside with ⟨r, o⟩
  rw [hx] at h
  cases h
  rfl

/-- The world after a call of `refReplace`. -/
def record (w : World ω) (call : ReplaceCall) (outside : ω) : World ω :=
  { w with
    refs := w.refs.after call
    calls := w.calls ++ [call]
    outside := outside }

end World

/-- The libgit2 calls in the world. -/
def Repo.inWorld {ω : Type} (repo : Repo ω) : Repo (World ω) :=
  repo.zoom World.outside fun o w => { w with outside := o }

namespace Env

variable {ω : Type} (env : Env ω)

/-- `refReplace` in the world: the ref and the record change together. -/
def replace (ref : Ref) (commit : Commit) : Program (World ω) Exn Ref := fun w =>
  match env.refReplace ref commit w.outside with
  | (reply, o) =>
      (match reply with
        | .done ref' => .ok ref'
        | .refused e => .error e
        | .late e => .error e,
        w.record ⟨ref, commit, reply⟩ o)

/-- The `Ctx` of an environment. -/
def ctx : Ctx (World ω) where
  repo := env.repo.inWorld
  refReplace := env.replace
  refPeel ref := World.outsideRun (env.refPeel ref)
  spawn content := World.outsideRun (env.spawn content)
  conflictsResolve index conflicts := do
    Program.update fun w : World ω => { w with asked := w.asked + 1 }
    World.outsideRun (env.conflictsResolve index conflicts)
  trim := env.trim
  strings := env.strings

end Env

/-! ## What keeps what -/

/-- Two worlds with the same refs and the same calls of `refReplace`. -/
def SameRefs {ω : Type} (w w' : World ω) : Prop := w'.refs = w.refs ∧ w'.calls = w.calls

instance {ω : Type} : Std.Refl (SameRefs (ω := ω)) := ⟨fun _ => ⟨rfl, rfl⟩⟩

instance {ω : Type} : IsTrans (World ω) SameRefs :=
  ⟨fun _ _ _ h h' => ⟨h'.1.trans h.1, h'.2.trans h.2⟩⟩

/-- Two worlds between which the user was not asked. -/
def SameAsked {ω : Type} (w w' : World ω) : Prop := w'.asked = w.asked

instance {ω : Type} : Std.Refl (SameAsked (ω := ω)) := ⟨fun _ => rfl⟩

instance {ω : Type} : IsTrans (World ω) SameAsked := ⟨fun _ _ _ h h' => Eq.trans h' h⟩

section Keeps

variable {ω : Type} {R : World ω → World ω → Prop}

/-- A program of the outside keeps everything that does not look at it. -/
theorem World.outsideRun_keeps {α : Type} (hR : ∀ (o : ω) (w : World ω), R w { w with outside := o })
    (x : Program ω Exn α) : Program.Keeps R (World.outsideRun x) :=
  Program.Keeps.zoom hR x

/-- The libgit2 calls reach only the outside. -/
theorem Repo.keeps_inWorld (repo : Repo ω)
    (hR : ∀ (o : ω) (w : World ω), R w { w with outside := o }) : repo.inWorld.Keeps R :=
  Repo.Keeps.zoom hR repo

/-- Only `refReplace` changes refs. -/
theorem Env.quiet (env : Env ω) : env.ctx.Quiet SameRefs where
  repo := env.repo.keeps_inWorld fun _ _ => ⟨rfl, rfl⟩
  refPeel _ := World.outsideRun_keeps (fun _ _ => ⟨rfl, rfl⟩) _
  spawn _ := World.outsideRun_keeps (fun _ _ => ⟨rfl, rfl⟩) _
  conflictsResolve _ _ :=
    (Program.Keeps.update fun _ => ⟨rfl, rfl⟩).bind fun _ =>
      World.outsideRun_keeps (fun _ _ => ⟨rfl, rfl⟩) _

/-- The libgit2 calls do not ask the user. -/
theorem Env.repo_sameAsked (env : Env ω) : env.ctx.repo.Keeps SameAsked :=
  env.repo.keeps_inWorld fun _ _ => rfl

/-- Neither does reading the commit of a handle. -/
theorem Env.refPeel_sameAsked (env : Env ω) (ref : Ref) :
    Program.Keeps SameAsked (env.ctx.refPeel ref) :=
  World.outsideRun_keeps (fun _ _ => rfl) (env.refPeel ref)

/-- The editor does not ask the user to resolve conflicts. -/
theorem Env.spawn_sameAsked (env : Env ω) (content : Bytes) :
    Program.Keeps SameAsked (env.ctx.spawn content) :=
  World.outsideRun_keeps (fun _ _ => rfl) (env.spawn content)

end Keeps

/-- A call that returned was recorded as done. -/
theorem Env.replace_ok {ω : Type} {env : Env ω} {ref ref' : Ref} {commit : Commit}
    {w w' : World ω} (h : env.replace ref commit w = (.ok ref', w')) :
    ∃ o, w' = w.record ⟨ref, commit, .done ref'⟩ o := by
  unfold Env.replace at h
  rcases hreply : env.refReplace ref commit w.outside with ⟨reply, o⟩
  rw [hreply] at h
  cases reply with
  | done r =>
      simp only [Prod.mk.injEq, Except.ok.injEq] at h
      obtain ⟨rfl, rfl⟩ := h
      exact ⟨o, rfl⟩
  | refused e => simp at h
  | late e => simp at h

/-- A call that threw was recorded with its exception. -/
theorem Env.replace_error {ω : Type} {env : Env ω} {ref : Ref} {commit : Commit}
    {w w' : World ω} {e : Exn} (h : env.replace ref commit w = (.error e, w')) :
    ∃ reply o, reply.thrown = some e ∧ w' = w.record ⟨ref, commit, reply⟩ o := by
  unfold Env.replace at h
  rcases hreply : env.refReplace ref commit w.outside with ⟨reply, o⟩
  rw [hreply] at h
  cases reply with
  | done r => simp at h
  | refused e' =>
      simp only [Prod.mk.injEq, Except.error.injEq] at h
      obtain ⟨rfl, rfl⟩ := h
      exact ⟨.refused e', o, rfl, rfl⟩
  | late e' =>
      simp only [Prod.mk.injEq, Except.error.injEq] at h
      obtain ⟨rfl, rfl⟩ := h
      exact ⟨.late e', o, rfl, rfl⟩

/-! ## An outside without failures -/

/-- A repository that holds trees as indexes of one entry and merges whole trees:
a side that equals the ancestor gives way to the other one. -/
def wholeTreeRepo : Repo Unit where
  mergeTrees _ ancestor ours theirs :=
    let tree := if ours = ancestor then theirs else ours
    pure ⟨(tree.map fun t => (⟨[], .normal, 0, t.id⟩ : IndexEntry)).toList⟩
  indexWrite index := pure ⟨(index.entries.head?.map IndexEntry.id).getD 0⟩
  commitStore _ := pure ()
  merge _ _ _ := pure ⟨true, []⟩
  blobLookup _ := pure []
  blobCreate _ := pure 0

/-- An environment where no call fails, and the editor leaves the given text. -/
def plainEnv (edited : Bytes) : Env Unit where
  repo := wholeTreeRepo
  refReplace ref commit o := (.done { ref with commit := commit }, o)
  refPeel _ := pure ()
  spawn _ := pure edited
  conflictsResolve index _ := pure index
  trim := fun s => (s.dropWhile isSpace).rdropWhile isSpace
  strings := .plain

/-- Its `trim` does what `String::Trim` is documented to do. -/
theorem plainEnv_trimsSpace (edited : Bytes) : Modify.TrimsSpace (plainEnv edited).trim := by
  intro before s after hbefore hafter htidy
  obtain ⟨hhead, hlast⟩ := htidy
  have hkeep : ∀ l : Bytes, (∀ b ∈ l.head?, isSpace b = false) → l.dropWhile isSpace = l := by
    intro l hl
    cases l with
    | nil => rfl
    | cons b l => simp [hl b rfl]
  have hlast' : ∀ b ∈ s.reverse.head?, isSpace b = false := by
    rwa [List.head?_reverse]
  have hafter' : ∀ b ∈ after.reverse, isSpace b = true := by simpa using hafter
  show (List.dropWhile isSpace _).rdropWhile isSpace = s
  rw [List.append_assoc, List.dropWhile_append_of_pos hbefore]
  cases s with
  | nil =>
      rw [List.nil_append, ← List.append_nil after, List.dropWhile_append_of_pos hafter]
      rfl
  | cons b s =>
      have hb : isSpace b = false := hhead b rfl
      rw [List.cons_append, List.dropWhile_cons_of_neg (by simp [hb]), ← List.cons_append,
        List.rdropWhile, List.reverse_append, List.dropWhile_append_of_pos hafter',
        hkeep _ hlast', List.reverse_reverse]

theorem plainEnv_trims (edited : Bytes) : Modify.Trims (plainEnv edited).trim :=
  (plainEnv_trimsSpace edited).trims

/-- A world with no refs recorded. -/
def plainWorld : World Unit := ⟨fun _ => none, [], 0, ()⟩

end Git
end Debase
