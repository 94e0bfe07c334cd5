import Mathlib.Data.List.Forall2
import Debase.Git.Atomic

/-!
# Histories after moving, copying and deleting commits

The first-parent chain of a replaced ref is compared, commit by commit, with the
old chain edited as asked: removed commits dropped, added commits inserted above
the position.  It is that chain exactly when two things hold: no rewritten
commit has a time that a commit object cannot hold, and the oldest commit of the
edited chain is not a merge.  A merge that is rewritten onto nothing loses its
first parent, and its second parent takes the place of the first.
-/

namespace Debase
namespace Git

open Library Modify

/-- `n` carries the author, the committer and the message of `c`. -/
def Stands (n c : Commit) : Prop :=
  n.author = c.author ∧ n.committer = c.committer ∧ n.message = c.message

instance (n c : Commit) : Decidable (Stands n c) := inferInstanceAs (Decidable (_ ∧ _))

theorem Stands.refl (c : Commit) : Stands c c := ⟨rfl, rfl, rfl⟩

/-- Both times of a commit survive being written again. -/
def Commit.StorableTimes (c : Commit) : Prop :=
  c.author.when.Storable ∧ c.committer.when.Storable

instance (c : Commit) : Decidable c.StorableTimes := inferInstanceAs (Decidable (_ ∧ _))

/-- `n` is `c` written anew: the same text, as far as a commit object holds it. -/
def Renews (n c : Commit) : Prop :=
  n.author = c.author.stored ∧ n.committer = c.committer.stored ∧ n.message = c.message

theorem Renews.stands_iff {n c : Commit} (h : Renews n c) : Stands n c ↔ c.StorableTimes := by
  obtain ⟨hauthor, hcommitter, hmessage⟩ := h
  unfold Stands Commit.StorableTimes
  rw [hauthor, hcommitter, Signature.stored_eq_self_iff, Signature.stored_eq_self_iff]
  simp [hmessage]

/-- Related lists, where the relation decides a second one by its right side. -/
theorem forall₂_iff_of_forall₂ {α β : Type} {R S : α → β → Prop} {P : β → Prop}
    (hRS : ∀ a b, R a b → (S a b ↔ P b)) {l : List α} {l' : List β}
    (h : List.Forall₂ R l l') : List.Forall₂ S l l' ↔ ∀ b ∈ l', P b := by
  induction h with
  | nil => simp
  | cons hab _ ih =>
      rw [List.forall₂_cons, List.forall_mem_cons, hRS _ _ hab, ih]

namespace Modify

section Applied

variable {σ : Type} {ctx : Ctx σ}

theorem commitParentSet_renews {favor : FileFavor} {commit : Commit} {parent : Option Commit}
    {s s' : σ} {n : Commit} (h : commitParentSet ctx favor commit parent s = (.ok n, s')) :
    Renews n commit ∧ n.parents = parent.toList ++ commit.parents.drop 1 := by
  obtain ⟨tree, rfl⟩ := commitParentSet_ok h
  refine ⟨⟨rfl, rfl, ?_⟩, rfl⟩
  simp

theorem Applied.renews {favor : FileFavor} {cs ns : List Commit} {base : Option Commit}
    {s s' : σ} (h : Applied ctx favor cs base s ns s') : List.Forall₂ Renews ns cs := by
  induction h with
  | nil => exact .nil
  | cons first _ ih => exact .cons (commitParentSet_renews first).1 ih

/-- What the chain of the new head has below the rewritten commits: the chain of
the base or, without a base, the chain of what was the second parent of the
oldest rewritten commit. -/
def belowBase (base : Option Commit) (cs : List Commit) : Option Commit :=
  base.or (cs.head?.bind fun c => c.parent 1)

theorem Applied.chain {favor : FileFavor} {cs ns : List Commit} {base : Option Commit}
    {s s' : σ} (h : Applied ctx favor cs base s ns s') :
    chainOf (ns.getLast?.or base) = ns.reverse ++ chainOf (belowBase base cs) := by
  induction h with
  | nil base _ => simp [belowBase]
  | @cons c n cs ns base _ _ _ first _ ih =>
      obtain ⟨-, hparents⟩ := commitParentSet_renews first
      have hparent : n.parent = belowBase base (c :: cs) := by
        unfold belowBase Commit.parent
        rw [hparents]
        cases base with
        | none => simp
        | some b => simp
      have hhead : (n :: ns).getLast?.or base = ns.getLast?.or (some n) := by
        rw [List.getLast?_cons]
        cases ns.getLast? <;> rfl
      rw [hhead, ih]
      have hsome : belowBase (some n) cs = some n := rfl
      rw [hsome, chainOf_some, Commit.chain_eq, hparent]
      simp

end Applied

/-! ## The histories an operation is asked for -/

/-- What an operation does to one ref: its head, the commits to add (newest
first) and their position, and the commits to remove. -/
structure Rewrite where
  ref : Ref
  head : Commit
  added : List Commit
  position : Option Commit
  removed : Finset Commit

namespace Rewrite

/-- The history asked for, newest first. -/
def history (rw : Rewrite) : List Commit :=
  edited rw.added rw.position rw.removed rw.head.chain

/-- The part of the history that has to be written anew. -/
def renewed (rw : Rewrite) : List Commit :=
  rewritten rw.added rw.position rw.removed rw.head.chain

/-- The condition under which the code makes the history asked for. -/
def Faithful (rw : Rewrite) : Prop :=
  (∀ c ∈ rw.renewed, c.StorableTimes) ∧ ∀ c ∈ rw.history.getLast?, c.isMerge = false

instance (rw : Rewrite) : Decidable rw.Faithful := inferInstanceAs (Decidable (_ ∧ _))

end Rewrite

/-- The refs that a move, a copy or a deletion rewrites, and how. -/
def Op.rewrites (op : Op) : List Rewrite :=
  let commits := op.src.commits
  let selected := fun src : Rev => src.commit.chain.filter (· ∈ commits)
  match op.type, op.src.rev, op.dst.rev with
  | .move, some src, some dst =>
      match src.ref, dst.ref with
      | some srcRef, some dstRef =>
          if srcRef.fullName = dstRef.fullName then
            [⟨dstRef, dst.commit, selected src, op.dst.position, commits⟩]
          else
            [⟨srcRef, src.commit, [], none, commits⟩,
              ⟨dstRef, dst.commit, selected src, op.dst.position, ∅⟩]
      | _, _ => []
  | .copy, some src, some dst =>
      match dst.ref with
      | some dstRef => [⟨dstRef, dst.commit, selected src, op.dst.position, ∅⟩]
      | none => []
  | .delete, some src, _ =>
      match src.ref with
      | some srcRef => [⟨srcRef, src.commit, [], none, commits⟩]
      | none => []
  | _, _, _ => []

section Histories

/-- A head that `_AddRemoveCommits` made for a rewrite. -/
def Rebuilt {σ : Type} (ctx : Ctx σ) (rw : Rewrite) (head : Commit) : Prop :=
  ∃ favor base ns s s', Applied ctx favor rw.renewed.reverse base s ns s' ∧
    some head = ns.getLast?.or base ∧
    chainOf base = kept rw.added rw.position rw.removed rw.head.chain

/-- The oldest commit of a chain has no parent. -/
theorem parents_of_getLast?_chain {c d : Commit} (h : c.chain.getLast? = some d) :
    d.parents = [] := by
  generalize hn : c.chain.length = n
  induction n generalizing c with
  | zero => simp at hn
  | succ n ih =>
      cases hp : c.parent with
      | none =>
          rw [c.chain_eq, hp] at h
          cases h
          simpa [Commit.parent] using hp
      | some p =>
          rw [c.chain_eq, hp, chainOf_some, List.getLast?_cons] at h
          rw [c.chain_eq, hp, chainOf_some, List.length_cons] at hn
          cases hlast : p.chain.getLast? with
          | none => simp at hlast
          | some e =>
              rw [hlast] at h
              cases h
              exact ih hlast (by omega)

/-- The history of a rebuilt head is the one asked for exactly under the
condition of `Rewrite.Faithful`. -/
theorem Rebuilt.history_iff {σ : Type} {ctx : Ctx σ} {rw : Rewrite} {head : Commit}
    (h : Rebuilt ctx rw head) :
    List.Forall₂ Stands head.chain rw.history ↔ rw.Faithful := by
  obtain ⟨favor, base, ns, s, s', happlied, hhead, hbase⟩ := h
  have hrenews : List.Forall₂ Renews ns.reverse rw.renewed := by
    rw [← List.forall₂_reverse_iff, List.reverse_reverse]
    exact happlied.renews
  have hchain : head.chain = ns.reverse ++ chainOf (belowBase base rw.renewed.reverse) := by
    rw [← happlied.chain, ← hhead, chainOf_some]
  have hhistory : rw.history = rw.renewed ++ chainOf base := by
    rw [hbase]
    exact (rewritten_append_kept _ _ _ _).symm
  have hlen : ns.reverse.length = rw.renewed.length := hrenews.length_eq
  have hstands : List.Forall₂ Stands ns.reverse rw.renewed ↔ ∀ c ∈ rw.renewed, c.StorableTimes :=
    forall₂_iff_of_forall₂ (fun _ _ hn => hn.stands_iff) hrenews
  rw [hchain, hhistory]
  unfold Rewrite.Faithful
  rw [hhistory]
  cases base with
  | some b =>
      -- the history ends in the root of the old chain
      have hroot : ∀ c ∈ (rw.renewed ++ chainOf (some b)).getLast?, c.isMerge = false := by
        intro c hc
        rw [List.getLast?_append_of_ne_nil _ (by simp), Option.mem_def] at hc
        simp [Commit.isMerge, parents_of_getLast?_chain hc]
      rw [show belowBase (some b) rw.renewed.reverse = some b from rfl]
      constructor
      · intro hall
        refine ⟨hstands.mp ?_, hroot⟩
        have htake := List.forall₂_take rw.renewed.length hall
        rwa [← hlen, List.take_left, hlen, List.take_left] at htake
      · rintro ⟨htimes, -⟩
        exact List.rel_append (hstands.mpr htimes) (List.forall₂_same.mpr fun c _ => Stands.refl c)
  | none =>
      -- the history ends in the oldest rewritten commit
      have hbelow : belowBase none rw.renewed.reverse =
          rw.renewed.getLast?.bind fun c => c.parent 1 := by
        simp [belowBase]
      have hmerge : belowBase none rw.renewed.reverse = none ↔
          ∀ c ∈ rw.renewed.getLast?, c.isMerge = false := by
        rw [hbelow, Option.bind_eq_none_iff]
        simp [Commit.parent, Commit.isMerge]
      rw [chainOf_none, List.append_nil, ← hmerge]
      constructor
      · intro hall
        have hnone : belowBase none rw.renewed.reverse = none := by
          have hsum := hall.length_eq
          rw [List.length_append, hlen] at hsum
          cases hb : belowBase none rw.renewed.reverse with
          | none => rfl
          | some b =>
              rw [hb, chainOf_some, Commit.chain_eq] at hsum
              simp at hsum
        rw [hnone, chainOf_none, List.append_nil] at hall
        exact ⟨hstands.mp hall, hnone⟩
      · rintro ⟨htimes, hnone⟩
        rw [hnone, chainOf_none, List.append_nil]
        exact hstands.mpr htimes

theorem addRemoveCommits_rebuilt {σ : Type} {ctx : Ctx σ} {favor : FileFavor} {dst : Commit}
    {add : Finset Commit} {addSrc addPosition : Option Commit} {remove : Finset Commit}
    {s s' : σ} {r : AddRemoveResult} {c : Commit} (ref : Ref)
    (h : addRemoveCommits ctx favor dst add addSrc addPosition remove s = (.ok r, s'))
    (hc : r.commit = some c) :
    Rebuilt ctx ⟨ref, dst, (chainOf addSrc).filter (· ∈ add), addPosition, remove⟩ c := by
  obtain ⟨base, ns, happlied, hr, hbase, -⟩ := addRemoveCommits_ok h
  exact ⟨favor, base, ns, s, s', happlied, by rw [← hr, hc], hbase⟩

variable {ω : Type} {env : Env ω}

theorem revReplace_ok {rev rev' : Rev} {ref : Ref} {commit : Option Commit} {w w' : World ω}
    (h : revReplace env.ctx rev ref commit w = (.ok rev', w')) :
    ∃ c ref', commit = some c ∧ Recorded w w' [⟨ref, c, .done ref'⟩] ∧ SameAsked w w' := by
  cases commit with
  | none => cases h
  | some c =>
      obtain ⟨ref', w₁, hreplace, hrest⟩ := Program.bind_eq_ok.mp h
      obtain ⟨_, w₂, hpeel, hpure⟩ := Program.bind_eq_ok.mp hrest
      cases hpure
      obtain ⟨o, rfl⟩ := Env.replace_ok hreplace
      have hrefs := (env.quiet.refPeel ref').run hpeel
      have hasked := (env.refPeel_sameAsked ref').run hpeel
      exact ⟨c, ref', rfl, (Recorded.record _ _ _).trans (.of_sameRefs hrefs), hasked⟩

/-- A call of `refReplace` with a head that was made for a rewrite. -/
def Performs (env : Env ω) (call : ReplaceCall) (rw : Rewrite) : Prop :=
  call.ref = rw.ref ∧ Rebuilt env.ctx rw call.commit

theorem moveWithin_rebuilt {op : Op} {src dst : Rev} {dstRef : Ref} {w w' : World ω}
    {res : OpResult} (h : moveWithin env.ctx op src dst dstRef w = (.ok (some res), w')) :
    ∃ log, Recorded w w' log ∧ List.Forall₂ (Performs env) log
      [⟨dstRef, dst.commit, src.commit.chain.filter (· ∈ op.src.commits), op.dst.position,
        op.src.commits⟩] := by
  obtain ⟨r, w₁, hbuild, hrest⟩ := Program.bind_eq_ok.mp h
  obtain ⟨dstRev, w₂, hreplace, hpure⟩ := Program.bind_eq_ok.mp hrest
  cases hpure
  obtain ⟨c, ref', hc, hrec, -⟩ := revReplace_ok hreplace
  have hquiet := (Quiet.addRemoveCommits env.quiet _ _ _ _ _ _).run hbuild
  refine ⟨_, (Recorded.of_sameRefs hquiet).trans hrec, .cons ⟨rfl, ?_⟩ .nil⟩
  exact addRemoveCommits_rebuilt dstRef hbuild hc

theorem moveBetween_rebuilt {op : Op} {src dst : Rev} {srcRef dstRef : Ref} {w w' : World ω}
    {res : OpResult}
    (h : moveBetween env.ctx op src dst srcRef dstRef w = (.ok (some res), w')) :
    ∃ log, Recorded w w' log ∧ List.Forall₂ (Performs env) log
      [⟨srcRef, src.commit, [], none, op.src.commits⟩,
        ⟨dstRef, dst.commit, src.commit.chain.filter (· ∈ op.src.commits), op.dst.position,
          ∅⟩] := by
  obtain ⟨srcResult, w₁, hsrc, hrest⟩ := Program.bind_eq_ok.mp h
  rcases hsrcCommit : srcResult.commit with _ | srcCommit
  · simp [hsrcCommit] at hrest
  simp only [hsrcCommit] at hrest
  obtain ⟨dstResult, w₂, hdst, hrest⟩ := Program.bind_eq_ok.mp hrest
  obtain ⟨srcRev, w₃, hreplaceSrc, hrest⟩ := Program.bind_eq_ok.mp hrest
  obtain ⟨dstRev, w₄, hreplaceDst, hpure⟩ := Program.bind_eq_ok.mp hrest
  cases hpure
  obtain ⟨c, ref', hc, hrecSrc, -⟩ := revReplace_ok hreplaceSrc
  obtain ⟨d, ref'', hd, hrecDst, -⟩ := revReplace_ok hreplaceDst
  cases hc
  have hquietSrc := (Quiet.addRemoveCommits env.quiet _ _ _ _ _ _).run hsrc
  have hquietDst := (Quiet.addRemoveCommits env.quiet _ _ _ _ _ _).run hdst
  refine ⟨_, (Recorded.of_sameRefs (trans_of SameRefs hquietSrc hquietDst)).trans
    (hrecSrc.trans hrecDst), .cons ⟨rfl, ?_⟩ (.cons ⟨rfl, ?_⟩ .nil)⟩
  · exact addRemoveCommits_rebuilt srcRef hsrc hsrcCommit
  · exact addRemoveCommits_rebuilt dstRef hdst hd

/-- Every move, copy and deletion that returns a result replaced the refs it is
to rewrite, each by a head made for it. -/
theorem exec_rebuilt {op : Op} {w : World ω}
    (htype : op.type = .move ∨ op.type = .copy ∨ op.type = .delete)
    (h : HasResult (exec env.ctx op w).1) :
    ∃ log, Recorded w (exec env.ctx op w).2 log ∧
      List.Forall₂ (Performs env) log op.rewrites := by
  obtain ⟨res, hdispatch⟩ := exec_hasResult h
  unfold dispatch at hdispatch
  rcases htype with hmove | hcopy | hdelete
  · simp only [hmove] at hdispatch
    obtain ⟨src, dst, srcRef, dstRef, hsrc, hdst, hsrcRef, hdstRef, hbranch⟩ :=
      moveCommits_ok hdispatch
    unfold Op.rewrites
    simp only [hmove, hsrc, hdst, hsrcRef, hdstRef]
    rcases hbranch with ⟨hsame, hwithin⟩ | ⟨hdiff, hbetween⟩
    · rw [if_pos hsame]
      exact moveWithin_rebuilt hwithin
    · rw [if_neg hdiff]
      exact moveBetween_rebuilt hbetween
  · simp only [hcopy] at hdispatch
    obtain ⟨src, dst, dstRef, r, w₁, rev, hsrc, hdst, hdstRef, hbuild, hreplace⟩ :=
      copyCommits_ok hdispatch
    obtain ⟨c, ref', hc, hrec, -⟩ := revReplace_ok hreplace
    have hquiet := (Quiet.addRemoveCommits env.quiet _ _ _ _ _ _).run hbuild
    unfold Op.rewrites
    simp only [hcopy, hsrc, hdst, hdstRef]
    refine ⟨_, (Recorded.of_sameRefs hquiet).trans hrec, .cons ⟨rfl, ?_⟩ .nil⟩
    exact addRemoveCommits_rebuilt dstRef hbuild hc
  · simp only [hdelete] at hdispatch
    obtain ⟨src, srcRef, r, w₁, rev, hsrc, hsrcRef, hbuild, hreplace⟩ :=
      deleteCommits_ok hdispatch
    obtain ⟨c, ref', hc, hrec, -⟩ := revReplace_ok hreplace
    have hquiet := (Quiet.addRemoveCommits env.quiet _ _ _ _ _ _).run hbuild
    unfold Op.rewrites
    simp only [hdelete, hsrc, hsrcRef]
    refine ⟨_, (Recorded.of_sameRefs hquiet).trans hrec, .cons ⟨rfl, ?_⟩ .nil⟩
    exact addRemoveCommits_rebuilt srcRef hbuild hc

/-- Between two worlds, each ref the operation is to rewrite was replaced once,
and its new first-parent chain is the history asked for: one commit for each
entry, with its author, committer and message, and no other commit. -/
def HistoriesAsAsked (op : Op) (w w' : World ω) : Prop :=
  ∃ log, Recorded w w' log ∧
    List.Forall₂ (fun call rw => call.ref = rw.ref ∧
      List.Forall₂ Stands call.commit.chain rw.history) log op.rewrites

/-- A move, copy or deletion that returns a result makes the histories it was
asked for exactly when each of them ends in a commit that is not a merge, and
every commit that is written anew has times a commit object can hold. -/
theorem exec_histories_iff {op : Op} {w : World ω}
    (htype : op.type = .move ∨ op.type = .copy ∨ op.type = .delete)
    (h : HasResult (exec env.ctx op w).1) :
    HistoriesAsAsked op w (exec env.ctx op w).2 ↔ ∀ rw ∈ op.rewrites, rw.Faithful := by
  obtain ⟨log, hrec, hlog⟩ := exec_rebuilt htype h
  have hiff : List.Forall₂ (fun call rw => call.ref = rw.ref ∧
      List.Forall₂ Stands call.commit.chain rw.history) log op.rewrites ↔
      ∀ rw ∈ op.rewrites, rw.Faithful := by
    apply forall₂_iff_of_forall₂ _ hlog
    rintro call rw ⟨href, hbuilt⟩
    rw [hbuilt.history_iff]
    simp [href]
  rw [← hiff]
  constructor
  · rintro ⟨log', hrec', hhistories⟩
    have hsame : log' = log := List.append_cancel_left (hrec'.1.symm.trans hrec.1)
    rwa [hsame] at hhistories
  · intro hhistories
    exact ⟨log, hrec, hhistories⟩

end Histories

end Modify

namespace HalfMove

/-- The move of the head of one branch onto another, when no call fails. -/
theorem histories_of_move :
    HasResult (exec (plainEnv []).ctx op world).1 ∧
      HistoriesAsAsked op world (exec (plainEnv []).ctx op world).2 :=
  ⟨by decide, (exec_histories_iff (Or.inl rfl) (by decide)).mpr (by decide)⟩

end HalfMove

/-! ## A merge above a removed root -/

namespace RemovedRoot

def commit (message : String) (parents : List Commit) : Commit :=
  .mk HalfMove.tree parents (HalfMove.text message)

/-- The root of the branch. -/
def root : Commit := commit "root" []

/-- The root of the history that was merged in. -/
def other : Commit := commit "other" []

/-- The head of the branch. -/
def merge : Commit := commit "merge" [root, other]

def ref : Ref := ⟨ascii "refs/heads/main", merge, none⟩

/-- Delete the root. -/
def op : Op := ⟨.delete, ⟨some (HalfMove.rev ref), {root}⟩, {}⟩

/-- The merge, written anew onto nothing, with the tree that is left. -/
def newMerge : Commit := .mk ⟨0⟩ [other] (HalfMove.text "merge")

/-- The new chain of the branch holds `other`, which was never on it. -/
theorem histories_not_as_asked :
    HasResult (exec (plainEnv []).ctx op plainWorld).1 ∧
      ¬HistoriesAsAsked op plainWorld (exec (plainEnv []).ctx op plainWorld).2 := by
  refine ⟨by decide, ?_⟩
  have hcalls : (exec (plainEnv []).ctx op plainWorld).2.calls =
      [⟨ref, newMerge, .done { ref with commit := newMerge }⟩] := by decide
  rintro ⟨log, ⟨hlog, -⟩, hhistories⟩
  have hone : log = [⟨ref, newMerge, .done { ref with commit := newMerge }⟩] := by
    rw [← hcalls, hlog]
    rfl
  rw [hone] at hhistories
  revert hhistories
  decide

end RemovedRoot

end Git
end Debase
