import Debase.Git.Safety

/-!
# Operations that the user interface issues

`Op.Issued` is what the callers of `Modify::Exec` guarantee.  An issued operation
either ends early (`Op.Idle`), or it writes commits anew and goes on to replace its
refs.  No assertion fails before that exactly when every commit written anew has room
for its parents (`Op.HasRoom`).
-/

namespace Debase
namespace Git

open Library

namespace Modify

/-- What the user interface guarantees: a selection on the first-parent chain of its
rev and a position on the destination's chain or none.  Two revs of one ref have the
same commit. -/
structure Op.Issued (op : Op) : Prop where
  source : op.type ≠ .none → ∃ src, op.src.rev = some src ∧ op.src.commits ≠ ∅ ∧
    ∀ c ∈ op.src.commits, c ∈ src.commit.chain
  destination : op.type = .move ∨ op.type = .copy → ∃ dst, op.dst.rev = some dst ∧
    ∀ p, op.dst.position = some p → p ∈ dst.commit.chain
  noDestination : op.type = .delete ∨ op.type = .combine ∨ op.type = .edit → op.dst.rev = none
  single : op.type = .edit → op.src.commits.card = 1
  sameCommit : ∀ src dst ref, op.src.rev = some src → op.dst.rev = some dst →
    src.ref = some ref → Ref.same src.ref dst.ref = true → src.commit = dst.commit

/-- The operation ends before it writes a commit anew, or with nothing left to write:
it has no ref to rewrite, it moves commits where they are, it removes the whole
history, it combines too few commits or a merge, or it edits a commit whose date has
no text. -/
def Op.Idle (op : Op) : Prop :=
  op.targets = [] ∨
    match op.type, op.src.rev, op.dst.rev with
    | .move, some src, some dst =>
        moveIsNop src dst op = .ok true ∨
          Ref.same src.ref dst.ref = false ∧ ∀ c ∈ src.commit.chain, c ∈ op.src.commits
    | .delete, some src, _ => ∀ c ∈ src.commit.chain, c ∈ op.src.commits
    | .combine, _, _ => op.src.commits.card < 2 ∨ commitsHasMerge op.src.commits
    | .edit, _, _ => ∀ c ∈ op.src.commits, ∀ text,
        stringFromCommitMessage (commitMessageForCommit c) ≠ .ok text
    | _, _, _ => False

/-- Every commit that the operation writes anew has room for its parents.  Combining
and editing write anew what lies at or above a selected commit. -/
def Op.HasRoom (op : Op) : Prop :=
  match op.type, op.src.rev with
  | .combine, some src | .edit, some src =>
      ∀ c ∈ src.commit.chain, (∃ d ∈ op.src.commits, d ∈ c.chain) → c.parents.length ≤ 4
  | _, _ => ∀ rw ∈ op.rewrites, rw.HasRoom

/-! ## Replacing the refs -/

section Replacing

variable {σ : Type} (ctx : Ctx σ)

/-- The calls of `refReplace` at the end of an operation, each with the peel of the handle
it returned. -/
def replaceAll : List (Ref × Commit) → Program σ Exn Unit
  | [] => pure ()
  | call :: calls => do
      let ref ← ctx.refReplace call.1 call.2
      ctx.refPeel ref
      replaceAll calls

/-- A program that replaces these refs, and aborts where one of the calls does. -/
def ReplacesAll (refs : List Ref) (t : Program σ Exn (Option OpResult)) : Prop :=
  ∃ calls : List (Ref × Commit), calls.map Prod.fst = refs ∧
    ∀ s, (t s).1 = .error .abort ↔ (replaceAll ctx calls s).1 = .error .abort

variable {ctx}

theorem ReplacesAll.one (rev : Rev) (ref : Ref) (commit : Commit) (result : Rev → OpResult) :
    ReplacesAll ctx [ref]
      (revReplace ctx rev ref (some commit) >>= fun r => pure (some (result r))) := by
  refine ⟨[(ref, commit)], rfl, fun s => ?_⟩
  unfold revReplace
  simp only [bind_assoc, pure_bind]
  apply Program.throws_bind_congr
  intro ref' s'
  apply Program.throws_bind_congr
  intro _ s''
  simp [replaceAll]

theorem ReplacesAll.two (src dst : Rev) (srcRef dstRef : Ref) (srcCommit dstCommit : Commit)
    (result : Rev → Rev → OpResult) :
    ReplacesAll ctx [srcRef, dstRef]
      (revReplace ctx src srcRef (some srcCommit) >>= fun r =>
        revReplace ctx dst dstRef (some dstCommit) >>= fun r' => pure (some (result r r'))) := by
  refine ⟨[(srcRef, srcCommit), (dstRef, dstCommit)], rfl, fun s => ?_⟩
  unfold revReplace
  simp only [bind_assoc, pure_bind]
  apply Program.throws_bind_congr
  intro ref' s'
  apply Program.throws_bind_congr
  intro _ s''
  apply Program.throws_bind_congr
  intro ref'' s₃
  apply Program.throws_bind_congr
  intro _ s₄
  simp [replaceAll]

end Replacing

/-! ## Moving -/

/-- A move that is not idle: both revs have refs, and the test for a move to the same
place has let it pass. -/
structure Moves (op : Op) (src dst : Rev) (srcRef dstRef : Ref) : Prop where
  hsrc : op.src.rev = some src
  hdst : op.dst.rev = some dst
  hsrcRef : src.ref = some srcRef
  hdstRef : dst.ref = some dstRef
  selected : op.src.commits ≠ ∅
  onChain : ∀ c ∈ op.src.commits, c ∈ src.commit.chain
  position : ∀ p, op.dst.position = some p → p ∈ dst.commit.chain
  notNop : moveIsNop src dst op = .ok false
  sameCommit : srcRef.fullName = dstRef.fullName → src.commit = dst.commit
  leaves : srcRef.fullName ≠ dstRef.fullName → ∃ c ∈ src.commit.chain, c ∉ op.src.commits

/-- The test for a move to the same place comes to an end. -/
theorem moveIsNop_total {src : Rev} (dst : Rev) {op : Op} (hne : op.src.commits ≠ ∅)
    (hsub : ∀ c ∈ op.src.commits, c ∈ src.commit.chain) :
    ∃ nop, moveIsNop src dst op = .ok nop := by
  unfold moveIsNop
  by_cases hsame : (!Ref.same src.ref dst.ref) = true
  · exact ⟨false, by rw [if_pos hsame]⟩
  · rw [if_neg hsame]
    obtain ⟨gap, hgap⟩ := commitsHasGapLoop_total hsub false
    obtain ⟨tail, htail⟩ := findEarliestLoop_total hne hsub
    unfold commitsHasGap insertionIsNop findEarliestCommit
    rw [hgap, htail]
    cases gap with
    | true => exact ⟨false, rfl⟩
    | false => exact ⟨_, rfl⟩

theorem same_some {a b : Ref} :
    Ref.same (some a) (some b) = true ↔ a.fullName = b.fullName := by
  simp [Ref.same]

section Move

variable {op : Op}

theorem Op.Issued.moves (hop : op.Issued) (htype : op.type = .move) (hidle : ¬op.Idle) :
    ∃ src dst srcRef dstRef, Moves op src dst srcRef dstRef := by
  obtain ⟨src, hsrc, hne, hsub⟩ := hop.source (by simp [htype])
  obtain ⟨dst, hdst, hposition⟩ := hop.destination (Or.inl htype)
  obtain ⟨htargets, hrest⟩ := not_or.mp hidle
  simp only [htype, hsrc, hdst, not_or, not_and, not_forall] at hrest
  obtain ⟨hnop, hleaves⟩ := hrest
  unfold Op.targets at htargets
  cases hsrcRef : src.ref with
  | none => simp [htype, hsrc, hsrcRef] at htargets
  | some srcRef =>
      cases hdstRef : dst.ref with
      | none => simp [htype, hsrc, hdst, hsrcRef, hdstRef] at htargets
      | some dstRef =>
          refine ⟨src, dst, srcRef, dstRef, hsrc, hdst, hsrcRef, hdstRef, hne, hsub, hposition,
            ?_, ?_, ?_⟩
          · obtain ⟨nop, htotal⟩ := moveIsNop_total dst hne hsub
            cases nop with
            | true => exact absurd htotal hnop
            | false => exact htotal
          · intro hsame
            apply hop.sameCommit src dst srcRef hsrc hdst hsrcRef
            rw [hsrcRef, hdstRef, same_some]
            exact hsame
          · intro hdiff
            obtain ⟨c, hc, hnot⟩ := hleaves (by
              rw [hsrcRef, hdstRef, Bool.eq_false_iff, ne_eq, same_some]
              exact hdiff)
            exact ⟨c, hc, hnot⟩

variable {σ : Type} {ctx : Ctx σ} {E : Exn → Prop} {R : σ → σ → Prop} [Std.Refl R]
  [IsTrans σ R] {Q : Except Exn (Option OpResult) → Prop} {src dst : Rev} {srcRef dstRef : Ref}

theorem Moves.eq (h : Moves op src dst srcRef dstRef) :
    moveCommits ctx op =
      if srcRef.fullName = dstRef.fullName then moveWithin ctx op src dst dstRef
      else moveBetween ctx op src dst srcRef dstRef := by
  unfold moveCommits
  simp only [h.hsrc, h.hdst, h.hsrcRef, h.hdstRef, h.notNop, Program.lift_ok, pure_bind]
  by_cases hsame : srcRef.fullName = dstRef.fullName
  · simp [hsame, h.sameCommit hsame]
  · simp [hsame]

/-- The rewrite of a move within one ref. -/
def withinRewrite (op : Op) (src dst : Rev) (dstRef : Ref) : Rewrite :=
  ⟨dstRef, dst.commit, src.commit.chain.filter (· ∈ op.src.commits), op.dst.position,
    op.src.commits⟩

/-- The rewrite that removes the selected commits. -/
def removeRewrite (op : Op) (src : Rev) (srcRef : Ref) : Rewrite :=
  ⟨srcRef, src.commit, [], none, op.src.commits⟩

/-- The rewrite that adds the selected commits. -/
def addRewrite (op : Op) (src dst : Rev) (dstRef : Ref) : Rewrite :=
  ⟨dstRef, dst.commit, src.commit.chain.filter (· ∈ op.src.commits), op.dst.position, ∅⟩

theorem Moves.hasRoom_iff (h : Moves op src dst srcRef dstRef) (htype : op.type = .move) :
    op.HasRoom ↔
      if srcRef.fullName = dstRef.fullName then (withinRewrite op src dst dstRef).HasRoom
      else (removeRewrite op src srcRef).HasRoom ∧ (addRewrite op src dst dstRef).HasRoom := by
  unfold Op.HasRoom Op.rewrites
  simp only [htype, h.hsrc, h.hdst, h.hsrcRef, h.hdstRef]
  by_cases hsame : srcRef.fullName = dstRef.fullName
  · simp [hsame, withinRewrite]
  · simp [hsame, removeRewrite, addRewrite]

theorem moveCommits_handsOver (hctx : ctx.Throws E) (hquiet : ctx.Quiet R)
    (hQ : ∀ e, E e → Q (.error e)) (hop : op.Issued) (htype : op.type = .move)
    (hidle : ¬op.Idle) (hroom : op.HasRoom) :
    Program.HandsOver R Q (ReplacesAll ctx op.targets) (moveCommits ctx op) := by
  obtain ⟨src, dst, srcRef, dstRef, h⟩ := hop.moves htype hidle
  have htargets : op.targets =
      if srcRef.fullName = dstRef.fullName then [dstRef] else [srcRef, dstRef] := by
    simp [Op.targets, htype, h.hsrc, h.hdst, h.hsrcRef, h.hdstRef]
  have hselected : src.commit.chain.filter (· ∈ op.src.commits) ≠ [] := by
    obtain ⟨c, hc⟩ := Finset.nonempty_iff_ne_empty.mpr h.selected
    exact List.ne_nil_of_mem (List.mem_filter.mpr ⟨h.onChain c hc, by simpa using hc⟩)
  rw [h.hasRoom_iff htype] at hroom
  rw [h.eq]
  by_cases hsame : srcRef.fullName = dstRef.fullName
  · have hremove : ∀ c ∈ op.src.commits, c ∈ dst.commit.chain := by
      rw [← h.sameCommit hsame]
      exact h.onChain
    rw [if_pos hsame] at htargets hroom ⊢
    unfold moveWithin
    refine .bind_of_yields (Quiet.addRemoveCommits hquiet _ _ _ _ _ _)
      (addRemoveCommits_yields (withinRewrite op src dst dstRef) hctx (fileFavor_cases _ _)
        rfl h.onChain hremove (fun _ => h.position) hroom) hQ ?_
    intro r hr
    have hne : r.commit ≠ none := fun hnone =>
      edited_add_ne_nil hselected h.position (hr.mp hnone)
    obtain ⟨c, hc⟩ := Option.ne_none_iff_exists'.mp hne
    rw [hc, htargets]
    exact .of_mem (.one _ _ _ _)
  · rw [if_neg hsame] at htargets hroom ⊢
    unfold moveBetween
    refine .bind_of_yields (Quiet.addRemoveCommits hquiet _ _ _ _ _ _)
      (addRemoveCommits_yields (removeRewrite op src srcRef) hctx (fileFavor_cases _ _)
        rfl (by simp) h.onChain (fun hempty => absurd rfl hempty) hroom.1) hQ ?_
    intro r hr
    have hne : r.commit ≠ none := fun hnone => by
      obtain ⟨c, hc, hnot⟩ := h.leaves hsame
      exact hnot (edited_remove_eq_nil_iff.mp (hr.mp hnone) c hc)
    obtain ⟨c, hc⟩ := Option.ne_none_iff_exists'.mp hne
    simp only [hc]
    refine .bind_of_yields (Quiet.addRemoveCommits hquiet _ _ _ _ _ _)
      (addRemoveCommits_yields (addRewrite op src dst dstRef) hctx (fileFavor_cases _ _)
        rfl h.onChain (by simp [addRewrite]) (fun _ => h.position) hroom.2) hQ ?_
    intro r' hr'
    have hne' : r'.commit ≠ none := fun hnone =>
      edited_keep_ne_nil (Commit.chain_ne_nil _) (hr'.mp hnone)
    obtain ⟨c', hc'⟩ := Option.ne_none_iff_exists'.mp hne'
    rw [hc', htargets]
    exact .of_mem (.two _ _ _ _ _ _ _)

theorem moveCommits_aborts (hctx : ctx.Throws fun _ => False) (hop : op.Issued)
    (htype : op.type = .move) (hidle : ¬op.Idle) (hroom : ¬op.HasRoom) :
    Aborts (moveCommits ctx op) := by
  obtain ⟨src, dst, srcRef, dstRef, h⟩ := hop.moves htype hidle
  rw [h.hasRoom_iff htype] at hroom
  rw [h.eq]
  by_cases hsame : srcRef.fullName = dstRef.fullName
  · have hremove : ∀ c ∈ op.src.commits, c ∈ dst.commit.chain := by
      rw [← h.sameCommit hsame]
      exact h.onChain
    rw [if_pos hsame] at hroom ⊢
    exact Program.Yields.bind (addRemoveCommits_aborts (withinRewrite op src dst dstRef) hctx
      (fileFavor_cases _ _) rfl h.onChain hremove (fun _ => h.position) hroom)
      fun _ h => h.elim
  · rw [if_neg hsame] at hroom ⊢
    unfold moveBetween
    by_cases hremoved : (removeRewrite op src srcRef).HasRoom
    · refine .bind (addRemoveCommits_yields (removeRewrite op src srcRef) hctx (fileFavor_cases _ _)
        rfl (by simp) h.onChain
        (fun hempty => absurd rfl hempty) hremoved) fun r hr => ?_
      have hne : r.commit ≠ none := fun hnone => by
        obtain ⟨c, hc, hnot⟩ := h.leaves hsame
        exact hnot (edited_remove_eq_nil_iff.mp (hr.mp hnone) c hc)
      obtain ⟨c, hc⟩ := Option.ne_none_iff_exists'.mp hne
      simp only [hc]
      exact Program.Yields.bind (addRemoveCommits_aborts (addRewrite op src dst dstRef) hctx
        (fileFavor_cases _ _) rfl h.onChain (by simp [addRewrite])
        (fun _ => h.position) fun hadded => hroom ⟨hremoved, hadded⟩) fun _ h => h.elim
    · exact Program.Yields.bind (addRemoveCommits_aborts (removeRewrite op src srcRef) hctx
        (fileFavor_cases _ _) rfl (by simp) h.onChain
        (fun hempty => absurd rfl hempty) hremoved) fun _ h => h.elim

/-- Removing a whole history needs no commit to be written anew. -/
theorem hasRoom_of_removed {ref : Ref} {head : Commit} {removed : Finset Commit}
    (hall : ∀ c ∈ head.chain, c ∈ removed) :
    Rewrite.HasRoom ⟨ref, head, [], none, removed⟩ := by
  have hedited := edited_remove_eq_nil_iff (p := none).mpr hall
  rw [← rewritten_append_kept, List.append_eq_nil_iff] at hedited
  unfold Rewrite.HasRoom Rewrite.renewed
  rw [hedited.1]
  trivial

theorem catchable_runtimeError (msg : String) : Catchable (.runtimeError msg) := by
  simp [Catchable]

/-- An idle move only throws what can be caught. -/
theorem moveCommits_idle (hctx : ctx.Throws Catchable) (hop : op.Issued) (htype : op.type = .move)
    (hidle : op.Idle) : Program.Yields (fun _ => True) Catchable (moveCommits ctx op) := by
  obtain ⟨src, hsrc, hne, hsub⟩ := hop.source (by simp [htype])
  obtain ⟨dst, hdst, -⟩ := hop.destination (Or.inl htype)
  unfold moveCommits
  simp only [hsrc, hdst]
  cases hsrcRef : src.ref with
  | none => exact .fail (catchable_runtimeError _)
  | some srcRef =>
      cases hdstRef : dst.ref with
      | none => exact .fail (catchable_runtimeError _)
      | some dstRef =>
          obtain ⟨nop, hnop⟩ := moveIsNop_total dst hne hsub
          simp only [hnop, Program.lift_ok, pure_bind]
          have htargets : op.targets ≠ [] := by
            simp only [Op.targets, htype, hsrc, hdst, hsrcRef, hdstRef, Option.bind_some]
            split
            · simp
            · simp
          have hcases := hidle.resolve_left htargets
          simp only [htype, hsrc, hdst] at hcases
          rcases hcases with htrue | ⟨hdiff, hall⟩
          · rw [hnop] at htrue
            cases htrue
            exact .pure trivial
          · cases nop with
            | true => exact .pure trivial
            | false =>
                rw [hsrcRef, hdstRef, Bool.eq_false_iff, ne_eq, same_some] at hdiff
                simp only [Bool.false_eq_true, if_false, hdiff]
                refine (addRemoveCommits_yields (removeRewrite op src srcRef) hctx
                  (fileFavor_cases _ _) rfl (by simp) hsub
                  (fun hempty => absurd rfl hempty) (hasRoom_of_removed hall)).bind fun r hr => ?_
                rw [hr.mpr (edited_remove_eq_nil_iff.mpr hall)]
                exact .fail (catchable_runtimeError _)

end Move

/-! ## Copying and deleting -/

section CopyDelete

variable {op : Op} {σ : Type} {ctx : Ctx σ} {E : Exn → Prop} {R : σ → σ → Prop} [Std.Refl R]
  [IsTrans σ R] {Q : Except Exn (Option OpResult) → Prop}

/-- The commits that a copy adds, on the chain of the destination. -/
theorem addRemoveCommits_copy (hctx : ctx.Throws E) {src dst : Rev} {dstRef : Ref}
    (hsub : ∀ c ∈ op.src.commits, c ∈ src.commit.chain)
    (hposition : ∀ p, op.dst.position = some p → p ∈ dst.commit.chain)
    (hroom : (addRewrite op src dst dstRef).HasRoom) :
    Program.Yields (fun r => ∃ c, r.commit = some c) E
      (addRemoveCommits ctx (fileFavor src (some dst)) dst.commit op.src.commits
        (some src.commit) op.dst.position ∅) := by
  refine (addRemoveCommits_yields (addRewrite op src dst dstRef) hctx (fileFavor_cases _ _)
    rfl hsub (by simp [addRewrite]) (fun _ => hposition) hroom).mono (fun r hr => ?_) fun _ he => he
  apply Option.ne_none_iff_exists'.mp
  intro hnone
  exact edited_keep_ne_nil (Commit.chain_ne_nil _) (hr.mp hnone)

theorem copyCommits_handsOver (hctx : ctx.Throws E) (hquiet : ctx.Quiet R)
    (hQ : ∀ e, E e → Q (.error e)) (hop : op.Issued) (htype : op.type = .copy)
    (hidle : ¬op.Idle) (hroom : op.HasRoom) :
    Program.HandsOver R Q (ReplacesAll ctx op.targets) (copyCommits ctx op) := by
  obtain ⟨src, hsrc, -, hsub⟩ := hop.source (by simp [htype])
  obtain ⟨dst, hdst, hposition⟩ := hop.destination (Or.inr htype)
  obtain ⟨hne, -⟩ := not_or.mp hidle
  unfold copyCommits
  unfold Op.targets at hne ⊢
  cases hdstRef : dst.ref with
  | none => simp [htype, hdst, hdstRef] at hne
  | some dstRef =>
      simp only [htype, hsrc, hdst, hdstRef, Option.bind_some, Option.toList_some]
      simp only [Op.HasRoom, Op.rewrites, htype, hsrc, hdst, hdstRef, List.mem_singleton,
        forall_eq] at hroom
      refine .bind_of_yields (Quiet.addRemoveCommits hquiet _ _ _ _ _ _)
        (addRemoveCommits_copy hctx hsub hposition hroom) hQ ?_
      rintro r ⟨c, hc⟩
      rw [hc]
      exact .of_mem (.one _ _ _ _)

theorem copyCommits_aborts (hctx : ctx.Throws fun _ => False) (hop : op.Issued)
    (htype : op.type = .copy) (hidle : ¬op.Idle) (hroom : ¬op.HasRoom) :
    Aborts (copyCommits ctx op) := by
  obtain ⟨src, hsrc, -, hsub⟩ := hop.source (by simp [htype])
  obtain ⟨dst, hdst, hposition⟩ := hop.destination (Or.inr htype)
  obtain ⟨hne, -⟩ := not_or.mp hidle
  unfold copyCommits
  unfold Op.targets at hne
  cases hdstRef : dst.ref with
  | none => simp [htype, hdst, hdstRef] at hne
  | some dstRef =>
      simp only [hsrc, hdst, hdstRef]
      simp only [Op.HasRoom, Op.rewrites, htype, hsrc, hdst, hdstRef, List.mem_singleton,
        forall_eq] at hroom
      exact Program.Yields.bind (addRemoveCommits_aborts (addRewrite op src dst dstRef) hctx
        (fileFavor_cases _ _) rfl hsub (by simp [addRewrite])
        (fun _ => hposition) hroom) fun _ h => h.elim

theorem copyCommits_idle (hop : op.Issued) (htype : op.type = .copy) (hidle : op.Idle) :
    Program.Yields (fun _ => True) Catchable (copyCommits ctx op) := by
  obtain ⟨src, hsrc, -, -⟩ := hop.source (by simp [htype])
  obtain ⟨dst, hdst, -⟩ := hop.destination (Or.inr htype)
  unfold Op.Idle Op.targets at hidle
  unfold copyCommits
  cases hdstRef : dst.ref with
  | none =>
      simp only [hsrc, hdst, hdstRef]
      exact .fail (catchable_runtimeError _)
  | some dstRef => simp [htype, hdst, hdstRef] at hidle

theorem deleteCommits_handsOver (hctx : ctx.Throws E) (hquiet : ctx.Quiet R)
    (hQ : ∀ e, E e → Q (.error e)) (hop : op.Issued) (htype : op.type = .delete)
    (hidle : ¬op.Idle) (hroom : op.HasRoom) :
    Program.HandsOver R Q (ReplacesAll ctx op.targets) (deleteCommits ctx op) := by
  obtain ⟨src, hsrc, -, hsub⟩ := hop.source (by simp [htype])
  have hdst := hop.noDestination (Or.inl htype)
  obtain ⟨hne, hleaves⟩ := not_or.mp hidle
  simp only [htype, hsrc] at hleaves
  unfold deleteCommits
  unfold Op.targets at hne ⊢
  cases hsrcRef : src.ref with
  | none => simp [htype, hsrc, hsrcRef] at hne
  | some srcRef =>
      simp only [htype, hsrc, hdst, hsrcRef, Option.bind_some, Option.toList_some]
      simp only [Op.HasRoom, Op.rewrites, htype, hsrc, hsrcRef, List.mem_singleton,
        forall_eq] at hroom
      refine .bind_of_yields (Quiet.addRemoveCommits hquiet _ _ _ _ _ _)
        (addRemoveCommits_yields (removeRewrite op src srcRef) hctx (fileFavor_cases _ _)
          rfl (by simp) hsub (fun hempty => absurd rfl hempty) hroom) hQ ?_
      intro r hr
      have hsome : r.commit ≠ none := fun hnone =>
        hleaves (edited_remove_eq_nil_iff.mp (hr.mp hnone))
      obtain ⟨c, hc⟩ := Option.ne_none_iff_exists'.mp hsome
      simp only [hc]
      exact .of_mem (.one _ _ _ _)

theorem deleteCommits_aborts (hctx : ctx.Throws fun _ => False) (hop : op.Issued)
    (htype : op.type = .delete) (hidle : ¬op.Idle) (hroom : ¬op.HasRoom) :
    Aborts (deleteCommits ctx op) := by
  obtain ⟨src, hsrc, -, hsub⟩ := hop.source (by simp [htype])
  have hdst := hop.noDestination (Or.inl htype)
  obtain ⟨hne, -⟩ := not_or.mp hidle
  unfold deleteCommits
  unfold Op.targets at hne
  cases hsrcRef : src.ref with
  | none => simp [htype, hsrc, hsrcRef] at hne
  | some srcRef =>
      simp only [hsrc, hdst, hsrcRef]
      simp only [Op.HasRoom, Op.rewrites, htype, hsrc, hsrcRef, List.mem_singleton,
        forall_eq] at hroom
      exact Program.Yields.bind (addRemoveCommits_aborts (removeRewrite op src srcRef) hctx
        (fileFavor_cases _ _) rfl (by simp) hsub
        (fun hempty => absurd rfl hempty) hroom) fun _ h => h.elim

theorem deleteCommits_idle (hctx : ctx.Throws Catchable) (hop : op.Issued)
    (htype : op.type = .delete) (hidle : op.Idle) :
    Program.Yields (fun _ => True) Catchable (deleteCommits ctx op) := by
  obtain ⟨src, hsrc, -, hsub⟩ := hop.source (by simp [htype])
  have hdst := hop.noDestination (Or.inl htype)
  unfold Op.Idle Op.targets at hidle
  unfold deleteCommits
  cases hsrcRef : src.ref with
  | none =>
      simp only [hsrc, hdst, hsrcRef]
      exact .fail (catchable_runtimeError _)
  | some srcRef =>
      simp only [htype, hsrc, hsrcRef, Option.bind_some, Option.toList_some, List.cons_ne_nil,
        false_or] at hidle
      simp only [hsrc, hdst, hsrcRef]
      refine (addRemoveCommits_yields (removeRewrite op src srcRef) hctx (fileFavor_cases _ _)
        rfl (by simp) hsub (fun hempty => absurd rfl hempty) (hasRoom_of_removed hidle)).bind
        fun r hr => ?_
      rw [hr.mpr (edited_remove_eq_nil_iff.mpr hidle)]
      exact .fail (catchable_runtimeError _)

end CopyDelete

/-! ## Combining -/

/-- A commit of a chain is below those above it. -/
theorem mem_chain_iff_of_split {head c e : Commit} {above below : List Commit}
    (hsplit : head.chain = above ++ e :: below) (hc : c ∈ head.chain) :
    e ∈ c.chain ↔ c ∈ above ∨ c = e := by
  have hnd := nodup_chain head
  rw [hsplit, List.nodup_append, List.nodup_cons] at hnd
  constructor
  · intro he
    rw [hsplit] at hc
    rcases List.mem_append.mp hc with habove | hc
    · exact Or.inl habove
    · rcases List.mem_cons.mp hc with rfl | hbelow
      · exact Or.inr rfl
      · exfalso
        obtain ⟨upper, lower, hlower⟩ := List.append_of_mem hbelow
        have hchain : head.chain = (above ++ e :: upper) ++ c :: lower := by
          rw [hsplit, hlower]
          simp
        rw [c.chain_eq, ← chain_suffix hchain, List.mem_cons] at he
        apply hnd.2.1.1
        rw [hlower]
        rcases he with rfl | he
        · exact List.mem_append_right _ List.mem_cons_self
        · exact List.mem_append_right _ (List.mem_cons_of_mem _ he)
  · rintro (habove | rfl)
    · obtain ⟨upper, lower, rfl⟩ := List.append_of_mem habove
      have hchain : head.chain = upper ++ c :: (lower ++ e :: below) := by
        rw [hsplit]
        simp
      rw [c.chain_eq, ← chain_suffix hchain]
      simp
    · exact Commit.mem_chain_self c

/-- The walk of `_CombineCommits` ends. -/
theorem combineLoop_total {cs : List Commit} {rem : Finset Commit} (hne : rem ≠ ∅)
    (hrem : ∀ c ∈ rem, c ∈ cs) (integrate attach : List Commit) :
    ∃ plan, combineLoop cs rem integrate attach = .ok plan := by
  induction cs generalizing rem integrate attach with
  | nil =>
      obtain ⟨c, hc⟩ := Finset.nonempty_iff_ne_empty.mpr hne
      simpa using hrem c hc
  | cons c cs ih =>
      rw [combineLoop]
      by_cases hlast : rem.erase c = ∅
      · exact ⟨_, if_pos hlast⟩
      · have hrest : ∀ d ∈ rem.erase c, d ∈ cs := by
          intro d hd
          obtain ⟨hdc, hd⟩ := Finset.mem_erase.mp hd
          exact (List.mem_cons.mp (hrem d hd)).resolve_left hdc
        rw [if_neg hlast]
        split
        · exact ih hlast hrest _ _
        · exact ih hlast hrest _ _

section Combine

variable {op : Op} {σ : Type} {ctx : Ctx σ} {E : Exn → Prop} {R : σ → σ → Prop} [Std.Refl R]
  [IsTrans σ R] {Q : Except Exn (Option OpResult) → Prop}

/-- What a combination that is not idle walks over: the commits to integrate have
parents, and the operation has room exactly when the commits to attach have. -/
theorem Op.Issued.combines (hop : op.Issued) (htype : op.type = .combine) (hidle : ¬op.Idle) :
    ∃ src srcRef plan, op.src.rev = some src ∧ src.ref = some srcRef ∧ op.dst.rev = none ∧
      ¬op.src.commits.card < 2 ∧ commitsHasMerge op.src.commits = false ∧
      combineLoop src.commit.chain op.src.commits [] [] = .ok plan ∧
      (∀ c ∈ plan.integrate, c.parent ≠ none) ∧
      (op.HasRoom ↔ ∀ c ∈ plan.attach, Modify.HasRoom true c) := by
  obtain ⟨src, hsrc, hne, hsub⟩ := hop.source (by simp [htype])
  have hdst := hop.noDestination (Or.inr (Or.inl htype))
  obtain ⟨htargets, hrest⟩ := not_or.mp hidle
  simp only [htype, hsrc, hdst, not_or, Bool.not_eq_true] at hrest
  obtain ⟨hcard, hmerge⟩ := hrest
  obtain ⟨plan, hplan⟩ := combineLoop_total hne hsub [] []
  obtain ⟨above, below, hsplit, hhead, hall, hintegrate, hattach⟩ :=
    combineLoop_ok (nodup_chain src.commit) hne hplan
  have hnd := nodup_chain src.commit
  rw [hsplit, List.nodup_append, List.nodup_cons] at hnd
  have hchainAbove : ∀ c ∈ above, c ∈ src.commit.chain := by
    intro c hc
    rw [hsplit]
    exact List.mem_append_left _ hc
  cases hsrcRef : src.ref with
  | none => simp [Op.targets, htype, hsrc, hsrcRef] at htargets
  | some srcRef =>
      refine ⟨src, srcRef, plan, hsrc, hsrcRef, hdst, hcard, hmerge, hplan, ?_, ?_⟩
      · -- a commit that is integrated lies above the earliest one, so it has a parent
        intro c hc hnone
        rw [hintegrate, List.append_nil, List.mem_reverse, List.mem_filter] at hc
        have hbelow := (mem_chain_iff_of_split hsplit (hchainAbove c hc.1)).mpr (Or.inl hc.1)
        rw [c.chain_eq, hnone, chainOf_none, List.mem_singleton] at hbelow
        exact hnd.2.2 c hc.1 c (by simp [hbelow]) rfl
      · unfold Op.HasRoom
        simp only [htype, hsrc]
        constructor
        · intro hroom c hc
          rw [hattach, List.append_nil, List.mem_reverse, List.mem_filter] at hc
          have hmem := hchainAbove c hc.1
          exact hroom c hmem ⟨plan.head, hhead, (mem_chain_iff_of_split hsplit hmem).mpr (Or.inl hc.1)⟩
        · rintro hroom c hc ⟨d, hd, hdc⟩
          by_cases hselected : c ∈ op.src.commits
          · -- a selected commit is no merge, so it has room
            have hnot : c.isMerge = false := by
              have hnone : ∀ d ∈ op.src.commits, d.isMerge = false := by
                simpa using of_decide_eq_false hmerge
              exact hnone c hselected
            unfold Commit.isMerge at hnot
            have := of_decide_eq_false hnot
            omega
          · -- an unselected commit over a selected one lies above the earliest one
            have hdhead : plan.head ∈ d.chain :=
              (mem_chain_iff_of_split hsplit (hsub d hd)).mpr ((hall d hd).symm)
            have hheadc : plan.head ∈ c.chain := by
              obtain ⟨upper, lower, hlower⟩ := List.append_of_mem hdc
              rw [hlower]
              rw [d.chain_eq, ← chain_suffix hlower, List.mem_cons] at hdhead
              rcases hdhead with heq | hmem
              · exact List.mem_append_right _ (heq ▸ List.mem_cons_self)
              · exact List.mem_append_right _ (List.mem_cons_of_mem _ hmem)
            rcases (mem_chain_iff_of_split hsplit hc).mp hheadc with habove | rfl
            · apply hroom c
              rw [hattach, List.append_nil, List.mem_reverse, List.mem_filter]
              exact ⟨habove, by simpa using hselected⟩
            · exact absurd hhead hselected

theorem commitIntegrate_yields (hctx : ctx.Throws E) {favor : FileFavor}
    (hfavor : favor = .normal ∨ favor = .theirs) {dst src : Commit} (hparent : src.parent ≠ none) :
    Program.Yields (fun _ => True) E (commitIntegrate ctx favor dst src) := by
  obtain ⟨p, hp⟩ := Option.ne_none_iff_exists'.mp hparent
  have heq : commitIntegrate ctx favor dst src =
      (ctx.repo.mergeTrees favor (some p.tree) (some dst.tree) (some src.tree) >>=
        conflictsHandle ctx favor) >>= fun index =>
          ctx.repo.commitIntegrateFinish index dst src := by
    unfold commitIntegrate Repo.commitIntegrate
    rw [hp, bind_assoc]
    rfl
  rw [heq]
  exact (hctx.merges hfavor _ _ _).bind fun index _ => (hctx.indexWrite index).bind fun _ _ =>
    (commitCreate_yields hctx _ _ _ _ _ _).mono (fun _ _ => trivial) fun _ he => he

theorem foldlM_commitIntegrate_yields (hctx : ctx.Throws E) {favor : FileFavor}
    (hfavor : favor = .normal ∨ favor = .theirs) {cs : List Commit}
    (hparents : ∀ c ∈ cs, c.parent ≠ none) (head : Commit) :
    Program.Yields (fun _ => True) E
      (cs.foldlM (fun head commit => commitIntegrate ctx favor head commit) head) := by
  refine (Program.Yields.foldlM (I := fun cs _ => ∀ c ∈ cs, c.parent ≠ none) ?_ cs
    hparents).mono (fun _ _ => trivial) fun _ he => he
  intro c cs head hall
  exact (commitIntegrate_yields hctx hfavor (hall c List.mem_cons_self)).mono
    (fun _ _ d hd => hall d (List.mem_cons_of_mem _ hd)) fun _ he => he

theorem foldlM_commitParentSet_yields (hctx : ctx.Throws E) {favor : FileFavor}
    (hfavor : favor = .normal ∨ favor = .theirs) {cs : List Commit}
    (hroom : ∀ c ∈ cs, HasRoom true c) (head : Commit) :
    Program.Yields (fun _ => True) E
      (cs.foldlM (fun head commit => commitParentSet ctx favor commit (some head)) head) := by
  refine (Program.Yields.foldlM (I := fun cs _ => ∀ c ∈ cs, HasRoom true c) ?_ cs
    hroom).mono (fun _ _ => trivial) fun _ he => he
  intro c cs head hall
  exact (commitParentSet_yields hctx hfavor (some head) (hall c List.mem_cons_self)).mono
    (fun _ _ d hd => hall d (List.mem_cons_of_mem _ hd)) fun _ he => he

theorem foldlM_commitParentSet_aborts (hctx : ctx.Throws fun _ => False) {favor : FileFavor}
    (hfavor : favor = .normal ∨ favor = .theirs) {cs : List Commit}
    (hroom : ¬∀ c ∈ cs, HasRoom true c) (head : Commit) :
    Aborts (cs.foldlM (fun head commit => commitParentSet ctx favor commit (some head)) head) := by
  induction cs generalizing head with
  | nil => exact absurd (by simp) hroom
  | cons c cs ih =>
      rw [List.foldlM_cons]
      by_cases hfirst : HasRoom true c
      · refine .bind (commitParentSet_yields hctx hfavor (some head) hfirst)
          fun head' _ => ih ?_ head'
        intro hrest
        exact hroom (List.forall_mem_cons.mpr ⟨hfirst, hrest⟩)
      · exact Program.Yields.bind
          (commitParentSet_aborts hctx hfavor (some head) hfirst) fun _ h => h.elim

theorem combineCommits_handsOver (hctx : ctx.Throws E) (hquiet : ctx.Quiet R)
    (hQ : ∀ e, E e → Q (.error e)) (hop : op.Issued) (htype : op.type = .combine)
    (hidle : ¬op.Idle) (hroom : op.HasRoom) :
    Program.HandsOver R Q (ReplacesAll ctx op.targets) (combineCommits ctx op) := by
  obtain ⟨src, srcRef, plan, hsrc, hsrcRef, hdst, hcard, hmerge, hplan, hparents, hiff⟩ :=
    hop.combines htype hidle
  unfold combineCommits
  simp only [hsrc, hdst, hsrcRef, if_neg hcard, hmerge, Bool.false_eq_true, if_false, hplan,
    Program.lift_ok, pure_bind, Op.targets, htype, Option.bind_some, Option.toList_some]
  refine .bind_of_yields (Program.Keeps.foldlM (fun _ _ => Quiet.commitIntegrate hquiet _ _ _) _ _)
    (foldlM_commitIntegrate_yields hctx (fileFavor_cases _ _) hparents _) hQ fun integrated _ => ?_
  refine .bind_of_yields (Program.Keeps.foldlM (fun _ _ => Quiet.commitParentSet hquiet _ _ _) _ _)
    (foldlM_commitParentSet_yields hctx (fileFavor_cases _ _) (hiff.mp hroom) _) hQ fun head _ => ?_
  exact .of_mem (.one _ _ _ _)

theorem combineCommits_aborts (hctx : ctx.Throws fun _ => False) (hop : op.Issued)
    (htype : op.type = .combine) (hidle : ¬op.Idle) (hroom : ¬op.HasRoom) :
    Aborts (combineCommits ctx op) := by
  obtain ⟨src, srcRef, plan, hsrc, hsrcRef, hdst, hcard, hmerge, hplan, hparents, hiff⟩ :=
    hop.combines htype hidle
  unfold combineCommits
  simp only [hsrc, hdst, hsrcRef, if_neg hcard, hmerge, Bool.false_eq_true, if_false, hplan,
    Program.lift_ok, pure_bind]
  refine .bind (foldlM_commitIntegrate_yields hctx (fileFavor_cases _ _) hparents _)
    fun integrated _ => ?_
  exact Program.Yields.bind (foldlM_commitParentSet_aborts hctx (fileFavor_cases _ _)
    (fun hall => hroom (hiff.mpr hall)) _) fun _ h => h.elim

theorem combineCommits_idle (hop : op.Issued) (htype : op.type = .combine) (hidle : op.Idle) :
    Program.Yields (fun _ => True) Catchable (combineCommits ctx op) := by
  obtain ⟨src, hsrc, -, -⟩ := hop.source (by simp [htype])
  have hdst := hop.noDestination (Or.inr (Or.inl htype))
  unfold Op.Idle Op.targets at hidle
  unfold combineCommits
  cases hsrcRef : src.ref with
  | none =>
      simp only [hsrc, hdst, hsrcRef]
      exact .fail (catchable_runtimeError _)
  | some srcRef =>
      simp only [htype, hsrc, hsrcRef, Option.bind_some, Option.toList_some, List.cons_ne_nil,
        false_or] at hidle
      simp only [hsrc, hdst, hsrcRef]
      by_cases hcard : op.src.commits.card < 2
      · rw [if_pos hcard]
        exact .fail (catchable_runtimeError _)
      · rw [if_neg hcard, if_pos (hidle.resolve_left hcard)]
        exact .fail (catchable_runtimeError _)

end Combine

/-! ## Editing -/

/-- The rewrite that puts an edited commit in the place of the old one. -/
def editRewriteOf (src : Rev) (srcRef : Ref) (e n : Commit) : Rewrite :=
  ⟨srcRef, src.commit, [n], some e, {e}⟩

/-- The edited commit has the old one's parents, so it needs the same room. -/
theorem editRewriteOf_hasRoom {src : Rev} {e n : Commit} (srcRef : Ref)
    (he : e ∈ src.commit.chain) (hparents : n.parents = e.parents) :
    (editRewriteOf src srcRef e n).HasRoom ↔
      ∀ c ∈ src.commit.chain, e ∈ c.chain → c.parents.length ≤ 4 := by
  obtain ⟨hsplit, -⟩ := chain_split he
  obtain ⟨hrewritten, hkept⟩ := rewritten_edit he n
  have hfirst : Modify.HasRoom e.parent.isSome n ↔ e.parents.length ≤ 4 := by
    unfold Modify.HasRoom
    rw [hparents]
    cases hp : e.parent with
    | none =>
        have hnil : e.parents = [] := by simpa [Commit.parent] using hp
        simp [hnil]
    | some p => simp
  unfold Rewrite.HasRoom Rewrite.renewed editRewriteOf
  dsimp only
  rw [hrewritten, hkept, head?_chainOf, List.reverse_append, List.reverse_singleton,
    List.singleton_append, AllHaveRoom, hfirst, allHaveRoom_true]
  constructor
  · rintro ⟨hedited, habove⟩ c hc hec
    rcases (mem_chain_iff_of_split hsplit hc).mp hec with hmem | rfl
    · exact habove c (List.mem_reverse.mpr hmem)
    · exact hedited
  · intro hall
    refine ⟨hall e he (Commit.mem_chain_self e), fun c hc => ?_⟩
    have hmem : c ∈ src.commit.chain := by
      rw [hsplit]
      exact List.mem_append_left _ (List.mem_reverse.mp hc)
    exact hall c hmem ((mem_chain_iff_of_split hsplit hmem).mpr (Or.inl (List.mem_reverse.mp hc)))

section Edit

variable {op : Op} {σ : Type} {ctx : Ctx σ} {E : Exn → Prop} {R : σ → σ → Prop} [Std.Refl R]
  [IsTrans σ R] {Q : Except Exn (Option OpResult) → Prop}

/-- What an edit is about: one commit of the source's chain. -/
theorem Op.Issued.edits (hop : op.Issued) (htype : op.type = .edit) :
    ∃ src e, op.src.rev = some src ∧ op.dst.rev = none ∧ op.src.commits = {e} ∧
      e ∈ src.commit.chain := by
  obtain ⟨src, hsrc, -, hsub⟩ := hop.source (by simp [htype])
  obtain ⟨e, he⟩ := Finset.card_eq_one.mp (hop.single htype)
  refine ⟨src, e, hsrc, hop.noDestination (Or.inr (Or.inr htype)), he, ?_⟩
  apply hsub
  rw [he]
  exact Finset.mem_singleton_self e

theorem commitAmendAuthor_yields (hctx : ctx.Throws E) (e : Commit) (author : Signature)
    (msg : Bytes) : Program.Yields (fun n => n.parents = e.parents) E
      (ctx.repo.commitAmendAuthor e author msg) :=
  (commitCreate_yields hctx _ _ _ _ _ _).mono (fun n hn => by rw [hn]; rfl) fun _ he => he

/-- With a changed text an edit goes on to replace its ref. -/
theorem editRewrite_handsOver (hctx : ctx.Throws E) (hquiet : ctx.Quiet R)
    (hQ : ∀ e, E e → Q (.error e)) {src : Rev} {srcRef : Ref} {e : Commit}
    {newMsg : CommitMessage} (he : e ∈ src.commit.chain)
    (hauthor : ∀ err, editedAuthor e.author newMsg = .error err → Q (.error err))
    (hroom : ∀ c ∈ src.commit.chain, e ∈ c.chain → c.parents.length ≤ 4) :
    Program.HandsOver R Q (ReplacesAll ctx [srcRef]) (editRewrite ctx op src srcRef e newMsg) := by
  unfold editRewrite
  refine .bind_of_yields (E := fun err => Q (.error err)) (P := fun _ => True)
    (Program.Keeps.lift _) (.lift (fun _ _ => trivial) hauthor) (fun _ he => he) fun author _ => ?_
  refine .bind_of_yields (hquiet.repo.commitCreate _ _ _ _ _ _)
    (commitAmendAuthor_yields hctx e author newMsg.message) hQ fun n hn => ?_
  have hadded : [n] = (chainOf (some n)).filter (· ∈ ({n} : Finset Commit)) :=
    (filter_chain_singleton n).symm
  refine .bind_of_yields (Quiet.addRemoveCommits hquiet _ _ _ _ _ _)
    (addRemoveCommits_yields (editRewriteOf src srcRef e n) hctx (fileFavor_cases _ _)
      hadded (by simp) (by simpa [editRewriteOf] using he) (by rintro - p ⟨⟩; exact he)
      ((editRewriteOf_hasRoom srcRef he hn).mpr hroom)) hQ fun r hr => ?_
  have hne : r.commit ≠ none := fun hnone =>
    edited_add_ne_nil (List.cons_ne_nil n []) (by rintro p ⟨⟩; exact he) (hr.mp hnone)
  obtain ⟨c, hc⟩ := Option.ne_none_iff_exists'.mp hne
  rw [hc]
  exact .of_mem (.one _ _ _ _)

theorem editRewrite_aborts (hctx : ctx.Throws fun _ => False) {src : Rev} {srcRef : Ref}
    {e : Commit} {newMsg : CommitMessage} (he : e ∈ src.commit.chain)
    (hauthor : ∃ author, editedAuthor e.author newMsg = .ok author)
    (hroom : ¬∀ c ∈ src.commit.chain, e ∈ c.chain → c.parents.length ≤ 4) :
    Aborts (editRewrite ctx op src srcRef e newMsg) := by
  obtain ⟨author, hauthor⟩ := hauthor
  unfold editRewrite
  rw [hauthor, Program.lift_ok, pure_bind]
  refine .bind (commitAmendAuthor_yields hctx e author newMsg.message) fun n hn => ?_
  have hadded : [n] = (chainOf (some n)).filter (· ∈ ({n} : Finset Commit)) :=
    (filter_chain_singleton n).symm
  exact Program.Yields.bind (addRemoveCommits_aborts (editRewriteOf src srcRef e n) hctx
    (fileFavor_cases _ _) hadded (by simp) (by simpa [editRewriteOf] using he)
    (by rintro - p ⟨⟩; exact he)
    fun hall => hroom ((editRewriteOf_hasRoom srcRef he hn).mp hall)) fun _ h => h.elim

/-- The text of a commit is refused with an exception. -/
theorem stringFromCommitMessage_error {c : Commit} {err : Exn}
    (h : stringFromCommitMessage (commitMessageForCommit c) = .error err) : Catchable err := by
  unfold stringFromCommitMessage commitMessageForCommit stringFromTime at h
  dsimp only at h
  split at h
  · cases h
    exact catchable_runtimeError _
  · cases h

/-- So is an author. -/
theorem editedAuthor_error {author : Signature} {newMsg : CommitMessage} {err : Exn}
    (h : editedAuthor author newMsg = .error err) : Catchable err := by
  unfold editedAuthor signatureCreate at h
  dsimp only at h
  split at h
  · cases h
    simp [Catchable]
  · split at h
    · cases h
      simp [Catchable]
    · cases h

/-- What `P` says of a text from the editor decides how an edit ends before it
rewrites. -/
theorem editCommit_handsOver (hctx : ctx.Throws E) (hquiet : ctx.Quiet R)
    (hQ : ∀ e, E e → Q (.error e)) (hop : op.Issued) (htype : op.type = .edit)
    (hidle : ¬op.Idle) (hroom : op.HasRoom)
    (hspawn : ∀ e content, Program.Yields (fun text =>
      let newMsg := commitMessageFromString ctx.strings ctx.trim text
      (commitMessageForCommit e = newMsg → Q (.ok none)) ∧
        ∀ err, editedAuthor e.author newMsg = .error err → Q (.error err)) E (ctx.spawn content)) :
    Program.HandsOver R Q (ReplacesAll ctx op.targets) (editCommit ctx op) := by
  obtain ⟨src, e, hsrc, hdst, hcommits, he⟩ := hop.edits htype
  have honly : theOnly op.src.commits = some e := theOnly_eq_some.mpr hcommits
  obtain ⟨htargets, htext⟩ := not_or.mp hidle
  simp only [htype, hsrc, hcommits, Finset.mem_singleton, forall_eq, not_forall, not_not] at htext
  obtain ⟨content, hcontent⟩ := htext
  simp only [Op.HasRoom, htype, hsrc, hcommits, Finset.mem_singleton, exists_eq_left] at hroom
  unfold editCommit
  unfold Op.targets at htargets ⊢
  cases hsrcRef : src.ref with
  | none => simp [htype, hsrc, hsrcRef] at htargets
  | some srcRef =>
      simp only [htype, hsrc, hdst, honly, hsrcRef, hcontent, Program.lift_ok, pure_bind,
        Option.bind_some, Option.toList_some]
      refine .bind_of_yields (hquiet.spawn _) (hspawn e content) hQ ?_
      rintro text ⟨hnop, hauthor⟩
      by_cases hsame : commitMessageForCommit e = commitMessageFromString ctx.strings ctx.trim text
      · rw [if_pos hsame]
        exact .pure (hnop hsame)
      · rw [if_neg hsame]
        exact editRewrite_handsOver hctx hquiet hQ he hauthor hroom

/-- The editor returns a text that changes a commit and names an author. -/
def Edits (ctx : Ctx σ) : Prop :=
  ∀ e content, Program.Yields (fun text =>
    commitMessageForCommit e ≠ commitMessageFromString ctx.strings ctx.trim text ∧
      ∃ author,
        editedAuthor e.author (commitMessageFromString ctx.strings ctx.trim text) = .ok author)
    (fun _ => False) (ctx.spawn content)

theorem editCommit_aborts (hctx : ctx.Throws fun _ => False) (hedits : Edits ctx)
    (hop : op.Issued) (htype : op.type = .edit) (hidle : ¬op.Idle) (hroom : ¬op.HasRoom) :
    Aborts (editCommit ctx op) := by
  obtain ⟨src, e, hsrc, hdst, hcommits, he⟩ := hop.edits htype
  have honly : theOnly op.src.commits = some e := theOnly_eq_some.mpr hcommits
  obtain ⟨htargets, htext⟩ := not_or.mp hidle
  simp only [htype, hsrc, hcommits, Finset.mem_singleton, forall_eq, not_forall, not_not] at htext
  obtain ⟨content, hcontent⟩ := htext
  simp only [Op.HasRoom, htype, hsrc, hcommits, Finset.mem_singleton, exists_eq_left] at hroom
  unfold editCommit
  unfold Op.targets at htargets
  cases hsrcRef : src.ref with
  | none => simp [htype, hsrc, hsrcRef] at htargets
  | some srcRef =>
      simp only [hsrc, hdst, honly, hsrcRef, hcontent, Program.lift_ok, pure_bind]
      refine .bind (hedits e content) ?_
      rintro text ⟨hchanged, hauthor⟩
      rw [if_neg hchanged]
      exact editRewrite_aborts hctx he hauthor hroom

theorem editCommit_idle (hop : op.Issued) (htype : op.type = .edit) (hidle : op.Idle) :
    Program.Yields (fun _ => True) Catchable (editCommit ctx op) := by
  obtain ⟨src, e, hsrc, hdst, hcommits, -⟩ := hop.edits htype
  have honly : theOnly op.src.commits = some e := theOnly_eq_some.mpr hcommits
  unfold Op.Idle Op.targets at hidle
  unfold editCommit
  cases hsrcRef : src.ref with
  | none =>
      simp only [hsrc, hdst, honly, hsrcRef]
      exact .fail (catchable_runtimeError _)
  | some srcRef =>
      simp only [htype, hsrc, hsrcRef, hcommits, Option.bind_some, Option.toList_some,
        List.cons_ne_nil, false_or, Finset.mem_singleton, forall_eq] at hidle
      simp only [hsrc, hdst, honly, hsrcRef]
      cases htext : stringFromCommitMessage (commitMessageForCommit e) with
      | ok content => exact absurd htext (hidle content)
      | error err => exact .fail (stringFromCommitMessage_error htext)

end Edit

/-! ## Every operation -/

section Dispatch

variable {op : Op} {σ : Type} {ctx : Ctx σ} {R : σ → σ → Prop} [Std.Refl R] [IsTrans σ R]

/-- An idle operation ends without a failed assertion. -/
theorem dispatch_idle (hctx : ctx.Civil) (hop : op.Issued) (hidle : op.Idle) :
    Program.Yields (fun _ => True) Catchable (dispatch ctx op) := by
  have hthrows := throws_of_civil hctx
  unfold dispatch
  cases htype : op.type with
  | none => exact .pure trivial
  | move => exact moveCommits_idle hthrows hop htype hidle
  | copy => exact copyCommits_idle hop htype hidle
  | delete => exact deleteCommits_idle hthrows hop htype hidle
  | combine => exact combineCommits_idle hop htype hidle
  | edit => exact editCommit_idle hop htype hidle

/-- With room for the parents an operation ends without a failed assertion, or goes on
to replace its refs. -/
theorem dispatch_handsOver (hctx : ctx.Civil) (hquiet : ctx.Quiet R) (hop : op.Issued)
    (hidle : ¬op.Idle) (hroom : op.HasRoom) :
    Program.HandsOver R (fun r => r ≠ .error .abort) (ReplacesAll ctx op.targets)
      (dispatch ctx op) := by
  have hthrows := throws_of_civil hctx
  have hQ : ∀ e, Catchable e → (.error e : Except Exn (Option OpResult)) ≠ .error .abort :=
    fun e he heq => he (Except.error.inj heq)
  unfold dispatch
  cases htype : op.type with
  | none => exact .pure (by simp)
  | move => exact moveCommits_handsOver hthrows hquiet hQ hop htype hidle hroom
  | copy => exact copyCommits_handsOver hthrows hquiet hQ hop htype hidle hroom
  | delete => exact deleteCommits_handsOver hthrows hquiet hQ hop htype hidle hroom
  | combine => exact combineCommits_handsOver hthrows hquiet hQ hop htype hidle hroom
  | edit =>
      apply editCommit_handsOver hthrows hquiet hQ hop htype hidle hroom
      intro e content
      refine (hctx.spawn content).mono (fun text _ => ?_) fun _ he => he
      exact ⟨fun _ => by simp, fun err herr => hQ err (editedAuthor_error herr)⟩

/-- Without room an operation aborts, where nothing else stops it. -/
theorem dispatch_aborts (hctx : ctx.Throws fun _ => False) (hedits : Edits ctx)
    (hop : op.Issued) (hidle : ¬op.Idle) (hroom : ¬op.HasRoom) : Aborts (dispatch ctx op) := by
  unfold dispatch
  cases htype : op.type with
  | none => exact absurd (Or.inl (by simp [Op.targets, htype])) hidle
  | move => exact moveCommits_aborts hctx hop htype hidle hroom
  | copy => exact copyCommits_aborts hctx hop htype hidle hroom
  | delete => exact deleteCommits_aborts hctx hop htype hidle hroom
  | combine => exact combineCommits_aborts hctx hop htype hidle hroom
  | edit => exact editCommit_aborts hctx hedits hop htype hidle hroom

/-- With room it goes on to replace its refs, where nothing stops it. -/
theorem dispatch_replaces (hctx : ctx.Throws fun _ => False) (hedits : Edits ctx)
    (hquiet : ctx.Quiet R) (hop : op.Issued) (hidle : ¬op.Idle) (hroom : op.HasRoom) :
    Program.HandsOver R (fun _ => False) (ReplacesAll ctx op.targets) (dispatch ctx op) := by
  have hQ : ∀ e : Exn, False → False := fun _ hfalse => hfalse
  unfold dispatch
  cases htype : op.type with
  | none => exact absurd (Or.inl (by simp [Op.targets, htype])) hidle
  | move => exact moveCommits_handsOver hctx hquiet hQ hop htype hidle hroom
  | copy => exact copyCommits_handsOver hctx hquiet hQ hop htype hidle hroom
  | delete => exact deleteCommits_handsOver hctx hquiet hQ hop htype hidle hroom
  | combine => exact combineCommits_handsOver hctx hquiet hQ hop htype hidle hroom
  | edit =>
      apply editCommit_handsOver hctx hquiet hQ hop htype hidle hroom
      intro e content
      refine (hedits e content).mono ?_ fun _ he => he
      rintro text ⟨hchanged, author, hauthor⟩
      refine ⟨hchanged, fun err herr => ?_⟩
      rw [hauthor] at herr
      cases herr

/-- `Exec` aborts where the operation does. -/
theorem exec_abort_iff {s : σ} :
    (exec ctx op s).1 = .error .abort ↔ (dispatch ctx op s).1 = .error .abort := by
  unfold exec Program.handle
  rcases dispatch ctx op s with ⟨e | r, s'⟩
  · dsimp only
    by_cases he : e = .conflictResolveCanceled
    · simp [he]
    · simp [he]
  · simp

end Dispatch

end Modify

end Git
end Debase
