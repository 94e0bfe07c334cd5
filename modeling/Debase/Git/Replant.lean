import Debase.Git.Rewrite

/-!
# Rewriting without conflicts

A commit is moved onto a parent with the tree of its own parent: the merge has
nothing to merge.  Under the assumption that libgit2 then returns the commit's
own tree, a whole run of consecutive commits can be rewritten with every tree
kept and without a question to the user.
-/

namespace Debase
namespace Git

open Library Modify

/-- Merging trees whose ours side equals the ancestor yields the theirs tree,
without conflict. -/
def CleanMerge {σ : Type} (repo : Repo σ) : Prop :=
  ∀ (favor : FileFavor) (base : Option Tree) (tree : Tree) (s s' : σ) (index : Index),
    repo.mergeTrees favor base base (some tree) s = (.ok index, s') →
      index.conflicts = false ∧
        ∀ t s₁ s₂, repo.indexWrite index s₁ = (.ok t, s₂) → t = tree

theorem CleanMerge.inWorld {ω : Type} {repo : Repo ω} (h : CleanMerge repo) :
    CleanMerge repo.inWorld := by
  intro favor base tree w w' index hmerge
  obtain ⟨o, hmerge⟩ := World.outsideRun_ok (x := repo.mergeTrees _ _ _ _) hmerge
  obtain ⟨hconflicts, hwrite⟩ := h favor base tree _ _ index hmerge
  refine ⟨hconflicts, ?_⟩
  intro t w₁ w₂ hw
  obtain ⟨o', hw⟩ := World.outsideRun_ok (x := repo.indexWrite _) hw
  exact hwrite t _ _ hw

/-- Whole-tree merging is clean. -/
theorem wholeTreeRepo_cleanMerge : CleanMerge wholeTreeRepo := by
  intro favor base tree s s' index h
  have hindex : index = ⟨[⟨[], .normal, 0, tree.id⟩]⟩ := by
    simpa [wholeTreeRepo, eq_comm] using h
  subst hindex
  refine ⟨rfl, ?_⟩
  intro t s₁ s₂ hw
  cases hw
  rfl

namespace Modify

section Clean

variable {σ : Type} {ctx : Ctx σ} {R : σ → σ → Prop} [Std.Refl R] [IsTrans σ R]

/-- A rewritten commit that keeps its tree. -/
theorem commitParentSet_clean (hclean : CleanMerge ctx.repo) (hrepo : ctx.repo.Keeps R)
    {favor : FileFavor} {commit : Commit} {parent : Option Commit} {s s' : σ} {n : Commit}
    (htree : parent.map Commit.tree = commit.parent.map Commit.tree)
    (h : commitParentSet ctx favor commit parent s = (.ok n, s')) :
    n.tree = commit.tree ∧ R s s' := by
  obtain ⟨index, s₁, hmerge, hrest⟩ := Program.bind_eq_ok.mp h
  obtain ⟨index', s₂, hhandle, hfinish⟩ := Program.bind_eq_ok.mp hrest
  have hR₁ := (hrepo.commitParentSet favor commit parent).run hmerge
  rw [ctx.repo.commitParentSet_eq, htree] at hmerge
  obtain ⟨hconflicts, hwrite⟩ := hclean _ _ _ _ _ _ hmerge
  rw [conflictsHandle, hconflicts] at hhandle
  cases hhandle
  have hR₂ := (hrepo.commitParentSetFinish index commit parent).run hfinish
  obtain ⟨tree, s₃, hindex, rfl⟩ := ctx.repo.commitParentSetFinish_ok hfinish
  exact ⟨hwrite _ _ _ hindex, trans_of R hR₁ hR₂⟩

/-- Commits each of which has the one before as first parent, oldest first. -/
def Grows : Option Commit → List Commit → Prop
  | _, [] => True
  | p, c :: cs => c.parent = p ∧ Grows (some c) cs

/-- `n` is `c` written anew with the same tree and the same further parents. -/
def Replants (n c : Commit) : Prop :=
  Renews n c ∧ n.tree = c.tree ∧ n.parents.drop 1 = c.parents.drop 1

/-- Consecutive commits rewritten onto the tree they grew on keep their trees. -/
theorem Applied.replants (hclean : CleanMerge ctx.repo) (hrepo : ctx.repo.Keeps R)
    {favor : FileFavor} {cs ns : List Commit} {p base : Option Commit} {s s' : σ}
    (hgrows : Grows p cs) (htree : base.map Commit.tree = p.map Commit.tree)
    (h : Applied ctx favor cs base s ns s') : List.Forall₂ Replants ns cs ∧ R s s' := by
  induction h generalizing p with
  | nil => exact ⟨.nil, refl_of R _⟩
  | @cons c n cs ns base _ _ _ first _ ih =>
      obtain ⟨hparent, hgrows⟩ := hgrows
      rw [← hparent] at htree
      obtain ⟨hn, hR⟩ := commitParentSet_clean hclean hrepo htree first
      obtain ⟨hrenews, hparents⟩ := commitParentSet_renews first
      obtain ⟨hall, hR'⟩ := ih hgrows (congrArg some hn)
      refine ⟨.cons ⟨hrenews, hn, ?_⟩ hall, trans_of R hR hR'⟩
      -- the base has become the first parent, exactly when there was one
      have hsome : base.isSome = c.parent.isSome := by
        simpa using congrArg Option.isSome htree
      rw [hparents]
      cases base with
      | none =>
          have hnone : c.parent = none := by simpa using hsome.symm
          have hnil : c.parents = [] := by simpa [Commit.parent] using hnone
          simp [hnil]
      | some b => simp

end Clean

/-- The part of a chain above one of its commits, oldest first, grows on that
commit. -/
theorem grows_of_chain {head e : Commit} {above below : List Commit}
    (h : head.chain = above ++ e :: below) : Grows (some e) above.reverse := by
  have happend : ∀ (l : List Commit) (p c : Commit), Grows (some p) l →
      c.parent = (l.getLast?).or (some p) → Grows (some p) (l ++ [c]) := by
    intro l
    induction l with
    | nil =>
        intro p c _ hc
        exact ⟨hc, trivial⟩
    | cons d l ih =>
        intro p c hl hc
        refine ⟨hl.1, ih d c hl.2 ?_⟩
        rw [hc, List.getLast?_cons]
        cases l.getLast? <;> rfl
  induction above generalizing head with
  | nil => trivial
  | cons a above ih =>
      rw [Commit.chain_eq, List.cons_append] at h
      obtain ⟨rfl, htail⟩ := List.cons.inj h
      rcases hp : head.parent with _ | p
      · simp [hp] at htail
      · rw [hp, chainOf_some] at htail
        rw [List.reverse_cons]
        apply happend _ _ _ (ih htail)
        rw [hp, List.getLast?_reverse]
        have hhead := head?_chainOf (some p)
        rw [chainOf_some, htail] at hhead
        cases above with
        | nil => exact hhead.symm
        | cons b bs => simpa using hhead.symm

end Modify
end Git
end Debase
