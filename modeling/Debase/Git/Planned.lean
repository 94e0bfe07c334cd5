import Debase.Git.Rewrite

/-!
# What the plan of a rewrite says

`_AddRemoveCommits` splits the chain of its destination into the commits that
it applies again and the commit that it applies them on.  Here the split is
described without the loop: which commit is the base, what stands above it, and
where the added commits go.

The quick test `_MoveIsNop` is compared with the plan it saves: a move within
one ref changes nothing exactly when the planned order is the old order.
-/

namespace Debase
namespace Git

open Library

namespace Modify

/-! ## The two parts of a cut chain -/

section Cut

variable {add : List Commit} {position : Option Commit} {remove : Finset Commit}

/-- Commits that are applied again because of the rewrite, newest first. -/
def applyAgain (remove : Finset Commit) (cs : List Commit) : List CommitAdded :=
  (cs.filter (· ∉ remove)).map (⟨·, false⟩)

theorem applyAgain_cons (c : Commit) (cs : List Commit) :
    applyAgain remove (c :: cs) =
      (if c ∈ remove then [] else [⟨c, false⟩]) ++ applyAgain remove cs := by
  by_cases hc : c ∈ remove
  · simp [applyAgain, hc]
  · simp [applyAgain, hc]

/-- What stays has no removed commit. -/
theorem notMem_of_mem_cut (cs : List Commit) :
    ∀ c ∈ (cut add position remove cs).2, c ∉ remove := by
  induction cs with
  | nil => simp [cut]
  | cons d ds ih =>
      rw [cut]
      split
      · next hkeep =>
          obtain ⟨hd, hstay⟩ := hkeep
          rw [hstay] at ih
          intro c hc
          rcases List.mem_cons.mp hc with rfl | hc
          · exact hd
          · exact ih c hc
      · exact ih

/-- A chain that nothing is removed from or added to stays whole. -/
theorem cut_untouched {cs : List Commit} (hremove : ∀ c ∈ cs, c ∉ remove)
    (hadd : add ≠ [] → position ≠ none ∧ ∀ c ∈ cs, position ≠ some c) :
    cut add position remove cs = ([], cs) := by
  induction cs with
  | nil =>
      rw [cut, insertedAt]
      by_cases hnil : add = []
      · simp [hnil]
      · rw [if_neg (hadd hnil).1.symm]
        rfl
  | cons c cs ih =>
      have hcs : cut add position remove cs = ([], cs) := by
        apply ih
        · intro d hd
          exact hremove d (List.mem_cons_of_mem _ hd)
        · intro hne
          obtain ⟨hnone, habove⟩ := hadd hne
          exact ⟨hnone, fun d hd => habove d (List.mem_cons_of_mem _ hd)⟩
      have hhere : insertedAt add position (some c) = [] := by
        unfold insertedAt
        by_cases hnil : add = []
        · simp [hnil]
        · rw [if_neg ((hadd hnil).2 c List.mem_cons_self).symm]
      rw [cut, hcs, hhere, if_pos ⟨hremove c List.mem_cons_self, rfl⟩]
      rfl

/-- Where the rest of a chain stays whole, it also stays below anything else. -/
theorem suffix_cut {d : Commit} {below : List Commit} (hd : d ∉ remove)
    (hbelow : cut add position remove below = ([], below)) (above : List Commit) :
    d :: below <:+ (cut add position remove (above ++ d :: below)).2 := by
  induction above with
  | nil =>
      rw [List.nil_append, cut, if_pos ⟨hd, hbelow⟩]
  | cons c above ih =>
      rw [List.cons_append, cut]
      split
      · show d :: below <:+ c :: (above ++ d :: below)
        exact (List.suffix_append above _).trans (List.suffix_cons c _)
      · exact ih

/-- With nothing to add, the part above the base is applied again as it is. -/
theorem cut_removal (position : Option Commit) (remove : Finset Commit) (cs : List Commit) :
    ∃ above, cs = above ++ (cut [] position remove cs).2 ∧
      (cut [] position remove cs).1 = applyAgain remove above := by
  induction cs with
  | nil => exact ⟨[], rfl, by simp [cut, insertedAt, applyAgain]⟩
  | cons c cs ih =>
      obtain ⟨above, hsplit, hfresh⟩ := ih
      rw [cut]
      split
      · exact ⟨[], rfl, by simp [insertedAt, applyAgain]⟩
      · refine ⟨c :: above, ?_, ?_⟩
        · show c :: cs = c :: (above ++ (cut [] position remove cs).2)
          rw [← hsplit]
        · rw [applyAgain_cons, ← hfresh]
          simp [insertedAt]

/-- The commits above the base are applied again, and the added ones stand
between them, directly above the position. -/
theorem cut_insertion (remove : Finset Commit) {cs : List Commit} (hnd : cs.Nodup) (hadd : add ≠ [])
    (hposition : position = none ∨ ∃ c ∈ cs, position = some c) :
    ∃ above below, cs = above ++ (below ++ (cut add position remove cs).2) ∧
      (below ++ (cut add position remove cs).2).head? = position ∧
      (cut add position remove cs).1 =
        applyAgain remove above ++ (add.map (⟨·, true⟩) ++ applyAgain remove below) := by
  induction cs with
  | nil =>
      have hnone : position = none := by simpa using hposition
      subst hnone
      exact ⟨[], [], rfl, rfl, by simp [cut, insertedAt, applyAgain]⟩
  | cons c cs ih =>
      obtain ⟨hc, hcs⟩ := List.nodup_cons.mp hnd
      by_cases hhere : position = some c
      · -- nothing is added below the position
        have habove : ∀ d ∈ cs, position ≠ some d := by
          intro d hd heq
          rw [hhere] at heq
          exact hc (Option.some.inj heq ▸ hd)
        have hcut : cut add position remove cs = cut [] position remove cs :=
          cut_above add position remove (by simp [hhere]) habove
        obtain ⟨below, hsplit, hfresh⟩ := cut_removal position remove cs
        rw [cut, hcut]
        split
        · exact ⟨[], [], rfl, by simp [hhere], by simp [insertedAt, hhere, applyAgain]⟩
        · refine ⟨[], c :: below, ?_, by simp [hhere], ?_⟩
          · show c :: cs = c :: (below ++ (cut [] position remove cs).2)
            rw [← hsplit]
          · rw [applyAgain_cons, ← hfresh]
            simp [insertedAt, hhere, applyAgain]
      · have hrest : position = none ∨ ∃ d ∈ cs, position = some d := by
          rcases hposition with hnone | ⟨d, hd, heq⟩
          · exact Or.inl hnone
          · refine Or.inr ⟨d, (List.mem_cons.mp hd).resolve_left ?_, heq⟩
            rintro rfl
            exact hhere heq
        obtain ⟨above, below, hsplit, hhead, hfresh⟩ := ih hcs hrest
        have hnotHere : insertedAt add position (some c) = [] := by
          unfold insertedAt
          rw [if_neg fun heq => hhere heq.symm]
        rw [cut]
        split
        · next hkeep =>
            -- the rest cannot stay whole, as the position is in it
            exfalso
            obtain ⟨-, hstay⟩ := hkeep
            obtain ⟨-, hnowhere⟩ := untouched_of_cut _ _ _ hstay
            obtain ⟨hnone, hall⟩ := hnowhere hadd
            rcases hrest with heq | ⟨d, hd, heq⟩
            · exact hnone heq
            · exact hall d hd heq
        · refine ⟨c :: above, below, ?_, hhead, ?_⟩
          · show c :: cs = c :: (above ++ (below ++ (cut add position remove cs).2))
            rw [← hsplit]
          · rw [applyAgain_cons, hnotHere, hfresh]
            simp

end Cut

/-! ## The base of a rewrite -/

section Base

variable (add : Finset Commit) (position : Option Commit) (remove : Finset Commit)

/-- Neither `h` nor a commit below it is removed, and if commits are added, the
position is at `h` or above it. -/
def StaysFrom (h : Commit) : Prop :=
  (∀ c ∈ h.chain, c ∉ remove) ∧ (add ≠ ∅ → ∃ p, position = some p ∧ h ∈ p.chain)

/-- The newest commit of a chain that stays with everything below it, or null if
there is none. -/
structure IsBase (dst : Commit) (head : Option Commit) : Prop where
  stays : ∀ h, head = some h → h ∈ dst.chain ∧ StaysFrom add position remove h
  newest : ∀ d ∈ dst.chain, StaysFrom add position remove d → d ∈ chainOf head

/-- The commits to apply, oldest first: those above the base that are not
removed, and, in one place, the added ones. -/
def IsPlan (dst : Commit) (addv : List Commit) (head : Option Commit)
    (combined : List CommitAdded) : Prop :=
  ∃ above below, dst.chain = above ++ (below ++ chainOf head) ∧
    (add ≠ ∅ → (below ++ chainOf head).head? = position) ∧
    combined = (applyAgain remove below).reverse ++
      (addv.map (⟨·, true⟩) ++ (applyAgain remove above).reverse)

/-- What `_AddRemoveCommits` returns after it applied a plan: the base is below
the new commits as it was, and the added set is what the entries that are
flagged became. -/
def AppliesPlan {σ : Type} (ctx : Ctx σ) (favor : FileFavor) (head : Option Commit)
    (combined : List CommitAdded) (s s' : σ) (r : AddRemoveResult) : Prop :=
  ∃ ns, Applied ctx favor (combined.map CommitAdded.commit) head s ns s' ∧
    r.commit = ns.getLast?.or head ∧
    (∀ b, head = some b → chainOf r.commit = ns.reverse ++ b.chain) ∧
    ∀ n, n ∈ r.added ↔ ∃ c, (⟨c, true⟩, n) ∈ combined.zip ns

variable {add position remove}

/-- A commit below another one is not above it. -/
theorem notMem_chain_of_mem_below {h p : Commit} (hp : p ∈ chainOf h.parent) : h ∉ p.chain := by
  intro hmem
  obtain ⟨above, below, hsplit⟩ : ∃ above below, chainOf h.parent = above ++ p :: below :=
    List.append_of_mem hp
  cases hparent : h.parent with
  | none => simp [hparent] at hp
  | some q =>
      rw [hparent] at hsplit
      have hbelow := chain_suffix hsplit
      have hq : h ∈ q.chain := by
        show h ∈ chainOf (some q)
        rw [hsplit, hbelow, ← p.chain_eq]
        exact List.mem_append_right above hmem
      exact not_mem_chainOf_parent h (by rw [hparent]; exact hq)

/-- A chain whose upper part is cut off is the chain of its first commit. -/
theorem chainOf_head?_of_split {c : Commit} {above below : List Commit}
    (hsplit : c.chain = above ++ below) : chainOf below.head? = below := by
  cases below with
  | nil => rfl
  | cons d ds =>
      show d.chain = d :: ds
      rw [d.chain_eq, ← chain_suffix hsplit]

/-- The plan that the cut of a chain makes has the newest possible base. -/
theorem isBase_of_cut {dst : Commit} {addv : List Commit} {head : Option Commit}
    (hadd : addv = [] ↔ add = ∅)
    (hhead : chainOf head = (cut addv.reverse position remove dst.chain).2)
    (hplace : add ≠ ∅ → ∃ above below, dst.chain = above ++ (below ++ chainOf head) ∧
      (below ++ chainOf head).head? = position) :
    IsBase add position remove dst head where
  stays := by
    rintro h rfl
    have hsuffix : h.chain <:+ dst.chain := by
      rw [← chainOf_some h, hhead]
      exact kept_suffix addv.reverse position remove dst.chain
    refine ⟨hsuffix.subset h.mem_chain_self, ?_, ?_⟩
    · rw [← chainOf_some h, hhead]
      exact notMem_of_mem_cut dst.chain
    · intro hne
      obtain ⟨above, below, hsplit, hfirst⟩ := hplace hne
      cases hp : position with
      | none => simp [hp] at hfirst
      | some p =>
          refine ⟨p, rfl, ?_⟩
          have hchain := chainOf_head?_of_split hsplit
          rw [hfirst, hp, chainOf_some] at hchain
          rw [hchain]
          simp
  -- a commit that could stay is below the cut
  newest := by
    rintro d hd ⟨hremove, hposition⟩
    obtain ⟨above, below, hsplit⟩ := List.append_of_mem hd
    have hbelow := chain_suffix hsplit
    have hstay : cut addv.reverse position remove below = ([], below) := by
      apply cut_untouched
      · intro c hc
        apply hremove
        rw [d.chain_eq, ← hbelow]
        exact List.mem_cons_of_mem d hc
      · intro hne
        have hadds : add ≠ ∅ := fun hempty => hne (by simp [hadd.mpr hempty])
        obtain ⟨p, hp, hdp⟩ := hposition hadds
        refine ⟨by simp [hp], ?_⟩
        intro c hc heq
        rw [hp] at heq
        obtain rfl := Option.some.inj heq
        exact notMem_chain_of_mem_below (hbelow ▸ hc) hdp
    rw [hhead, hsplit]
    exact (suffix_cut (hremove d d.mem_chain_self) hstay above).subset List.mem_cons_self

/-- A cut chain whose added commits go to its position is a plan. -/
theorem isPlan_of_cut {dst : Commit} {addv : List Commit} {head : Option Commit}
    {combined : List CommitAdded} (hadd : addv = [] ↔ add = ∅)
    (hhead : chainOf head = (cut addv.reverse position remove dst.chain).2)
    (hcombined : combined = (cut addv.reverse position remove dst.chain).1.reverse)
    (hposition : add ≠ ∅ → position = none ∨ ∃ p ∈ dst.chain, position = some p) :
    IsPlan add position remove dst addv head combined := by
  by_cases hempty : add = ∅
  · have hnil : addv = [] := hadd.mpr hempty
    subst hnil
    rw [List.reverse_nil] at hhead hcombined
    obtain ⟨above, hsplit, hfresh⟩ :=
      cut_removal position remove dst.chain
    refine ⟨above, [], ?_, fun hne => absurd hempty hne, ?_⟩
    · rw [List.nil_append, hhead]
      exact hsplit
    · rw [hcombined, hfresh]
      simp [applyAgain]
  · have hne : addv.reverse ≠ [] := by
      intro hnil
      exact hempty (hadd.mp (List.reverse_eq_nil_iff.mp hnil))
    obtain ⟨above, below, hsplit, hfirst, hfresh⟩ :=
      cut_insertion remove (nodup_chain dst) hne (hposition hempty)
    rw [← hhead] at hsplit hfirst
    refine ⟨above, below, hsplit, fun _ => hfirst, ?_⟩
    rw [hcombined, hfresh]
    simp

/-- A run of `_AddRemoveCommits` applies its plan. -/
theorem appliesPlan_of_run {σ : Type} {ctx : Ctx σ} {favor : FileFavor} {dst : Commit}
    {addSrc : Option Commit} {addv : List Commit} {head : Option Commit}
    {combined : List CommitAdded} {s s' : σ} {r : AddRemoveResult}
    (hsorted : sorted addSrc add = .ok addv)
    (hplan : planLoop addv position dst.chain ⟨remove, false, []⟩ = .ok (head, combined))
    (h : addRemoveCommits ctx favor dst add addSrc position remove s = (.ok r, s')) :
    AppliesPlan ctx favor head combined s s' r := by
  unfold addRemoveCommits at h
  rw [hsorted] at h
  simp only [Program.lift_ok, pure_bind, hplan] at h
  obtain ⟨ns, happlied, hr, hadded⟩ := applyCombined_ok h
  refine ⟨ns, happlied, hr, ?_, ?_⟩
  · rintro b rfl
    rw [hr, happlied.chain]
    rfl
  · intro n
    rw [hadded n]
    simp

/-- No assert of the planning fails, and the plan is the cut of the chain. -/
theorem plan_total {dst : Commit} {addSrc : Option Commit}
    (hadd : ∀ c ∈ add, c ∈ chainOf addSrc) (hremove : ∀ c ∈ remove, c ∈ dst.chain)
    (hposition : add ≠ ∅ → position = none ∨ ∃ p ∈ dst.chain, position = some p) :
    ∃ addv head combined,
      sorted addSrc add = .ok addv ∧
      addv = ((chainOf addSrc).filter (· ∈ add)).reverse ∧
      (addv = [] ↔ add = ∅) ∧
      planLoop addv position dst.chain ⟨remove, false, []⟩ = .ok (head, combined) ∧
      combined = (cut addv.reverse position remove dst.chain).1.reverse ∧
      chainOf head = (cut addv.reverse position remove dst.chain).2 := by
  obtain ⟨addv, hsorted⟩ := sorted_total hadd
  obtain ⟨haddv, -⟩ := sorted_ok hsorted
  have hnil : addv = [] ↔ add = ∅ := by
    rw [← List.reverse_eq_nil_iff, haddv, List.filter_eq_nil_iff, Finset.eq_empty_iff_forall_notMem]
    constructor
    · intro hno c hc
      exact hno c (hadd c hc) (by simpa using hc)
    · intro hno c _
      simpa using hno c
  obtain ⟨⟨head, combined⟩, hplan⟩ := @planLoop_total addv position dst.chain
    (nodup_chain dst) ⟨remove, false, []⟩ hremove
    (fun hto => hposition fun hempty => hto (by simp [PlanState.toAdd, hnil.mpr hempty]))
    (fun hmet => absurd hmet (by simp))
  obtain ⟨hcombined, hhead, -, -⟩ := planLoop_ok (nodup_chain dst) (c := some dst) rfl hplan
  have hto : PlanState.toAdd addv ⟨remove, false, []⟩ = addv.reverse := rfl
  rw [hto] at hcombined hhead
  refine ⟨addv, head, combined, hsorted, ?_, hnil, hplan, by simpa using hcombined, hhead⟩
  rw [← haddv, List.reverse_reverse]

/-- What `_AddRemoveCommits` plans and does: no assert of the planning fails, the
plan has the newest base that stays and puts the added commits once above the
position, and every run applies that plan. -/
def RunsPlan (dst : Commit) (add : Finset Commit) (addSrc position : Option Commit)
    (remove : Finset Commit) : Prop :=
  ∃ addv head combined,
    sorted addSrc add = .ok addv ∧
    addv = ((chainOf addSrc).filter (· ∈ add)).reverse ∧
    planLoop addv position dst.chain ⟨remove, false, []⟩ = .ok (head, combined) ∧
    IsBase add position remove dst head ∧
    IsPlan add position remove dst addv head combined ∧
    ∀ {σ : Type} (ctx : Ctx σ) (favor : FileFavor) (s s' : σ) (r : AddRemoveResult),
      addRemoveCommits ctx favor dst add addSrc position remove s = (.ok r, s') →
        AppliesPlan ctx favor head combined s s' r

/-- The commits to add are on the chain of `addSrc`, those to remove on the chain
of `dst`, and if there is something to add, the position is null or on the
chain of `dst`. -/
theorem addRemoveCommits_runsPlan {dst : Commit} {addSrc : Option Commit}
    (hadd : ∀ c ∈ add, c ∈ chainOf addSrc) (hremove : ∀ c ∈ remove, c ∈ dst.chain)
    (hposition : add ≠ ∅ → position = none ∨ ∃ p ∈ dst.chain, position = some p) :
    RunsPlan dst add addSrc position remove := by
  obtain ⟨addv, head, combined, hsorted, haddv, hnil, hplan, hcombined, hhead⟩ :=
    plan_total hadd hremove hposition
  have hisPlan : IsPlan add position remove dst addv head combined :=
    isPlan_of_cut hnil hhead hcombined hposition
  refine ⟨addv, head, combined, hsorted, haddv, hplan, ?_, hisPlan, ?_⟩
  · obtain ⟨above, below, hsplit, hfirst, -⟩ := hisPlan
    exact isBase_of_cut hnil hhead fun hne => ⟨above, below, hsplit, hfirst hne⟩
  · intro σ ctx favor s s' r h
    exact appliesPlan_of_run hsorted hplan h

/-- The root of a branch of two commits goes on top. -/
theorem root_runsPlan :
    (∀ c ∈ ({HalfMove.root} : Finset Commit), c ∈ chainOf (some HalfMove.top)) ∧
      (∀ c ∈ ({HalfMove.root} : Finset Commit), c ∈ HalfMove.top.chain) ∧
      RunsPlan HalfMove.top {HalfMove.root} (some HalfMove.top) (some HalfMove.top)
        {HalfMove.root} :=
  ⟨by decide, by decide, addRemoveCommits_runsPlan (by decide) (by decide)
    fun _ => Or.inr ⟨HalfMove.top, by decide, rfl⟩⟩

end Base

/-! ## Moves that change nothing -/

section Nop

variable {S : Finset Commit}

/-- The commits of a set that are on a chain stand in one block. -/
def Contiguous (S : Finset Commit) (cs : List Commit) : Prop :=
  ∃ above block below, cs = above ++ (block ++ below) ∧ (∀ c ∈ above, c ∉ S) ∧
    (∀ c ∈ block, c ∈ S) ∧ ∀ c ∈ below, c ∉ S

/-- The scan for a gap, after the first commit of the set was met. -/
theorem commitsHasGapLoop_started {cs : List Commit} (hnd : cs.Nodup) {rem : Finset Commit}
    (hrem : ∀ c ∈ rem, c ∈ cs) :
    commitsHasGapLoop cs rem true = .ok false ↔
      ∃ block below, cs = block ++ below ∧ (∀ c ∈ block, c ∈ rem) ∧ ∀ c ∈ below, c ∉ rem := by
  induction cs generalizing rem with
  | nil =>
      have hempty : rem = ∅ := Finset.eq_empty_of_forall_notMem fun c hc => by simpa using hrem c hc
      rw [commitsHasGapLoop, if_pos hempty]
      exact ⟨fun _ => ⟨[], [], rfl, by simp, by simp⟩, fun _ => rfl⟩
  | cons h hs ih =>
      obtain ⟨hh, hhs⟩ := List.nodup_cons.mp hnd
      rw [commitsHasGapLoop]
      by_cases hempty : rem = ∅
      · rw [if_pos hempty]
        exact ⟨fun _ => ⟨[], h :: hs, rfl, by simp, by simp [hempty]⟩, fun _ => rfl⟩
      · rw [if_neg hempty]
        by_cases hmem : h ∈ rem
        · have hsub : ∀ c ∈ rem.erase h, c ∈ hs := by
            intro c hc
            obtain ⟨hne, hc⟩ := Finset.mem_erase.mp hc
            exact (List.mem_cons.mp (hrem c hc)).resolve_left hne
          have hsame : ∀ c ∈ hs, (c ∈ rem.erase h ↔ c ∈ rem) := by
            intro c hc
            simp [ne_of_mem_of_not_mem hc hh]
          rw [if_neg (by simp [hmem]), Bool.true_or, ih hhs hsub]
          constructor
          · rintro ⟨block, below, rfl, hblock, hbelow⟩
            refine ⟨h :: block, below, rfl, ?_, ?_⟩
            · intro c hc
              rcases List.mem_cons.mp hc with rfl | hc
              · exact hmem
              · exact (hsame c (List.mem_append_left _ hc)).mp (hblock c hc)
            · intro c hc hin
              exact hbelow c hc ((hsame c (List.mem_append_right _ hc)).mpr hin)
          · rintro ⟨_ | ⟨b, block⟩, below, hsplit, hblock, hbelow⟩
            · have hbelow' : below = h :: hs := by simpa using hsplit.symm
              exact absurd hmem (hbelow h (hbelow' ▸ List.mem_cons_self))
            · obtain ⟨rfl, rfl⟩ := List.cons.inj hsplit
              refine ⟨block, below, rfl, ?_, ?_⟩
              · intro c hc
                exact (hsame c (List.mem_append_left _ hc)).mpr
                  (hblock c (List.mem_cons_of_mem _ hc))
              · intro c hc hin
                exact hbelow c hc ((hsame c (List.mem_append_right _ hc)).mp hin)
        · -- the block ended before this commit, and some commit of the set is left: a gap
          rw [if_pos (by simp [hmem])]
          constructor
          · intro htrue
            simp at htrue
          · rintro ⟨_ | ⟨b, block⟩, below, hsplit, hblock, hbelow⟩
            · exfalso
              apply hempty
              apply Finset.eq_empty_of_forall_notMem
              intro c hc
              have hbelow' : below = h :: hs := by simpa using hsplit.symm
              exact hbelow c (hbelow' ▸ hrem c hc) hc
            · obtain ⟨rfl, -⟩ := List.cons.inj hsplit
              exact absurd (hblock h List.mem_cons_self) hmem

/-- `_CommitsHasGap` finds no gap exactly when the commits stand in one block. -/
theorem commitsHasGapLoop_iff {cs : List Commit} (hnd : cs.Nodup) {rem : Finset Commit}
    (hrem : ∀ c ∈ rem, c ∈ cs) :
    commitsHasGapLoop cs rem false = .ok false ↔ Contiguous rem cs := by
  induction cs generalizing rem with
  | nil =>
      have hempty : rem = ∅ := Finset.eq_empty_of_forall_notMem fun c hc => by simpa using hrem c hc
      rw [commitsHasGapLoop, if_pos hempty]
      exact ⟨fun _ => ⟨[], [], [], rfl, by simp, by simp, by simp⟩, fun _ => rfl⟩
  | cons h hs ih =>
      obtain ⟨hh, hhs⟩ := List.nodup_cons.mp hnd
      by_cases hmem : h ∈ rem
      · -- the block begins here
        have hstarted := commitsHasGapLoop_started hnd hrem
        have hskip : commitsHasGapLoop (h :: hs) rem false =
            commitsHasGapLoop (h :: hs) rem true := by
          simp [commitsHasGapLoop, hmem]
        rw [hskip, hstarted]
        constructor
        · rintro ⟨block, below, hsplit, hblock, hbelow⟩
          exact ⟨[], block, below, hsplit, by simp, hblock, hbelow⟩
        · rintro ⟨_ | ⟨a, above⟩, block, below, hsplit, habove, hblock, hbelow⟩
          · exact ⟨block, below, hsplit, hblock, hbelow⟩
          · obtain ⟨rfl, -⟩ := List.cons.inj hsplit
            exact absurd hmem (habove h List.mem_cons_self)
      · have herase : rem.erase h = rem := Finset.erase_eq_of_notMem hmem
        have hsub : ∀ c ∈ rem, c ∈ hs := by
          intro c hc
          exact (List.mem_cons.mp (hrem c hc)).resolve_left (ne_of_mem_of_not_mem hc hmem)
        have hskip : commitsHasGapLoop (h :: hs) rem false = commitsHasGapLoop hs rem false := by
          rw [commitsHasGapLoop, herase]
          by_cases hempty : rem = ∅
          · subst hempty
            cases hs <;> simp [commitsHasGapLoop]
          · simp [hempty, hmem]
        rw [hskip, ih hhs hsub]
        constructor
        · rintro ⟨above, block, below, rfl, habove, hblock, hbelow⟩
          refine ⟨h :: above, block, below, rfl, ?_, hblock, hbelow⟩
          intro c hc
          rcases List.mem_cons.mp hc with rfl | hc
          · exact hmem
          · exact habove c hc
        · rintro ⟨_ | ⟨a, above⟩, block, below, hsplit, habove, hblock, hbelow⟩
          · -- a block cannot begin at `h`, so there is none
            rcases block with _ | ⟨b, block⟩
            · have hbelow' : below = h :: hs := by simpa using hsplit.symm
              exact ⟨[], [], hs, rfl, by simp, by simp, fun c hc =>
                hbelow c (hbelow' ▸ List.mem_cons_of_mem _ hc)⟩
            · obtain ⟨rfl, -⟩ := List.cons.inj hsplit
              exact absurd (hblock h List.mem_cons_self) hmem
          · obtain ⟨rfl, rfl⟩ := List.cons.inj hsplit
            exact ⟨above, block, below, rfl,
              fun c hc => habove c (List.mem_cons_of_mem _ hc), hblock, hbelow⟩

/-- `_FindEarliestCommit` finds the last commit of the set on the chain. -/
theorem findEarliestLoop_ok {cs : List Commit} (hnd : cs.Nodup) {rem : Finset Commit}
    (hrem : ∀ c ∈ rem, c ∈ cs) {t : Commit} (h : findEarliestLoop cs rem = .ok t) :
    (cs.filter (· ∈ rem)).getLast? = some t := by
  induction cs generalizing rem with
  | nil =>
      have hempty : rem = ∅ := Finset.eq_empty_of_forall_notMem fun c hc => by simpa using hrem c hc
      have honly : theOnly ∅ = none := rfl
      rw [findEarliestLoop, hempty, honly] at h
      cases h
  | cons c cs ih =>
      obtain ⟨hc, hcs⟩ := List.nodup_cons.mp hnd
      rw [findEarliestLoop] at h
      split at h
      · next hmany =>
          have hsub : ∀ d ∈ rem.erase c, d ∈ cs := by
            intro d hd
            obtain ⟨hne, hd⟩ := Finset.mem_erase.mp hd
            exact (List.mem_cons.mp (hrem d hd)).resolve_left hne
          -- more than one is left, so the last one is further down
          have hlast := ih hcs hsub h
          have hfilter : cs.filter (· ∈ rem.erase c) = cs.filter (· ∈ rem) := by
            apply List.filter_congr
            intro d hd
            simp [ne_of_mem_of_not_mem hd hc]
          rw [hfilter] at hlast
          by_cases hmem : c ∈ rem
          · rw [List.filter_cons_of_pos (by simpa using hmem), List.getLast?_cons, hlast]
            rfl
          · rwa [List.filter_cons_of_neg (by simpa using hmem)]
      · rcases honly : theOnly rem with _ | d
        · rw [honly] at h
          cases h
        · rw [honly] at h
          cases h
          obtain rfl := theOnly_eq_some.mp honly
          have hd := hrem t (Finset.mem_singleton_self t)
          have hone : (c :: cs).filter (· ∈ ({t} : Finset Commit)) = [t] := by
            simp only [Finset.mem_singleton]
            rw [List.filter_eq, List.count_eq_one_of_mem hnd hd]
            rfl
          rw [hone]
          rfl

/-- With the position above the chain only the removed commits make a difference. -/
theorem edited_above {add : List Commit} {position : Option Commit} {remove : Finset Commit}
    {cs : List Commit} (hnone : position ≠ none) (habove : ∀ c ∈ cs, position ≠ some c) :
    edited add position remove cs = cs.filter (· ∉ remove) := by
  induction cs with
  | nil => simp [edited, insertedAt, hnone.symm]
  | cons c cs ih =>
      have hc : some c ≠ position := (habove c List.mem_cons_self).symm
      have hcs := ih fun d hd => habove d (List.mem_cons_of_mem _ hd)
      rw [edited, hcs, insertedAt, if_neg hc]
      by_cases hmem : c ∈ remove
      · simp [hmem]
      · simp [hmem]

/-- An edited chain, around the position. -/
theorem edited_split {add : List Commit} {position : Option Commit} {remove : Finset Commit}
    {above below : List Commit} (hnd : (above ++ below).Nodup) (hhead : below.head? = position) :
    edited add position remove (above ++ below) =
      above.filter (· ∉ remove) ++ (add ++ below.filter (· ∉ remove)) := by
  induction above with
  | nil =>
      cases below with
      | nil =>
          subst hhead
          simp [edited, insertedAt]
      | cons c cs =>
          have hc : c ∉ cs := (List.nodup_cons.mp hnd).1
          have hposition : position = some c := hhead.symm
          have hrest : edited add position remove cs = cs.filter (· ∉ remove) := by
            apply edited_above
            · simp [hposition]
            · intro d hd heq
              rw [hposition] at heq
              exact hc (Option.some.inj heq ▸ hd)
          show edited add position remove (c :: cs) = _
          rw [edited, hrest, insertedAt, if_pos hposition.symm]
          by_cases hmem : c ∈ remove
          · simp [hmem]
          · simp [hmem]
  | cons a above ih =>
      obtain ⟨ha, hrest⟩ := List.nodup_cons.mp hnd
      have hne : some a ≠ position := by
        rintro rfl
        exact ha (List.mem_append_right _ (List.mem_of_mem_head? hhead))
      rw [List.cons_append, edited, ih hrest, insertedAt, if_neg hne]
      by_cases hmem : a ∈ remove
      · simp [hmem]
      · simp [hmem]

/-- A list is its members of a set behind the other ones. -/
def EndsWith (S : Finset Commit) (cs : List Commit) : Prop :=
  cs = cs.filter (· ∉ S) ++ cs.filter (· ∈ S)

/-- A list is its members of a set before the other ones. -/
def BeginsWith (S : Finset Commit) (cs : List Commit) : Prop :=
  cs = cs.filter (· ∈ S) ++ cs.filter (· ∉ S)

/-- Putting the commits of a set at a position keeps the chain exactly when they
stand there already, directly above or directly below it. -/
theorem edited_self_iff {position : Option Commit} {above below : List Commit}
    (hnd : (above ++ below).Nodup) (hhead : below.head? = position) :
    edited ((above ++ below).filter (· ∈ S)) position S (above ++ below) = above ++ below ↔
      EndsWith S above ∧ BeginsWith S below := by
  rw [edited_split hnd hhead, List.filter_append]
  unfold EndsWith BeginsWith
  constructor
  · intro heq
    have hlen : (above.filter (· ∉ S) ++ above.filter (· ∈ S)).length = above.length := by
      have hcount := List.length_eq_length_filter_add (l := above) (· ∈ S)
      simp only [List.length_append]
      simp only [decide_not]
      omega
    have hsplit : (above.filter (· ∉ S) ++ above.filter (· ∈ S)) ++
        (below.filter (· ∈ S) ++ below.filter (· ∉ S)) = above ++ below := by
      rw [← heq]
      simp only [List.append_assoc]
    obtain ⟨habove, hbelow⟩ := List.append_inj hsplit hlen
    exact ⟨habove.symm, hbelow.symm⟩
  · rintro ⟨habove, hbelow⟩
    calc above.filter (· ∉ S) ++
          ((above.filter (· ∈ S) ++ below.filter (· ∈ S)) ++ below.filter (· ∉ S))
        = (above.filter (· ∉ S) ++ above.filter (· ∈ S)) ++
            (below.filter (· ∈ S) ++ below.filter (· ∉ S)) := by
          simp only [List.append_assoc]
      _ = above ++ below := by rw [← habove, ← hbelow]

/-- The members of a set in three lists, of which only the middle one has any. -/
theorem filter_block {above block below : List Commit} (habove : ∀ c ∈ above, c ∉ S)
    (hblock : ∀ c ∈ block, c ∈ S) (hbelow : ∀ c ∈ below, c ∉ S) :
    (above ++ (block ++ below)).filter (· ∈ S) = block := by
  have hnone : ∀ l : List Commit, (∀ c ∈ l, c ∉ S) → l.filter (· ∈ S) = [] := by
    intro l hl
    rw [List.filter_eq_nil_iff]
    simpa using hl
  have hall : block.filter (· ∈ S) = block := by
    rw [List.filter_eq_self]
    simpa using hblock
  rw [List.filter_append, List.filter_append, hnone above habove, hall, hnone below hbelow]
  simp

theorem endsWith_append {above block : List Commit} (habove : ∀ c ∈ above, c ∉ S)
    (hblock : ∀ c ∈ block, c ∈ S) : EndsWith S (above ++ block) := by
  have hmembers : (above ++ block).filter (· ∈ S) = block := by
    simpa using @filter_block S above block [] habove hblock (by simp)
  have hothers : (above ++ block).filter (· ∉ S) = above := by
    rw [List.filter_append, List.filter_eq_self.mpr (by simpa using habove),
      List.filter_eq_nil_iff.mpr (by simpa using hblock), List.append_nil]
  unfold EndsWith
  rw [hmembers, hothers]

theorem beginsWith_append {block below : List Commit} (hblock : ∀ c ∈ block, c ∈ S)
    (hbelow : ∀ c ∈ below, c ∉ S) : BeginsWith S (block ++ below) := by
  have hmembers : (block ++ below).filter (· ∈ S) = block :=
    @filter_block S [] block below (by simp) hblock hbelow
  have hothers : (block ++ below).filter (· ∉ S) = below := by
    rw [List.filter_append, List.filter_eq_nil_iff.mpr (by simpa using hblock),
      List.filter_eq_self.mpr (by simpa using hbelow), List.nil_append]
  unfold BeginsWith
  rw [hmembers, hothers]

/-- The commits of a set stand directly above or below a position exactly when
they stand in one block and the position is in the block or right below it. -/
theorem inPlace_iff {head : Commit} {above below : List Commit} {tail : Commit}
    (hchain : head.chain = above ++ below)
    (htail : (head.chain.filter (· ∈ S)).getLast? = some tail) :
    EndsWith S above ∧ BeginsWith S below ↔
      Contiguous S head.chain ∧ below.head? ∈ insert tail.parent (S.image some) := by
  constructor
  · rintro ⟨habove, hbelow⟩
    have hout : ∀ (l : List Commit), ∀ c ∈ l.filter (· ∉ S), c ∉ S := by
      intro l c hc
      simpa using (List.mem_filter.mp hc).2
    have hin : ∀ (l : List Commit), ∀ c ∈ l.filter (· ∈ S), c ∈ S := by
      intro l c hc
      simpa using (List.mem_filter.mp hc).2
    constructor
    · refine ⟨above.filter (· ∉ S), above.filter (· ∈ S) ++ below.filter (· ∈ S),
        below.filter (· ∉ S), ?_, hout above, ?_, hout below⟩
      · calc head.chain = above ++ below := hchain
          _ = (above.filter (· ∉ S) ++ above.filter (· ∈ S)) ++
                (below.filter (· ∈ S) ++ below.filter (· ∉ S)) := by rw [← habove, ← hbelow]
          _ = _ := by simp only [List.append_assoc]
      · intro c hc
        rcases List.mem_append.mp hc with hc | hc
        · exact hin above c hc
        · exact hin below c hc
    · rcases hfirst : below.filter (· ∈ S) with _ | ⟨p, rest⟩
      · -- nothing of the block is below the position, so the tail is right above it
        rw [hchain, List.filter_append, hfirst, List.append_nil] at htail
        obtain ⟨upper, hupper⟩ := List.getLast?_eq_some_iff.mp htail
        have hsplit : head.chain = (above.filter (· ∉ S) ++ upper) ++ tail :: below := by
          calc head.chain = above ++ below := hchain
            _ = (above.filter (· ∉ S) ++ above.filter (· ∈ S)) ++ below := by rw [← habove]
            _ = _ := by rw [hupper]; simp
        rw [chain_suffix hsplit, head?_chainOf]
        exact Finset.mem_insert_self _ _
      · have hp : below.head? = some p := by
          rw [hbelow, hfirst]
          rfl
        have hmem : p ∈ S := hin below p (by rw [hfirst]; exact List.mem_cons_self)
        rw [hp]
        exact Finset.mem_insert_of_mem (Finset.mem_image_of_mem some hmem)
  · rintro ⟨⟨top, block, bottom, hsplit, htop, hblock, hbottom⟩, hposition⟩
    rw [hsplit, filter_block htop hblock hbottom] at htail
    have hbelow : below = chainOf below.head? := (chainOf_head?_of_split hchain).symm
    -- the block splits at the position
    obtain ⟨upper, lower, hparts, hlower⟩ :
        ∃ upper lower, block = upper ++ lower ∧ below = lower ++ bottom := by
      rcases Finset.mem_insert.mp hposition with hparent | hinside
      · obtain ⟨rest, hrest⟩ := List.getLast?_eq_some_iff.mp htail
        have hend : head.chain = (top ++ rest) ++ tail :: bottom := by
          rw [hsplit, hrest]
          simp
        refine ⟨block, [], (List.append_nil block).symm, ?_⟩
        rw [hbelow, hparent, chain_suffix hend]
        rfl
      · obtain ⟨p, hp, hhead⟩ := Finset.mem_image.mp hinside
        have hmem : p ∈ block := by
          have hchainp : p ∈ head.chain := by
            rw [hchain]
            exact List.mem_append_right _ (List.mem_of_mem_head? hhead.symm)
          rw [hsplit] at hchainp
          rcases List.mem_append.mp hchainp with hc | hc
          · exact absurd hp (htop p hc)
          · rcases List.mem_append.mp hc with hc | hc
            · exact hc
            · exact absurd hp (hbottom p hc)
        obtain ⟨upper, rest, hblockp⟩ := List.append_of_mem hmem
        have hend : head.chain = (top ++ upper) ++ p :: (rest ++ bottom) := by
          rw [hsplit, hblockp]
          simp
        refine ⟨upper, p :: rest, hblockp, ?_⟩
        rw [hbelow, ← hhead, chainOf_some, p.chain_eq, ← chain_suffix hend]
        rfl
    have habove : above = top ++ upper := by
      have heq : above ++ below = (top ++ upper) ++ below := by
        rw [← hchain, hsplit, hparts, hlower]
        simp
      exact List.append_cancel_right heq
    rw [hparts] at hblock
    rw [habove, hlower]
    exact ⟨endsWith_append htop fun c hc => hblock c (List.mem_append_left _ hc),
      beginsWith_append (fun c hc => hblock c (List.mem_append_right _ hc)) hbottom⟩

/-- `_InsertionIsNop` compares the position with the commits and with what is
below the last of them. -/
theorem insertionIsNop_ok {head : Commit} (position : Option Commit) (hne : S ≠ ∅)
    (hS : ∀ c ∈ S, c ∈ head.chain) :
    ∃ tail, (head.chain.filter (· ∈ S)).getLast? = some tail ∧
      insertionIsNop head position S =
        .ok (decide (position ∈ insert tail.parent (S.image some))) := by
  obtain ⟨tail, htail⟩ := findEarliestLoop_total hne hS
  refine ⟨tail, findEarliestLoop_ok (nodup_chain head) hS htail, ?_⟩
  unfold insertionIsNop findEarliestCommit
  rw [htail]
  rfl

/-- `_MoveIsNop` within one ref is the question whether the commits are in place. -/
theorem moveIsNop_ok {src dst : Rev} {op : Op} {above below : List Commit}
    (hsame : Ref.same src.ref dst.ref = true) (hne : op.src.commits ≠ ∅)
    (hS : ∀ c ∈ op.src.commits, c ∈ src.commit.chain)
    (hchain : src.commit.chain = above ++ below) (hposition : below.head? = op.dst.position) :
    ∃ nop, moveIsNop src dst op = .ok nop ∧
      (nop = true ↔ EndsWith op.src.commits above ∧ BeginsWith op.src.commits below) := by
  obtain ⟨gap, hgap⟩ := commitsHasGapLoop_total hS false
  obtain ⟨tail, htail, hinsertion⟩ := insertionIsNop_ok op.dst.position hne hS
  have hblock := commitsHasGapLoop_iff (nodup_chain src.commit) hS
  have hgap' : commitsHasGap src.commit op.src.commits = .ok gap := hgap
  rw [inPlace_iff hchain htail, hposition, ← hblock, hgap]
  unfold moveIsNop
  rw [hsame, hgap']
  cases gap with
  | true =>
      refine ⟨false, rfl, ?_⟩
      simp
  | false =>
      refine ⟨_, hinsertion, ?_⟩
      simp

/-- `_MoveIsNop` for a move within one ref ends, and says whether the planned
order is the order of the chain. -/
theorem moveIsNop_iff_order {src dst : Rev} {op : Op} (hsame : Ref.same src.ref dst.ref = true)
    (hne : op.src.commits ≠ ∅) (hS : ∀ c ∈ op.src.commits, c ∈ src.commit.chain)
    (hposition : op.dst.position = none ∨ ∃ p ∈ src.commit.chain, op.dst.position = some p) :
    ∃ nop addv head combined, moveIsNop src dst op = .ok nop ∧
      sorted (some src.commit) op.src.commits = .ok addv ∧
      planLoop addv op.dst.position src.commit.chain ⟨op.src.commits, false, []⟩ =
        .ok (head, combined) ∧
      (nop = true ↔
        (combined.map CommitAdded.commit).reverse ++ chainOf head = src.commit.chain) := by
  obtain ⟨above, below, hchain, hhead⟩ : ∃ above below, src.commit.chain = above ++ below ∧
      below.head? = op.dst.position := by
    rcases hposition with hnone | ⟨p, hp, hsome⟩
    · exact ⟨src.commit.chain, [], (List.append_nil _).symm, hnone.symm⟩
    · obtain ⟨above, rest, hsplit⟩ := List.append_of_mem hp
      exact ⟨above, p :: rest, hsplit, hsome.symm⟩
  obtain ⟨nop, hnop, hinPlace⟩ := moveIsNop_ok hsame hne hS hchain hhead
  obtain ⟨addv, head, combined, hsorted, haddv, -, hplan, hcombined, hbase⟩ :=
    plan_total (show ∀ c ∈ op.src.commits, c ∈ chainOf (some src.commit) from hS) hS
      fun _ => hposition
  refine ⟨nop, addv, head, combined, hnop, hsorted, hplan, ?_⟩
  have hadded : addv.reverse = src.commit.chain.filter (· ∈ op.src.commits) := by
    rw [haddv, List.reverse_reverse]
    rfl
  have horder : (combined.map CommitAdded.commit).reverse ++ chainOf head =
      edited (src.commit.chain.filter (· ∈ op.src.commits)) op.dst.position op.src.commits
        src.commit.chain := by
    rw [← rewritten_append_kept, hcombined, hbase, hadded]
    simp [rewritten, kept]
  have hnd : (above ++ below).Nodup := hchain ▸ nodup_chain src.commit
  rw [hinPlace, horder, hchain, edited_self_iff hnd hhead]

/-- The head of a branch onto the commit below it. -/
def stay : Op :=
  ⟨.move, ⟨some (HalfMove.rev HalfMove.srcRef), {HalfMove.top}⟩,
    ⟨some (HalfMove.rev HalfMove.srcRef), some HalfMove.root⟩⟩

/-- The head of a branch is on top of the commit below it. -/
theorem stay_iff_order :
    stay.src.commits ≠ ∅ ∧ (∀ c ∈ stay.src.commits, c ∈ HalfMove.top.chain) ∧
      ∃ nop addv head combined,
        moveIsNop (HalfMove.rev HalfMove.srcRef) (HalfMove.rev HalfMove.srcRef) stay = .ok nop ∧
        sorted (some HalfMove.top) stay.src.commits = .ok addv ∧
        planLoop addv stay.dst.position HalfMove.top.chain ⟨stay.src.commits, false, []⟩ =
          .ok (head, combined) ∧
        (nop = true ↔
          (combined.map CommitAdded.commit).reverse ++ chainOf head = HalfMove.top.chain) :=
  ⟨by decide, by decide,
    @moveIsNop_iff_order (HalfMove.rev HalfMove.srcRef) (HalfMove.rev HalfMove.srcRef) stay rfl
      (by decide) (by decide) (Or.inr ⟨HalfMove.root, by decide, rfl⟩)⟩

end Nop

end Modify
end Git
end Debase
