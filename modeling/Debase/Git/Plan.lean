import Mathlib.Data.Finset.Card
import Mathlib.Data.Finset.Image
import Debase.Git.Object

/-!
# Which commits are rewritten, and in what order

The part of `Modify::_AddRemoveCommits` that only looks at the graph: sorting a
set of commits along a chain, deciding whether a move changes anything, and the
loop that walks down the destination's chain and splits it into the commits to
apply (`combined`) and the commit to apply them on (`head`).

The loop is compared with `cut`, which decides from the bottom of the chain
upward which commits stay as they are, and `edited`, the chain with the removed
commits dropped and the added ones inserted.
-/

namespace Debase
namespace Git

/-- `*s.begin()` of a set of one element. -/
def theOnly (s : Finset Commit) : Option Commit :=
  if h : s.card = 1 then
    some (s.choose (fun _ => True) (by
      obtain ⟨a, rfl⟩ := Finset.card_eq_one.mp h
      exact ⟨a, by simp, by simp⟩))
  else none

theorem theOnly_eq_some {s : Finset Commit} {a : Commit} : theOnly s = some a ↔ s = {a} := by
  unfold theOnly
  split
  · next h =>
      obtain ⟨b, rfl⟩ := Finset.card_eq_one.mp h
      have hmem := Finset.choose_mem (fun _ => True) ({b} : Finset Commit) ⟨b, by simp, by simp⟩
      rw [Finset.mem_singleton] at hmem
      simp [hmem]
  · next h =>
      constructor
      · intro hnone
        cases hnone
      · rintro rfl
        simp at h

namespace Modify

/-! ## Sets of commits along a chain -/

/-- The loop of `_Sorted` on the chain it walks: the newest commit comes first.
A walk past the root takes the parent of a null commit. -/
def sortedLoop : List Commit → Finset Commit → List Commit → Except Exn (List Commit)
  | [], rem, sorted => if rem = ∅ then .ok sorted else .error .abort
  | c :: cs, rem, sorted =>
      if rem = ∅ then .ok sorted
      else sortedLoop cs (rem.erase c) (if c ∈ rem then sorted ++ [c] else sorted)

/-- `_Sorted`: a set of commits in the order of a chain, oldest first. -/
def sorted (head : Option Commit) (commits : Finset Commit) : Except Exn (List Commit) :=
  (sortedLoop (chainOf head) commits []).map List.reverse

/-- The loop of `_FindEarliestCommit`. -/
def findEarliestLoop : List Commit → Finset Commit → Except Exn Commit
  | [], rem =>
      match theOnly rem with
      | some c => .ok c
      | none => .error .abort
  | c :: cs, rem =>
      if 1 < rem.card then findEarliestLoop cs (rem.erase c)
      else
        match theOnly rem with
        | some c => .ok c
        | none => .error .abort

/-- `_FindEarliestCommit`; an empty set fails its assert. -/
def findEarliestCommit (head : Commit) (commits : Finset Commit) : Except Exn Commit :=
  findEarliestLoop head.chain commits

/-- The loop of `_CommitsHasGap`. -/
def commitsHasGapLoop : List Commit → Finset Commit → Bool → Except Exn Bool
  | [], rem, _ => if rem = ∅ then .ok false else .error .abort
  | h :: hs, rem, started =>
      if rem = ∅ then .ok false
      else if started && h ∉ rem then .ok true
      else commitsHasGapLoop hs (rem.erase h) (started || h ∈ rem)

/-- `_CommitsHasGap`. -/
def commitsHasGap (head : Commit) (commits : Finset Commit) : Except Exn Bool :=
  commitsHasGapLoop head.chain commits false

/-- `_CommitsHasMerge`. -/
def commitsHasMerge (commits : Finset Commit) : Bool := decide (∃ c ∈ commits, c.isMerge)

/-- `_InsertionIsNop`. -/
def insertionIsNop (head : Commit) (position : Option Commit) (commits : Finset Commit) :
    Except Exn Bool := do
  let tail ← findEarliestCommit head commits
  -- the parent of the root is null, and null stands for insertion as the root
  let positions := insert tail.parent (commits.image some)
  pure (decide (position ∈ positions))

/-! ## The planning loop -/

/-- `CommitAdded`. -/
structure CommitAdded where
  commit : Commit
  added : Bool
deriving DecidableEq

/-- The variables of the planning loop but `c`. -/
structure PlanState where
  r : Finset Commit
  foundAddPoint : Bool
  combined : List CommitAdded

/-- The first half of a turn: insert the added commits at their position. -/
def planInsert (addv : List Commit) (addPosition c : Option Commit) (p : PlanState) :
    Except Exn PlanState :=
  if addv ≠ [] ∧ c = addPosition then
    if p.foundAddPoint then .error .abort
    else .ok { p with
      combined := addv.map (⟨·, true⟩) ++ p.combined
      foundAddPoint := true }
  else .ok p

/-- The condition on which the loop breaks. -/
def PlanState.done (addv : List Commit) (p : PlanState) : Prop :=
  p.r = ∅ ∧ (addv = [] ∨ p.foundAddPoint = true)

instance (addv : List Commit) (p : PlanState) : Decidable (p.done addv) :=
  inferInstanceAs (Decidable (_ ∧ _))

/-- The second half of a turn: a commit that is not removed is applied again. -/
def PlanState.pass (c : Commit) (p : PlanState) : PlanState :=
  { p with
    r := p.r.erase c
    combined := if c ∈ p.r then p.combined else ⟨c, false⟩ :: p.combined }

/-- The planning loop of `_AddRemoveCommits` on the chain it walks. -/
def planLoop (addv : List Commit) (addPosition : Option Commit) :
    List Commit → PlanState → Except Exn (Option Commit × List CommitAdded)
  | [], p => do
      let p ← planInsert addv addPosition none p
      if p.done addv then pure (none, p.combined) else .error .abort
  | c :: cs, p => do
      let p ← planInsert addv addPosition (some c) p
      if p.done addv then pure (some c, p.combined)
      else planLoop addv addPosition cs (p.pass c)

/-! ## What the plan is for -/

section Specification

variable (add : List Commit) (position : Option Commit) (remove : Finset Commit)

/-- The added commits, where `c` is the position. -/
def insertedAt (c : Option Commit) : List Commit := if c = position then add else []

/-- A chain with the removed commits dropped and the added commits inserted
directly above the position.  All lists are newest first. -/
def edited : List Commit → List Commit
  | [] => insertedAt add position none
  | c :: cs =>
      insertedAt add position (some c) ++ ((if c ∈ remove then [] else [c]) ++ edited cs)

/-- The edited chain in two parts: the commits that have to be written anew and
the commits below them that stay what they are. -/
def cut : List Commit → List CommitAdded × List Commit
  | [] => ((insertedAt add position none).map (⟨·, true⟩), [])
  | c :: cs =>
      let here : List CommitAdded := (insertedAt add position (some c)).map (⟨·, true⟩)
      let below := cut cs
      if c ∉ remove ∧ below = ([], cs) then (here, c :: cs)
      else (here ++ ((if c ∈ remove then [] else [⟨c, false⟩]) ++ below.1), below.2)

/-- The commits of the edited chain that have to be written anew. -/
def rewritten (chain : List Commit) : List Commit :=
  (cut add position remove chain).1.map CommitAdded.commit

/-- The commits of the chain that stay what they are. -/
def kept (chain : List Commit) : List Commit := (cut add position remove chain).2

private theorem commit_comp_added :
    CommitAdded.commit ∘ (fun c => (⟨c, true⟩ : CommitAdded)) = id := rfl

/-- The two parts make up the edited chain. -/
theorem rewritten_append_kept (chain : List Commit) :
    rewritten add position remove chain ++ kept add position remove chain =
      edited add position remove chain := by
  induction chain with
  | nil => simp [rewritten, kept, cut, edited, commit_comp_added]
  | cons c cs ih =>
      unfold rewritten kept at ih ⊢
      rw [cut, edited]
      split
      · next h =>
          obtain ⟨hkeep, hbelow⟩ := h
          rw [hbelow] at ih
          have hsame : cs = edited add position remove cs := by simpa using ih
          rw [if_neg hkeep, ← hsame]
          simp [commit_comp_added]
      · rw [← ih]
        by_cases hc : c ∈ remove
        · simp [hc, commit_comp_added]
        · simp [hc, commit_comp_added]

/-- Only removals inside the chain count. -/
theorem cut_erase {c : Commit} {cs : List Commit} (hc : c ∉ cs) :
    cut add position (remove.erase c) cs = cut add position remove cs := by
  induction cs with
  | nil => rfl
  | cons d ds ih =>
      have hne : d ≠ c := fun h => hc (h ▸ List.mem_cons_self)
      have hds : c ∉ ds := fun h => hc (List.mem_cons_of_mem _ h)
      simp only [cut, ih hds, Finset.mem_erase, ne_eq, hne, not_false_eq_true, true_and]

/-- Nothing to add and nothing to remove: everything stays. -/
theorem cut_nothing (cs : List Commit) : cut [] position ∅ cs = ([], cs) := by
  induction cs with
  | nil => simp [cut, insertedAt]
  | cons c cs ih => simp [cut, insertedAt, ih]

/-- With the position above the chain nothing is added to it. -/
theorem cut_above {cs : List Commit} (hnone : position ≠ none)
    (habove : ∀ c ∈ cs, position ≠ some c) :
    cut add position remove cs = cut [] position remove cs := by
  induction cs with
  | nil => simp [cut, insertedAt, hnone.symm]
  | cons c cs ih =>
      have hc : some c ≠ position := (habove c List.mem_cons_self).symm
      have hcs := ih fun d hd => habove d (List.mem_cons_of_mem _ hd)
      simp [cut, insertedAt, hc, hcs]

/-- What stays is a suffix of the chain. -/
theorem kept_suffix (chain : List Commit) : kept add position remove chain <:+ chain := by
  unfold kept
  induction chain with
  | nil => simp [cut]
  | cons c cs ih =>
      rw [cut]
      split
      · exact List.suffix_rfl
      · exact ih.trans (List.suffix_cons c cs)

/-- A chain that stays whole does so at every commit of it. -/
theorem cut_cons_untouched {c : Commit} {cs : List Commit}
    (h : cut add position remove (c :: cs) = ([], c :: cs)) :
    c ∉ remove ∧ insertedAt add position (some c) = [] ∧
      cut add position remove cs = ([], cs) := by
  rw [cut] at h
  split at h
  · next hkeep =>
      obtain ⟨hc, hbelow⟩ := hkeep
      simp only [Prod.mk.injEq, List.map_eq_nil_iff, and_true] at h
      exact ⟨hc, h, hbelow⟩
  · exfalso
    have hlen := (kept_suffix add position remove cs).length_le
    have hsnd : kept add position remove cs = c :: cs := congrArg Prod.snd h
    rw [hsnd, List.length_cons] at hlen
    omega

/-- A chain that stays whole has no removed commit, and no place for an added
one. -/
theorem untouched_of_cut {cs : List Commit} (h : cut add position remove cs = ([], cs)) :
    (∀ c ∈ cs, c ∉ remove) ∧
      (add ≠ [] → position ≠ none ∧ ∀ c ∈ cs, position ≠ some c) := by
  induction cs with
  | nil =>
      refine ⟨by simp, fun hadd => ⟨?_, by simp⟩⟩
      rintro rfl
      simp [cut, insertedAt, hadd] at h
  | cons c cs ih =>
      obtain ⟨hc, hinsert, hbelow⟩ := cut_cons_untouched add position remove h
      obtain ⟨hremove, hposition⟩ := ih hbelow
      constructor
      · simpa [hc] using hremove
      · intro hadd
        obtain ⟨hnone, habove⟩ := hposition hadd
        refine ⟨hnone, ?_⟩
        intro d hd
        rcases List.mem_cons.mp hd with rfl | hd
        · rintro rfl
          simp [insertedAt, hadd] at hinsert
        · exact habove d hd

/-- Replacing one commit of a chain: it and the commits above it are written
anew. -/
theorem cut_replace {above below : List Commit} {e n : Commit} (habove : e ∉ above)
    (hbelow : e ∉ below) :
    cut [n] (some e) {e} (above ++ e :: below) =
      (above.map (⟨·, false⟩) ++ [⟨n, true⟩], below) := by
  have hposition : ∀ c ∈ below, some e ≠ some c := by
    rintro c hc ⟨⟩
    exact hbelow hc
  have hstay : cut [n] (some e) {e} below = ([], below) := by
    rw [cut_above _ _ _ (by simp) hposition, ← cut_erase _ _ _ hbelow, Finset.erase_singleton]
    exact cut_nothing _ _
  induction above with
  | nil => simp [cut, insertedAt, hstay]
  | cons c above ih =>
      have hce : c ≠ e := fun h => habove (h ▸ List.mem_cons_self)
      have hih := ih fun h => habove (List.mem_cons_of_mem _ h)
      rw [List.cons_append, cut, hih]
      simp [insertedAt, hce]

end Specification

/-! ## The walks stay on the chain -/

/-- A walk of `_Sorted` that returns met every commit of the set, and collected
exactly those. -/
theorem sortedLoop_ok {cs : List Commit} (hnd : cs.Nodup) {rem : Finset Commit}
    {acc l : List Commit} (h : sortedLoop cs rem acc = .ok l) :
    l = acc ++ cs.filter (· ∈ rem) ∧ ∀ c ∈ rem, c ∈ cs := by
  induction cs generalizing rem acc with
  | nil =>
      rw [sortedLoop] at h
      split at h
      · next hrem =>
          cases h
          simp [hrem]
      · cases h
  | cons c cs ih =>
      rw [sortedLoop] at h
      split at h
      · next hrem =>
          cases h
          simp [hrem]
      · obtain ⟨hc, hcs⟩ := List.nodup_cons.mp hnd
        obtain ⟨hl, hsub⟩ := ih hcs h
        have hfilter : cs.filter (· ∈ rem.erase c) = cs.filter (· ∈ rem) := by
          apply List.filter_congr
          intro d hd
          have hne : d ≠ c := ne_of_mem_of_not_mem hd hc
          simp [hne]
        constructor
        · rw [hl, hfilter]
          by_cases hmem : c ∈ rem
          · simp [hmem]
          · simp [hmem]
        · intro d hd
          by_cases hdc : d = c
          · exact hdc ▸ List.mem_cons_self
          · exact List.mem_cons_of_mem _ (hsub d (Finset.mem_erase.mpr ⟨hdc, hd⟩))

/-- `_Sorted` returns the commits of the set in the order of the chain. -/
theorem sorted_ok {head : Option Commit} {commits : Finset Commit} {l : List Commit}
    (h : sorted head commits = .ok l) :
    l.reverse = (chainOf head).filter (· ∈ commits) ∧ ∀ c ∈ commits, c ∈ chainOf head := by
  unfold sorted at h
  cases hloop : sortedLoop (chainOf head) commits [] with
  | error e => simp [hloop, Except.map] at h
  | ok l' =>
      simp only [hloop, Except.map, Except.ok.injEq] at h
      obtain ⟨hl, hsub⟩ := sortedLoop_ok (nodup_chainOf head) hloop
      refine ⟨?_, hsub⟩
      rw [← h, List.reverse_reverse, hl, List.nil_append]

/-- Sorting the empty set needs no chain. -/
@[simp] theorem sorted_empty (head : Option Commit) : sorted head ∅ = .ok [] := by
  unfold sorted
  cases chainOf head <;> rfl

/-! ## The loop makes the cut -/

/-- The added commits that a plan state has still to place, newest first. -/
def PlanState.toAdd (addv : List Commit) (p : PlanState) : List Commit :=
  if p.foundAddPoint then [] else addv.reverse

theorem planInsert_ok {addv : List Commit} {addPosition c : Option Commit}
    {p p' : PlanState} (h : planInsert addv addPosition c p = .ok p') :
    p'.r = p.r ∧
      p'.combined = ((insertedAt (p.toAdd addv) addPosition c).map
        fun c => (⟨c, true⟩ : CommitAdded)).reverse ++ p.combined ∧
      (c = addPosition → addv ≠ [] → p'.foundAddPoint = true) ∧
      (¬(addv ≠ [] ∧ c = addPosition) → p' = p) := by
  unfold planInsert at h
  unfold insertedAt PlanState.toAdd
  split at h
  · next hhere =>
      obtain ⟨hadd, hc⟩ := hhere
      split at h
      · cases h
      · next hfound =>
          cases h
          refine ⟨rfl, ?_, fun _ _ => rfl, fun hno => absurd ⟨hadd, hc⟩ hno⟩
          simp [hc, hfound]
  · next hno =>
      cases h
      refine ⟨rfl, ?_, fun hc hadd => absurd ⟨hadd, hc⟩ hno, fun _ => rfl⟩
      by_cases hc : c = addPosition
      · have hadd : addv = [] := by
          by_contra hadd
          exact hno ⟨hadd, hc⟩
        simp [hadd]
      · simp [hc]

/-- A state on which the loop breaks has nothing left to add. -/
theorem PlanState.toAdd_of_done {addv : List Commit} {p : PlanState} (h : p.done addv) :
    p.toAdd addv = [] := by
  unfold PlanState.toAdd
  rcases h.2 with hnil | hfound
  · simp [hnil]
  · simp [hfound]

/-- The other way round, such a state has something to remove or something to add. -/
theorem PlanState.done_of_toAdd {addv : List Commit} {p : PlanState} (hr : p.r = ∅)
    (hadd : p.toAdd addv = []) : p.done addv := by
  refine ⟨hr, ?_⟩
  by_contra hno
  obtain ⟨hne, hfound⟩ := not_or.mp hno
  simp [PlanState.toAdd, hfound, hne] at hadd

/-- The position is met on the chain, if the added commits are placed. -/
def PositionMet (add : List Commit) (position : Option Commit) (cs : List Commit) : Prop :=
  add ≠ [] → position = none ∨ ∃ d ∈ cs, position = some d

/-- A turn that places the added commits has met the position. -/
theorem positionMet_planInsert {addv : List Commit} {addPosition : Option Commit} {d : Commit}
    {ds : List Commit} {p p₁ : PlanState} (h : planInsert addv addPosition (some d) p = .ok p₁)
    (hmet : PositionMet (p₁.toAdd addv) addPosition ds) :
    PositionMet (p.toAdd addv) addPosition (d :: ds) := by
  obtain ⟨-, -, -, hsame⟩ := planInsert_ok h
  intro hadd
  by_cases hhere : addv ≠ [] ∧ some d = addPosition
  · exact Or.inr ⟨d, List.mem_cons_self, hhere.2.symm⟩
  · rw [hsame hhere] at hmet
    rcases hmet hadd with heq | ⟨e, he, heq⟩
    · exact Or.inl heq
    · exact Or.inr ⟨e, List.mem_cons_of_mem _ he, heq⟩

/-- Once the position is met, nothing below it is added. -/
theorem cut_planInsert {addv : List Commit} {addPosition : Option Commit} {d : Commit}
    {ds : List Commit} (hd : d ∉ ds) {p p₁ : PlanState}
    (h : planInsert addv addPosition (some d) p = .ok p₁) (remove : Finset Commit) :
    cut (p.toAdd addv) addPosition remove ds = cut (p₁.toAdd addv) addPosition remove ds := by
  obtain ⟨-, -, -, hsame⟩ := planInsert_ok h
  by_cases hhere : addv ≠ [] ∧ some d = addPosition
  · have habove : ∀ e ∈ ds, addPosition ≠ some e := by
      intro e he heq
      rw [← hhere.2] at heq
      exact hd (Option.some.inj heq ▸ he)
    have hnone : addPosition ≠ none := by
      rw [← hhere.2]
      simp
    rw [cut_above _ _ _ hnone habove, cut_above (p₁.toAdd addv) _ _ hnone habove]
  · rw [hsame hhere]

/-- A commit above a chain that stays whole stays too, if it is not removed. -/
theorem cut_cons_of_stays {add : List Commit} {position : Option Commit} {remove : Finset Commit}
    {d : Commit} {ds : List Commit} (hd : d ∉ remove)
    (hstay : cut add position remove ds = ([], ds)) :
    cut add position remove (d :: ds) =
      ((insertedAt add position (some d)).map (⟨·, true⟩), d :: ds) := by
  rw [cut, if_pos ⟨hd, hstay⟩]

/-- The loop goes on only where something is still to be done: a chain that stays whole has
no removed commit and no place for the added ones, so that the state was done. -/
theorem done_of_stays {addv : List Commit} {addPosition : Option Commit} {ds : List Commit}
    {p : PlanState} (hsub : ∀ e ∈ p.r, e ∈ ds)
    (hmet : PositionMet (p.toAdd addv) addPosition ds)
    (hstay : cut (p.toAdd addv) addPosition p.r ds = ([], ds)) : p.done addv := by
  obtain ⟨hremove, hposition⟩ := untouched_of_cut _ _ _ hstay
  apply PlanState.done_of_toAdd
  · apply Finset.eq_empty_of_forall_notMem
    intro e he
    exact hremove e (hsub e he) he
  · by_contra hadd
    obtain ⟨hnone, habove⟩ := hposition hadd
    rcases hmet hadd with heq | ⟨e, he, heq⟩
    · exact hnone heq
    · exact habove e he heq

/-- A plan on a chain without repetitions is the cut of the chain.  The walk
met every removed commit, and it found the position if there is something to
add. -/
theorem planLoop_ok {addv : List Commit} {addPosition : Option Commit} {cs : List Commit}
    (hnd : cs.Nodup) {c : Option Commit} (hcs : chainOf c = cs) {p : PlanState}
    {head : Option Commit} {combined : List CommitAdded}
    (h : planLoop addv addPosition cs p = .ok (head, combined)) :
    combined = (cut (p.toAdd addv) addPosition p.r cs).1.reverse ++ p.combined ∧
      chainOf head = (cut (p.toAdd addv) addPosition p.r cs).2 ∧
      (∀ d ∈ p.r, d ∈ cs) ∧ PositionMet (p.toAdd addv) addPosition cs := by
  induction cs generalizing c p with
  | nil =>
      rw [planLoop] at h
      cases hp : planInsert addv addPosition none p with
      | error e => simp [hp, bind, Except.bind] at h
      | ok p₁ =>
          obtain ⟨hr, hcombined, -, hsame⟩ := planInsert_ok hp
          simp only [hp, bind, Except.bind] at h
          split at h
          · next hdone =>
              cases h
              refine ⟨by simpa [cut] using hcombined, by simp [cut], ?_, ?_⟩
              · rw [← hr, hdone.1]
                simp
              · intro hadd
                by_contra hno
                have hpos : none ≠ addPosition := by
                  intro heq
                  exact hno (Or.inl heq.symm)
                rw [hsame fun hhere => hpos hhere.2] at hdone
                exact hadd (PlanState.toAdd_of_done hdone)
          · cases h
  | cons d ds ih =>
      obtain ⟨hd, hds⟩ := List.nodup_cons.mp hnd
      have hc : c = some d := by
        rw [← head?_chainOf c, hcs]
        rfl
      have htail : chainOf d.parent = ds := by
        rw [hc, chainOf_some, Commit.chain_eq] at hcs
        exact (List.cons.inj hcs).2
      rw [planLoop] at h
      cases hp : planInsert addv addPosition (some d) p with
      | error e => simp [hp, bind, Except.bind] at h
      | ok p₁ =>
          obtain ⟨hr, hcombined, -, -⟩ := planInsert_ok hp
          have hbelow := cut_planInsert hd hp p.r
          simp only [hp, bind, Except.bind] at h
          split at h
          · next hdone =>
              cases h
              have hempty : p.r = ∅ := hr ▸ hdone.1
              have hadd₁ := PlanState.toAdd_of_done hdone
              have hkeep : d ∉ p.r := by
                rw [hempty]
                exact Finset.notMem_empty d
              have hstay : cut (p.toAdd addv) addPosition p.r ds = ([], ds) := by
                rw [hbelow, hadd₁, hempty]
                exact cut_nothing addPosition ds
              rw [cut_cons_of_stays hkeep hstay]
              refine ⟨hcombined, hc ▸ hcs, by simp [hempty], positionMet_planInsert hp ?_⟩
              intro hadd
              exact absurd hadd₁ hadd
          · next hgo =>
              obtain ⟨hL, hhead, hsub, hmet⟩ := ih hds htail h
              have hpass : (p₁.pass d).toAdd addv = p₁.toAdd addv := rfl
              have hr' : (p₁.pass d).r = p.r.erase d := by
                rw [← hr]
                rfl
              rw [hpass, hr', cut_erase _ _ _ hd, ← hbelow] at hL hhead
              rw [hpass] at hmet
              have hmem : ∀ e ∈ p.r, e ≠ d → e ∈ ds := fun e he hed =>
                hsub e (hr' ▸ Finset.mem_erase.mpr ⟨hed, he⟩)
              -- the loop went on because something below is still to be done
              have htouched : ¬(d ∉ p.r ∧ cut (p.toAdd addv) addPosition p.r ds = ([], ds)) := by
                intro ⟨hkeep, hstay⟩
                rw [hbelow, ← hr] at hstay
                refine hgo (done_of_stays (fun e he => ?_) hmet hstay)
                rw [hr] at he
                exact hmem e he (ne_of_mem_of_not_mem he hkeep)
              rw [cut, if_neg htouched]
              refine ⟨?_, hhead, ?_, positionMet_planInsert hp hmet⟩
              · have hcomb : (p₁.pass d).combined =
                    (if d ∈ p.r then [] else [⟨d, false⟩]) ++ p₁.combined := by
                  unfold PlanState.pass
                  rw [hr]
                  by_cases hdr : d ∈ p.r
                  · simp [hdr]
                  · simp [hdr]
                rw [hL, hcomb, hcombined]
                by_cases hdr : d ∈ p.r
                · simp [hdr]
                · simp [hdr]
              · intro e he
                by_cases hed : e = d
                · exact hed ▸ List.mem_cons_self
                · exact List.mem_cons_of_mem _ (hmem e he hed)

/-! ## The walks come to an end

No walk runs off the root if the commits it looks for are on the chain. -/

theorem sortedLoop_total {cs : List Commit} {rem : Finset Commit} (hrem : ∀ c ∈ rem, c ∈ cs)
    (acc : List Commit) : ∃ l, sortedLoop cs rem acc = .ok l := by
  induction cs generalizing rem acc with
  | nil =>
      have hempty : rem = ∅ := Finset.eq_empty_of_forall_notMem fun c hc => by simpa using hrem c hc
      exact ⟨acc, by rw [sortedLoop, if_pos hempty]⟩
  | cons c cs ih =>
      rw [sortedLoop]
      by_cases hempty : rem = ∅
      · exact ⟨acc, by rw [if_pos hempty]⟩
      · rw [if_neg hempty]
        apply ih
        intro d hd
        obtain ⟨hdc, hd⟩ := Finset.mem_erase.mp hd
        exact (List.mem_cons.mp (hrem d hd)).resolve_left hdc

theorem sorted_total {head : Option Commit} {commits : Finset Commit}
    (h : ∀ c ∈ commits, c ∈ chainOf head) : ∃ l, sorted head commits = .ok l := by
  obtain ⟨l, hl⟩ := sortedLoop_total h []
  exact ⟨l.reverse, by rw [sorted, hl]; rfl⟩

theorem findEarliestLoop_total {cs : List Commit} {rem : Finset Commit} (hne : rem ≠ ∅)
    (hrem : ∀ c ∈ rem, c ∈ cs) : ∃ c, findEarliestLoop cs rem = .ok c := by
  induction cs generalizing rem with
  | nil =>
      obtain ⟨c, hc⟩ := Finset.nonempty_iff_ne_empty.mpr hne
      simpa using hrem c hc
  | cons c cs ih =>
      rw [findEarliestLoop]
      by_cases hmany : 1 < rem.card
      · rw [if_pos hmany]
        apply ih
        · intro hempty
          have hle := Finset.pred_card_le_card_erase (s := rem) (a := c)
          rw [hempty, Finset.card_empty] at hle
          omega
        · intro d hd
          obtain ⟨hdc, hd⟩ := Finset.mem_erase.mp hd
          exact (List.mem_cons.mp (hrem d hd)).resolve_left hdc
      · rw [if_neg hmany]
        have hpos : 0 < rem.card := Finset.card_pos.mpr (Finset.nonempty_iff_ne_empty.mpr hne)
        have hone : rem.card = 1 := by omega
        obtain ⟨d, rfl⟩ := Finset.card_eq_one.mp hone
        have honly : theOnly {d} = some d := theOnly_eq_some.mpr rfl
        exact ⟨d, by rw [honly]⟩

theorem commitsHasGapLoop_total {cs : List Commit} {rem : Finset Commit}
    (hrem : ∀ c ∈ rem, c ∈ cs) (started : Bool) :
    ∃ gap, commitsHasGapLoop cs rem started = .ok gap := by
  induction cs generalizing rem started with
  | nil =>
      have hempty : rem = ∅ := Finset.eq_empty_of_forall_notMem fun c hc => by simpa using hrem c hc
      exact ⟨false, by rw [commitsHasGapLoop, if_pos hempty]⟩
  | cons c cs ih =>
      rw [commitsHasGapLoop]
      by_cases hempty : rem = ∅
      · exact ⟨false, by rw [if_pos hempty]⟩
      · rw [if_neg hempty]
        by_cases hgap : (started && c ∉ rem) = true
        · exact ⟨true, by rw [if_pos hgap]⟩
        · rw [if_neg hgap]
          apply ih
          intro d hd
          obtain ⟨hdc, hd⟩ := Finset.mem_erase.mp hd
          exact (List.mem_cons.mp (hrem d hd)).resolve_left hdc

/-- Nothing stops the insertion but a second place for it. -/
theorem planInsert_total (addv : List Commit) {addPosition c : Option Commit} {p : PlanState}
    (h : p.foundAddPoint = true → c ≠ addPosition) :
    ∃ p', planInsert addv addPosition c p = .ok p' ∧
      (p'.foundAddPoint = true → p.foundAddPoint = true ∨ c = addPosition) := by
  unfold planInsert
  by_cases hhere : addv ≠ [] ∧ c = addPosition
  · have hfound : ¬p.foundAddPoint = true := fun hfound => h hfound hhere.2
    rw [if_pos hhere, if_neg hfound]
    exact ⟨_, rfl, fun _ => Or.inr hhere.2⟩
  · rw [if_neg hhere]
    exact ⟨p, rfl, Or.inl⟩

/-- The planning loop ends if the removed commits and the position are on the chain,
and the position was not met before. -/
theorem planLoop_total {addv : List Commit} {addPosition : Option Commit} {cs : List Commit}
    (hnd : cs.Nodup) {p : PlanState} (hrem : ∀ c ∈ p.r, c ∈ cs)
    (hpos : PositionMet (p.toAdd addv) addPosition cs)
    (hmet : p.foundAddPoint = true → addPosition ≠ none ∧ ∀ d ∈ cs, addPosition ≠ some d) :
    ∃ plan, planLoop addv addPosition cs p = .ok plan := by
  induction cs generalizing p with
  | nil =>
      obtain ⟨p₁, hp, -⟩ := planInsert_total addv (c := none) (p := p)
        fun hfound => (hmet hfound).1.symm
      obtain ⟨hr, -, hfound, hsame⟩ := planInsert_ok hp
      have hempty : p₁.r = ∅ := by
        rw [hr]
        exact Finset.eq_empty_of_forall_notMem fun c hc => by simpa using hrem c hc
      have hdone : p₁.done addv := by
        refine ⟨hempty, ?_⟩
        -- at the end of the chain the position can only be above the root
        by_cases hadd : addv = []
        · exact Or.inl hadd
        · by_cases hnone : none = addPosition
          · exact Or.inr (hfound hnone hadd)
          · rw [hsame fun hhere => hnone hhere.2]
            by_contra hno
            obtain ⟨-, hnot⟩ := not_or.mp hno
            have hto : p.toAdd addv ≠ [] := by simp [PlanState.toAdd, hnot, hadd]
            rcases hpos hto with heq | ⟨d, hd, -⟩
            · exact hnone heq.symm
            · simp at hd
      rw [planLoop]
      simp only [hp, bind, Except.bind]
      exact ⟨_, if_pos hdone⟩
  | cons d ds ih =>
      obtain ⟨hd, hds⟩ := List.nodup_cons.mp hnd
      obtain ⟨p₁, hp, hmet₁⟩ := planInsert_total addv (c := some d) (p := p)
        fun hfound => ((hmet hfound).2 d List.mem_cons_self).symm
      obtain ⟨hr, -, hfound, hsame⟩ := planInsert_ok hp
      rw [planLoop]
      simp only [hp, bind, Except.bind]
      by_cases hdone : p₁.done addv
      · exact ⟨_, if_pos hdone⟩
      · rw [if_neg hdone]
        apply ih hds
        · intro c hc
          obtain ⟨hcd, hc⟩ := Finset.mem_erase.mp (show c ∈ p₁.r.erase d from hc)
          rw [hr] at hc
          exact (List.mem_cons.mp (hrem c hc)).resolve_left hcd
        · -- what is still to be added has its position further down
          intro hto
          have hto : p₁.toAdd addv ≠ [] := hto
          have hadd : addv ≠ [] := by
            rintro rfl
            exact hto (by simp [PlanState.toAdd])
          have hnot : ¬some d = addPosition := by
            intro hhere
            exact hto (by simp [PlanState.toAdd, hfound hhere hadd])
          rw [hsame fun hhere => hnot hhere.2] at hto
          rcases hpos hto with heq | ⟨e, he, heq⟩
          · exact Or.inl heq
          · refine Or.inr ⟨e, (List.mem_cons.mp he).resolve_left ?_, heq⟩
            rintro rfl
            exact hnot heq.symm
        · -- the position is met once, as the chain has no repetitions
          intro hfound₁
          rcases hmet₁ hfound₁ with hbefore | hhere
          · obtain ⟨hnone, hall⟩ := hmet hbefore
            exact ⟨hnone, fun e he => hall e (List.mem_cons_of_mem _ he)⟩
          · rw [← hhere]
            refine ⟨by simp, ?_⟩
            rintro e he ⟨⟩
            exact hd he

end Modify
end Git
end Debase
