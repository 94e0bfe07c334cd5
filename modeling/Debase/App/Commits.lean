import Debase.App.Anchored
import Debase.App.Columns
import Debase.App.Safety
import Debase.Git.Outcome

/-!
# Commit operations and histories

A commit operation replaces its refs first and pushes their new states on the histories then.
`Rewritten` is what holds in between: some refs have new commits, and the histories of some of
them do not have these yet.  Once all of them have, every history is linked again, and it says
what an observer of the repository has seen.
-/

namespace Debase

open Git Library

namespace App

variable {κ ω : Type}

/-- The refs `ks` have new commits, and the other refs are as they were.  The histories of the
refs in `todo` do not have the new commits yet. -/
structure Rewritten (env : Env κ ω) (ks todo : Finset Bytes) (app app' : App κ ω) : Prop where
  ready : Ready env app'
  lookupSelf : ∀ k ∈ ks, (app'.repo.lookup k).isSome
  lookupOther : ∀ k, k ∉ ks → app'.repo.lookup k = app.repo.lookup k
  history : ∀ k ∈ ks, ∃ lref lref', app.repoState k = some lref ∧ app'.repoState k = some lref' ∧
    if k ∈ todo then lref'.history = lref.history
    else ∀ ref, app'.repo.lookup k = some ref →
      lref'.history.timeline (shown env.ids) =
        (lref.history.timeline (shown env.ids)).observe (Ref.shorthand k, some ref.commit)
  historyOther : ∀ k, k ∉ ks → HistoryKept env app.repo app.repoState app'.repoState k
  revs : app'.revs = app.revs
  columns : app'.columns = app.columns
  size : app'.size = app.size
  head : app'.head = app.head

section Histories

variable {env : Env κ ω} {app app₁ app' : App κ ω} {ks todo : Finset Bytes} {k : Bytes}

theorem HistoryKept.refl (repo : Repository) (loaded : State.LoadedRefs κ) (k : Bytes) :
    HistoryKept env repo loaded loaded k := by
  unfold HistoryKept
  cases loaded k with
  | none => trivial
  | some lref => rfl

theorem HistoryKept.trans_loads {repo repo' : Repository} {old mid new : State.LoadedRefs κ}
    (h : HistoryKept env repo old mid k) (hlookup : repo'.lookup k = repo.lookup k)
    (hloads : Loads env repo' mid new) : HistoryKept env repo old new k := by
  have hkept : HistoryKept env repo mid new k := (hloads.kept' k).congr hlookup.symm rfl
  unfold HistoryKept at h hkept ⊢
  cases hold : old k with
  | some lref =>
      cases hmid : mid k with
      | none =>
          rw [hold, hmid] at h
          exact h.elim
      | some lref₁ =>
          rw [hold, hmid] at h
          rw [hloads.kept k lref₁ hmid]
          exact h
  | none =>
      cases hmid : mid k with
      | none =>
          rw [hmid] at hkept
          exact hkept
      | some lref₁ =>
          rw [hold, hmid] at h
          rw [hloads.kept k lref₁ hmid]
          exact h

/-- A history that was kept is linked to its ref, if the ref was kept. -/
theorem HistoryKept.linked {repo repo' : Repository} {old new : State.LoadedRefs κ}
    (h : HistoryKept env repo old new k) (hlookup : repo'.lookup k = repo.lookup k)
    (hlinked : ∀ lref, old k = some lref → HistoryLinked env repo k lref)
    {lref : State.LoadedRef κ} (hk : new k = some lref) : HistoryLinked env repo' k lref := by
  unfold HistoryKept at h
  rw [hk] at h
  cases hold : old k with
  | some lref₀ =>
      rw [hold] at h
      obtain ⟨hname, hcommit⟩ := hlinked lref₀ hold
      unfold HistoryLinked
      rw [show lref.history = lref₀.history from h, hlookup]
      exact ⟨hname, hcommit⟩
  | none =>
      rw [hold] at h
      obtain ⟨ref, href, hhistory⟩ := h
      exact .of_fresh ⟨ref, hlookup.trans href, hhistory⟩

namespace Rewritten

theorem lookup_isSome (h : Rewritten env ks todo app app') {m : Bytes}
    (hm : (app.repo.lookup m).isSome) : (app'.repo.lookup m).isSome := by
  by_cases hks : m ∈ ks
  · exact h.lookupSelf m hks
  · rw [h.lookupOther m hks]
    exact hm

/-- Nothing is rewritten at first. -/
theorem of_onlyOutside (h : Ready env app) (hout : OnlyOutside app app') :
    Rewritten env ∅ ∅ app app' where
  ready := h.congr (by rw [hout]) (by rw [hout]) (by rw [hout])
  lookupSelf k hk := absurd hk (Finset.notMem_empty k)
  lookupOther k _ := by rw [hout]
  history k hk := absurd hk (Finset.notMem_empty k)
  historyOther k _ := by
    rw [hout]
    exact .refl _ _ k
  revs := by rw [hout]
  columns := by rw [hout]
  size := by rw [hout]
  head := by rw [hout]

/-- One more ref is replaced. -/
theorem replaced {t : Target} (h : Rewritten env ks todo app app₁) (hk : k ∉ ks)
    (hwrote : Wrote app₁ app' k t) (hname : env.names.normalize k = some k) (hne : k ≠ headFile)
    (hloaded : (app.repoState k).isSome) :
    Rewritten env (insert k ks) (insert k todo) app app' where
  ready := h.ready.of_wrote hwrote hname hne
  lookupSelf m hm := by
    by_cases hmk : m = k
    · rw [hmk, hwrote.lookupSelf]
      rfl
    · rw [hwrote.lookupOther m hmk]
      exact h.lookupSelf m (Finset.mem_of_mem_insert_of_ne hm hmk)
  lookupOther m hm := by
    obtain ⟨hmk, hm⟩ := not_or.mp fun h => hm (Finset.mem_insert.mpr h)
    rw [hwrote.lookupOther m hmk, h.lookupOther m hm]
  history m hm := by
    by_cases hmk : m = k
    · subst hmk
      obtain ⟨lref, hlref⟩ := Option.isSome_iff_exists.mp hloaded
      have hkept := h.historyOther m hk
      unfold HistoryKept at hkept
      rw [hlref] at hkept
      cases hlref' : app₁.repoState m with
      | none =>
          rw [hlref'] at hkept
          exact hkept.elim
      | some lref' =>
          rw [hlref'] at hkept
          refine ⟨lref, lref', hlref, by rw [hwrote.repoState, hlref'], ?_⟩
          rw [if_pos (Finset.mem_insert_self m todo)]
          exact hkept
    · obtain ⟨lref, lref', hlref, hlref', hhistory⟩ :=
        h.history m (Finset.mem_of_mem_insert_of_ne hm hmk)
      refine ⟨lref, lref', hlref, by rw [hwrote.repoState, hlref'], ?_⟩
      rw [hwrote.lookupOther m hmk]
      simpa only [Finset.mem_insert, hmk, false_or] using hhistory
  historyOther m hm := by
    obtain ⟨-, hm⟩ := not_or.mp fun h => hm (Finset.mem_insert.mpr h)
    rw [hwrote.repoState]
    exact h.historyOther m hm
  revs := hwrote.revs.trans h.revs
  columns := hwrote.columns.trans h.columns
  size := hwrote.size.trans h.size
  head := hwrote.head.trans h.head

/-- Other histories may be loaded meanwhile. -/
theorem loads {repoState : State.LoadedRefs κ} (h : Rewritten env ks todo app app₁)
    (hloads : Loads env app₁.repo app₁.repoState repoState) :
    Rewritten env ks todo app { app₁ with repoState := repoState } where
  ready := h.ready.congr rfl rfl rfl
  lookupSelf := h.lookupSelf
  lookupOther := h.lookupOther
  history m hm := by
    obtain ⟨lref, lref', hlref, hlref', hhistory⟩ := h.history m hm
    exact ⟨lref, lref', hlref, hloads.kept m lref' hlref', hhistory⟩
  historyOther m hm := (h.historyOther m hm).trans_loads (h.lookupOther m hm) hloads
  revs := h.revs
  columns := h.columns
  size := h.size
  head := h.head

/-- The history of one ref follows. -/
theorem pushed (h : Rewritten env ks todo app app₁) (hk : k ∈ ks) (htodo : k ∈ todo)
    {lref' : State.LoadedRef κ}
    (hhistory : ∀ lref ref, app.repoState k = some lref → app₁.repo.lookup k = some ref →
      lref'.history.timeline (shown env.ids) =
        (lref.history.timeline (shown env.ids)).observe (Ref.shorthand k, some ref.commit)) :
    Rewritten env ks (todo.erase k) app (app₁.withLoaded k lref') where
  ready := h.ready.congr rfl rfl rfl
  lookupSelf := h.lookupSelf
  lookupOther := h.lookupOther
  history m hm := by
    obtain ⟨lref, lref₁, hlref, hlref₁, hhistory₁⟩ := h.history m hm
    by_cases hmk : m = k
    · subst hmk
      refine ⟨lref, lref', hlref, repoState_withLoaded m lref', ?_⟩
      rw [if_neg (Finset.notMem_erase m todo)]
      exact fun ref href => hhistory lref ref hlref href
    · refine ⟨lref, lref₁, hlref, (Function.update_of_ne hmk _ _).trans hlref₁, ?_⟩
      simp only [Finset.mem_erase, ne_eq, hmk, not_false_eq_true, true_and]
      exact hhistory₁
  historyOther m hm := by
    have hmk : m ≠ k := fun heq => hm (heq ▸ hk)
    have hsame : (app₁.withLoaded k lref').repoState m = app₁.repoState m :=
      Function.update_of_ne hmk _ _
    have hkept := h.historyOther m hm
    unfold HistoryKept at hkept ⊢
    rw [hsame]
    exact hkept
  revs := h.revs
  columns := h.columns
  size := h.size
  head := h.head

/-- Once every history has followed, `_reload` can make everything current. -/
theorem reloadable (h : Rewritten env ks ∅ app app') (hlinked : Linked env app)
    {selection : Ui.Selection}
    (hselection : ∀ rev, selection.rev = some rev → RevCurrent app'.repo rev) :
    Reloadable env { app' with selection := selection } :=
  { h.ready.congr rfl rfl rfl with
    loaded := by
      intro m lref hm
      by_cases hks : m ∈ ks
      · obtain ⟨lref₀, lref', -, hlref', hhistory⟩ := h.history m hks
        obtain ⟨ref, href⟩ := Option.isSome_iff_exists.mp (h.lookupSelf m hks)
        obtain rfl : lref' = lref := Option.some.inj (hlref'.symm.trans hm)
        rw [if_neg (Finset.notMem_empty m)] at hhistory
        have hpresent := congrArg Timeline.present (hhistory ref href)
        rw [State.History.present_timeline, Timeline.present_observe] at hpresent
        obtain ⟨hname, hcommit⟩ := Prod.mk.inj hpresent
        exact ⟨hname, ref, href, hcommit⟩
      · exact (h.historyOther m hks).linked (h.lookupOther m hks) (hlinked.loaded m) hm
    revExists := by
      intro rev hrev ref href
      have hrev : rev ∈ app'.revs := hrev
      rw [h.revs] at hrev
      exact h.lookup_isSome (hlinked.revExists rev hrev ref href)
    headExists := by
      intro head ref hhead href
      have hhead : app'.head = some head := hhead
      rw [h.head] at hhead
      exact h.lookup_isSome (hlinked.headExists head ref hhead href)
    selectionCurrent := hselection }

/-- What is recorded then is what was seen. -/
theorem advances (h : Rewritten env ks ∅ app app₁) (hlinked : Linked env app) {action : Action}
    (hcol : app.columnRef action = none) (hrepo : app'.repo = app₁.repo)
    (hloads : Loads env app₁.repo app₁.repoState app'.repoState) :
    recorded env app'.repo app'.repoState =
      advance app app' action (recorded env app.repo app.repoState) := by
  ext1 m
  by_cases hks : m ∈ ks
  · obtain ⟨lref, lref', hlref, hlref', hhistory⟩ := h.history m hks
    obtain ⟨ref, href⟩ := Option.isSome_iff_exists.mp (h.lookupSelf m hks)
    obtain ⟨-, ref₀, href₀, -⟩ := hlinked.loaded m lref hlref
    rw [if_neg (Finset.notMem_empty m)] at hhistory
    have horigin : app.origin action m = some m := by
      unfold origin
      rw [href₀]
      rfl
    unfold advance recorded
    rw [hrepo, href, hloads.kept m lref' hlref', horigin, Option.map_some, Option.map_some,
      Option.bind_some, href₀, Option.map_some, hlref, hcol]
    exact congrArg some (hhistory ref href)
  · have hlookup : app'.repo.lookup m = app.repo.lookup m := by
      rw [hrepo, h.lookupOther m hks]
    cases href : app.repo.lookup m with
    | none => simp [recorded, advance, hlookup, href]
    | some ref =>
        refine advance_of_kept hlinked hlookup href ?_
          (by rw [hcol]; exact (Option.some_ne_none m).symm)
        exact (h.historyOther m hks).trans_loads (h.lookupOther m hks) hloads

end Rewritten

end Histories

/-! ## What one action leaves behind -/

/-- What every action is to leave behind: histories that end in what their refs are, and that say
what an observer has seen. -/
structure Advanced (env : Env κ ω) (app app' : App κ ω) (action : Action) : Prop where
  linked : Linked env app'
  recorded : recorded env app'.repo app'.repoState =
    advance app app' action (recorded env app.repo app.repoState)

section Pushing

open Modify

variable [DecidableEq κ] {env : Env κ ω} {inputs : Inputs κ} {app app₁ app' : App κ ω}
  {ks todo : Finset Bytes} {op : Op}

omit [DecidableEq κ] in
/-- An action that leaves every ref as it was. -/
theorem Advanced.of_loads (h : Linked env app) {action : Action}
    (hcol : app.columnRef action = none) (hlinked : Linked env app') (hrepo : app'.repo = app.repo)
    (hloads : Loads env app.repo app.repoState app'.repoState) : Advanced env app app' action where
  linked := hlinked
  recorded := (Rewritten.of_onlyOutside h.toReady (refl_of OnlyOutside app)).advances h hcol hrepo
    hloads

omit [DecidableEq κ] in
/-- The history of a ref that is loaded stands at what the ref is. -/
theorem present_loaded (h : Linked env app) {ref : Ref} {lref : State.LoadedRef κ}
    (hlref : app.repoState ref.fullName = some lref) (hcurrent : app.repo.Current ref) :
    (lref.history.timeline (shown env.ids)).present =
      (Ref.shorthand ref.fullName, some ref.commit) := by
  obtain ⟨hname, ref₀, href₀, hcommit⟩ := h.loaded ref.fullName lref hlref
  obtain rfl : ref₀ = ref := Option.some.inj (href₀.symm.trans hcurrent)
  rw [State.History.present_timeline]
  exact Prod.ext hname hcommit

omit [DecidableEq κ] in
theorem withLoaded_self {k : Bytes} {lref : State.LoadedRef κ} (h : app.repoState k = some lref) :
    app.withLoaded k lref = app := by
  unfold withLoaded
  rw [← h, Function.update_eq_self]

/-- What became of a rev of an operation: there is none, it was kept, or its ref `k` was
replaced. -/
inductive SideDone (app app' : App κ ω) : Option Bytes → Option Rev → Option Rev → Prop where
  | none (prev : Option Rev) : SideDone app app' none prev none
  | kept {rev : Rev} (hcurrent : RevCurrent app.repo rev) :
      SideDone app app' none (some rev) (some rev)
  | replaced {prev rev : Rev} {ref ref' : Ref} (hprev : prev.ref = some ref)
      (hcurrent : RevCurrent app.repo prev) (href : rev.ref = some ref')
      (hname : ref'.fullName = ref.fullName) (hcurrent' : RevCurrent app'.repo rev) :
      SideDone app app' (some ref.fullName) (some prev) (some rev)

omit [DecidableEq κ] in
theorem SideDone.congr {k : Option Bytes} {prev rev : Option Rev} (h : SideDone app app₁ k prev rev)
    (hrepo : app'.repo = app₁.repo) : SideDone app app' k prev rev := by
  cases h with
  | none => exact .none _
  | kept hcurrent => exact .kept hcurrent
  | replaced hprev hcurrent href hname hcurrent' =>
      exact .replaced hprev hcurrent href hname (by rw [hrepo]; exact hcurrent')

omit [DecidableEq κ] in
theorem SideDone.replaced_ref {k : Bytes} {prev rev : Rev}
    (h : SideDone app app' (some k) (some prev) (some rev)) :
    RevCurrent app.repo prev ∧ RevCurrent app'.repo rev ∧
      ∃ ref ref', prev.ref = some ref ∧ ref.fullName = k ∧ rev.ref = some ref' ∧
        ref'.fullName = k := by
  generalize hname : some k = name at h
  cases h with
  | kept => cases hname
  | @replaced _ _ ref ref' hprev hcurrent href hsame hcurrent' =>
      cases hname
      exact ⟨hcurrent, hcurrent', ref, ref', hprev, rfl, href, hsame⟩

/-- The push for one side of an operation. -/
theorem opPush_ends (hlinked : Linked env app) (h : Rewritten env ks todo app app₁)
    {k : Option Bytes} {prev : Option Rev} {res : Res} (hside : SideDone app app₁ k prev res.rev)
    (hk : ∀ m, k = some m → m ∈ ks ∧ m ∈ todo) :
    Program.Ends (opPush env inputs prev res) app₁
      (fun _ app₂ => Rewritten env ks (todo \ k.toFinset) app app₂ ∧ app₂.repo = app₁.repo)
      fun _ _ => False := by
  unfold opPush
  generalize hres : res.rev = rev at hside ⊢
  cases hside with
  | none => exact .pure ⟨by simpa using h, rfl⟩
  | @kept rev hcurrent =>
      rw [Option.bind_some]
      cases href : rev.ref with
      | none => exact .pure ⟨by simpa using h, rfl⟩
      | some ref =>
          -- the ref is as it was, or its history is loaded
          have hloads :
              Loads env app₁.repo app₁.repoState (app₁.load env inputs ref).repoState := by
            by_cases hks : ref.fullName ∈ ks
            · obtain ⟨-, lref', -, hlref', -⟩ := h.history _ hks
              rw [load_of_loaded (by rw [hlref']; rfl)]
              exact .refl
            · apply loads_load
              show app₁.repo.lookup ref.fullName = some ref
              rw [h.lookupOther _ hks]
              exact (hcurrent ref href).1
          dsimp only
          unfold loadRef
          refine .bind (.bind (.read (.bind (.update (.pure ?_)))))
          rw [if_pos (by rw [Option.map_some])]
          refine .pure ⟨?_, rfl⟩
          rw [Option.toFinset_none, Finset.sdiff_empty]
          exact h.loads hloads
  | @replaced prev rev ref ref' hprev hcurrent href hname hcurrent' =>
      obtain ⟨hks, htodo⟩ := hk _ rfl
      obtain ⟨lref, lref₁, hlref, hlref₁, hsame⟩ := h.history _ hks
      rw [if_pos htodo] at hsame
      have hpresent := present_loaded hlinked hlref (hcurrent ref hprev).1
      have hself : app₁.repo.lookup ref.fullName = some ref' := hname ▸ (hcurrent' ref' href).1
      rw [Option.bind_some, href]
      dsimp only
      refine .bind (loadRef_ends (by rw [hname, hlref₁]) ?_)
      rw [Option.map_some, Option.map_some, (hcurrent' ref' href).2, (hcurrent ref hprev).2]
      rw [show (some ref.fullName).toFinset = {ref.fullName} from rfl,
        Finset.sdiff_singleton_eq_erase]
      by_cases hcommit : some ref'.commit = some ref.commit
      · -- the ref got the commit that it had
        rw [if_pos hcommit]
        refine .pure ⟨?_, rfl⟩
        rw [← withLoaded_self hlref₁]
        refine h.pushed hks htodo fun lref₀ ref₀ hlref₀ href₀ => ?_
        obtain rfl : lref₀ = lref := Option.some.inj (hlref₀.symm.trans hlref)
        obtain rfl : ref₀ = ref' := Option.some.inj (href₀.symm.trans hself)
        rw [hsame, hcommit, ← hpresent, Timeline.observe_present]
      · rw [if_neg hcommit]
        refine .bind (historyPush_ends (by rw [hname, hlref₁])
          (snapshotInitialPush_ends (repoState_withLoaded _ _) ⟨?_, rfl⟩))
        rw [withLoaded_withLoaded, hname]
        refine h.pushed hks htodo ?_
        intro lref₀ ref₀ hlref₀ href₀
        obtain rfl : lref₀ = lref := Option.some.inj (hlref₀.symm.trans hlref)
        obtain rfl : ref₀ = ref' := Option.some.inj (href₀.symm.trans hself)
        rw [State.LoadedRef.history_snapshotInitialPush, State.LoadedRef.history_setHistory,
          State.History.timeline_push, hsame]
        unfold Timeline.observe
        rw [if_neg (by
          rw [hpresent]
          exact fun heq => hcommit (Prod.mk.inj heq).2.symm)]
        simp [shown, State.RefState.ofRef, Ref.name, hname]

end Pushing

/-! ## A commit operation -/

section Operations

open Modify

variable [DecidableEq κ] {env : Env κ ω} {inputs : Inputs κ} {app app₁ app' : App κ ω}
  {ks todo : Finset Bytes} {op : Op}

/-- A ref that an operation can replace with its history following: the history is loaded, and a
tag is found by its short name. -/
structure Recordable (env : Env κ ω) (app : App κ ω) (ref : Ref) : Prop where
  isMutable : ref.isMutable = true
  clear : CopyClear env.names app.repo ref ref.name
  loaded : (app.repoState ref.fullName).isSome

omit [DecidableEq κ] in
/-- What was not found is not found while an operation replaces its refs. -/
theorem Rewritten.lookup_none (h : Rewritten env ks todo app app₁) (hlinked : Linked env app)
    {m : Bytes} (hm : app.repo.lookup m = none) : app₁.repo.lookup m = none := by
  by_cases hks : m ∈ ks
  · obtain ⟨lref, -, hlref, -, -⟩ := h.history m hks
    obtain ⟨-, ref, href, -⟩ := hlinked.loaded m lref hlref
    rw [hm] at href
    cases href
  · rw [h.lookupOther m hks, hm]

/-- Nothing refuses to replace the ref: it is no branch called `HEAD`, and the call that fails
is none of those before. -/
def Answers (inputs : Inputs κ) (ref : Ref) : Prop :=
  (ref.isBranch = true → ref.name ≠ headFile) ∧ ¬inputs.fault.AtReplace ref

omit [DecidableEq κ] in
theorem revReplace_ends (hlinked : Linked env app) (h : Rewritten env ks todo app app₁) {rev : Rev}
    {ref : Ref} (href : rev.ref = some ref) (hcurrent : RevCurrent app.repo rev)
    (hrecordable : Recordable env app ref) (hks : ref.fullName ∉ ks) (commit : Option Commit) :
    Program.Ends (revReplace (gitCtx env inputs) rev ref commit) app₁
      (fun rev' app' => Rewritten env (insert ref.fullName ks) (insert ref.fullName todo) app app' ∧
        SideDone app app' (some ref.fullName) (some rev) (some rev') ∧
        ∀ m, m ≠ ref.fullName → app'.repo.lookup m = app₁.repo.lookup m)
      fun e app' => NotCanceled e ∧
        (e ≠ .abort → ¬inputs.fault.IsLate → Rests app₁ app' ∧ ¬Answers inputs ref) := by
  have hne := Ref.ne_headFile_of_isMutable hrecordable.isMutable
  obtain ⟨hcurrentRef, -⟩ := hcurrent ref href
  have hname := hlinked.named _ _ (hcurrentRef.refs hne)
  have hcurrent₁ : app₁.repo.Current ref := by
    show app₁.repo.lookup ref.fullName = some ref
    rw [h.lookupOther _ hks]
    exact hcurrentRef
  have hclear₁ : CopyClear env.names app₁.repo ref ref.name := fun hbranch =>
    tagNameClear_mono (hrecordable.clear hbranch) fun m hm => h.lookup_none hlinked hm
  unfold revReplace
  cases commit with
  | none => exact .fail ⟨by simp [NotCanceled], fun habort => absurd rfl habort⟩
  | some commit =>
      refine .bind (((gitRefReplace_ends h.ready hcurrent₁ hrecordable.isMutable hclear₁ commit).and
        (gitRefReplace_yields ref commit app₁)).mono ?_ ?_)
      · rintro ref' app' ⟨⟨ann, hwrote, rfl⟩, -⟩
        refine .bind (call_ends ?_ fun code hcode => ⟨by simp [NotCanceled], fun _ hlate =>
          absurd (Fault.isLate_of_eq hcode rfl) hlate⟩)
        refine .pure ⟨h.replaced hks hwrote hname hne hrecordable.loaded, ?_, hwrote.lookupOther⟩
        refine .replaced href hcurrent rfl rfl ?_
        rintro _ ⟨⟩
        exact ⟨hwrote.lookupSelf, rfl⟩
      · rintro e app' ⟨hfailed, hcanceled⟩
        refine ⟨hcanceled, fun habort hlate => ?_⟩
        obtain ⟨hrests, hat⟩ := hfailed habort hlate
        exact ⟨hrests, fun hanswers => hanswers.2 (hat hanswers.1)⟩

/-- What an operation with a result leaves behind before it pushes on histories. -/
def Operated (env : Env κ ω) (op : Op) (app app' : App κ ω) (r : OpResult) : Prop :=
  ∃ k k' : Option Bytes, (∀ m, k = some m → k' ≠ some m) ∧
    Rewritten env (k.toFinset ∪ k'.toFinset) (k.toFinset ∪ k'.toFinset) app app' ∧
    SideDone app app' k op.src.rev r.src.rev ∧ SideDone app app' k' op.dst.rev r.dst.rev ∧
    ∀ rev, (if r.dst.rev.isSome then r.dst.rev else r.src.rev) = some rev →
      RevCurrent app'.repo rev

omit [DecidableEq κ] in
theorem replacing_ends (hlinked : Linked env app) (h : Rewritten env ∅ ∅ app app₁)
    (hsrc : ∀ rev, op.src.rev = some rev → RevCurrent app.repo rev)
    (hdst : ∀ rev, op.dst.rev = some rev → RevCurrent app.repo rev)
    (htargets : ∀ ref ∈ op.targets, Recordable env app ref)
    {x : Program (App κ ω) Exn (Option OpResult)} (hx : Replacing (gitCtx env inputs) op x) :
    Program.Ends x app₁ (fun result app' => ∃ r, result = some r ∧ Operated env op app app' r)
      fun e app' => NotCanceled e ∧ (e ≠ .abort → ¬inputs.fault.IsLate →
        (∀ ref ∈ op.targets.tail, Answers inputs ref) → Rests app₁ app') := by
  -- an only ref is as it was if it was not replaced
  have hrefused : ∀ (ref : Ref) (e : Exn) (app' : App κ ω), NotCanceled e ∧
      (e ≠ .abort → ¬inputs.fault.IsLate → Rests app₁ app' ∧ ¬Answers inputs ref) →
      NotCanceled e ∧ (e ≠ .abort → ¬inputs.fault.IsLate →
        (∀ ref ∈ op.targets.tail, Answers inputs ref) → Rests app₁ app') :=
    fun ref e app' h => ⟨h.1, fun habort hlate _ => (h.2 habort hlate).1⟩
  cases hx with
  | @src rev ref commit result hrev href htarget hres hresDst hopDst =>
      have hrecordable := htargets ref (by rw [htarget]; exact List.mem_cons_self)
      refine .bind ((revReplace_ends hlinked h href (hsrc rev hrev) hrecordable
        (Finset.notMem_empty _) commit).mono ?_ (hrefused ref))
      rintro rev' app' ⟨hrewritten, hside, -⟩
      refine .pure ⟨_, rfl, some ref.fullName, none, fun _ _ => nofun, ?_, ?_, ?_, ?_⟩
      · simpa using hrewritten
      · rw [hrev, hres]
        exact hside
      · rw [hresDst]
        exact .none _
      · rw [hresDst, hres]
        rintro _ ⟨⟩
        exact hside.replaced_ref.2.1
  | @dst src rev ref commit result hopSrc hrev href htarget hres hresDst =>
      have hrecordable := htargets ref (by rw [htarget]; exact List.mem_cons_self)
      refine .bind ((revReplace_ends hlinked h href (hdst rev hrev) hrecordable
        (Finset.notMem_empty _) commit).mono ?_ (hrefused ref))
      rintro rev' app' ⟨hrewritten, hside, -⟩
      refine .pure ⟨_, rfl, none, some ref.fullName, fun _ => nofun, ?_, ?_, ?_, ?_⟩
      · simpa using hrewritten
      · rw [hopSrc, hres]
        exact .kept (hsrc src hopSrc)
      · rw [hrev, hresDst]
        exact hside
      · rw [hresDst]
        rintro _ ⟨⟩
        exact hside.replaced_ref.2.1
  | @both src dst srcRef dstRef srcCommit dstCommit result hopSrc hopDst hsrcRef hdstRef hne htarget
      hres hresDst =>
      have hrecordable := htargets srcRef (by rw [htarget]; exact List.mem_cons_self)
      have hrecordable' := htargets dstRef
        (by rw [htarget]; exact List.mem_cons_of_mem _ List.mem_cons_self)
      refine .bind ((revReplace_ends hlinked h hsrcRef (hsrc src hopSrc) hrecordable
        (Finset.notMem_empty _) _).mono ?_ (hrefused srcRef))
      rintro rev₁ app₂ ⟨hrewritten, hside, -⟩
      have hnew : dstRef.fullName ∉ insert srcRef.fullName (∅ : Finset Bytes) := by
        simpa using Ne.symm hne
      refine .bind ((revReplace_ends hlinked hrewritten hdstRef (hdst dst hopDst) hrecordable'
        hnew _).mono ?_ ?_)
      swap
      · -- the second ref is not refused
        rintro e app' ⟨hcanceled, hfailed⟩
        refine ⟨hcanceled, fun habort hlate hanswers => ?_⟩
        refine absurd (hanswers dstRef ?_) (hfailed habort hlate).2
        rw [htarget]
        exact List.mem_cons_self
      rintro rev₂ app' ⟨hrewritten', hside', hothers⟩
      refine .pure ⟨_, rfl, some srcRef.fullName, some dstRef.fullName, ?_, ?_, ?_, ?_, ?_⟩
      · rintro _ ⟨⟩ heq
        exact hne (Option.some.inj heq).symm
      · rw [show (some srcRef.fullName).toFinset ∪ (some dstRef.fullName).toFinset =
          insert dstRef.fullName (insert srcRef.fullName ∅) by
            ext m
            simp [or_comm]]
        exact hrewritten'
      · -- the source is still what it became
        rw [hopSrc, hres]
        obtain ⟨hcurrent, hcurrent', ref, ref', hprev, hname, href, hname'⟩ := hside.replaced_ref
        rw [hsrcRef] at hprev
        cases hprev
        refine .replaced hsrcRef hcurrent href hname' fun ref₁ href₁ => ?_
        obtain ⟨hlookup, hcommit⟩ := hcurrent' ref₁ href₁
        rw [href] at href₁
        cases href₁
        refine ⟨?_, hcommit⟩
        show app'.repo.lookup ref'.fullName = some ref'
        rw [hothers _ (by rw [hname']; exact hne)]
        exact hlookup
      · rw [hopDst, hresDst]
        exact hside'
      · rw [hresDst]
        rintro _ ⟨⟩
        exact hside'.replaced_ref.2.1

omit [DecidableEq κ] in
/-- An operation without a result changed nothing but the outside. -/
theorem exec_operated (h : Linked env app)
    (hsrc : ∀ rev, op.src.rev = some rev → RevCurrent app.repo rev)
    (hdst : ∀ rev, op.dst.rev = some rev → RevCurrent app.repo rev)
    (htargets : ∀ ref ∈ op.targets, Recordable env app ref) :
    Program.Ends (exec (gitCtx env inputs) op) app
      (fun result app' => result = none ∧ OnlyOutside app app' ∨
        ∃ r, result = some r ∧ Operated env op app app' r)
      fun e app' => e ≠ .abort → ¬inputs.fault.IsLate →
        (∀ ref ∈ op.targets.tail, Answers inputs ref) →
          ∃ app₁, OnlyOutside app app₁ ∧ Rests app₁ app' := by
  have hdispatch : Program.Ends (dispatch (gitCtx env inputs) op) app
      (fun result app' => result = none ∧ OnlyOutside app app' ∨
        ∃ r, result = some r ∧ Operated env op app app' r)
      fun e app' => OnlyOutside app app' ∨ NotCanceled e ∧ (e ≠ .abort → ¬inputs.fault.IsLate →
        (∀ ref ∈ op.targets.tail, Answers inputs ref) →
          ∃ app₁, OnlyOutside app app₁ ∧ Rests app₁ app') := by
    unfold Program.Ends
    -- an operation works outside first and then replaces its refs, if it comes to that
    rcases prepares_dispatch gitCtx_quiet op app with ⟨happ, hno⟩ | ⟨app₁, x, hx, happ, hrun⟩
    · rcases hrun : dispatch (gitCtx env inputs) op app with ⟨e | result, app'⟩
      · rw [hrun] at happ
        exact Or.inl happ
      · rw [hrun] at happ hno
        cases result with
        | none => exact Or.inl ⟨rfl, happ⟩
        | some r => cases hno
    · have hends := replacing_ends h (.of_onlyOutside h.toReady happ) hsrc hdst htargets hx
      unfold Program.Ends at hends
      rw [hrun]
      rcases hrun' : x app₁ with ⟨e | result, app'⟩
      · rw [hrun'] at hends
        exact Or.inr ⟨hends.1, fun habort hlate hanswers =>
          ⟨app₁, happ, hends.2 habort hlate hanswers⟩⟩
      · rw [hrun'] at hends
        exact Or.inr hends
  unfold exec
  refine Program.Ends.handle (hdispatch.mono (fun _ _ hok => hok) ?_)
  intro e app' hcases
  split
  · next hcanceled =>
      rcases hcases with hout | ⟨hnot, -⟩
      · exact .pure (Or.inl ⟨rfl, hout⟩)
      · exact absurd hcanceled hnot
  · refine .fail fun habort hlate hanswers => ?_
    rcases hcases with hout | ⟨-, hfailed⟩
    · exact ⟨app', hout, refl_of Rests app'⟩
    · exact hfailed habort hlate hanswers

omit [DecidableEq κ] in
theorem Linked.of_onlyOutside (h : Linked env app) (hout : OnlyOutside app app') :
    Linked env app' := by
  rw [hout]
  exact
    { h with
      named := h.named
      headName := h.headName
      headResolves := h.headResolves
      headAttached := h.headAttached }

/-- A commit operation whose refs it can replace with their histories following.  Where it
throws, everything stays linked. -/
theorem gitOpExec_ends (h : Linked env app) {action : Action}
    (hcol : app.columnRef action = none)
    (hsrc : ∀ rev, op.src.rev = some rev → RevCurrent app.repo rev)
    (hdst : ∀ rev, op.dst.rev = some rev → RevCurrent app.repo rev)
    (htargets : ∀ ref ∈ op.targets, Recordable env app ref) :
    Program.Ends (gitOpExec env inputs op) app (fun _ app' => Advanced env app app' action)
      fun e app' => e ≠ .abort → ¬inputs.fault.IsLate →
        (∀ ref ∈ op.targets.tail, Answers inputs ref) → Linked env app' := by
  unfold gitOpExec
  refine .bind ((exec_operated h hsrc hdst htargets).mono ?_ ?_)
  swap
  · intro e app' hfailed habort hlate hanswers
    obtain ⟨app₁, hout, hrests⟩ := hfailed habort hlate hanswers
    exact (h.of_onlyOutside hout).of_rests hrests
  rintro result app₁ (⟨rfl, hout⟩ | ⟨r, rfl, k, k', hne, hrewritten, hsideSrc, hsideDst, hcurrent⟩)
  · refine .pure (.of_loads h hcol (h.of_onlyOutside hout) (by rw [hout]) ?_)
    rw [hout]
    exact .refl
  · dsimp only
    split
    · exact .fail fun habort => absurd rfl habort
    · refine .bind ((opPush_ends h hrewritten hsideSrc ?_).mono ?_ fun _ _ hno => hno.elim)
      · rintro m rfl
        simp
      · rintro - app₂ ⟨hrewritten₂, hrepo₂⟩
        refine .bind ((opPush_ends h hrewritten₂ (hsideDst.congr hrepo₂) ?_).mono ?_
          fun _ _ hno => hno.elim)
        · rintro m rfl
          have hother : k ≠ some m := fun heq => hne m heq rfl
          simp [hother]
        · rintro - app₃ ⟨hrewritten₃, hrepo₃⟩
          -- every ref that was replaced has its push
          have hdone : ((k.toFinset ∪ k'.toFinset) \ k.toFinset) \ k'.toFinset = ∅ := by
            ext m
            simp only [Finset.mem_sdiff, Finset.mem_union, Finset.notMem_empty, iff_false]
            tauto
          rw [hdone] at hrewritten₃
          have hselection : ∀ rev,
              (if r.dst.rev.isSome then (⟨r.dst.rev, r.dst.selection⟩ : Ui.Selection)
                else ⟨r.src.rev, r.src.selection⟩).rev = some rev → RevCurrent app₃.repo rev := by
            intro rev hrev
            rw [hrepo₃, hrepo₂]
            apply hcurrent rev
            split at hrev
            · next hsome => exact (if_pos hsome).trans hrev
            · next hsome => exact (if_neg hsome).trans hrev
          refine .bind (.update ((reload_ends
            (hrewritten₃.reloadable h hselection)).mono ?_ fun _ _ hfailed _ hlate => ?_))
          · rintro - app' ⟨hreloaded, hlinked⟩
            exact
              { linked := hlinked
                recorded := hrewritten₃.advances h hcol hreloaded.repo hreloaded.loads }
          · exact absurd hfailed.1 hlate

end Operations

end App
end Debase
