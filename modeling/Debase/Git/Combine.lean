import Debase.Git.Edit

/-!
# Combining commits

`_CombineCommits` walks down to the earliest selected commit, melts the other
selected commits into it, oldest first, and puts the commits that were passed on
top.  Without gaps between the selected commits no merge has anything to merge.
-/

namespace Debase
namespace Git

open Library Modify Toastbox

/-! ## Joining messages -/

theorem trimLeadingNewlines_append (a b : Bytes) :
    Commit.trimLeadingNewlines (Commit.trimLeadingNewlines a ++ b) =
      Commit.trimLeadingNewlines (a ++ b) := by
  unfold Commit.trimLeadingNewlines
  rw [List.dropWhile_append, List.dropWhile_append, List.dropWhile_idempotent]

/-- Leading newlines of the first line do not matter to a joined message. -/
theorem trimLeadingNewlines_joinLines (a : Bytes) (rest : List Bytes) :
    Commit.trimLeadingNewlines (joinLines (Commit.trimLeadingNewlines a :: rest)) =
      Commit.trimLeadingNewlines (joinLines (a :: rest)) := by
  cases rest with
  | nil => simp [joinLines]
  | cons b rest =>
      unfold joinLines
      rw [List.intercalate_cons_cons, List.intercalate_cons_cons, List.append_assoc,
        List.append_assoc]
      exact trimLeadingNewlines_append _ _

/-- Joining two lines first. -/
theorem joinLines_cons_cons (a b : Bytes) (rest : List Bytes) :
    joinLines ((a ++ [newline] ++ b) :: rest) = joinLines (a :: b :: rest) := by
  cases rest with
  | nil => simp [joinLines]
  | cons c rest => simp [joinLines, List.intercalate_cons_cons]

namespace Modify

/-! ## The walk -/

/-- The walk of `_CombineCommits` stops at the earliest selected commit, with the
selected and the other commits above it apart. -/
theorem combineLoop_ok {cs : List Commit} (hnd : cs.Nodup) {rem : Finset Commit}
    (hrem : rem ≠ ∅) {integrate attach : List Commit} {plan : CombinePlan}
    (h : combineLoop cs rem integrate attach = .ok plan) :
    ∃ above below, cs = above ++ plan.head :: below ∧ plan.head ∈ rem ∧
      (∀ c ∈ rem, c = plan.head ∨ c ∈ above) ∧
      plan.integrate = (above.filter (· ∈ rem)).reverse ++ integrate ∧
      plan.attach = (above.filter (· ∉ rem)).reverse ++ attach := by
  induction cs generalizing rem integrate attach with
  | nil => cases h
  | cons c cs ih =>
      obtain ⟨hc, hcs⟩ := List.nodup_cons.mp hnd
      rw [combineLoop] at h
      by_cases hlast : rem.erase c = ∅
      · rw [if_pos hlast] at h
        cases h
        -- the last selected commit: the walk ends here
        have hsingle : rem = {c} := by
          rcases Finset.erase_eq_empty_iff rem c |>.mp hlast with hempty | hsingle
          · exact absurd hempty hrem
          · exact hsingle
        refine ⟨[], cs, rfl, ?_, ?_, rfl, rfl⟩
        · simp [hsingle]
        · simp [hsingle]
      · rw [if_neg hlast] at h
        have hmem : ∀ d ∈ cs, (d ∈ rem.erase c ↔ d ∈ rem) := by
          intro d hd
          have hne : d ≠ c := ne_of_mem_of_not_mem hd hc
          simp [hne]
        have hfilter : ∀ above below, cs = above ++ plan.head :: below →
            above.filter (· ∈ rem.erase c) = above.filter (· ∈ rem) ∧
              above.filter (· ∉ rem.erase c) = above.filter (· ∉ rem) := by
          intro above below hsplit
          have hsub : ∀ d ∈ above, d ∈ cs := fun d hd => hsplit ▸ List.mem_append_left _ hd
          constructor
          · exact List.filter_congr fun d hd => by simp [hmem d (hsub d hd)]
          · exact List.filter_congr fun d hd => by simp [hmem d (hsub d hd)]
        -- what is left of the selection, and this commit, are on the chain
        have hsub : ∀ (above : List Commit), (∀ d ∈ rem.erase c, d = plan.head ∨ d ∈ above) →
            ∀ d ∈ rem, d = plan.head ∨ d ∈ c :: above := by
          intro above hall d hd
          by_cases hdc : d = c
          · exact Or.inr (hdc ▸ List.mem_cons_self)
          · rcases hall d (Finset.mem_erase.mpr ⟨hdc, hd⟩) with heq | hd
            · exact Or.inl heq
            · exact Or.inr (List.mem_cons_of_mem _ hd)
        by_cases hsel : c ∈ rem
        · rw [if_pos hsel] at h
          obtain ⟨above, below, hsplit, hhead, hall, hint, hatt⟩ := ih hcs hlast h
          obtain ⟨hin, hout⟩ := hfilter above below hsplit
          refine ⟨c :: above, below, by rw [hsplit]; rfl, (Finset.mem_erase.mp hhead).2,
            hsub above hall, ?_, ?_⟩
          · rw [hint, hin]
            simp [hsel]
          · rw [hatt, hout]
            simp [hsel]
        · rw [if_neg hsel] at h
          obtain ⟨above, below, hsplit, hhead, hall, hint, hatt⟩ := ih hcs hlast h
          obtain ⟨hin, hout⟩ := hfilter above below hsplit
          refine ⟨c :: above, below, by rw [hsplit]; rfl, (Finset.mem_erase.mp hhead).2,
            hsub above hall, ?_, ?_⟩
          · rw [hint, hin]
            simp [hsel]
          · rw [hatt, hout]
            simp [hsel]

/-! ## Integrating -/

section Integrate

variable {σ : Type} {ctx : Ctx σ}

/-- One commit melted into another one. -/
theorem commitIntegrate_ok {favor : FileFavor} {dst src n : Commit} {s s' : σ}
    (h : commitIntegrate ctx favor dst src s = (.ok n, s')) :
    n.parents = dst.parents ∧ n.author = dst.author.stored ∧
      n.message = Commit.trimLeadingNewlines (dst.message ++ [newline] ++ src.message) := by
  obtain ⟨_, _, _, hrest⟩ := Program.bind_eq_ok.mp h
  obtain ⟨_, _, _, hfinish⟩ := Program.bind_eq_ok.mp hrest
  obtain ⟨tree, _, _, hamend⟩ := Program.bind_eq_ok.mp hfinish
  obtain rfl := ctx.repo.commitCreate_ok hamend
  refine ⟨rfl, rfl, ?_⟩
  have hnul : (0 : UInt8) ∉ dst.message ++ [newline] ++ src.message := by
    have hdst := zero_notMem_cString dst.message
    have hsrc := zero_notMem_cString src.message
    rw [Commit.cString_message] at hdst hsrc
    simp [hdst, hsrc, newline]
  have hmsg : (some (dst.message ++ [10] ++ src.message)).getD dst.message =
      dst.message ++ [newline] ++ src.message := rfl
  rw [Commit.message_create, hmsg, cString_eq_self hnul]

/-- Commits melted one after the other into the earliest one. -/
theorem foldlM_commitIntegrate_ok {favor : FileFavor} {cs : List Commit} {e m : Commit}
    {s s' : σ}
    (h : cs.foldlM (fun head commit => commitIntegrate ctx favor head commit) e s = (.ok m, s')) :
    m.parents = e.parents ∧ (cs ≠ [] → m.author = e.author.stored) ∧
      m.message = Commit.trimLeadingNewlines
        (joinLines (e.message :: cs.map Commit.message)) := by
  induction cs generalizing e s with
  | nil =>
      cases h
      refine ⟨rfl, fun hne => absurd rfl hne, ?_⟩
      simp [joinLines, Commit.message]
  | cons c cs ih =>
      rw [List.foldlM_cons] at h
      obtain ⟨n, s₁, hfirst, hrest⟩ := Program.bind_eq_ok.mp h
      obtain ⟨hparents, hauthor, hmessage⟩ := commitIntegrate_ok hfirst
      obtain ⟨hparents', hauthor', hmessage'⟩ := ih hrest
      refine ⟨hparents'.trans hparents, fun _ => ?_, ?_⟩
      · cases cs with
        | nil =>
            cases hrest
            exact hauthor
        | cons d ds =>
            rw [hauthor' (List.cons_ne_nil _ _), hauthor, Signature.stored_stored]
      · rw [hmessage', hmessage, trimLeadingNewlines_joinLines, joinLines_cons_cons,
          List.map_cons]

variable {R : σ → σ → Prop} [Std.Refl R] [IsTrans σ R]

/-- A commit melted into one that has the tree of its parent. -/
theorem commitIntegrate_clean (hclean : CleanMerge ctx.repo) (hrepo : ctx.repo.Keeps R)
    {favor : FileFavor} {dst src n p : Commit} {s s' : σ} (hp : src.parent = some p)
    (htree : dst.tree = p.tree) (h : commitIntegrate ctx favor dst src s = (.ok n, s')) :
    n.tree = src.tree ∧ R s s' := by
  obtain ⟨index, s₁, hmerge, hrest⟩ := Program.bind_eq_ok.mp h
  obtain ⟨index', s₂, hhandle, hfinish⟩ := Program.bind_eq_ok.mp hrest
  have hR₁ := (hrepo.commitIntegrate favor dst src).run hmerge
  have heq : ctx.repo.commitIntegrate favor dst src =
      ctx.repo.mergeTrees favor (some dst.tree) (some dst.tree) (some src.tree) := by
    unfold Repo.commitIntegrate
    rw [hp, htree]
    rfl
  rw [heq] at hmerge
  obtain ⟨hconflicts, hwrite⟩ := hclean _ _ _ _ _ _ hmerge
  rw [conflictsHandle, hconflicts] at hhandle
  cases hhandle
  have hR₂ := (hrepo.commitIntegrateFinish index dst src).run hfinish
  obtain ⟨tree, s₃, hindex, hamend⟩ := Program.bind_eq_ok.mp hfinish
  obtain rfl := ctx.repo.commitCreate_ok hamend
  exact ⟨hwrite _ _ _ hindex, trans_of R hR₁ hR₂⟩

/-- Consecutive commits melted into the one below them leave the tree of the
newest one. -/
theorem foldlM_commitIntegrate_clean (hclean : CleanMerge ctx.repo)
    (hrepo : ctx.repo.Keeps R) {favor : FileFavor} {cs : List Commit} {p e m : Commit}
    {s s' : σ} (hgrows : Grows (some p) cs) (htree : e.tree = p.tree)
    (h : cs.foldlM (fun head commit => commitIntegrate ctx favor head commit) e s = (.ok m, s')) :
    m.tree = (cs.getLast?.getD p).tree ∧ R s s' := by
  induction cs generalizing p e s with
  | nil =>
      cases h
      exact ⟨htree, refl_of R _⟩
  | cons c cs ih =>
      rw [List.foldlM_cons] at h
      obtain ⟨n, s₁, hfirst, hrest⟩ := Program.bind_eq_ok.mp h
      obtain ⟨hn, hR⟩ := commitIntegrate_clean hclean hrepo hgrows.1 htree hfirst
      obtain ⟨hm, hR'⟩ := ih hgrows.2 hn hrest
      refine ⟨?_, trans_of R hR hR'⟩
      rw [hm, List.getLast?_cons]
      cases cs.getLast? <;> rfl

end Integrate

/-- The parts of a run of consecutive commits. -/
theorem Grows.append {p : Commit} {cs ds : List Commit} (h : Grows (some p) (cs ++ ds)) :
    Grows (some p) cs ∧ Grows (some (cs.getLast?.getD p)) ds := by
  induction cs generalizing p with
  | nil => exact ⟨trivial, h⟩
  | cons c cs ih =>
      obtain ⟨hc, hds⟩ := ih h.2
      refine ⟨⟨h.1, hc⟩, ?_⟩
      rw [List.getLast?_cons]
      cases hlast : cs.getLast? <;> simpa [hlast] using hds

/-- What a combination with a result did. -/
theorem combineCommits_ok {σ : Type} {ctx : Ctx σ} {op : Op} {s s' : σ} {res : OpResult}
    (h : combineCommits ctx op s = (.ok (some res), s')) :
    ∃ src ref plan m s₁ head s₂ rev, op.src.rev = some src ∧ src.ref = some ref ∧
      2 ≤ op.src.commits.card ∧ combineLoop src.commit.chain op.src.commits [] [] = .ok plan ∧
      plan.integrate.foldlM (fun head commit => commitIntegrate ctx (fileFavor src none) head commit)
        plan.head s = (.ok m, s₁) ∧
      plan.attach.foldlM
        (fun head commit => commitParentSet ctx (fileFavor src none) commit (some head)) m s₁ =
        (.ok head, s₂) ∧
      revReplace ctx src ref (some head) s₂ = (.ok rev, s') := by
  unfold combineCommits at h
  rcases hsrc : op.src.rev with _ | src
  · simp [hsrc] at h
  rcases hdst : op.dst.rev with _ | dst
  · rcases href : src.ref with _ | ref
    · simp [hsrc, hdst, href] at h
    simp only [hsrc, hdst, href] at h
    by_cases hcard : op.src.commits.card < 2
    · simp [hcard] at h
    by_cases hmerge : commitsHasMerge op.src.commits
    · simp [hcard, hmerge] at h
    rw [if_neg hcard, if_neg hmerge] at h
    obtain ⟨plan, s₁, hliftPlan, hfolds⟩ := Program.bind_eq_ok.mp h
    obtain ⟨hplan, rfl⟩ := Program.lift_eq_ok.mp hliftPlan
    obtain ⟨m, s₂, hintegrate, hrest⟩ := Program.bind_eq_ok.mp hfolds
    obtain ⟨head, s₃, hattach, hlast⟩ := Program.bind_eq_ok.mp hrest
    obtain ⟨rev, s₄, hreplace, hpure⟩ := Program.bind_eq_ok.mp hlast
    cases hpure
    exact ⟨src, ref, plan, m, s₂, head, s₃, rev, rfl, href, by omega, hplan, hintegrate, hattach,
      hreplace⟩
  · simp [hsrc, hdst] at h

end Modify

/-! ## The history of a combination -/

/-- `e` is the earliest of the selected commits of a chain. -/
structure IsEarliest (head : Commit) (selected : Finset Commit) (e : Commit) : Prop where
  isSelected : e ∈ selected
  chain : e ∈ head.chain
  above : ∀ c ∈ selected, c = e ∨ c ∈ chainAbove head e

/-- The commits above the earliest selected one that are not selected, newest
first. -/
def unselected (head : Commit) (selected : Finset Commit) (e : Commit) : List Commit :=
  (chainAbove head e).filter (· ∉ selected)

/-- The selected commits above the earliest one, newest first. -/
def selectedAbove (head : Commit) (selected : Finset Commit) (e : Commit) : List Commit :=
  (chainAbove head e).filter (· ∈ selected)

/-- The messages of the selected commits, joined from the oldest to the newest.
A message is read without its leading newlines. -/
def joinedMessages (head : Commit) (selected : Finset Commit) : Bytes :=
  Commit.trimLeadingNewlines
    (joinLines ((head.chain.filter (· ∈ selected)).reverse.map Commit.message))

/-- The selected commits lie next to each other on the chain, below `upper`. -/
def Adjacent (head : Commit) (selected : Finset Commit) (upper run : List Commit) : Prop :=
  (∃ lower, head.chain = upper ++ run ++ lower) ∧ ∀ c, c ∈ selected ↔ c ∈ run

theorem IsEarliest.filter_chain {head e : Commit} {selected : Finset Commit}
    (h : IsEarliest head selected e) :
    head.chain.filter (· ∈ selected) = selectedAbove head selected e ++ [e] := by
  obtain ⟨hsplit, hnot⟩ := chain_split h.chain
  have hlower : (chainOf e.parent).filter (· ∈ selected) = [] := by
    rw [List.filter_eq_nil_iff]
    intro c hc
    have hnd := nodup_chain head
    rw [hsplit, List.nodup_append, List.nodup_cons] at hnd
    simp only [decide_eq_true_eq]
    intro hsel
    rcases h.above c hsel with rfl | habove
    · exact hnd.2.1.1 hc
    · exact hnd.2.2 c habove c (List.mem_cons_of_mem _ hc) rfl
  conv_lhs => rw [hsplit]
  rw [List.filter_append, List.filter_cons, hlower]
  simp [h.isSelected, selectedAbove]

/-- Adjacent commits: those above the earliest one are below `upper`. -/
theorem IsEarliest.adjacent {head e : Commit} {selected : Finset Commit}
    {upper run : List Commit} (h : IsEarliest head selected e)
    (hadj : Adjacent head selected upper run) :
    run = selectedAbove head selected e ++ [e] ∧
      chainAbove head e = upper ++ selectedAbove head selected e ∧
      unselected head selected e = upper := by
  obtain ⟨⟨lower, hchain⟩, hmem⟩ := hadj
  have hnd := nodup_chain head
  rw [hchain, List.nodup_append, List.nodup_append] at hnd
  obtain ⟨⟨-, -, hupper⟩, -, hlower⟩ := hnd
  have hnotUpper : ∀ c ∈ upper, c ∉ selected := fun c hc hsel =>
    hupper c hc c ((hmem c).mp hsel) rfl
  have hnotLower : ∀ c ∈ lower, c ∉ selected := fun c hc hsel =>
    hlower c (List.mem_append_right _ ((hmem c).mp hsel)) c hc rfl
  have hfilterUpper : upper.filter (· ∈ selected) = [] :=
    List.filter_eq_nil_iff.mpr (by simpa using hnotUpper)
  have hfilterLower : lower.filter (· ∈ selected) = [] :=
    List.filter_eq_nil_iff.mpr (by simpa using hnotLower)
  have hfilterRun : run.filter (· ∈ selected) = run :=
    List.filter_eq_self.mpr (by simpa using fun c hc => (hmem c).mpr hc)
  have hrun : run = selectedAbove head selected e ++ [e] := by
    rw [← h.filter_chain, hchain, List.filter_append, List.filter_append, hfilterUpper,
      hfilterLower, hfilterRun]
    simp
  have habove : chainAbove head e = upper ++ selectedAbove head selected e := by
    have hsplit : head.chain = (upper ++ selectedAbove head selected e) ++ e :: lower := by
      rw [hchain, hrun]
      simp
    exact (chainAbove_of_split hsplit).1
  refine ⟨hrun, habove, ?_⟩
  have hnone : (selectedAbove head selected e).filter (· ∉ selected) = [] := by
    rw [List.filter_eq_nil_iff]
    intro c hc
    simpa using (List.mem_filter.mp hc).2
  unfold unselected
  rw [habove, List.filter_append, hnone, List.filter_eq_self.mpr (by simpa using hnotUpper)]
  simp

/-- A combination replaced its ref once.  The new chain is the unselected commits
above the earliest selected one, then one combined commit, then the untouched
ancestors; if the selected commits are adjacent, no content changed and the user
was not asked. -/
def CombineAsAsked {ω : Type} (w w' : World ω) (ref : Ref) (old : Commit)
    (selected : Finset Commit) (e : Commit) : Prop :=
  ∃ call newAbove m, Recorded w w' [call] ∧ call.ref = ref ∧
    call.commit.chain = newAbove ++ m :: chainOf e.parent ∧
    List.Forall₂ Stands newAbove (unselected old selected e) ∧
    m.author = e.author ∧ m.parents = e.parents ∧ m.message = joinedMessages old selected ∧
    ∀ upper run, Adjacent old selected upper run →
      run.head?.map Commit.tree = some m.tree ∧
      List.Forall₂ (fun n c => n.tree = c.tree) newAbove upper ∧ w'.asked = w.asked

section Combine

variable {ω : Type} {env : Env ω}

/-- The earliest selected commit is where the walk stops. -/
theorem isEarliest_of_combineLoop {head : Commit} {selected : Finset Commit}
    (hcard : 2 ≤ selected.card) {plan : CombinePlan}
    (h : combineLoop head.chain selected [] [] = .ok plan) :
    IsEarliest head selected plan.head ∧
      plan.integrate = (selectedAbove head selected plan.head).reverse ∧
      plan.attach = (unselected head selected plan.head).reverse ∧ plan.integrate ≠ [] := by
  have hne : selected ≠ ∅ := by
    rintro rfl
    simp at hcard
  obtain ⟨above, below, hsplit, hsel, hall, hint, hatt⟩ :=
    combineLoop_ok (nodup_chain head) hne h
  obtain ⟨habove, -⟩ := chainAbove_of_split hsplit
  have hmem : plan.head ∈ head.chain := by
    rw [hsplit]
    simp
  rw [List.append_nil] at hint hatt
  unfold selectedAbove unselected
  rw [habove]
  refine ⟨⟨hsel, hmem, habove ▸ hall⟩, hint, hatt, ?_⟩
  intro hnil
  have hnone : ∀ c ∈ above, c ∉ selected := by
    rw [hnil, eq_comm, List.reverse_eq_nil_iff, List.filter_eq_nil_iff] at hint
    simpa using hint
  have hsingle : selected ⊆ {plan.head} := by
    intro c hc
    rcases hall c hc with heq | hc'
    · simp [heq]
    · exact absurd hc (hnone c hc')
  have hle := Finset.card_le_card hsingle
  rw [Finset.card_singleton] at hle
  omega

/-- A combination with a result does what it was asked for exactly when the times
of the earliest selected author, and of the unselected commits that are put on
top, are times that a commit object can hold. -/
theorem exec_combine_iff {op : Op} {w : World ω} (hclean : CleanMerge env.repo)
    (htype : op.type = .combine) (h : HasResult (exec env.ctx op w).1) :
    ∃ src ref e, op.src.rev = some src ∧ src.ref = some ref ∧
      IsEarliest src.commit op.src.commits e ∧
      (CombineAsAsked w (exec env.ctx op w).2 ref src.commit op.src.commits e ↔
        e.author.when.Storable ∧
          ∀ c ∈ unselected src.commit op.src.commits e, c.StorableTimes) := by
  obtain ⟨res, hdispatch⟩ := exec_hasResult h
  unfold dispatch at hdispatch
  simp only [htype] at hdispatch
  obtain ⟨src, ref, plan, m, w₁, head, w₂, rev, hsrc, href, hcard, hplan, hintegrate, hattach,
    hreplace⟩ := combineCommits_ok hdispatch
  obtain ⟨hearliest, hint, hatt, hne⟩ := isEarliest_of_combineLoop hcard hplan
  generalize plan.head = e at *
  rw [hint] at hintegrate hne
  rw [hatt] at hattach
  refine ⟨src, ref, e, hsrc, href, hearliest, ?_⟩
  have hrepo := env.repo_sameAsked
  -- the combined commit
  obtain ⟨hparents, hauthor, hmessage⟩ := foldlM_commitIntegrate_ok hintegrate
  have hauthor : m.author = e.author.stored := hauthor hne
  have hmessages : m.message = joinedMessages src.commit op.src.commits := by
    rw [hmessage]
    unfold joinedMessages
    rw [hearliest.filter_chain]
    simp
  -- the commits on top of it
  obtain ⟨ns, happlied, hhead⟩ := foldlM_commitParentSet_ok hattach
  have hchain : head.chain = ns.reverse ++ m :: chainOf e.parent := by
    have hbelow := happlied.chain
    rw [← hhead, chainOf_some] at hbelow
    have hparent : m.parent = e.parent := by
      unfold Commit.parent
      rw [hparents]
    rw [hbelow, ← hparent, ← Commit.chain_eq]
    rfl
  have hrenews : List.Forall₂ Renews ns.reverse (unselected src.commit op.src.commits e) := by
    rw [← List.forall₂_reverse_iff, List.reverse_reverse]
    exact happlied.renews
  have hstands : List.Forall₂ Stands ns.reverse (unselected src.commit op.src.commits e) ↔
      ∀ c ∈ unselected src.commit op.src.commits e, c.StorableTimes :=
    forall₂_iff_of_forall₂ (fun _ _ hn => hn.stands_iff) hrenews
  -- the record
  obtain ⟨c, ref', hc, hrec, haskedReplace⟩ := revReplace_ok hreplace
  cases hc
  have hquiet := trans_of SameRefs
    ((Program.Keeps.foldlM (fun _ _ => Quiet.commitIntegrate env.quiet _ _ _) _ _).run hintegrate)
    ((Program.Keeps.foldlM (fun _ _ => Quiet.commitParentSet env.quiet _ _ _) _ _).run hattach)
  have hrecorded := (Recorded.of_sameRefs hquiet).trans hrec
  -- adjacent commits have nothing to merge
  have hadjacent : ∀ upper run, Adjacent src.commit op.src.commits upper run →
      run.head?.map Commit.tree = some m.tree ∧
      List.Forall₂ (fun n c => n.tree = c.tree) ns.reverse upper ∧
      (exec env.ctx op w).2.asked = w.asked := by
    intro upper run hadj
    obtain ⟨hrun, habove, hunselected⟩ := hearliest.adjacent hadj
    have hgrows := grows_of_chain (chain_split hearliest.chain).1
    rw [habove, List.reverse_append] at hgrows
    obtain ⟨hgrowsRun, hgrowsUpper⟩ := hgrows.append
    obtain ⟨htree, hasked⟩ := foldlM_commitIntegrate_clean hclean.inWorld hrepo hgrowsRun rfl
      hintegrate
    rw [hunselected] at happlied
    have hsame : (some m).map Commit.tree =
        (some ((selectedAbove src.commit op.src.commits e).reverse.getLast?.getD e)).map
          Commit.tree := congrArg some htree
    obtain ⟨hreplants, hasked'⟩ := happlied.replants hclean.inWorld hrepo hgrowsUpper hsame
    refine ⟨?_, ?_, trans_of SameAsked hasked (trans_of SameAsked hasked' haskedReplace)⟩
    · rw [htree, hrun, List.getLast?_reverse]
      cases selectedAbove src.commit op.src.commits e <;> rfl
    · rw [← List.forall₂_reverse_iff, List.reverse_reverse]
      exact hreplants.imp fun _ _ hn => hn.2.1
  rw [← hstands, ← Signature.stored_eq_self_iff, ← hauthor]
  constructor
  · rintro ⟨call, newAbove, m', hrec', -, hchain', hall', hauthor', -⟩
    have hcall : call = ⟨ref, head, .done ref'⟩ := by
      have hlog := List.append_cancel_left (hrec'.1.symm.trans hrecorded.1)
      exact List.head_eq_of_cons_eq hlog
    rw [hcall, hchain] at hchain'
    have hlen : ns.reverse.length = newAbove.length :=
      hrenews.length_eq.trans hall'.length_eq.symm
    obtain ⟨rfl, hrest⟩ := List.append_inj hchain' hlen
    obtain ⟨rfl, -⟩ := List.cons.inj hrest
    exact ⟨hauthor', hall'⟩
  · rintro ⟨hauthor', hall'⟩
    exact ⟨_, ns.reverse, m, hrecorded, rfl, hchain, hall', hauthor', hparents, hmessages,
      hadjacent⟩

end Combine

/-! ## Combining the commits of a branch -/

namespace CombineTwo

/-- Combine the two commits of the branch. -/
def op : Op :=
  ⟨.combine, ⟨some (HalfMove.rev EditHead.ref), {HalfMove.root, HalfMove.top}⟩, {}⟩

theorem exec_op :
    CleanMerge (plainEnv []).repo ∧ HasResult (exec (plainEnv []).ctx op plainWorld).1 ∧
      ∃ src ref e, op.src.rev = some src ∧ src.ref = some ref ∧
        IsEarliest src.commit op.src.commits e ∧
        (CombineAsAsked plainWorld (exec (plainEnv []).ctx op plainWorld).2 ref src.commit
            op.src.commits e ↔
          e.author.when.Storable ∧
            ∀ c ∈ unselected src.commit op.src.commits e, c.StorableTimes) :=
  ⟨wholeTreeRepo_cleanMerge, by decide,
    exec_combine_iff wholeTreeRepo_cleanMerge rfl (by decide)⟩

/-- A commit of the year 2106: its seconds do not fit 32 bits. -/
def late : Commit :=
  .mk HalfMove.tree [] ⟨⟨ascii "a", ascii "a@a", ⟨2 ^ 32, 0⟩⟩, HalfMove.person, none,
    ascii "late", []⟩

def top : Commit := .mk HalfMove.tree [late] (HalfMove.text "top")

def ref : Ref := ⟨ascii "refs/heads/main", top, none⟩

def opLate : Op := ⟨.combine, ⟨some (HalfMove.rev ref), {late, top}⟩, {}⟩

/-- The combined commit: its author's time has become 0. -/
def combined : Commit :=
  .mk HalfMove.tree [] ⟨⟨ascii "a", ascii "a@a", ⟨0, 0⟩⟩, HalfMove.person, none,
    ascii "late\ntop", []⟩

/-- The combined commit does not have the author of the earliest commit. -/
theorem exec_opLate :
    HasResult (exec (plainEnv []).ctx opLate plainWorld).1 ∧
      IsEarliest top opLate.src.commits late ∧
      ¬CombineAsAsked plainWorld (exec (plainEnv []).ctx opLate plainWorld).2 ref top
        opLate.src.commits late := by
  refine ⟨by decide, ⟨by decide, by decide, by decide⟩, ?_⟩
  have hcalls : (exec (plainEnv []).ctx opLate plainWorld).2.calls =
      [⟨ref, combined, .done { ref with commit := combined }⟩] := by decide
  rintro ⟨call, newAbove, m, hrec, -, hchain, hall, hauthor, -⟩
  have hcall : call = ⟨ref, combined, .done { ref with commit := combined }⟩ := by
    have hlog : [call] = [⟨ref, combined, .done { ref with commit := combined }⟩] := by
      rw [← hcalls, hrec.1]
      rfl
    exact List.head_eq_of_cons_eq hlog
  have hlen : newAbove.length = 0 := by
    rw [hall.length_eq]
    decide
  have hsplit : [combined] = newAbove ++ m :: [] := by
    rw [hcall] at hchain
    exact hchain
  rw [List.eq_nil_of_length_eq_zero hlen, List.nil_append] at hsplit
  rw [← List.head_eq_of_cons_eq hsplit] at hauthor
  revert hauthor
  decide

end CombineTwo

end Git
end Debase
