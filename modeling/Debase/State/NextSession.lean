import Mathlib.Data.Set.Countable
import Mathlib.Tactic.DeriveCountable
import Debase.State.File
import Debase.State.Snapshots

/-!
# What the next session loads

A session writes its file, and a later session reads it, with nobody writing in between.
The later session has the history and the snapshots of every ref whose history the first
one changed, and what was stored for the other refs is as it was.
-/

namespace Debase
namespace State

open Git Library

/-! ## The strings of a document -/

theorem validStrings_toJson_iff (doc : RepoStateDoc) :
    doc.toJson.validStrings = true ↔
      ∀ e ∈ doc, validUtf8 e.1 = true ∧ e.2.toJson.validStrings = true := by
  have hkey : validUtf8 (ascii "refStates") = true := by decide +kernel
  show (validUtf8 (ascii "refStates") && (Json.validMembers _) && true) = true ↔ _
  rw [hkey, Bool.true_and, Bool.and_true, Json.validMembers_iff, List.forall_mem_map]

theorem mem_setEntry {α : Type} {ref : Bytes} {x : α} {es : List (Bytes × α)} {e : Bytes × α}
    (h : e ∈ setEntry ref x es) : e = (ref, x) ∨ e ∈ es := by
  induction es with
  | nil => exact Or.inl (List.mem_singleton.mp h)
  | cons a es ih =>
      rw [setEntry] at h
      split at h
      · rcases List.mem_cons.mp h with h | h
        · exact Or.inl h
        · exact Or.inr (List.mem_cons_of_mem _ h)
      · split at h
        · exact List.mem_cons.mp h
        · rcases List.mem_cons.mp h with rfl | h
          · exact Or.inr List.mem_cons_self
          · exact (ih h).imp_right (List.mem_cons_of_mem _)

theorem mem_merged {loaded : List (Bytes × LoadedRef Bytes)} {doc : RepoStateDoc}
    {e : Bytes × StoredRefState Bytes} (h : e ∈ merged loaded doc) :
    e ∈ doc ∨ ∃ x ∈ loaded, e = (x.1, x.2.refState) := by
  induction loaded generalizing doc with
  | nil => exact Or.inl h
  | cons x loaded ih =>
      have hrest : e ∈ (if x.2.writes then setEntry x.1 x.2.refState doc else doc) ∨
          ∃ y ∈ loaded, e = (y.1, y.2.refState) := ih h
      rcases hrest with hdoc | ⟨y, hy, rfl⟩
      · split at hdoc
        · exact (mem_setEntry hdoc).symm.imp_right fun heq => ⟨x, List.mem_cons_self, heq⟩
        · exact Or.inl hdoc
      · exact Or.inr ⟨y, List.mem_cons_of_mem _ hy, rfl⟩

/-- The document that is written has valid strings if what was read has, and what the
session holds. -/
theorem validStrings_merged {loaded : List (Bytes × LoadedRef Bytes)} {doc : RepoStateDoc}
    (hdoc : doc.toJson.validStrings = true)
    (hloaded : ∀ e ∈ loaded, validUtf8 e.1 = true ∧ e.2.refState.toJson.validStrings = true) :
    (merged loaded doc).toJson.validStrings = true := by
  rw [validStrings_toJson_iff] at hdoc ⊢
  intro e he
  rcases mem_merged he with hmem | ⟨x, hx, rfl⟩
  · exact hdoc e hmem
  · exact hloaded x hx

/-! ## Writing and reading again -/

section ReadBack

variable {parse : Bytes → Option Json}

/-- The parser reads the text of the document back, if its strings are valid. -/
def ReadsBack (parse : Bytes → Option Json) (doc : RepoStateDoc) : Prop :=
  doc.toJson.validStrings = true → parse doc.out.text = some doc.toJson

/-- A write of valid strings to a file that takes them is read back. -/
theorem writeFile_read {file : File} {doc : RepoStateDoc}
    (hfile : repoStateRead parse file = some doc) {loaded : List (Bytes × LoadedRef Bytes)}
    (hread : ReadsBack parse (merged loaded doc))
    (hvalid : (merged loaded doc).toJson.validStrings = true) :
    ∃ file', writeFile parse (.opened none) loaded file = (.ok (), file') ∧
      repoStateRead parse file' = some (merged loaded doc) := by
  have hok : (merged loaded doc).out.ok = true := by
    rw [RepoStateDoc.out, Json.ok_dump, hvalid]
  refine ⟨some (merged loaded doc).out.text, ?_, ?_⟩
  · unfold writeFile
    rw [Program.bind_run_ok (Program.read_run file)]
    simp only [hfile, repoStateWrite, taken, hok, ne_eq, not_true, if_false, if_true]
  · unfold repoStateRead
    simp only [hread hvalid, Option.bind_some]
    exact RepoStateDoc.fromJson_toJson _

end ReadBack

/-! ## The refs a session left alone -/

namespace Observed

section Untouched

variable {κ : Type} [DecidableEq κ] {ids : CommitIds κ}

/-- The session holds nothing under the name, or what it loaded under it. -/
def Untouched (s : Observed κ) (k : Bytes) : Prop :=
  ∀ lref, s.session.loaded k = some lref →
    (∃ ref, s.origin k = some ref ∧ ref.fullName = k) ∧ ¬s.session.Changed k

/-- An entry that was loaded at the beginning is new exactly if nothing was stored. -/
def EntryOwned (file : RefStates κ) : Option (LoadedRef κ) → Option Ref → Prop
  | none, origin => origin = none
  | some lref, origin =>
      ∀ ref, origin = some ref → lref.created = (file ref.fullName).isNone

theorem entryInvariant_owned (file : RefStates κ) : EntryInvariant ids (EntryOwned file) where
  unloaded _ := Iff.rfl
  late _ _ := nofun
  change _ _ _ h := h
  push lref origin h := by
    unfold LoadedRef.snapshotInitialPush
    split <;> exact h

/-- The session of every run is honest. -/
theorem honest_run {lookup : κ → Option Commit} {now : Int} {file : RefStates κ} {refs : List Ref}
    {acts : List (Act κ)} {s : Observed κ}
    (hrun : run (act ids) (start ids lookup now file refs) acts = some s) : s.session.Honest := by
  have hmeets : StepsMeet (act ids) (fun _ _ => True) (start ids lookup now file refs) acts :=
    Run.stepsMeet_of_forall (fun _ _ _ => trivial) _
  have hstep : ∀ (s : Observed κ) a s', s.session.Honest → True → s.act ids a = some s' →
      s'.session.Honest := by
    intro s a s' h _ hact
    obtain ⟨session, hsession, rfl⟩ := Option.map_eq_some_iff.mp hact
    exact h.act hsession
  exact Run.invariant hstep hrun hmeets (Session.honest_start ids lookup now file refs)

/-- What the file has after the write of a session that nobody disturbed. -/
theorem write_run {lookup : κ → Option Commit} {now : Int} {file : RefStates κ} {refs : List Ref}
    {acts : List (Act κ)} {s : Observed κ}
    (hrun : run (act ids) (start ids lookup now file refs) acts = some s) (k : Bytes) :
    (∀ lref, s.session.loaded k = some lref → s.session.Changed k →
        write s.session.loaded file k = some lref.refState) ∧
      ∀ e, s.Untouched k → file k = some e → write s.session.loaded file k = some e := by
  have hhonest := honest_run hrun
  constructor
  · intro lref hlref hchanged
    rw [write_of_some hlref, if_pos ((hhonest.writes_iff hlref).mpr (Or.inl hchanged))]
  · intro e huntouched he
    cases hlref : s.session.loaded k with
    | none => rw [write_of_none hlref, he]
    | some lref =>
        obtain ⟨⟨ref, horigin, rfl⟩, hchanged⟩ := huntouched lref hlref
        have howned := (entryInvariant_owned file).run
          (fun ref _ => by rintro _ ⟨⟩; exact created_loadedRef ref _) hrun ref.fullName
        rw [hlref, horigin] at howned
        have hcreated := howned ref rfl
        rw [he] at hcreated
        rw [write_of_some hlref, if_neg, he]
        rw [hhonest.writes_iff hlref, hcreated]
        rintro (h | h)
        · exact hchanged h
        · cases h

end Untouched

end Observed

/-! ## The later session -/

section Later

variable {parse : Bytes → Option Json} {ids : CommitIds Bytes}

/-- What a session finds in its repository: commits by their ids, and the heads of its
refs among them. -/
structure Finds (ids : CommitIds Bytes) (lookup : Bytes → Option Commit) (refs : List Ref) :
    Prop where
  sound (id : Bytes) (c : Commit) : lookup id = some c → ids.commit id = some c
  heads (ref : Ref) (id : Bytes) :
    ref ∈ refs → ids.commit id = some ref.commit → lookup id = some ref.commit

/-- The entry that a session makes of a stored one. -/
theorem loadedRef_stored {lookup : Bytes → Option Commit} {refs : List Ref}
    (hfinds : Finds ids lookup refs) {ref : Ref} (href : ref ∈ refs) (now : Int)
    (e : StoredRefState Bytes) :
    (loadedRef ids lookup now ref (some e)).history =
        (if ids.commit e.history.current.refState.head = some ref.commit then e.history
          else .single (.ofRef ids ref)) ∧
      (loadedRef ids lookup now ref (some e)).refState.snapshots = e.snapshots := by
  refine ⟨?_, rfl⟩
  unfold loadedRef LoadedRef.history
  simp only [Option.getD_some]
  have hiff : (if e.history.current.refState.head = ids.empty then none
      else lookup e.history.current.refState.head) = some ref.commit ↔
      ids.commit e.history.current.refState.head = some ref.commit := by
    split
    · next hempty => simp [hempty]
    · exact ⟨hfinds.sound _ _, hfinds.heads ref _ href⟩
  simp only [hiff]

/-- After any session with valid names that nobody disturbed: a later session that loads a
ref whose history was changed has the history and the snapshots that were stored, or a
fresh history if the ref's head is not the stored one; and the stored entries of all refs
that the first session left alone are as they were. -/
theorem nextSession_loads {file : File} {doc : RepoStateDoc}
    (hfile : repoStateRead parse file = some doc) (hdoc : doc.toJson.validStrings = true)
    {lookup : Bytes → Option Commit} {now : Int} {refs : List Ref} {acts : List (Act Bytes)}
    {s : Observed Bytes}
    (hrun : run (Observed.act ids) (.start ids lookup now (fun k => List.lookup k doc) refs)
      acts = some s)
    {loaded : List (Bytes × LoadedRef Bytes)} (hnodup : (loaded.map Prod.fst).Nodup)
    (hloaded : ∀ k, List.lookup k loaded = s.session.loaded k)
    (hnames : ∀ e ∈ loaded, validUtf8 e.1 = true ∧ e.2.refState.toJson.validStrings = true)
    (hread : ReadsBack parse (merged loaded doc)) :
    ∃ file' doc', writeFile parse (.opened none) loaded file = (.ok (), file') ∧
      repoStateRead parse file' = some doc' ∧
      (∀ k lref, s.session.loaded k = some lref → s.session.Changed k →
        ∀ lookup' now' refs' ref, Finds ids lookup' refs' →
          refs'.find? (fun ref => ref.fullName = k) = some ref →
          ∃ lref', (Session.start ids lookup' now' (fun k => List.lookup k doc') refs').loaded k =
              some lref' ∧
            lref'.history =
              (if ids.commit lref.history.current.refState.head = some ref.commit then lref.history
                else .single (.ofRef ids ref)) ∧
            lref'.refState.snapshots = lref.refState.snapshots) ∧
      (∀ k e, s.Untouched k → List.lookup k doc = some e → List.lookup k doc' = some e) ∧
      ∀ k, s.session.loaded k = none → List.lookup k doc' = List.lookup k doc := by
  obtain ⟨file', hwrite, hback⟩ :=
    writeFile_read hfile hread (validStrings_merged hdoc hnames)
  have hmerged : ∀ k, List.lookup k (merged loaded doc) =
      write s.session.loaded (fun k => List.lookup k doc) k := by
    intro k
    rw [lookup_merged hnodup, funext hloaded]
  refine ⟨file', merged loaded doc, hwrite, hback, ?_, ?_, ?_⟩
  · intro k lref hlref hchanged lookup' now' refs' ref hfinds hfind
    -- the next session loads the entry that this one stored
    have hstored := (Observed.write_run hrun k).1 lref hlref hchanged
    have hname : ref.fullName = k := by simpa using List.find?_some hfind
    refine ⟨loadedRef ids lookup' now' ref (some lref.refState), ?_, ?_⟩
    · unfold Session.start
      dsimp only
      rw [loadRefs_apply, hfind, Option.map_some, hmerged, hstored]
    · exact loadedRef_stored hfinds (List.mem_of_find?_eq_some hfind) now' lref.refState
  · intro k e huntouched he
    rw [hmerged]
    exact (Observed.write_run hrun k).2 e huntouched he
  · intro k hnone
    rw [hmerged, write_of_none hnone]

end Later

end State

/-! ## Ids that are texts -/

section Countable

open Git

instance countable_uInt8 : Countable UInt8 := ⟨UInt8.toNat, fun _ _ h => UInt8.toNat_inj.mp h⟩

instance countable_oid : Countable Oid := ⟨BitVec.toNat, fun _ _ h => BitVec.eq_of_toNat_eq h⟩

deriving instance Countable for Git.Tree, Time, Signature, CommitText

theorem countable_commits (n : Nat) : {c : Commit | sizeOf c < n}.Countable := by
  induction n with
  | zero => simp
  | succ n ih =>
      have := ih.to_subtype
      refine (Set.countable_range fun x : Tree × List {c : Commit | sizeOf c < n} × CommitText =>
        Commit.mk x.1 (x.2.1.map Subtype.val) x.2.2).mono ?_
      rintro ⟨tree, parents, text⟩ hsize
      have hparents : ∀ p ∈ parents, sizeOf p < n := by
        intro p hp
        have hlt := List.sizeOf_lt_of_mem hp
        have hsize : sizeOf (Commit.mk tree parents text) < n + 1 := hsize
        rw [Commit.mk.sizeOf_spec] at hsize
        omega
      exact ⟨(tree, parents.pmap Subtype.mk hparents, text), by simp [List.map_pmap]⟩

instance countable_commit : Countable Commit := by
  refine Set.countable_univ_iff.mp ((Set.countable_iUnion countable_commits).mono fun c _ => ?_)
  exact Set.mem_iUnion.mpr ⟨sizeOf c + 1, Nat.lt_succ_self _⟩

end Countable

namespace NextDay

open Git State Library

/-- A text of its own for every commit. -/
noncomputable def idStr (c : Commit) : Bytes :=
  List.replicate ((exists_injective_nat Commit).choose c + 1) 97

theorem idStr_injective : Function.Injective idStr := by
  intro a b h
  have hlength := congrArg List.length h
  unfold idStr at hlength
  rw [List.length_replicate, List.length_replicate, Nat.add_right_cancel_iff] at hlength
  exact (exists_injective_nat Commit).choose_spec hlength

open Classical in
noncomputable def ids : CommitIds Bytes where
  idStr := idStr
  commit id := if h : ∃ c, idStr c = id then some h.choose else none
  empty := []
  less a b := a < b
  commit_idStr c := by
    have h : ∃ d, idStr d = idStr c := ⟨c, rfl⟩
    rw [dif_pos h, idStr_injective h.choose_spec]
  commit_empty := dif_neg (by rintro ⟨c, hc⟩; simp [idStr] at hc)

/-- The history of main at the end of the session. -/
def history : History (HistoryRefState Bytes) where
  current := ⟨⟨ascii "main", ascii "0c"⟩, {ascii "0c"}, ∅⟩
  prevs := [⟨⟨ascii "main", ascii "0b"⟩, ∅, {ascii "0c"}⟩]
  nexts := []

noncomputable def entry : LoadedRef Bytes :=
  (loadedRef ids (fun _ => none) 0 TwoSessions.ref none).setHistory history

/-- What the session has loaded. -/
noncomputable def loaded : List (Bytes × LoadedRef Bytes) := [(TwoSessions.ref.fullName, entry)]

/-- A reader that knows what this session writes. -/
noncomputable def parse (text : Bytes) : Option Json :=
  if text = (merged loaded []).out.text then some (merged loaded []).toJson else none

/-- The session that changes main. -/
noncomputable def session : Observed Bytes :=
  ((Observed.start ids (fun _ => none) 0 (fun _ => none) [TwoSessions.ref]).act ids
    (.change TwoSessions.ref.fullName history)).getD ⟨⟨fun _ => none, fun _ => none⟩, fun _ => none⟩

theorem lookup_loaded (k : Bytes) : List.lookup k loaded = session.session.loaded k := by
  have hsession : session.session.loaded = Function.update
      (loadRefs ids (fun _ => none) 0 (fun _ => none) [TwoSessions.ref]) TwoSessions.ref.fullName
      (some entry) := rfl
  rw [hsession]
  unfold loaded
  by_cases hk : k = TwoSessions.ref.fullName
  · subst hk
    rw [Function.update_self, List.lookup_cons_self]
  · have hname : ¬TwoSessions.ref.fullName = k := fun h => hk h.symm
    rw [Function.update_of_ne hk, loadRefs_apply, List.lookup_cons, beq_false_of_ne hk]
    simp [hname]

/-- The next session has the history of main. -/
theorem loads_main :
    ∃ file' doc', writeFile parse (.opened none) loaded none = (.ok (), file') ∧
      repoStateRead parse file' = some doc' ∧
      ∀ lookup' now' ref, Finds ids lookup' [ref] → ref.fullName = TwoSessions.ref.fullName →
        ids.commit (ascii "0c") = some ref.commit →
        ∃ lref', (Session.start ids lookup' now' (fun k => List.lookup k doc') [ref]).loaded
          TwoSessions.ref.fullName = some lref' ∧ lref'.history = history := by
  have hrun : run (Observed.act ids) (.start ids (fun _ => none) 0
      (fun k => List.lookup k ([] : RepoStateDoc)) [TwoSessions.ref])
      [.change TwoSessions.ref.fullName history] = some session := rfl
  have hentry : session.session.loaded TwoSessions.ref.fullName = some entry := by
    rw [← lookup_loaded]
    exact List.lookup_cons_self
  have hchanged : session.session.Changed TwoSessions.ref.fullName := by
    refine ⟨entry, hentry, fun h => ?_⟩
    have hprevs := congrArg (Option.map fun h => h.prevs.length) h
    cases hprevs
  have hfile : repoStateRead parse none = some [] := rfl
  have hvalid : (RepoStateDoc.toJson []).validStrings = true := by decide +kernel
  have hnames : ∀ e ∈ loaded, validUtf8 e.1 = true ∧ e.2.refState.toJson.validStrings = true := by
    intro e he
    rw [List.mem_singleton.mp he]
    exact ⟨by decide +kernel, by decide +kernel⟩
  have hnodup : (loaded.map Prod.fst).Nodup := List.nodup_singleton _
  have hback : ReadsBack parse (merged loaded []) := fun _ => if_pos rfl
  obtain ⟨file', doc', hwrite, hread, hloads, -, -⟩ :=
    nextSession_loads hfile hvalid hrun hnodup lookup_loaded hnames hback
  refine ⟨file', doc', hwrite, hread, fun lookup' now' ref hfinds hname hhead => ?_⟩
  obtain ⟨lref', hlref', hhistory, -⟩ := hloads _ entry hentry hchanged lookup' now' [ref] ref hfinds
    (by simp [hname])
  exact ⟨lref', hlref', hhistory.trans (if_pos hhead)⟩

end NextDay

end Debase
