import Debase.Git.Atomic
import Debase.Git.MessageRoundTrip

/-!
# Edits that change nothing

`_EditCommit` takes an edit for unchanged when the text that the editor leaves
reads as the commit it was printed from.  An untouched text does so unless the
commit has an author or a message that no text can hold: the name and the email
are read up to brackets and must not be empty, and blank lines before the message
are skipped.
-/

namespace Debase
namespace Git

open Library Toastbox

/-- The name and the email that `git_signature__parse` reads from a line: the email
stands between the last `<` and the last `>`. -/
def signatureParse (line : Bytes) : Option (Bytes × Bytes) :=
  match line.reverse.idxOf? 60, line.reverse.idxOf? 62 with
  | some fromStart, some fromEnd =>
      let emailStart := line.length - 1 - fromStart
      let emailEnd := line.length - 1 - fromEnd
      if emailEnd ≤ emailStart then none
      else
        some (cString (extractTrimmed (line.take emailStart)),
          cString (extractTrimmed ((line.drop (emailStart + 1)).take (emailEnd - emailStart - 1))))
  | _, _ => none

theorem mem_of_mem_extractTrimmed {s : Bytes} {b : UInt8} (h : b ∈ cString (extractTrimmed s)) :
    b ∈ s := by
  have hrest : b ∈ extractTrimmed s := (List.takeWhile_sublist _).subset h
  exact (List.dropWhile_sublist _).subset ((List.rdropWhile_prefix _ _).subset hrest)

/-- What is read from a line is on that line. -/
theorem newline_notMem_signatureParse {line name email : Bytes} (hline : newline ∉ line)
    (h : signatureParse line = some (name, email)) : newline ∉ name ∧ newline ∉ email := by
  unfold signatureParse at h
  split at h
  · dsimp only at h
    split at h
    · cases h
    · obtain ⟨rfl, rfl⟩ := Prod.mk.inj (Option.some.inj h)
      constructor
      · intro hmem
        exact hline (List.mem_of_mem_take (mem_of_mem_extractTrimmed hmem))
      · intro hmem
        exact hline (List.mem_of_mem_drop (List.mem_of_mem_take (mem_of_mem_extractTrimmed hmem)))
  · cases h

namespace Modify

/-- A commit whose author was read from a line of a commit object. -/
def Loaded (e : Commit) : Prop :=
  ∃ line, newline ∉ line ∧ signatureParse line = some (e.author.name, e.author.email)

/-- The author as the text of a commit shows it. -/
def shownAuthor (e : Commit) : CommitAuthor := ⟨e.author.name, e.author.email⟩

section Trim

variable {strings : Strings} {trim : Bytes → Bytes}

/-- Authors that are read are readable. -/
theorem commitAuthorParse_readable (htrim : TrimsSpace trim) {str : Bytes} {author : CommitAuthor}
    (h : commitAuthorParse trim str = some author) : author.Readable := by
  unfold commitAuthorParse at h
  rcases hstart : str.idxOf? 60 with _ | emailStart
  · simp [hstart] at h
  rcases hend : str.reverse.idxOf? 62 with _ | fromEnd
  · simp [hstart, hend] at h
  simp only [hstart, hend] at h
  split at h
  · cases h
  split at h
  · cases h
  next hname =>
    split at h
    · cases h
    · next hemail =>
        obtain rfl := Option.some.inj h
        have hbracket : (60 : UInt8) ∉ str.take emailStart := by
          obtain ⟨hlt, -, hbefore⟩ := List.idxOf?_eq_some_iff.mp hstart
          intro hmem
          obtain ⟨i, hi, hget⟩ := List.getElem_of_mem hmem
          rw [List.getElem_take] at hget
          exact hbefore i (by rw [List.length_take] at hi; omega) hget
        obtain ⟨htidy, before, after, hsplit, -, -⟩ := htrim.spec (str.take emailStart)
        refine ⟨⟨by simpa using hname, htidy, ?_⟩, by simpa using hemail, (htrim.spec _).1⟩
        intro hmem
        apply hbracket
        rw [hsplit]
        exact List.mem_append_left _ (List.mem_append_right _ hmem)

/-- Messages that are read do not begin with a blank line. -/
theorem startsText_commitMessageFromString (htrim : TrimsSpace trim) (text : Bytes) :
    StartsText (commitMessageFromString strings trim text).message := by
  unfold commitMessageFromString
  dsimp only
  rw [strings.split_eq]
  generalize hheader : headerLine strings trim timePrefix _ = header
  have hsub : header.2 ⊆ splitLines text := by
    rw [← hheader]
    exact List.Subset.trans (headerLine_subset _ _) (headerLine_subset _ _)
  rcases hlines : header.2.dropWhile (fun l => (trim l).isEmpty) with _ | ⟨l, ls⟩
  · exact Or.inl rfl
  · have hrest : ∀ d ∈ l :: ls, newline ∉ d := by
      intro d hd
      rw [← hlines] at hd
      exact newline_notMem_splitLines (hsub ((List.dropWhile_sublist _).subset hd))
    have hl : trim l ≠ [] := by
      intro hnil
      have hblank := List.head?_dropWhile_not (fun l => (trim l).isEmpty) header.2
      simp [hlines, hnil] at hblank
    have hne : l ≠ [] := by
      rintro rfl
      exact hl (htrim.blank (by simp))
    rw [List.foldl_cons]
    simp only [List.isEmpty_nil, if_true, List.nil_append]
    rw [foldl_lines ls hne]
    have hfirst : firstLine (joinLines (l :: ls)) = l := by
      unfold firstLine
      rw [splitLines_joinLines (by simp) hrest]
      rfl
    exact htrim.unindented.mp (Or.inr (by rw [hfirst]; exact hl))

/-- A commit that the text of a commit can hold. -/
structure KeepsText (e : Commit) : Prop where
  name : e.author.name ≠ [] ∧ Tidy e.author.name ∧ (60 : UInt8) ∉ e.author.name
  email : e.author.email ≠ [] ∧ Tidy e.author.email
  message : StartsText e.message

instance (message : Bytes) : Decidable (StartsText message) :=
  inferInstanceAs (Decidable (_ ∨ _))

/-- The text of a commit reads as the commit exactly when it can hold it. -/
theorem commitMessageFromString_shown (htrim : TrimsSpace trim) {e : Commit} (hloaded : Loaded e)
    (hcodec : (stringFromTime e.author.when >>= timeFromString) = .ok e.author.when) {shown : Bytes}
    (hshown : stringFromCommitMessage (commitMessageForCommit e) = .ok shown) :
    commitMessageForCommit e = commitMessageFromString strings trim shown ↔ KeepsText e := by
  constructor
  · intro hsame
    have hmessage : StartsText (commitMessageFromString strings trim shown).message :=
      startsText_commitMessageFromString htrim shown
    rw [← hsame] at hmessage
    have hread : (commitMessageFromString strings trim shown).author = some (shownAuthor e) := by
      rw [← hsame]
      rfl
    unfold commitMessageFromString at hread
    dsimp only at hread
    obtain ⟨str, -, hparse⟩ := Option.bind_eq_some_iff.mp hread
    obtain ⟨hname, hemail⟩ := commitAuthorParse_readable htrim hparse
    exact ⟨hname, hemail, hmessage⟩
  · rintro ⟨hname, hemail, hmessage⟩
    obtain ⟨line, hline, hparse⟩ := hloaded
    have honLine : (shownAuthor e).OnLine :=
      ⟨⟨hname, hemail⟩, newline_notMem_signatureParse hline hparse⟩
    rw [commitMessageFromString_printed htrim honLine hmessage hshown, hcodec]
    rfl

end Trim

/-- The editor leaves a commit's text as it was, and that is all that happens. -/
def EditIsNop (trim : Bytes → Bytes) (e : Commit) : Prop :=
  ∀ {ω : Type} (env : Env ω) (op : Op) (w : World ω) (src : Rev) (ref : Ref) (shown : Bytes)
    (o : ω), env.trim = trim → op.type = .edit → op.src.rev = some src → src.ref = some ref →
    op.src.commits = {e} → op.dst.rev = none →
    stringFromCommitMessage (commitMessageForCommit e) = .ok shown →
    env.spawn shown w.outside = (.ok shown, o) →
    exec env.ctx op w = (.ok none, { w with outside := o })

section Edit

variable {ω : Type} {env : Env ω} {op : Op} {w : World ω} {src : Rev} {ref : Ref} {e : Commit}
  {shown : Bytes} {o : ω}

/-- An edit up to the comparison of the texts. -/
theorem dispatch_edit (htype : op.type = .edit) (hsrc : op.src.rev = some src)
    (href : src.ref = some ref) (hcommits : op.src.commits = {e}) (hdst : op.dst.rev = none)
    (hshown : stringFromCommitMessage (commitMessageForCommit e) = .ok shown)
    (hspawn : env.spawn shown w.outside = (.ok shown, o)) :
    dispatch env.ctx op w =
      (if commitMessageForCommit e = commitMessageFromString env.strings env.trim shown then
          pure none
        else
          editRewrite env.ctx op src ref e (commitMessageFromString env.strings env.trim shown))
        { w with outside := o } := by
  have honly : theOnly op.src.commits = some e := theOnly_eq_some.mpr hcommits
  have hrun : env.ctx.spawn shown w = (.ok shown, { w with outside := o }) := by
    show World.outsideRun (env.spawn shown) w = _
    unfold World.outsideRun Program.zoom
    rw [hspawn]
  unfold dispatch editCommit
  simp only [htype, hsrc, honly, hdst, href, hshown, Program.lift_ok, pure_bind]
  rw [Program.bind_run_ok hrun]
  rfl

end Edit

/-- An environment where no commit can be written, and the editor leaves the given
text. -/
def readOnlyEnv (trim : Bytes → Bytes) (edited : Bytes) : Env Unit :=
  { plainEnv edited with
    trim := trim
    repo := { wholeTreeRepo with commitStore := fun _ => .fail (.gitError .other) } }

/-- Rewriting a commit fails where no commit can be written. -/
theorem editRewrite_readOnly (trim : Bytes → Bytes) (edited : Bytes) (op : Op) (src : Rev)
    (ref : Ref) (e : Commit) (newMsg : CommitMessage) (w : World Unit) :
    ∃ w', editRewrite (readOnlyEnv trim edited).ctx op src ref e newMsg w =
      (.error (.gitError .other), w') := by
  unfold editRewrite
  rcases hauthor : editedAuthor e.author newMsg with x | author
  · have hx : x = .gitError .other := by
      unfold editedAuthor signatureCreate at hauthor
      dsimp only at hauthor
      split at hauthor
      · exact (Except.error.inj hauthor).symm
      · split at hauthor
        · exact (Except.error.inj hauthor).symm
        · cases hauthor
    exact ⟨w, by rw [hx]; rfl⟩
  · exact ⟨w, rfl⟩

/-- An edit whose text is left as it was changes nothing, in every repository,
exactly when the text can hold the commit. -/
theorem editIsNop_iff {trim : Bytes → Bytes} (htrim : TrimsSpace trim) {e : Commit}
    (hloaded : Loaded e)
    (hcodec : (stringFromTime e.author.when >>= timeFromString) = .ok e.author.when) :
    EditIsNop trim e ↔ KeepsText e := by
  constructor
  · intro hnop
    obtain ⟨shown, hshown⟩ : ∃ shown,
        stringFromCommitMessage (commitMessageForCommit e) = .ok shown := by
      rcases hdate : stringFromTime e.author.when with x | date
      · rw [hdate] at hcodec
        cases hcodec
      · unfold stringFromCommitMessage commitMessageForCommit
        simp only [hdate, bind, Except.bind]
        exact ⟨_, rfl⟩
    by_contra hno
    have hchanged : commitMessageForCommit e ≠ commitMessageFromString .plain trim shown :=
      mt (commitMessageFromString_shown htrim hloaded hcodec hshown).mp hno
    -- where no commit can be written, the edit is not over after the editor
    let ref : Ref := ⟨ascii "refs/heads/main", e, none⟩
    let op : Op := ⟨.edit, ⟨some (HalfMove.rev ref), {e}⟩, {}⟩
    have hend := hnop (readOnlyEnv trim shown) op plainWorld (HalfMove.rev ref) ref shown () rfl rfl
      rfl rfl rfl rfl hshown rfl
    have hdispatch := @dispatch_edit Unit (readOnlyEnv trim shown) op plainWorld
      (HalfMove.rev ref) ref e shown () rfl rfl rfl rfl rfl hshown rfl
    have htrimmed : (readOnlyEnv trim shown).trim = trim := rfl
    have hstrings : (readOnlyEnv trim shown).strings = .plain := rfl
    rw [htrimmed, hstrings, if_neg hchanged] at hdispatch
    obtain ⟨w', hfail⟩ := editRewrite_readOnly trim shown op (HalfMove.rev ref) ref e
      (commitMessageFromString .plain trim shown) { plainWorld with outside := () }
    rw [hfail] at hdispatch
    unfold exec Program.handle at hend
    rw [hdispatch] at hend
    simp at hend
  · intro hkeeps ω env op w src ref shown o henv htype hsrc href hcommits hdst hshown hspawn
    have hsame : commitMessageForCommit e = commitMessageFromString env.strings trim shown :=
      (commitMessageFromString_shown htrim hloaded hcodec hshown).mpr hkeeps
    have hdispatch := dispatch_edit htype hsrc href hcommits hdst hshown hspawn
    rw [henv, if_pos hsame] at hdispatch
    unfold exec Program.handle
    rw [hdispatch]
    rfl

/-! ## A commit without a name -/

namespace Nameless

/-- A commit of an author with an email only. -/
def commit : Commit :=
  .mk HalfMove.tree [] ⟨⟨[], ascii "a@a", ⟨0, 0⟩⟩, HalfMove.person, none, ascii "root", []⟩

def ref : Ref := ⟨ascii "refs/heads/main", commit, none⟩

def op : Op := ⟨.edit, ⟨some (HalfMove.rev ref), {commit}⟩, {}⟩

/-- The text of the commit. -/
def shown : Bytes := ascii "Author:  <a@a>\nDate:   Thu Jan 1 00:00:00 1970 +0000\n\nroot"

/-- The untouched text of a commit without a name is an error. -/
theorem exec_untouched :
    signatureParse (ascii "<a@a> 0 +0000") = some (commit.author.name, commit.author.email) ∧
      (stringFromTime commit.author.when >>= timeFromString).toOption = some commit.author.when ∧
      (stringFromCommitMessage (commitMessageForCommit commit)).toOption = some shown ∧
      (exec (plainEnv shown).ctx op plainWorld).1 = .error (.gitError .other) := by
  decide

end Nameless

/-- A commit that the text can hold. -/
theorem root_editIsNop :
    TrimsSpace (plainEnv []).trim ∧ Loaded HalfMove.root ∧
      (EditIsNop (plainEnv []).trim HalfMove.root ↔ KeepsText HalfMove.root) :=
  have hloaded : Loaded HalfMove.root := ⟨ascii "a <a@a> 0 +0000", by decide, by decide⟩
  ⟨plainEnv_trimsSpace [], hloaded,
    editIsNop_iff (plainEnv_trimsSpace []) hloaded (by rfl)⟩

end Modify
end Git
end Debase
