import Debase.Git.Replant

/-!
# Editing a commit

`_EditCommit` gives a commit a new author and message by putting the amended
commit on top of the old one and removing the old one.  Everything above is
written anew on top of it: what a commit object can hold is kept, and the merges
have nothing to merge.
-/

namespace Debase
namespace Git

open Library Modify Toastbox

namespace Modify

/-- The commit that `commitAmend` writes for an edit. -/
def amended (e : Commit) (author : Signature) (msg : Bytes) : Commit :=
  Commit.create e.tree e.parents author author e.encoding
    (if msg.isEmpty then e.message else msg)

/-- What an edit with a result did: the editor was shown the text of the commit
and left another one. -/
theorem editCommit_ok {σ : Type} {ctx : Ctx σ} {op : Op} {s s' : σ} {res : OpResult}
    (h : editCommit ctx op s = (.ok (some res), s')) :
    ∃ src srcRef e origText text s₁ author s₂ r s₃ rev,
      op.src.rev = some src ∧ src.ref = some srcRef ∧ op.src.commits = {e} ∧
      stringFromCommitMessage (commitMessageForCommit e) = .ok origText ∧
      ctx.spawn origText s = (.ok text, s₁) ∧
      editedAuthor e.author (commitMessageFromString ctx.strings ctx.trim text) = .ok author ∧
      ctx.repo.commitAmendAuthor e author
          (commitMessageFromString ctx.strings ctx.trim text).message s₁ =
        (.ok (amended e author (commitMessageFromString ctx.strings ctx.trim text).message),
          s₂) ∧
      addRemoveCommits ctx (fileFavor src none) src.commit
        {amended e author (commitMessageFromString ctx.strings ctx.trim text).message}
        (some (amended e author (commitMessageFromString ctx.strings ctx.trim text).message))
        (some e) {e} s₂ = (.ok r, s₃) ∧
      revReplace ctx src srcRef r.commit s₃ = (.ok rev, s') := by
  unfold editCommit at h
  rcases hsrc : op.src.rev with _ | src
  · simp [hsrc] at h
  rcases he : theOnly op.src.commits with _ | e
  · simp [hsrc, he] at h
  rcases hdst : op.dst.rev with _ | dst
  · rcases hsrcRef : src.ref with _ | srcRef
    · simp [hsrc, he, hdst, hsrcRef] at h
    simp only [hsrc, he, hdst, hsrcRef] at h
    obtain ⟨origText, s₁, hliftText, hedit⟩ := Program.bind_eq_ok.mp h
    obtain ⟨horig, rfl⟩ := Program.lift_eq_ok.mp hliftText
    obtain ⟨text, s₂, hspawn, hrest⟩ := Program.bind_eq_ok.mp hedit
    by_cases hsame : commitMessageForCommit e = commitMessageFromString ctx.strings ctx.trim text
    · simp [hsame] at hrest
    simp only [hsame, if_false] at hrest
    obtain ⟨author, s₃, hliftAuthor, hrewrite⟩ := Program.bind_eq_ok.mp hrest
    obtain ⟨hauthor, rfl⟩ := Program.lift_eq_ok.mp hliftAuthor
    obtain ⟨newCommit, s₄, hamend, hnext⟩ := Program.bind_eq_ok.mp hrewrite
    obtain ⟨r, s₅, hbuild, hlast⟩ := Program.bind_eq_ok.mp hnext
    obtain ⟨rev, s₆, hreplace, hpure⟩ := Program.bind_eq_ok.mp hlast
    cases hpure
    have hnew : newCommit =
        amended e author (commitMessageFromString ctx.strings ctx.trim text).message := by
      rw [ctx.repo.commitCreate_ok hamend]
      unfold amended
      by_cases hmsg : (commitMessageFromString ctx.strings ctx.trim text).message.isEmpty
      · simp [hmsg]
      · simp [hmsg]
    subst hnew
    exact ⟨src, srcRef, e, origText, text, s₃, author, s₄, r, s₅, rev, rfl, hsrcRef,
      theOnly_eq_some.mp he, horig, hspawn, hauthor, hamend, hbuild, hreplace⟩
  · simp [hsrc, he, hdst] at h

end Modify

/-- `n` is `c` with everything kept but the first parent. -/
def KeptAbove (n c : Commit) : Prop :=
  n.tree = c.tree ∧ Stands n c ∧ n.parents.drop 1 = c.parents.drop 1

theorem keptAbove_iff (n c : Commit) (h : Replants n c) : KeptAbove n c ↔ c.StorableTimes := by
  obtain ⟨hrenews, htree, hparents⟩ := h
  unfold KeptAbove
  rw [hrenews.stands_iff]
  simp [htree, hparents]

/-- The commits of a chain above one of them, newest first. -/
def chainAbove (head e : Commit) : List Commit := head.chain.takeWhile (· ≠ e)

theorem chainAbove_of_split {head e : Commit} {above below : List Commit}
    (hsplit : head.chain = above ++ e :: below) : chainAbove head e = above ∧ e ∉ above := by
  have hnd := nodup_chain head
  rw [hsplit, List.nodup_append] at hnd
  have hnot : e ∉ above := fun h => hnd.2.2 e h e List.mem_cons_self rfl
  refine ⟨?_, hnot⟩
  unfold chainAbove
  rw [hsplit, List.takeWhile_append_of_pos]
  · simp
  · intro c hc
    simpa using ne_of_mem_of_not_mem hc hnot

/-- A chain around one of its commits. -/
theorem chain_split {head e : Commit} (he : e ∈ head.chain) :
    head.chain = chainAbove head e ++ e :: chainOf e.parent ∧ e ∉ chainAbove head e := by
  obtain ⟨above, below, hsplit⟩ := List.append_of_mem he
  obtain ⟨habove, hnot⟩ := chainAbove_of_split hsplit
  rw [habove, ← chain_suffix hsplit]
  exact ⟨hsplit, hnot⟩

/-- The history below `new` is the one below `old` with the commit `e` edited:
below it nothing changed, it has the new author and message and its old tree and
parents, and the commits above it are kept. -/
def EditedHistory (old new e : Commit) (author : Signature) (msg : Bytes) : Prop :=
  ∃ newAbove e', new.chain = newAbove ++ e' :: chainOf e.parent ∧
    List.Forall₂ KeptAbove newAbove (chainAbove old e) ∧
    e'.author = author ∧ e'.message = (if msg.isEmpty then e.message else msg) ∧
    e'.tree = e.tree ∧ e'.parents = e.parents ∧ new.chain.length = old.chain.length

/-- An edit replaced its ref once, by a head with the edited history, and did not
ask the user. -/
def EditAsAsked {ω : Type} (w w' : World ω) (ref : Ref) (old e : Commit) (author : Signature)
    (msg : Bytes) : Prop :=
  ∃ call, Recorded w w' [call] ∧ call.ref = ref ∧
    EditedHistory old call.commit e author msg ∧ w'.asked = w.asked

/-- The author that an edited text asks for: what the text does not say stays as it
was. -/
def askedAuthor (old : Signature) (newMsg : CommitMessage) : Signature where
  name := (newMsg.author.map CommitAuthor.name).getD old.name
  email := (newMsg.author.map CommitAuthor.email).getD old.email
  when := newMsg.time.getD old.when

/-- A signature that a new commit can have as it is. -/
def Signature.Creatable (s : Signature) : Prop :=
  Clean s.name ∧ Clean s.email ∧ s.when.Storable

/-- What an edited commit has for an author is the author asked for, as long as nothing is
trimmed off it and its time can be stored. -/
theorem stored_editedAuthor_iff {old author : Signature} {newMsg : CommitMessage}
    (h : editedAuthor old newMsg = .ok author) :
    author.stored = askedAuthor old newMsg ↔ (askedAuthor old newMsg).Creatable := by
  unfold Signature.Creatable
  rw [← clean_iff, ← clean_iff, ← Time.stored_eq_self_iff, signatureCreate_ok h]
  simp [askedAuthor, Signature.stored]

/-- What an edit is asked for: the commit `e` of `src`, and what the text left by the
editor says. -/
structure EditRequest {ω : Type} (env : Env ω) (op : Op) (w : World ω) (src : Rev) (ref : Ref)
    (e : Commit) (newMsg : CommitMessage) : Prop where
  rev : op.src.rev = some src
  ref : src.ref = some ref
  commits : op.src.commits = {e}
  text : ∃ shown text o, stringFromCommitMessage (commitMessageForCommit e) = .ok shown ∧
    env.spawn shown w.outside = (.ok text, o) ∧
    newMsg = commitMessageFromString env.strings env.trim text

/-- What the amended commit has for a message is the edited message, as long as
that is a C string. -/
theorem message_amended {e : Commit} {author : Signature} {msg : Bytes}
    (hmsg : msg.head? ≠ some newline) :
    (amended e author msg).message = (if msg.isEmpty then e.message else msg) ↔
      (0 : UInt8) ∉ msg := by
  unfold amended
  by_cases hempty : msg.isEmpty
  · have hnil : msg = [] := by simpa using hempty
    simp [hnil]
  · rw [if_neg hempty, Commit.message_create]
    have htrimmed : Commit.trimLeadingNewlines (cString msg) = cString msg := by
      cases msg with
      | nil => rfl
      | cons b msg =>
          have hb : b ≠ newline := fun heq => hmsg (by simp [heq])
          by_cases hnul : b = 0
          · simp [cString, hnul, Commit.trimLeadingNewlines]
          · simpa [cString, hnul, Commit.trimLeadingNewlines, newline] using hb
    rw [htrimmed]
    constructor
    · intro heq
      rw [← heq]
      exact zero_notMem_cString msg
    · exact cString_eq_self

section Edit

variable {ω : Type} {env : Env ω}

/-- A chain holds its first commit once. -/
theorem filter_chain_singleton (n : Commit) :
    n.chain.filter (· ∈ ({n} : Finset Commit)) = [n] := by
  have hrest : (chainOf n.parent).filter (· ∈ ({n} : Finset Commit)) = [] := by
    rw [List.filter_eq_nil_iff]
    intro c hc
    simpa using ne_of_mem_of_not_mem hc (not_mem_chainOf_parent n)
  rw [Commit.chain_eq, List.filter_cons, hrest]
  simp

/-- Replacing a commit of a chain writes it and the commits above it anew. -/
theorem rewritten_edit {head e : Commit} (he : e ∈ head.chain) (n : Commit) :
    rewritten [n] (some e) {e} head.chain = chainAbove head e ++ [n] ∧
      kept [n] (some e) {e} head.chain = chainOf e.parent := by
  obtain ⟨hsplit, habove⟩ := chain_split he
  have hcut := cut_replace (n := n) habove (not_mem_chainOf_parent e)
  rw [← hsplit] at hcut
  unfold rewritten kept
  rw [hcut]
  simp [Function.comp_def]

/-- The commits `_AddRemoveCommits` made for an edit: the edited commit on the
old parent, and the commits above it on top. -/
theorem addRemoveCommits_edit {σ : Type} {ctx : Ctx σ} {R : σ → σ → Prop} [Std.Refl R]
    [IsTrans σ R] (hclean : CleanMerge ctx.repo) (hrepo : ctx.repo.Keeps R)
    {favor : FileFavor} {head e : Commit} {author : Signature} {msg : Bytes} {s s' : σ}
    {r : AddRemoveResult}
    (h : addRemoveCommits ctx favor head {amended e author msg} (some (amended e author msg))
      (some e) {e} s = (.ok r, s')) :
    e ∈ head.chain ∧ R s s' ∧ ∃ newAbove e',
      chainOf r.commit = newAbove ++ e' :: chainOf e.parent ∧
      List.Forall₂ Replants newAbove (chainAbove head e) ∧
      Renews e' (amended e author msg) ∧ e'.tree = e.tree ∧ e'.parents = e.parents := by
  set n := amended e author msg with hn
  obtain ⟨base, ns, happlied, hr, hbase, hremove⟩ := addRemoveCommits_ok h
  have hmem : e ∈ head.chain := hremove e (Finset.mem_singleton_self e)
  obtain ⟨hsplit, -⟩ := chain_split hmem
  have hadded : (chainOf (some n)).filter (· ∈ ({n} : Finset Commit)) = [n] :=
    filter_chain_singleton n
  obtain ⟨hrewritten, hstays⟩ := rewritten_edit hmem n
  rw [hadded] at happlied hbase
  have hrenewed : (rewritten [n] (some e) {e} head.chain).reverse =
      n :: (chainAbove head e).reverse := by
    simp [hrewritten]
  have hkept : chainOf base = chainOf e.parent := hbase.trans hstays
  have hparent : base = e.parent := by
    rw [← head?_chainOf base, hkept, head?_chainOf]
  subst hparent
  rw [hrenewed] at happlied
  have hchain := happlied.chain
  cases happlied with
  | @cons _ e' _ newAbove _ _ _ _ first rest =>
      -- the edited commit goes back onto the parent it had
      obtain ⟨htree, hR⟩ := commitParentSet_clean hclean hrepo rfl first
      obtain ⟨hrenews, hparents⟩ := commitParentSet_renews first
      have hsame : (some e').map Commit.tree = (some e).map Commit.tree := congrArg some htree
      obtain ⟨hall, hR'⟩ := rest.replants hclean hrepo (grows_of_chain hsplit) hsame
      refine ⟨hmem, trans_of R hR hR', newAbove.reverse, e', ?_, ?_, hrenews, htree, ?_⟩
      · have hbelow : belowBase e.parent (n :: (chainAbove head e).reverse) = e.parent := by
          unfold belowBase
          cases hp : e.parent with
          | some p => rfl
          | none =>
              have hnil : e.parents = [] := by simpa [Commit.parent] using hp
              simp [hn, amended, Commit.parent, hnil]
        rw [hr, hchain, hbelow]
        simp
      · rw [← List.forall₂_reverse_iff, List.reverse_reverse]
        exact hall
      · rw [hparents]
        exact Commit.toList_parent_append e

/-- Everything an edit with a result did, in one statement. -/
theorem exec_edit {op : Op} {w : World ω} (hclean : CleanMerge env.repo)
    (htype : op.type = .edit) (h : HasResult (exec env.ctx op w).1) :
    ∃ src ref e newMsg author, EditRequest env op w src ref e newMsg ∧
      editedAuthor e.author newMsg = .ok author ∧
      e ∈ src.commit.chain ∧ ∃ call newAbove e',
        Recorded w (exec env.ctx op w).2 [call] ∧ call.ref = ref ∧
        (exec env.ctx op w).2.asked = w.asked ∧
        call.commit.chain = newAbove ++ e' :: chainOf e.parent ∧
        List.Forall₂ Replants newAbove (chainAbove src.commit e) ∧
        Renews e' (amended e author newMsg.message) ∧ e'.tree = e.tree ∧
        e'.parents = e.parents := by
  obtain ⟨res, hdispatch⟩ := exec_hasResult h
  unfold dispatch at hdispatch
  simp only [htype] at hdispatch
  obtain ⟨src, ref, e, shown, text, w₁, author, w₂, r, w₃, rev, hsrc, href, hcommits, hshown,
    hspawn, hauthor, hamend, hbuild, hreplace⟩ := editCommit_ok hdispatch
  have hrepo := env.repo_sameAsked
  obtain ⟨hmem, hasked, newAbove, e', hchain, hall, hrenews, htree, hparents⟩ :=
    addRemoveCommits_edit hclean.inWorld hrepo hbuild
  obtain ⟨c, ref', hc, hrec, haskedReplace⟩ := revReplace_ok hreplace
  have hspawnRefs := (env.quiet.spawn shown).run hspawn
  have hspawnAsked := (env.spawn_sameAsked shown).run hspawn
  have hamendRefs := (env.quiet.repo.commitCreate _ _ _ _ _ _).run hamend
  have hamendAsked := (hrepo.commitCreate _ _ _ _ _ _).run hamend
  have hbuildRefs := (Quiet.addRemoveCommits env.quiet _ _ _ _ _ _).run hbuild
  obtain ⟨o, hleft⟩ := World.outsideRun_ok (x := env.spawn shown) hspawn
  refine ⟨src, ref, e, _, author, ⟨hsrc, href, hcommits, ⟨shown, text, o, hshown, hleft, rfl⟩⟩,
    hauthor, hmem, _, newAbove, e', (Recorded.of_sameRefs
      (trans_of SameRefs hspawnRefs (trans_of SameRefs hamendRefs hbuildRefs))).trans hrec, rfl,
    ?_, ?_, hall, hrenews, htree, hparents⟩
  · exact trans_of SameAsked hspawnAsked (trans_of SameAsked hamendAsked
      (trans_of SameAsked hasked haskedReplace))
  · rw [hc] at hchain
    exact hchain

end Edit

/-! ## Editing the head of a branch -/

namespace EditHead

def ref : Ref := ⟨ascii "refs/heads/main", HalfMove.top, none⟩

/-- Edit the root, below the head. -/
def op : Op := ⟨.edit, ⟨some (HalfMove.rev ref), {HalfMove.root}⟩, {}⟩

/-- The text with another message. -/
def otherMessage : Bytes := ascii
  "Author: a <a@a>\nDate:   Thu Jan 1 00:00:00 1970 +0000\n\nfirst"

/-- The text with a date before 1970. -/
def earlyDate : Bytes := ascii
  "Author: a <a@a>\nDate:   Wed Dec 31 23:59:58 1969 +0000\n\nroot"

/-- What that text says. -/
def earlyMessage : CommitMessage :=
  ⟨some ⟨ascii "a", ascii "a@a"⟩, some ⟨-2, 0⟩, ascii "root"⟩

/-- The commit that takes the place of the root: the 2 seconds before 1970 have
become the last 2 seconds that 32 bits can count. -/
def newRoot : Commit :=
  .mk HalfMove.tree [] ⟨⟨ascii "a", ascii "a@a", ⟨4294967294, 0⟩⟩,
    ⟨ascii "a", ascii "a@a", ⟨4294967294, 0⟩⟩, none, ascii "root", []⟩

def newTop : Commit := .mk HalfMove.tree [newRoot] (HalfMove.text "top")

end EditHead

end Git
end Debase
