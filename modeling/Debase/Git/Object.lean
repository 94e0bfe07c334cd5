import Mathlib.Algebra.Group.Int.Defs
import Mathlib.Algebra.Group.Nat.Defs
import Mathlib.Data.List.Basic
import Mathlib.Data.List.DropRight
import Mathlib.Data.Finset.Insert

/-!
# Git objects

Commits, trees, index entries, refs and revs as `git/Git.h` wraps them.

A commit is named by the hash of its content, and the content holds the hashes
of the parents, so a commit object and the whole history below it are one value.
`Commit` is that value: two commits are the same object exactly when their
content is the same, and no history has a cycle.
-/

namespace Debase

/-- A `std::string` or a C string: bytes. -/
abbrev Bytes := List UInt8

/-- The C string in a buffer: what comes before the first NUL. -/
def cString (s : Bytes) : Bytes := s.takeWhile (· ≠ 0)

theorem zero_notMem_cString (s : Bytes) : (0 : UInt8) ∉ cString s := by
  intro h
  have := List.mem_takeWhile_imp h
  simp at this

theorem cString_eq_self {s : Bytes} (h : (0 : UInt8) ∉ s) : cString s = s := by
  apply List.takeWhile_eq_self_iff.mpr
  intro b hb
  simpa using ne_of_mem_of_not_mem hb h

@[simp] theorem cString_idem (s : Bytes) : cString (cString s) = cString s :=
  cString_eq_self (zero_notMem_cString s)

/-- The bytes of an ASCII literal of the source. -/
def ascii (s : String) : Bytes := s.toList.map fun c => c.toNat.toUInt8

namespace Git

/-- An object id (`git_oid`). -/
abbrev Oid := BitVec 160

/-- A tree object; trees are compared by id and only ever merged and written by
libgit2. -/
structure Tree where
  id : Oid
deriving DecidableEq

/-- `Git::Time`: seconds since the epoch and a UTC offset in minutes. -/
structure Time where
  time : Int
  offset : Int
deriving DecidableEq

/-- A time as it reads once `git_signature__writebuf` has written it and
`git_signature__parse` has read it back: the seconds are written as a 32-bit
unsigned number, and an offset of 15 hours or more is read as 0. -/
def Time.stored (t : Time) : Time where
  time := t.time % 2 ^ 32
  offset := if t.offset.natAbs / 60 ≤ 14 then t.offset else 0

/-- A time that a commit object can hold: its seconds fit 32 unsigned bits and
its offset is less than 15 hours. -/
def Time.Storable (t : Time) : Prop :=
  0 ≤ t.time ∧ t.time < 2 ^ 32 ∧ t.offset.natAbs < 15 * 60

instance (t : Time) : Decidable t.Storable := inferInstanceAs (Decidable (_ ∧ _))

/-- The storable times are those that writing keeps, and the offset 0 that
replaces a bad one. -/
theorem Time.stored_eq_self_iff (t : Time) : t.stored = t ↔ t.Storable := by
  rcases t with ⟨time, offset⟩
  simp only [Time.stored, Time.Storable, Time.mk.injEq]
  have hsplit : offset.natAbs / 60 ≤ 14 ↔ offset.natAbs < 15 * 60 := by omega
  have hmod : time % 2 ^ 32 = time ↔ 0 ≤ time ∧ time < 2 ^ 32 := by omega
  rw [hmod]
  by_cases hoff : offset.natAbs / 60 ≤ 14
  · simp [hoff, hsplit.mp hoff]
  · have hbig : ¬offset.natAbs < 15 * 60 := fun h => hoff (hsplit.mpr h)
    have hne : (0 : Int) ≠ offset := by omega
    simp [hoff, hbig, hne]

@[simp] theorem Time.stored_stored (t : Time) : t.stored.stored = t.stored := by
  rw [Time.stored_eq_self_iff]
  unfold Time.Storable Time.stored
  refine ⟨by dsimp only; omega, by dsimp only; omega, ?_⟩
  dsimp only
  split
  · omega
  · decide

/-- `git_signature`. -/
structure Signature where
  name : Bytes
  email : Bytes
  when : Time
deriving DecidableEq

/-- A signature as it reads once it has been written into a commit object. -/
def Signature.stored (s : Signature) : Signature := { s with when := s.when.stored }

@[simp] theorem Signature.stored_stored (s : Signature) : s.stored.stored = s.stored := by
  simp [Signature.stored]

theorem Signature.stored_eq_self_iff (s : Signature) : s.stored = s ↔ s.when.Storable := by
  rw [← Time.stored_eq_self_iff]
  rcases s with ⟨name, email, time⟩
  simp [Signature.stored]

/-- Everything in a commit object but its tree and its parents.  `rawMessage` is
the text after the blank line that ends the headers, `extraHeaders` the headers
libgit2 reads past (a `gpgsig`, say). -/
structure CommitText where
  author : Signature
  committer : Signature
  encoding : Option Bytes
  rawMessage : Bytes
  extraHeaders : Bytes
deriving DecidableEq

/-- A commit object. -/
inductive Commit where
  | mk (tree : Tree) (parents : List Commit) (text : CommitText)

namespace Commit

def tree : Commit → Tree
  | mk t _ _ => t

def parents : Commit → List Commit
  | mk _ ps _ => ps

def text : Commit → CommitText
  | mk _ _ x => x

@[simp] theorem tree_mk (t : Tree) (ps : List Commit) (x : CommitText) : (mk t ps x).tree = t := rfl

@[simp] theorem parents_mk (t : Tree) (ps : List Commit) (x : CommitText) :
    (mk t ps x).parents = ps := rfl

@[simp] theorem text_mk (t : Tree) (ps : List Commit) (x : CommitText) : (mk t ps x).text = x := rfl

mutual

/-- Comparing two commits (`git_oid_cmp`: equal ids are equal content). -/
def decEq : (a b : Commit) → Decidable (a = b)
  | mk t ps x, mk u qs y =>
      match decEqAll ps qs with
      | isTrue hp =>
          if ht : t = u then
            if hx : x = y then isTrue (by rw [ht, hp, hx])
            else isFalse (by intro h; cases h; exact hx rfl)
          else isFalse (by intro h; cases h; exact ht rfl)
      | isFalse hp => isFalse (by intro h; cases h; exact hp rfl)

/-- Comparing two lists of commits. -/
def decEqAll : (as bs : List Commit) → Decidable (as = bs)
  | [], [] => isTrue rfl
  | [], _ :: _ => isFalse (by intro h; cases h)
  | _ :: _, [] => isFalse (by intro h; cases h)
  | a :: as, b :: bs =>
      match decEq a b with
      | isTrue h =>
          match decEqAll as bs with
          | isTrue hs => isTrue (by rw [h, hs])
          | isFalse hs => isFalse (by intro e; cases e; exact hs rfl)
      | isFalse h => isFalse (by intro e; cases e; exact h rfl)

end

instance : DecidableEq Commit := decEq

/-- `git_commit_author`. -/
def author (c : Commit) : Signature := c.text.author

/-- `git_commit_committer`. -/
def committer (c : Commit) : Signature := c.text.committer

/-- `git_commit_message_encoding`. -/
def encoding (c : Commit) : Option Bytes := c.text.encoding

/-- Drop the leading newlines of a raw message. -/
def trimLeadingNewlines (s : Bytes) : Bytes := s.dropWhile (· = 10)

/-- `git_commit_message`: the raw message, as a C string, without its leading
newlines. -/
def message (c : Commit) : Bytes := trimLeadingNewlines (cString c.text.rawMessage)

/-- `git_commit_create` and `git_commit_amend`: the commit that is written for
these arguments.  The message is a C string; headers the call does not know are
not written. -/
def create (tree : Tree) (parents : List Commit) (author committer : Signature)
    (encoding : Option Bytes) (message : Bytes) : Commit :=
  mk tree parents ⟨author.stored, committer.stored, encoding, cString message, []⟩

/-- `Commit::parent(n)`: null when there is no such parent. -/
def parent (c : Commit) (n : Nat := 0) : Option Commit := c.parents[n]?

/-- `Commit::isMerge`. -/
def isMerge (c : Commit) : Bool := 1 < c.parents.length

/-- The commits that repeated `parent()` visits from a commit, the commit itself
first and the root last: its first-parent chain. -/
def chain : Commit → List Commit
  | c@(mk _ [] _) => [c]
  | c@(mk _ (p :: _) _) => c :: p.chain

end Commit

/-- The first-parent chain of a possibly null commit.  A loop of the source that
moves a variable `c` by `c = c.parent()` is a recursion on this list. -/
def chainOf : Option Commit → List Commit
  | none => []
  | some c => c.chain

@[simp] theorem chainOf_none : chainOf none = [] := rfl

@[simp] theorem chainOf_some (c : Commit) : chainOf (some c) = c.chain := rfl

namespace Commit

theorem chain_eq (c : Commit) : c.chain = c :: chainOf c.parent := by
  rcases c with ⟨t, _ | ⟨p, ps⟩, x⟩ <;> rfl

@[simp] theorem chain_ne_nil (c : Commit) : c.chain ≠ [] := by
  rw [chain_eq]
  exact List.cons_ne_nil _ _

@[simp] theorem head?_chain (c : Commit) : c.chain.head? = some c := by
  rw [chain_eq]
  rfl

@[simp] theorem mem_chain_self (c : Commit) : c ∈ c.chain := by
  rw [chain_eq]
  exact List.mem_cons_self

/-- The first parent in front of the other ones. -/
theorem toList_parent_append (c : Commit) : c.parent.toList ++ c.parents.drop 1 = c.parents := by
  rcases c with ⟨t, _ | ⟨p, ps⟩, x⟩ <;> rfl

@[simp] theorem trimLeadingNewlines_idem (s : Bytes) :
    trimLeadingNewlines (trimLeadingNewlines s) = trimLeadingNewlines s :=
  List.dropWhile_idempotent _ _

/-- A message is a C string. -/
@[simp] theorem cString_message (c : Commit) : cString c.message = c.message := by
  apply cString_eq_self
  intro hnul
  have hmem : (0 : UInt8) ∈ cString c.text.rawMessage :=
    (List.dropWhile_sublist _).subset hnul
  exact zero_notMem_cString _ hmem

section Create

variable (tree : Tree) (parents : List Commit) (author committer : Signature)
    (encoding : Option Bytes) (msg : Bytes)

@[simp] theorem tree_create :
    (create tree parents author committer encoding msg).tree = tree := rfl

@[simp] theorem parents_create :
    (create tree parents author committer encoding msg).parents = parents := rfl

@[simp] theorem author_create :
    (create tree parents author committer encoding msg).author = author.stored := rfl

@[simp] theorem committer_create :
    (create tree parents author committer encoding msg).committer = committer.stored := rfl

theorem message_create : (create tree parents author committer encoding msg).message =
    trimLeadingNewlines (cString msg) := by
  simp [create, message]

/-- Writing the message of a commit again keeps it. -/
@[simp] theorem message_create_message (c : Commit) :
    (create tree parents author committer encoding c.message).message = c.message := by
  rw [message_create, cString_message]
  exact trimLeadingNewlines_idem _

end Create

end Commit

@[simp] theorem head?_chainOf (c : Option Commit) : (chainOf c).head? = c := by
  cases c <;> simp

/-- A chain cut anywhere leaves the chain of the commit at the cut. -/
theorem chain_suffix {c d : Commit} {above below : List Commit}
    (h : c.chain = above ++ d :: below) : below = chainOf d.parent := by
  induction above generalizing c with
  | nil =>
      rw [Commit.chain_eq, List.nil_append] at h
      obtain ⟨rfl, htail⟩ := List.cons.inj h
      exact htail.symm
  | cons a above ih =>
      rw [Commit.chain_eq, List.cons_append] at h
      obtain ⟨rfl, htail⟩ := List.cons.inj h
      cases hp : c.parent with
      | none => simp [hp] at htail
      | some p =>
          rw [hp] at htail
          exact ih htail

/-- A chain gets shorter at every step down. -/
theorem length_chain_le_of_mem {c d : Commit} (h : d ∈ c.chain) :
    d.chain.length ≤ c.chain.length := by
  obtain ⟨above, below, hsplit⟩ := List.append_of_mem h
  rw [d.chain_eq, ← chain_suffix hsplit, hsplit]
  simp

/-- No commit is on the chain of its own parent. -/
theorem not_mem_chainOf_parent (c : Commit) : c ∉ chainOf c.parent := by
  intro h
  cases hp : c.parent with
  | none => simp [hp] at h
  | some p =>
      rw [hp] at h
      have hle := length_chain_le_of_mem h
      rw [c.chain_eq, hp] at hle
      simp only [chainOf_some, List.length_cons] at hle
      omega

/-- A first-parent chain has no repeated commit. -/
theorem nodup_chain (c : Commit) : c.chain.Nodup := by
  generalize hn : c.chain.length = n
  induction n generalizing c with
  | zero => simp at hn
  | succ n ih =>
      rw [c.chain_eq, List.nodup_cons]
      refine ⟨not_mem_chainOf_parent c, ?_⟩
      cases hp : c.parent with
      | none => simp
      | some p =>
          rw [c.chain_eq, hp] at hn
          exact ih p (by simpa using hn)

theorem nodup_chainOf (c : Option Commit) : (chainOf c).Nodup := by
  cases c with
  | none => simp
  | some c => exact nodup_chain c

/-! ## Refs and revs -/

/-- The annotation object of an annotated tag. -/
structure TagAnnotation where
  author : Option Signature
  message : Bytes
deriving DecidableEq

/-- `Git::Ref`: a handle to a ref as it was when it was looked up.  `commit` is
what the handle peels to. -/
structure Ref where
  fullName : Bytes
  commit : Commit
  annotation : Option TagAnnotation
deriving DecidableEq

/-- `Ref::operator==` on possibly null handles: both null, or the same full
name. -/
def Ref.same (a b : Option Ref) : Bool := a.map Ref.fullName = b.map Ref.fullName

namespace Ref

/-- `"refs/heads/"`. -/
def headsDir : Bytes := ascii "refs/heads/"

/-- `"refs/tags/"`. -/
def tagsDir : Bytes := ascii "refs/tags/"

/-- `"refs/remotes/"`. -/
def remotesDir : Bytes := ascii "refs/remotes/"

/-- `"refs/"`. -/
def refsDir : Bytes := ascii "refs/"

/-- `Ref::isLocalBranch` (`git_reference_is_branch`). -/
def isLocalBranch (ref : Ref) : Bool := headsDir.isPrefixOf ref.fullName

/-- `Ref::isTag` (`git_reference_is_tag`). -/
def isTag (ref : Ref) : Bool := tagsDir.isPrefixOf ref.fullName

/-- `git_reference__shorthand`: a full name without the directory of its kind. -/
def shorthand (fullName : Bytes) : Bytes :=
  match [headsDir, tagsDir, remotesDir, refsDir].find? fun dir => dir.isPrefixOf fullName with
  | some dir => fullName.drop dir.length
  | none => fullName

/-- `Ref::name`. -/
def name (ref : Ref) : Bytes := shorthand ref.fullName

end Ref

/-- `Git::Rev`: a mandatory commit and an optional ref that targets it. -/
structure GitRev where
  commit : Commit
  ref : Option Ref
deriving DecidableEq

/-- `Git::Rev::isMutable`: only a rev of a local branch or a tag. -/
def GitRev.isMutable (rev : GitRev) : Bool :=
  match rev.ref with
  | none => false
  | some ref => ref.isLocalBranch || ref.isTag

/-- `Rev::Mutability`. -/
inductive Mutability where
  | allowed
  | disallowedUncommittedChanges
deriving DecidableEq

end Git

/-- `::Rev`: a `Git::Rev` with the number of commits to skip and whether it may
be changed.  An invalid rev of the source is `none : Option Rev`. -/
structure Rev extends Git.GitRev where
  skip : Nat
  mutability : Git.Mutability
deriving DecidableEq

/-- `::Rev::isMutable`. -/
def Rev.isMutable (rev : Rev) : Bool :=
  rev.mutability = .allowed && rev.toGitRev.isMutable

/-- `Rev::displayHead`: the commit reached after `skip` steps down. -/
def Rev.displayHead (rev : Rev) : Option Git.Commit := rev.commit.chain[rev.skip]?

namespace Git

/-! ## The index -/

/-- `git_index_stage_t`. -/
inductive Stage where
  | normal
  | ancestor
  | ours
  | theirs
deriving DecidableEq

/-- A `std::filesystem::path`: its components.  Paths are ordered component by
component. -/
abbrev Path := List Bytes

/-- `git_index_entry`. -/
structure IndexEntry where
  path : Path
  stage : Stage
  mode : Nat
  id : Oid
deriving DecidableEq

/-- `git_index`: its entries in index order. -/
structure Index where
  entries : List IndexEntry
deriving DecidableEq

/-- `Index::conflicts` (`git_index_has_conflicts`). -/
def Index.conflicts (index : Index) : Bool := index.entries.any fun e => e.stage ≠ .normal

/-! ## Errors -/

/-- The `git_error_code`s the source tells apart. -/
inductive ErrorCode where
  | notFound
  | exists
  | invalidSpec
  | unmerged
  | mergeConflict
  | checkoutConflict
  | other
deriving DecidableEq

/-- How a call ends without a value.  `abort` is a failed `assert`, a call of
`abort()` or a null dereference: the process dies and no handler runs. -/
inductive Exn where
  | conflictResolveCanceled
  | runtimeError (msg : String)
  | gitError (code : ErrorCode)
  | abort
deriving DecidableEq

end Git
end Debase
