import Debase.Toastbox
import Debase.Git.Date

/-!
# The text of an edited commit

`_EditCommit` shows a commit as a text with an author line, a date line and the
message, and reads such a text back.  `String::Trim` is a parameter: its library
is not in the tree.
-/

namespace Debase
namespace Git
namespace Modify

open Toastbox

/-- `_CommitAuthor`. -/
structure CommitAuthor where
  name : Bytes
  email : Bytes
deriving DecidableEq

/-- `_CommitMessage`. -/
structure CommitMessage where
  author : Option CommitAuthor
  time : Option Time
  message : Bytes
deriving DecidableEq

/-- `_AuthorPrefix`. -/
def authorPrefix : Bytes := ascii "Author:"

/-- `_TimePrefix`. -/
def timePrefix : Bytes := ascii "Date:"

/-- `_CommitMessageForCommit`. -/
def commitMessageForCommit (commit : Commit) : CommitMessage where
  author := some ⟨commit.author.name, commit.author.email⟩
  time := some commit.author.when
  message := commit.message

/-- `_StringFromCommitMessage`. -/
def stringFromCommitMessage (msg : CommitMessage) : Except Exn Bytes :=
  match msg.author, msg.time with
  | some author, some time => do
      let timeStr ← stringFromTime time
      pure (authorPrefix ++ ascii " " ++ author.name ++ ascii " <" ++ author.email ++
        ascii ">" ++ [newline] ++ timePrefix ++ ascii "   " ++ timeStr ++ [newline] ++
        [newline] ++ msg.message)
  | _, _ => .error .abort

/-- `_CommitTimeParse`: every failure means no time. -/
def commitTimeParse (str : Bytes) : Option Time := (timeFromString str).toOption

/-- What `String::Trim` is documented to do: spaces around a text that begins and ends
with something else go away. -/
def Trims (trim : Bytes → Bytes) : Prop :=
  ∀ (s : Bytes) (n m : Nat), (∀ b ∈ s.head?, isSpace b = false) →
    (∀ b ∈ s.getLast?, isSpace b = false) →
    trim (List.replicate n 32 ++ s ++ List.replicate m 32) = s

/-- A text that neither begins nor ends with white space. -/
def Tidy (s : Bytes) : Prop :=
  (∀ b ∈ s.head?, isSpace b = false) ∧ ∀ b ∈ s.getLast?, isSpace b = false

instance (s : Bytes) : Decidable (Tidy s) :=
  decidable_of_iff ((s.head?.all fun b => !isSpace b) = true ∧
    (s.getLast?.all fun b => !isSpace b) = true) (by simp [Tidy, Option.all_eq_true])

/-- All that `String::Trim` is documented to do: white space around a text goes
away. -/
def TrimsSpace (trim : Bytes → Bytes) : Prop :=
  ∀ before s after : Bytes, (∀ b ∈ before, isSpace b = true) → (∀ b ∈ after, isSpace b = true) →
    Tidy s → trim (before ++ s ++ after) = s

theorem TrimsSpace.trims {trim : Bytes → Bytes} (htrim : TrimsSpace trim) : Trims trim := by
  intro s n m hhead hlast
  have hspaces : ∀ k, ∀ b ∈ List.replicate k (32 : UInt8), isSpace b = true := by
    intro k b hb
    rw [List.eq_of_mem_replicate hb]
    rfl
  exact htrim _ s _ (hspaces n) (hspaces m) ⟨hhead, hlast⟩

section Trim

variable (strings : Strings) (trim : Bytes → Bytes)

/-- `_CommitAuthorParse`: the name stands before the first `<`, the email
between it and the last `>`. -/
def commitAuthorParse (str : Bytes) : Option CommitAuthor :=
  match str.idxOf? 60, str.reverse.idxOf? 62 with
  | some emailStart, some fromEnd =>
      let emailEnd := str.length - 1 - fromEnd
      if emailEnd ≤ emailStart then none
      else
        let name := trim (str.take emailStart)
        let email := trim ((str.drop (emailStart + 1)).take (emailEnd - emailStart - 1))
        if name.isEmpty then none
        else if email.isEmpty then none
        else some ⟨name, email⟩
  | _, _ => none

/-- The two header loops of `_CommitMessageFromString`: the text after a prefix
on the first line that is not blank, and the lines that are left.  A line that
is not blank and has no prefix is left. -/
def headerLine (headerPrefix : Bytes) : List Bytes → Option Bytes × List Bytes
  | [] => (none, [])
  | l :: ls =>
      let line := trim l
      if strings.startsWith headerPrefix line then
        (some (trim (line.drop headerPrefix.length)), ls)
      else if !line.isEmpty then (none, l :: ls)
      else headerLine headerPrefix ls

/-- `_CommitMessageFromString`. -/
def commitMessageFromString (str : Bytes) : CommitMessage :=
  let lines := strings.split str
  let (authorStr, lines) := headerLine strings trim authorPrefix lines
  let (timeStr, lines) := headerLine strings trim timePrefix lines
  -- skip blank lines until the message starts
  let lines := lines.dropWhile fun l => (trim l).isEmpty
  -- a line is put behind a newline once the message is not empty
  let msg := lines.foldl (fun msg l => if msg.isEmpty then msg ++ l else msg ++ [newline] ++ l) []
  ⟨authorStr.bind (commitAuthorParse trim), timeStr.bind commitTimeParse, msg⟩

variable {strings} {trim}

/-- Looking for a header leaves some of the lines. -/
theorem headerLine_subset (headerPrefix : Bytes) (lines : List Bytes) :
    (headerLine strings trim headerPrefix lines).2 ⊆ lines := by
  induction lines with
  | nil => simp [headerLine]
  | cons l ls ih =>
      rw [headerLine]
      split
      · exact List.subset_cons_self l ls
      · split
        · exact List.Subset.refl _
        · exact List.Subset.trans ih (List.subset_cons_self l ls)

theorem Trims.spaced (htrim : Trims trim) {s : Bytes} {b d : UInt8} (n m : Nat)
    (hb : s.head? = some b) (hd : s.getLast? = some d) (hhead : isSpace b = false)
    (hlast : isSpace d = false) :
    trim (List.replicate n 32 ++ s ++ List.replicate m 32) = s := by
  apply htrim s n m
  · intro x hx
    rw [hb, Option.mem_some_iff] at hx
    rw [← hx, hhead]
  · intro x hx
    rw [hd, Option.mem_some_iff] at hx
    rw [← hx, hlast]

/-- A text that is an author line and nothing else. -/
theorem commitMessageFromString_author (htrim : Trims trim) :
    commitMessageFromString strings trim (ascii "Author: a <a@a>") =
      ⟨some ⟨ascii "a", ascii "a@a"⟩, none, []⟩ := by
  have hline : trim (ascii "Author: a <a@a>") = ascii "Author: a <a@a>" :=
    htrim.spaced (s := ascii "Author: a <a@a>") 0 0 (b := 65) (d := 62) rfl rfl rfl rfl
  have hvalue : trim (ascii " a <a@a>") = ascii "a <a@a>" :=
    htrim.spaced (s := ascii "a <a@a>") 1 0 (b := 97) (d := 62) rfl rfl rfl rfl
  have hname : trim (ascii "a ") = ascii "a" :=
    htrim.spaced (s := ascii "a") 0 1 (b := 97) (d := 97) rfl rfl rfl rfl
  have hemail : trim (ascii "a@a") = ascii "a@a" :=
    htrim.spaced (s := ascii "a@a") 0 0 (b := 97) (d := 97) rfl rfl rfl rfl
  have hlines : splitLines (ascii "Author: a <a@a>") = [ascii "Author: a <a@a>"] := by decide
  have hheader : headerLine strings trim authorPrefix [ascii "Author: a <a@a>"] =
      (some (ascii "a <a@a>"), []) := by
    unfold headerLine
    dsimp only
    rw [hline, strings.startsWith_eq, if_pos (by decide)]
    exact congrArg (fun s => (some s, [])) hvalue
  have hauthor : commitAuthorParse trim (ascii "a <a@a>") = some ⟨ascii "a", ascii "a@a"⟩ := by
    have hstart : (ascii "a <a@a>").idxOf? 60 = some 2 := by decide
    have hend : (ascii "a <a@a>").reverse.idxOf? 62 = some 0 := by decide
    have htake : (ascii "a <a@a>").take 2 = ascii "a " := by decide
    have hdrop : ((ascii "a <a@a>").drop 3).take 3 = ascii "a@a" := by decide
    have hlength : (ascii "a <a@a>").length = 7 := by decide
    simp only [commitAuthorParse, hstart, hend, hlength, htake, hdrop, hname, hemail]
    decide
  simp [commitMessageFromString, hlines, hheader, headerLine, hauthor]

/-- Lines put behind a message that is not empty do not change its beginning. -/
private theorem head?_foldl_lines (ls : List Bytes) {msg : Bytes} (hmsg : msg ≠ []) :
    (ls.foldl (fun msg l => if msg.isEmpty then msg ++ l else msg ++ [newline] ++ l) msg).head? =
      msg.head? := by
  induction ls generalizing msg with
  | nil => rfl
  | cons l ls ih =>
      have hstep : (if msg.isEmpty then msg ++ l else msg ++ [newline] ++ l).head? = msg.head? := by
        cases msg with
        | nil => exact absurd rfl hmsg
        | cons b msg => rfl
      have hne : (if msg.isEmpty then msg ++ l else msg ++ [newline] ++ l) ≠ [] := by
        cases msg with
        | nil => exact absurd rfl hmsg
        | cons b msg => simp
      rw [List.foldl_cons, ih hne, hstep]

/-- A message that was read back does not begin with a newline, as blank lines
before it are skipped. -/
theorem head?_commitMessageFromString (htrim : trim [] = []) (text : Bytes) :
    (commitMessageFromString strings trim text).message.head? ≠ some newline := by
  unfold commitMessageFromString
  dsimp only
  rw [strings.split_eq]
  generalize hheader : headerLine strings trim timePrefix _ = header
  have hsub : header.2 ⊆ splitLines text := by
    rw [← hheader]
    exact List.Subset.trans (headerLine_subset _ _) (headerLine_subset _ _)
  rcases hlines : header.2.dropWhile (fun l => (trim l).isEmpty) with _ | ⟨l, ls⟩
  · simp
  · have hl : l ∈ header.2 := (List.dropWhile_sublist _).subset (hlines ▸ List.mem_cons_self)
    have hne : l ≠ [] := by
      rintro rfl
      have hblank := List.head?_dropWhile_not (fun l => (trim l).isEmpty) header.2
      simp [hlines, htrim] at hblank
    have hnewline : newline ∉ l := newline_notMem_splitLines (hsub hl)
    rw [List.foldl_cons]
    simp only [List.isEmpty_nil, if_true, List.nil_append]
    rw [head?_foldl_lines ls hne]
    intro hhead
    exact hnewline (List.mem_of_mem_head? hhead)

end Trim
end Modify

/-! ## Signatures -/

/-- `is_crud`: the characters that are trimmed off a name or an email. -/
def isCrud (b : UInt8) : Bool := b ≤ 32 || (ascii ".,:;<>\"\\'").contains b

/-- `extract_trimmed`. -/
def extractTrimmed (s : Bytes) : Bytes := (s.dropWhile isCrud).rdropWhile isCrud

/-- A text that `git_signature_new` takes as it is: a C string that neither begins nor ends
with a character that is trimmed off. -/
def Clean (s : Bytes) : Prop :=
  (0 : UInt8) ∉ s ∧ (∀ b ∈ s.head?, isCrud b = false) ∧ ∀ b ∈ s.getLast?, isCrud b = false

theorem extractTrimmed_eq_self_iff (s : Bytes) :
    extractTrimmed s = s ↔
      (∀ b ∈ s.head?, isCrud b = false) ∧ ∀ b ∈ s.getLast?, isCrud b = false := by
  constructor
  · intro h
    have hlen : s.length ≤ (s.dropWhile isCrud).length := by
      have hshort := (List.rdropWhile_prefix isCrud (s.dropWhile isCrud)).length_le
      rwa [show (s.dropWhile isCrud).rdropWhile isCrud = s from h] at hshort
    have hfront : s.dropWhile isCrud = s :=
      (List.dropWhile_sublist isCrud).eq_of_length_le hlen
    have hback : s.rdropWhile isCrud = s := by
      unfold extractTrimmed at h
      rwa [hfront] at h
    constructor
    · intro b hb
      cases s with
      | nil => cases hb
      | cons a s =>
          cases hb
          have hnot := List.dropWhile_eq_self_iff.mp hfront (by simp)
          exact Bool.eq_false_of_not_eq_true hnot
    · intro b hb
      obtain ⟨hne, rfl⟩ := List.mem_getLast?_eq_getLast hb
      simpa using List.rdropWhile_eq_self_iff.mp hback hne
  · rintro ⟨hhead, hlast⟩
    have hfront : s.dropWhile isCrud = s := by
      refine List.dropWhile_eq_self_iff.mpr fun hpos => ?_
      cases s with
      | nil => cases hpos
      | cons a s => simpa using hhead a rfl
    have hback : s.rdropWhile isCrud = s := by
      refine List.rdropWhile_eq_self_iff.mpr fun hne => ?_
      simpa using hlast _ (List.getLast_mem_getLast? hne)
    unfold extractTrimmed
    rw [hfront, hback]

/-- A text is clean exactly when creating a signature keeps it. -/
theorem clean_iff (s : Bytes) : extractTrimmed (cString s) = s ↔ Clean s := by
  constructor
  · intro h
    have hlen : s.length ≤ (cString s).length := by
      have hback := (List.rdropWhile_prefix isCrud ((cString s).dropWhile isCrud)).length_le
      have hfront := (List.dropWhile_sublist isCrud (l := cString s)).length_le
      unfold extractTrimmed at h
      rw [h] at hback
      exact hback.trans hfront
    have hcString : cString s = s := (List.takeWhile_sublist _).eq_of_length_le hlen
    rw [hcString] at h
    refine ⟨?_, (extractTrimmed_eq_self_iff s).mp h⟩
    rw [← hcString]
    exact zero_notMem_cString s
  · rintro ⟨hnul, hends⟩
    rw [cString_eq_self hnul]
    exact (extractTrimmed_eq_self_iff s).mpr hends

/-- `Signature::Create` (`git_signature_new` on C strings). -/
def signatureCreate (name email : Bytes) (time : Time) : Except Exn Signature :=
  let name := cString name
  let email := cString email
  if name.contains 60 || name.contains 62 || email.contains 60 || email.contains 62 then
    .error (.gitError .other)
  else if (extractTrimmed name).isEmpty || (extractTrimmed email).isEmpty then
    .error (.gitError .other)
  else .ok ⟨extractTrimmed name, extractTrimmed email, time⟩

theorem signatureCreate_ok {name email : Bytes} {time : Time} {sig : Signature}
    (h : signatureCreate name email time = .ok sig) :
    sig = ⟨extractTrimmed (cString name), extractTrimmed (cString email), time⟩ := by
  unfold signatureCreate at h
  dsimp only at h
  split at h
  · cases h
  · split at h
    · cases h
    · exact (Except.ok.inj h).symm

end Git
end Debase
