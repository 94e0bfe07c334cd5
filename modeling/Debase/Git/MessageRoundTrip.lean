import Debase.Git.DateRoundTrip
import Debase.Git.World

/-!
# The text of a commit read back

`_CommitMessageFromString` reads the lines of a text: an author line, a date
line, blank lines, and the message.  Each line is trimmed before it is looked
at, so a header may be indented; the lines of the message come through as they
are.
-/

namespace Debase
namespace Git

open Toastbox

namespace Modify

section Trim

variable {strings : Strings} {trim : Bytes → Bytes}

/-! ## Trimmed lines -/

theorem TrimsSpace.blank (htrim : TrimsSpace trim) {l : Bytes} (hl : ∀ b ∈ l, isSpace b = true) :
    trim l = [] := by
  have hnil := htrim l [] [] hl (by simp) ⟨by simp, by simp⟩
  simpa using hnil

theorem TrimsSpace.tidy (htrim : TrimsSpace trim) {s : Bytes} (hs : Tidy s) : trim s = s := by
  have hsame := htrim [] s [] (by simp) (by simp) hs
  simpa using hsame

theorem TrimsSpace.before (htrim : TrimsSpace trim) {blank s : Bytes}
    (hblank : ∀ b ∈ blank, isSpace b = true) (hs : Tidy s) : trim (blank ++ s) = s := by
  have hsame := htrim blank s [] hblank (by simp) hs
  simpa using hsame

theorem TrimsSpace.after (htrim : TrimsSpace trim) {s blank : Bytes}
    (hblank : ∀ b ∈ blank, isSpace b = true) (hs : Tidy s) : trim (s ++ blank) = s := by
  have hsame := htrim [] s blank (by simp) hblank hs
  simpa using hsame

/-- Every text has a tidy middle. -/
theorem exists_tidy_middle (s : Bytes) :
    ∃ before middle after, s = before ++ middle ++ after ∧ (∀ b ∈ before, isSpace b = true) ∧
      (∀ b ∈ after, isSpace b = true) ∧ Tidy middle := by
  have hfirst : ∀ b ∈ (s.dropWhile isSpace).head?, isSpace b = false := by
    intro b hb
    have hnot := List.head?_dropWhile_not isSpace s
    rw [Option.mem_def.mp hb] at hnot
    simpa using hnot
  have hsplit : s.takeWhile isSpace ++ s.dropWhile isSpace = s := List.takeWhile_append_dropWhile
  generalize s.dropWhile isSpace = rest at hfirst hsplit
  refine ⟨s.takeWhile isSpace, rest.rdropWhile isSpace, rest.rtakeWhile isSpace, ?_, ?_, ?_, ?_, ?_⟩
  · rw [List.append_assoc, List.rdropWhile_append_rtakeWhile, hsplit]
  · intro b hb
    exact List.mem_takeWhile_imp hb
  · intro b hb
    exact List.mem_rtakeWhile_imp hb
  · intro b hb
    have htop : rest.rdropWhile isSpace <+: rest := List.rdropWhile_prefix isSpace rest
    obtain ⟨tail, htail⟩ := htop
    apply hfirst
    rw [← htail, List.head?_append, Option.mem_def.mp hb]
    rfl
  · intro b hb
    by_contra hspace
    have hne : rest.rdropWhile isSpace ≠ [] := by
      intro hnil
      rw [hnil] at hb
      simp at hb
    have hlast := List.rdropWhile_last_not isSpace rest hne
    rw [List.getLast?_eq_some_getLast hne] at hb
    obtain rfl := Option.some.inj hb
    exact hlast (by simpa using hspace)

/-- Trimming finds the tidy middle of a text. -/
theorem TrimsSpace.spec (htrim : TrimsSpace trim) (s : Bytes) :
    Tidy (trim s) ∧ ∃ before after, s = before ++ trim s ++ after ∧
      (∀ b ∈ before, isSpace b = true) ∧ ∀ b ∈ after, isSpace b = true := by
  obtain ⟨before, middle, after, hs, hbefore, hafter, hmiddle⟩ := exists_tidy_middle s
  have htrimmed : trim s = middle := by
    rw [hs]
    exact htrim before middle after hbefore hafter hmiddle
  rw [htrimmed]
  exact ⟨hmiddle, before, after, hs, hbefore, hafter⟩

/-- Nothing is left of blank texts, and only of those. -/
theorem TrimsSpace.eq_nil_iff (htrim : TrimsSpace trim) (s : Bytes) :
    trim s = [] ↔ ∀ b ∈ s, isSpace b = true := by
  constructor
  · intro hnil b hb
    obtain ⟨-, before, after, hs, hbefore, hafter⟩ := htrim.spec s
    rw [hnil, List.append_nil] at hs
    rw [hs] at hb
    rcases List.mem_append.mp hb with hb | hb
    · exact hbefore b hb
    · exact hafter b hb
  · exact htrim.blank

/-- A text around anything, with an end that is not blank on both sides. -/
theorem Tidy.between {s t : Bytes} (hs : Tidy s) (hne : s ≠ []) (ht : Tidy t) (hne' : t ≠ [])
    (mid : Bytes) : Tidy (s ++ (mid ++ t)) := by
  obtain ⟨b, s', rfl⟩ := List.exists_cons_of_ne_nil hne
  have hlast : (b :: s' ++ (mid ++ t)).getLast? = t.getLast? := by
    rw [← List.append_assoc, List.getLast?_append]
    cases ht' : t.getLast? with
    | none => exact absurd (List.getLast?_eq_none_iff.mp ht') hne'
    | some c => rfl
  constructor
  · intro c hc
    exact hs.1 c (by simpa using hc)
  · rw [hlast]
    exact ht.2

/-! ## Headers -/

theorem headerLine_found {pre l : Bytes} (ls : List Bytes)
    (h : startsWith pre (trim l) = true) :
    headerLine strings trim pre (l :: ls) = (some (trim ((trim l).drop pre.length)), ls) := by
  unfold headerLine
  simp [h]

theorem headerLine_other {pre l : Bytes} (ls : List Bytes)
    (h : startsWith pre (trim l) = false) (hl : trim l ≠ []) :
    headerLine strings trim pre (l :: ls) = (none, l :: ls) := by
  unfold headerLine
  simp [h, hl]

/-- Blank lines before a header are skipped. -/
theorem headerLine_blanks {pre : Bytes} (hpre : pre ≠ []) {blanks : List Bytes}
    (hblanks : ∀ l ∈ blanks, trim l = []) (ls : List Bytes) :
    headerLine strings trim pre (blanks ++ ls) = headerLine strings trim pre ls := by
  induction blanks with
  | nil => rfl
  | cons l blanks ih =>
      have hl : trim l = [] := hblanks l List.mem_cons_self
      have hno : startsWith pre [] = false := by
        cases pre with
        | nil => exact absurd rfl hpre
        | cons b pre => rfl
      rw [List.cons_append, headerLine, hl, strings.startsWith_eq, hno, if_neg (by simp),
        if_neg (by simp)]
      exact ih fun d hd => hblanks d (List.mem_cons_of_mem _ hd)

/-- The author line of a text. -/
def authorLine (author : CommitAuthor) : Bytes :=
  authorPrefix ++ ascii " " ++ author.name ++ ascii " <" ++ author.email ++ ascii ">"

/-- The date line of a text. -/
def timeLine (date : Bytes) : Bytes := timePrefix ++ ascii "   " ++ date

/-- An author that is read as it is printed. -/
structure CommitAuthor.Readable (author : CommitAuthor) : Prop where
  name : author.name ≠ [] ∧ Tidy author.name ∧ (60 : UInt8) ∉ author.name
  email : author.email ≠ [] ∧ Tidy author.email

/-- An author as it is printed. -/
def authorText (author : CommitAuthor) : Bytes :=
  author.name ++ (ascii " <" ++ (author.email ++ ascii ">"))

theorem authorLine_eq (author : CommitAuthor) :
    authorLine author = authorPrefix ++ (ascii " " ++ authorText author) := by
  simp only [authorLine, authorText, List.append_assoc]

/-- The first place of a byte is where the part without it ends. -/
theorem idxOf?_append_cons {b : UInt8} {s : Bytes} (hs : b ∉ s) (t : Bytes) :
    (s ++ b :: t).idxOf? b = some s.length := by
  induction s with
  | nil => simp [List.idxOf?_cons]
  | cons c s ih =>
      have hcb : c ≠ b := fun h => hs (h ▸ List.mem_cons_self)
      have hrest := ih fun h => hs (List.mem_cons_of_mem c h)
      rw [List.cons_append, List.idxOf?_cons, hrest]
      simp [hcb]

/-- The name ends at the first `<`, and the email at the `>` that ends the text. -/
theorem commitAuthorParse_split {name : Bytes} (hname : (60 : UInt8) ∉ name) (email : Bytes) :
    commitAuthorParse trim (name ++ 60 :: (email ++ [62])) =
      if (trim name).isEmpty then none
      else if (trim email).isEmpty then none
      else some ⟨trim name, trim email⟩ := by
  have hstart := idxOf?_append_cons hname (email ++ [62])
  have hend : (name ++ 60 :: (email ++ [62])).reverse.idxOf? 62 = some 0 := by
    have hreverse : (name ++ 60 :: (email ++ [62])).reverse =
        62 :: (name ++ 60 :: email).reverse := by simp
    rw [hreverse, List.idxOf?_cons]
    rfl
  have hlength : (name ++ 60 :: (email ++ [62])).length - 1 - 0 =
      name.length + 1 + email.length := by
    simp only [List.length_append, List.length_cons, List.length_nil]
    omega
  have htake : (name ++ 60 :: (email ++ [62])).take name.length = name := List.take_left
  have hdrop : (name ++ 60 :: (email ++ [62])).drop (name.length + 1) = email ++ [62] := by
    rw [← List.drop_drop, List.drop_left]
    rfl
  have hemail :
      (email ++ [62]).take (name.length + 1 + email.length - name.length - 1) = email := by
    have hcount : name.length + 1 + email.length - name.length - 1 = email.length := by omega
    rw [hcount, List.take_left]
  unfold commitAuthorParse
  rw [hstart, hend]
  dsimp only
  rw [hlength, htake, hdrop, hemail, if_neg (by omega)]

/-- A readable author is read as it is printed. -/
theorem commitAuthorParse_authorText (htrim : TrimsSpace trim) {author : CommitAuthor}
    (hauthor : author.Readable) : commitAuthorParse trim (authorText author) = some author := by
  obtain ⟨hname, htidy, hbracket⟩ := hauthor.name
  obtain ⟨hemail, htidyEmail⟩ := hauthor.email
  have hspaced : (60 : UInt8) ∉ author.name ++ [32] := by simp [hbracket]
  have htext : authorText author = (author.name ++ [32]) ++ 60 :: (author.email ++ [62]) := by
    simp [authorText, ascii]
  have htrimName : trim (author.name ++ [32]) = author.name :=
    htrim.after (List.all_eq_true.mp rfl) htidy
  rw [htext, commitAuthorParse_split hspaced, htrimName, htrim.tidy htidyEmail]
  simp [hname, hemail]

theorem startsWith_append (pre s : Bytes) : startsWith pre (pre ++ s) = true :=
  List.isPrefixOf_iff_prefix.mpr (List.prefix_append pre s)

theorem tidy_authorText {author : CommitAuthor} (hauthor : author.Readable) :
    Tidy (authorText author) ∧ authorText author ≠ [] := by
  obtain ⟨hname, htidy, -⟩ := hauthor.name
  have hclose : Tidy (ascii ">") := by decide
  have hmid := htidy.between hname hclose (by decide) (ascii " <" ++ author.email)
  rw [List.append_assoc] at hmid
  exact ⟨hmid, by simp [authorText, hname]⟩

/-- An author line is found and read. -/
theorem headerLine_authorLine (htrim : TrimsSpace trim) {author : CommitAuthor}
    (hauthor : author.Readable) (ls : List Bytes) :
    headerLine strings trim authorPrefix (authorLine author :: ls) =
      (some (authorText author), ls) := by
  obtain ⟨htidy, hne⟩ := tidy_authorText hauthor
  have hheader : Tidy authorPrefix := by decide
  have hline : trim (authorLine author) = authorPrefix ++ (ascii " " ++ authorText author) := by
    rw [authorLine_eq]
    exact htrim.tidy (hheader.between (by decide) htidy hne (ascii " "))
  have hstarts : startsWith authorPrefix (trim (authorLine author)) = true := by
    rw [hline]
    exact startsWith_append _ _
  rw [headerLine_found ls hstarts, hline, List.drop_left,
    htrim.before (List.all_eq_true.mp rfl) htidy]

/-- A date line is not an author line, and it is found and read. -/
theorem headerLine_timeLine (htrim : TrimsSpace trim) {date : Bytes} (hdate : Tidy date)
    (hne : date ≠ []) (ls : List Bytes) :
    headerLine strings trim authorPrefix (timeLine date :: ls) = (none, timeLine date :: ls) ∧
      headerLine strings trim timePrefix (timeLine date :: ls) = (some date, ls) := by
  have hheader : Tidy timePrefix := by decide
  have htext : timeLine date = timePrefix ++ (ascii "   " ++ date) := by
    simp only [timeLine, List.append_assoc]
  have hline : trim (timeLine date) = timePrefix ++ (ascii "   " ++ date) := by
    rw [htext]
    exact htrim.tidy (hheader.between (by decide) hdate hne (ascii "   "))
  constructor
  · apply headerLine_other
    · rw [hline]
      rfl
    · rw [hline]
      simp [timePrefix, ascii]
  · have hstarts : startsWith timePrefix (trim (timeLine date)) = true := by
      rw [hline]
      exact startsWith_append _ _
    rw [headerLine_found ls hstarts, hline, List.drop_left,
      htrim.before (List.all_eq_true.mp rfl) hdate]

/-! ## Messages -/

/-- The first line of a message. -/
def firstLine (message : Bytes) : Bytes := (splitLines message).headD []

/-- The lines of a message; an empty one has none. -/
def messageLines (message : Bytes) : List Bytes :=
  if message.isEmpty then [] else splitLines message

theorem messageLines_cons {message : Bytes} (hne : message ≠ []) :
    ∃ ls, messageLines message = firstLine message :: ls ∧
      joinLines (firstLine message :: ls) = message := by
  have hlines : messageLines message = splitLines message := by
    unfold messageLines
    rw [if_neg (by simpa using hne)]
  rcases hsplit : splitLines message with _ | ⟨l, ls⟩
  · have hempty : message = [] := by
      rw [← joinLines_splitLines message, hsplit]
      rfl
    exact absurd hempty hne
  · have hfirst : firstLine message = l := by
      unfold firstLine
      rw [hsplit]
      rfl
    refine ⟨ls, by rw [hlines, hsplit, hfirst], ?_⟩
    rw [hfirst, ← hsplit, joinLines_splitLines]

/-- Lines put behind a message that is not empty. -/
theorem foldl_lines (ls : List Bytes) {msg : Bytes} (hmsg : msg ≠ []) :
    ls.foldl (fun msg l => if msg.isEmpty then msg ++ l else msg ++ [newline] ++ l) msg =
      joinLines (msg :: ls) := by
  induction ls generalizing msg with
  | nil => simp [joinLines]
  | cons l ls ih =>
      have hnext : msg ++ [newline] ++ l ≠ [] := by simp
      have hmsg' : ¬msg.isEmpty = true := by simpa using hmsg
      rw [List.foldl_cons, if_neg hmsg', ih hnext]
      unfold joinLines
      cases ls with
      | nil => simp [List.intercalate]
      | cons l' ls => simp [List.intercalate]

/-- A message that does not begin with a blank line. -/
def Unindented (trim : Bytes → Bytes) (message : Bytes) : Prop :=
  message = [] ∨ trim (firstLine message) ≠ []

/-- Looking for a header ends at the message. -/
theorem headerLine_message {pre message : Bytes} (hpre : pre ≠ []) {blanks : List Bytes}
    (hblanks : ∀ l ∈ blanks, trim l = []) (hmsg : Unindented trim message)
    (hno : startsWith pre (trim (firstLine message)) = false) :
    headerLine strings trim pre (blanks ++ messageLines message) = (none, messageLines message) := by
  rw [headerLine_blanks hpre hblanks]
  by_cases hempty : message = []
  · rw [hempty]
    rfl
  · obtain ⟨ls, hlines, -⟩ := messageLines_cons hempty
    rw [hlines]
    exact headerLine_other ls hno (hmsg.resolve_left hempty)

/-- Skipping blank lines ends at the message. -/
theorem dropWhile_message {message : Bytes} {blanks : List Bytes}
    (hblanks : ∀ l ∈ blanks, trim l = []) (hmsg : Unindented trim message) :
    (blanks ++ messageLines message).dropWhile (fun l => (trim l).isEmpty) =
      messageLines message := by
  rw [List.dropWhile_append_of_pos fun l hl => by simp [hblanks l hl]]
  by_cases hempty : message = []
  · rw [hempty]
    rfl
  · obtain ⟨ls, hlines, -⟩ := messageLines_cons hempty
    rw [hlines, List.dropWhile_cons_of_neg]
    simpa using hmsg.resolve_left hempty

/-- The lines of a message are put together again. -/
theorem foldl_messageLines (htrim : TrimsSpace trim) {message : Bytes}
    (hmsg : Unindented trim message) :
    (messageLines message).foldl
        (fun msg l => if msg.isEmpty then msg ++ l else msg ++ [newline] ++ l) [] = message := by
  by_cases hempty : message = []
  · rw [hempty]
    rfl
  · obtain ⟨ls, hlines, hjoin⟩ := messageLines_cons hempty
    have hfirst : firstLine message ≠ [] := by
      intro hnil
      apply hmsg.resolve_left hempty
      rw [hnil]
      exact htrim.blank (by simp)
    rw [hlines, List.foldl_cons]
    exact (foldl_lines ls hfirst).trans hjoin

/-! ## Texts -/

/-- `_CommitMessageFromString` on the lines of the text. -/
def parseLines (strings : Strings) (trim : Bytes → Bytes) (lines : List Bytes) : CommitMessage :=
  let (authorStr, lines) := headerLine strings trim authorPrefix lines
  let (timeStr, lines) := headerLine strings trim timePrefix lines
  let lines := lines.dropWhile fun l => (trim l).isEmpty
  let msg := lines.foldl (fun msg l => if msg.isEmpty then msg ++ l else msg ++ [newline] ++ l) []
  ⟨authorStr.bind (commitAuthorParse trim), timeStr.bind commitTimeParse, msg⟩

theorem commitMessageFromString_eq (text : Bytes) :
    commitMessageFromString strings trim text = parseLines strings trim (splitLines text) := by
  rw [← strings.split_eq]
  rfl

/-- The lines of a text with an optional author line, an optional date line, blank
lines and a message. -/
def textLines (author : Option CommitAuthor) (date : Option Bytes) (blanks : List Bytes)
    (message : Bytes) : List Bytes :=
  author.toList.map authorLine ++ (date.toList.map timeLine ++ (blanks ++ messageLines message))

/-- When the first line of a message would be taken for a header that is not
there. -/
def Mistaken (trim : Bytes → Bytes) (author : Option CommitAuthor) (date : Option Bytes)
    (message : Bytes) : Prop :=
  (author = none ∧ startsWith authorPrefix (trim (firstLine message)) = true) ∨
    (date = none ∧ startsWith timePrefix (trim (firstLine message)) = true)

/-- The lines of a text are read as what they are. -/
theorem parseLines_textLines (htrim : TrimsSpace trim) {author : Option CommitAuthor}
    {date : Option Bytes} {blanks : List Bytes} {message : Bytes}
    (hauthor : ∀ a ∈ author, a.Readable) (hdate : ∀ d ∈ date, Tidy d ∧ d ≠ [])
    (hblanks : ∀ l ∈ blanks, trim l = []) (hmsg : Unindented trim message)
    (hheader : ¬Mistaken trim author date message) :
    parseLines strings trim (textLines author date blanks message) =
      ⟨author, date.bind commitTimeParse, message⟩ := by
  have hauthorPrefix : authorPrefix ≠ [] := by decide
  have htimePrefix : timePrefix ≠ [] := by decide
  obtain ⟨hnoAuthor, hnoTime⟩ := not_or.mp hheader
  -- what is left for the date line, which may have been reached already
  obtain ⟨blanks', hfirst, hblanks'⟩ : ∃ blanks',
      headerLine strings trim authorPrefix (textLines author date blanks message) =
        (author.map authorText, date.toList.map timeLine ++ (blanks' ++ messageLines message)) ∧
      ∀ l ∈ blanks', trim l = [] := by
    cases author with
    | some a =>
        refine ⟨blanks, ?_, hblanks⟩
        exact headerLine_authorLine htrim (hauthor a rfl) _
    | none =>
        cases date with
        | some d =>
            obtain ⟨htidy, hne⟩ := hdate d rfl
            exact ⟨blanks, (headerLine_timeLine htrim htidy hne _).1, hblanks⟩
        | none =>
            refine ⟨[], ?_, by simp⟩
            exact headerLine_message hauthorPrefix hblanks hmsg (by simpa using hnoAuthor)
  obtain ⟨blanks'', hsecond, hblanks''⟩ : ∃ blanks'',
      headerLine strings trim timePrefix
        (date.toList.map timeLine ++ (blanks' ++ messageLines message)) =
        (date, blanks'' ++ messageLines message) ∧ ∀ l ∈ blanks'', trim l = [] := by
    cases date with
    | some d =>
        obtain ⟨htidy, hne⟩ := hdate d rfl
        exact ⟨blanks', (headerLine_timeLine htrim htidy hne _).2, hblanks'⟩
    | none =>
        refine ⟨[], ?_, by simp⟩
        exact headerLine_message htimePrefix hblanks' hmsg (by simpa using hnoTime)
  unfold parseLines
  rw [hfirst]
  dsimp only
  rw [hsecond]
  dsimp only
  rw [dropWhile_message hblanks'' hmsg, foldl_messageLines htrim hmsg]
  cases author with
  | none => rfl
  | some a =>
      show CommitMessage.mk (commitAuthorParse trim (authorText a)) _ _ = _
      rw [commitAuthorParse_authorText htrim (hauthor a rfl)]

end Trim

/-- A text without white space is tidy. -/
theorem tidy_of_noSpace {s : Bytes} (hs : ∀ b ∈ s, isSpace b = false) : Tidy s :=
  ⟨fun b hb => hs b (List.mem_of_mem_head? hb), fun b hb => hs b (List.mem_of_getLast? hb)⟩

/-- A printed time is a line that trimming does not change. -/
theorem tidy_of_stringFromTime {t : Time} {date : Bytes} (h : stringFromTime t = .ok date) :
    (Tidy date ∧ date ≠ []) ∧ newline ∉ date := by
  cases hgm : gmtime (t.time + t.offset * 60) with
  | none =>
      unfold stringFromTime at h
      rw [hgm] at h
      cases h
  | some tm =>
      rw [stringFromTime_eq hgm] at h
      obtain rfl := Except.ok.inj h
      have htm : tm.Printable := printable_of_gmtime hgm
      obtain ⟨hlen, hword, -⟩ := weekdays_name ⟨tm.wday.toNat, by have := htm.wday; omega⟩
      obtain ⟨ds, hprint, hne, hds, -⟩ := printInt_eq false 2 (t.offset.tmod 60)
      have hfirst : Tidy (weekdays.getD tm.wday.toNat []) :=
        tidy_of_noSpace fun b hb => (hword b hb).1
      have hfirstNe : weekdays.getD tm.wday.toNat [] ≠ [] := by
        intro hnil
        rw [hnil] at hlen
        simp at hlen
      have hlast : Tidy ds := tidy_of_noSpace fun b hb => isSpace_of_isDigit (hds b hb)
      obtain ⟨mid, hmid⟩ : ∃ mid, dateLine tm (printZone t.offset) =
          weekdays.getD tm.wday.toNat [] ++ (mid ++ ds) := by
        unfold dateLine printZone
        rw [hprint]
        simp only [List.append_assoc]
        simp only [← List.append_assoc _ _ ds]
        exact ⟨_, rfl⟩
      refine ⟨?_, notMem_dateLine (Or.inr rfl) htm (notMem_printZone (Or.inr rfl) t.offset)⟩
      rw [hmid]
      exact ⟨hfirst.between hfirstNe hlast hne mid,
        fun hnil => hfirstNe (List.append_eq_nil_iff.mp hnil).1⟩

/-- An author, as far as the author line is concerned: read as it is printed, and
on one line. -/
def CommitAuthor.OnLine (author : CommitAuthor) : Prop :=
  author.Readable ∧ newline ∉ author.name ∧ newline ∉ author.email

/-- A message that is empty or has something on its first line. -/
def StartsText (message : Bytes) : Prop :=
  message = [] ∨ ∃ b ∈ firstLine message, isSpace b = false

theorem TrimsSpace.unindented {trim : Bytes → Bytes} (htrim : TrimsSpace trim) {message : Bytes} :
    Unindented trim message ↔ StartsText message := by
  unfold Unindented StartsText
  rw [ne_eq, htrim.eq_nil_iff]
  simp

/-- Lines of a text have no line ends. -/
theorem newline_notMem_textLines {author : Option CommitAuthor} {date : Option Bytes}
    {blanks : List Bytes} (message : Bytes) (hauthor : ∀ a ∈ author, a.OnLine)
    (hdate : ∀ d ∈ date, newline ∉ d) (hblanks : ∀ l ∈ blanks, newline ∉ l) :
    ∀ l ∈ textLines author date blanks message, newline ∉ l := by
  intro l hl
  unfold textLines at hl
  rcases List.mem_append.mp hl with hl | hl
  · obtain ⟨a, ha, rfl⟩ := List.mem_map.mp hl
    obtain ⟨-, hname, hemail⟩ := hauthor a (by simpa using ha)
    simpa [authorLine, authorPrefix, ascii, newline] using And.intro hname hemail
  rcases List.mem_append.mp hl with hl | hl
  · obtain ⟨d, hd, rfl⟩ := List.mem_map.mp hl
    have hline : newline ∉ d := hdate d (by simpa using hd)
    simpa [timeLine, timePrefix, ascii, newline] using hline
  rcases List.mem_append.mp hl with hl | hl
  · exact hblanks l hl
  · unfold messageLines at hl
    split at hl
    · simp at hl
    · exact newline_notMem_splitLines hl

/-- The text of these lines is read as what they are. -/
theorem commitMessageFromString_textLines {strings : Strings} {trim : Bytes → Bytes}
    (htrim : TrimsSpace trim) {author : Option CommitAuthor} {date : Option Bytes}
    {blanks : List Bytes} {message : Bytes}
    (hauthor : ∀ a ∈ author, a.OnLine) (hdate : ∀ d ∈ date, ∃ t, stringFromTime t = .ok d)
    (hblanks : ∀ l ∈ blanks, (∀ b ∈ l, isSpace b = true) ∧ newline ∉ l)
    (hmsg : StartsText message) (hheader : ¬Mistaken trim author date message) :
    commitMessageFromString strings trim (joinLines (textLines author date blanks message)) =
      ⟨author, date.bind commitTimeParse, message⟩ := by
  have hread := @parseLines_textLines strings trim htrim author date blanks message
    (fun a ha => (hauthor a ha).1)
    (fun d hd => (hdate d hd).elim fun _ ht => (tidy_of_stringFromTime ht).1)
    (fun l hl => htrim.blank (hblanks l hl).1) (htrim.unindented.mpr hmsg) hheader
  have hline := newline_notMem_textLines message hauthor
    (fun d hd => (hdate d hd).elim fun _ ht => (tidy_of_stringFromTime ht).2)
    (fun l hl => (hblanks l hl).2)
  rw [commitMessageFromString_eq, ← hread]
  by_cases hnone : textLines author date blanks message = []
  · -- no lines: the empty text has one blank line
    rw [hnone]
    show parseLines strings trim ([[]] ++ []) = parseLines strings trim []
    have hblank : ∀ l ∈ ([[]] : List Bytes), trim l = [] := by
      intro l hl
      rw [List.mem_singleton.mp hl]
      exact htrim.blank (by simp)
    unfold parseLines
    rw [headerLine_blanks (by decide) hblank]
  · rw [splitLines_joinLines hnone hline]

/-- The text that `_StringFromCommitMessage` makes, in lines. -/
theorem stringFromCommitMessage_lines {author : CommitAuthor} {time : Time} {message text : Bytes}
    (h : stringFromCommitMessage ⟨some author, some time, message⟩ = .ok text) :
    ∃ date, stringFromTime time = .ok date ∧ ∃ blanks, (∀ l ∈ blanks, l = []) ∧
      text = joinLines (textLines (some author) (some date) blanks message) := by
  unfold stringFromCommitMessage at h
  rcases hdate : stringFromTime time with e | date
  · simp [hdate, bind, Except.bind] at h
  · simp only [hdate, bind, Except.bind] at h
    obtain rfl := Except.ok.inj h
    refine ⟨date, rfl, ?_⟩
    by_cases hempty : message = []
    · subst hempty
      refine ⟨[[], []], by simp, ?_⟩
      simp [textLines, messageLines, joinLines, List.intercalate, authorLine, timeLine]
    · obtain ⟨ls, hlines, hjoin⟩ := messageLines_cons hempty
      refine ⟨[[]], by simp, ?_⟩
      have hrest : joinLines (authorLine author :: timeLine date :: [] :: messageLines message) =
          authorLine author ++ [newline] ++ timeLine date ++ [newline] ++ [newline] ++
            joinLines (messageLines message) := by
        rw [hlines]
        simp [joinLines, List.intercalate]
      show _ = joinLines (authorLine author :: timeLine date :: [] :: messageLines message)
      rw [hrest, hlines, hjoin]
      simp [authorLine, timeLine]

/-- The text that `_StringFromCommitMessage` makes reads as it was, up to the time. -/
theorem commitMessageFromString_printed {strings : Strings} {trim : Bytes → Bytes}
    (htrim : TrimsSpace trim) {author : CommitAuthor} {time : Time} {message text : Bytes}
    (hauthor : author.OnLine) (hmsg : StartsText message)
    (htext : stringFromCommitMessage ⟨some author, some time, message⟩ = .ok text) :
    commitMessageFromString strings trim text =
      ⟨some author, (stringFromTime time >>= timeFromString).toOption, message⟩ := by
  obtain ⟨date, hdate, blanks, hblanks, rfl⟩ := stringFromCommitMessage_lines htext
  have hread := @commitMessageFromString_textLines strings trim htrim (some author) (some date)
    blanks message (by simpa using hauthor)
    (by simpa using ⟨time, hdate⟩) (fun l hl => by simp [hblanks l hl]) hmsg (by simp [Mistaken])
  rw [hread, hdate]
  rfl

/-- Texts with headers, blank lines and a message are read as what they are, as
long as the first line of the message, trimmed, does not begin like a header that
is not there; and reading undoes printing up to the date codec. -/
theorem commitMessageFromString_text {strings : Strings} {trim : Bytes → Bytes}
    (htrim : TrimsSpace trim) :
    (∀ (author : Option CommitAuthor) (date : Option Bytes) (blanks : List Bytes)
        (message : Bytes), (∀ a ∈ author, a.OnLine) → (∀ d ∈ date, ∃ t, stringFromTime t = .ok d) →
        (∀ l ∈ blanks, (∀ b ∈ l, isSpace b = true) ∧ newline ∉ l) → StartsText message →
        ¬Mistaken trim author date message →
        commitMessageFromString strings trim (joinLines (textLines author date blanks message)) =
          ⟨author, date.bind fun d => (timeFromString d).toOption, message⟩) ∧
      ∀ (author : CommitAuthor) (time : Time) (message text : Bytes), author.OnLine →
        StartsText message →
        stringFromCommitMessage ⟨some author, some time, message⟩ = .ok text →
        commitMessageFromString strings trim text =
          ⟨some author, (stringFromTime time >>= timeFromString).toOption, message⟩ := by
  constructor
  · intro author date blanks message hauthor hdate hblanks hmsg hheader
    exact commitMessageFromString_textLines htrim hauthor hdate hblanks hmsg hheader
  · intro author time message text hauthor hmsg htext
    exact commitMessageFromString_printed htrim hauthor hmsg htext

/-- A message that begins with an indented author line. -/
def indented : Bytes := ascii "  Author: a <a@a>"

/-- The message does not begin with a header, and without headers before it, its
first line is still read as one. -/
theorem indented_misread :
    TrimsSpace (plainEnv []).trim ∧ StartsText indented ∧ startsWith authorPrefix indented = false ∧
      startsWith timePrefix indented = false ∧
      commitMessageFromString .plain (plainEnv []).trim
          (joinLines (textLines none none [] indented)) =
        ⟨some ⟨ascii "a", ascii "a@a"⟩, none, []⟩ := by
  exact ⟨plainEnv_trimsSpace [], Or.inr ⟨65, by decide, by decide⟩, by decide, by decide,
    by decide⟩

/-- A text without an author line. -/
theorem commitMessageFromString_dateOnly :
    TrimsSpace (plainEnv []).trim ∧
      commitMessageFromString .plain (plainEnv []).trim
          (joinLines (textLines none (some (ascii "Thu Jan 1 01:00:00 1970 +0100")) []
            (ascii "text"))) =
        ⟨none, (some (ascii "Thu Jan 1 01:00:00 1970 +0100")).bind
          fun d => (timeFromString d).toOption, ascii "text"⟩ :=
  ⟨plainEnv_trimsSpace [], (commitMessageFromString_text (plainEnv_trimsSpace [])).1 none _ []
    (ascii "text") (by simp) (by simpa using ⟨⟨0, 60⟩, by decide⟩) (by simp)
    (Or.inr ⟨116, by decide, by decide⟩) (by unfold Mistaken; decide)⟩

end Modify
end Git
end Debase
