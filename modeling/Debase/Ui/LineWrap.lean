import Debase.Library.Words
import Debase.UTF8
import Debase.Git.Date

/-!
# LineWrap.h

`Wrap` breaks a text into lines of at most `width` code points.  A word that is longer than a
line is split, with its tail put back in front of the words that are left.  Lengths count code
points, but a split cuts at a byte.
-/

namespace Debase
namespace Ui
namespace LineWrap

open Git Library Library.Utf8

/-- `Options`, with `none` for `SIZE_MAX`. -/
structure Options where
  width : Option Nat := none
  height : Option Nat := none
  allowEmptyLines : Bool := false

/-- What stops the program. -/
inductive Fault where
  /-- `opts.width-UTF8::Len(msgline)` is negative. -/
  | underflow
  /-- `assert(UTF8::Len(line) > opts.width)`. -/
  | assertFailed
deriving DecidableEq

/-- The words of each line that is wrapped. -/
def linesInput (allowEmptyLines : Bool) (str : Bytes) : List (List Bytes) :=
  ((lines (· = 10) str).filter fun line => allowEmptyLines || line ≠ []).map (words isSpace)

/-- `add`: the word, with a space in front where the line has begun. -/
def addition (msgline word : Bytes) : Bytes := (if msgline.isEmpty then [] else [32]) ++ word

/-- `head` of a word that is split: what fits on the line. -/
def splitHead (width : Nat) (msgline word : Bytes) : Bytes :=
  (addition msgline word).take (width - len msgline)

/-- `tail` of a word that is split: what comes next, as many bytes as the word has code points
left. -/
def splitTail (width : Nat) (msgline word : Bytes) : Bytes :=
  ((addition msgline word).drop (width - len msgline)).take
    (len (addition msgline word) - (width - len msgline))

/-- The inner loop: words are added to the line until one does not fit.  The result are the line
and the words that are left. -/
def wrapWords (width : Nat) : Nat → Bytes → List Bytes → Option (Except Fault (Bytes × List Bytes))
  | 0, _, _ => none
  | _ + 1, msgline, [] => some (.ok (msgline, []))
  | fuel + 1, msgline, word :: lineInput =>
      let wordLen := len word
      let add := addition msgline word
      let addLen := len add
      if width < len msgline then some (.error .underflow)
      else
        let rem := width - len msgline
        if rem = 0 then some (.ok (msgline, word :: lineInput))
        else if rem < addLen then
          if wordLen ≤ width then some (.ok (msgline, word :: lineInput))
          else
            wrapWords width fuel (msgline ++ splitHead width msgline word)
              (splitTail width msgline word :: lineInput)
        else wrapWords width fuel (msgline ++ add) lineInput

/-- What follows the outer loop: as many bytes of the next word as fit on the last line. -/
def wrapEnd (width : Nat) (lines : List Bytes) (lastLine : List Bytes) :
    Except Fault (List Bytes) :=
  match lastLine with
  | [] => .ok lines
  | word :: _ =>
      let line := lines.getLastD []
      let line := line ++ addition line word
      if width < len line then .ok (lines.dropLast ++ [line.take width])
      else .error .assertFailed

/-- Whether there is room for another line. -/
def hasRoom (height : Option Nat) (lines : List Bytes) : Bool :=
  height.all fun height => lines.length < height

/-- The outer loop: a line is begun while there is room and something to wrap.  `lastLine` are
the words that are left of the line wrapped last. -/
def wrapLines (width : Nat) (height : Option Nat) :
    Nat → List Bytes → List (List Bytes) → List Bytes → Option (Except Fault (List Bytes))
  | 0, _, _, _ => none
  | _ + 1, lines, [], lastLine => some (wrapEnd width lines lastLine)
  | fuel + 1, lines, lineInput :: linesInput, lastLine =>
      if hasRoom height lines then
        match wrapWords width fuel [] lineInput with
        | none => none
        | some (.error e) => some (.error e)
        | some (.ok (msgline, [])) => wrapLines width height fuel (lines ++ [msgline]) linesInput []
        | some (.ok (msgline, word :: rest)) =>
            wrapLines width height fuel (lines ++ [msgline]) ((word :: rest) :: linesInput)
              (word :: rest)
      else some (wrapEnd width lines lastLine)

/-- `Wrap`, if it ends within so many turns of its loops. -/
def wrap (fuel : Nat) (opts : Options) (str : Bytes) : Option (Except Fault (List Bytes)) :=
  match opts.width with
  | none => some (.ok [str])
  | some width =>
      wrapLines width opts.height fuel [] (linesInput opts.allowEmptyLines str) []

/-! ## The inner loop ends -/

theorem len_take_le (k : Nat) (bs : Bytes) : len (bs.take k) ≤ k :=
  (len_le_length _).trans (List.length_take_le k bs)

theorem len_addition (msgline word : Bytes) :
    len (addition msgline word) = len word + if msgline = [] then 0 else 1 := by
  unfold addition
  rcases msgline with _ | ⟨b, msgline⟩
  · simp
  · rw [if_neg (List.cons_ne_nil b msgline), len_append, Nat.add_comm]
    rfl

/-- How much is left of a line: its bytes and its words. -/
def weight : List Bytes → Nat
  | [] => 0
  | word :: lineInput => word.length + 1 + weight lineInput

@[simp] theorem weight_nil : weight [] = 0 := rfl

@[simp] theorem weight_cons (word : Bytes) (lineInput : List Bytes) :
    weight (word :: lineInput) = word.length + 1 + weight lineInput := rfl

/-- The next word does not fit on the line. -/
def Full (width : Nat) (msgline : Bytes) (lineInput : List Bytes) : Prop :=
  ∀ word ∈ lineInput.head?,
    width = 0 ∧ msgline = [] ∨ width < len (msgline ++ addition msgline word)

/-- A turn of the inner loop: it ends, splits the word, or adds it. -/
inductive Turn (width : Nat) (msgline word : Bytes) (lineInput : List Bytes) : Prop
  | ends (full : Full width msgline (word :: lineInput)) (begun : msgline = [] → width = 0)
      (eq : ∀ fuel, wrapWords width (fuel + 1) msgline (word :: lineInput) =
        some (.ok (msgline, word :: lineInput)))
  | splits (room : len msgline < width) (long : width < len word)
      (eq : ∀ fuel, wrapWords width (fuel + 1) msgline (word :: lineInput) =
        wrapWords width fuel (msgline ++ splitHead width msgline word)
          (splitTail width msgline word :: lineInput))
  | adds (fits : len (msgline ++ addition msgline word) ≤ width)
      (eq : ∀ fuel, wrapWords width (fuel + 1) msgline (word :: lineInput) =
        wrapWords width fuel (msgline ++ addition msgline word) lineInput)

theorem wrapWords_turn {width : Nat} {msgline : Bytes} (hlen : len msgline ≤ width) (word : Bytes)
    (lineInput : List Bytes) : Turn width msgline word lineInput := by
  have hadd := len_addition msgline word
  have happend : len (msgline ++ addition msgline word) =
      len msgline + len (addition msgline word) :=
    len_append _ _
  have hunder : ¬width < len msgline := Nat.not_lt.mpr hlen
  by_cases hrem : width - len msgline = 0
  · refine .ends ?_ ?_ fun fuel => by simp only [wrapWords, if_neg hunder, if_pos hrem]
    · rintro _ ⟨⟩
      by_cases hempty : msgline = []
      · subst hempty
        exact Or.inl ⟨by simpa using hrem, rfl⟩
      · rw [if_neg hempty] at hadd
        exact Or.inr (by omega)
    · rintro rfl
      simpa using hrem
  · by_cases hover : width - len msgline < len (addition msgline word)
    · by_cases hfits : len word ≤ width
      · refine .ends ?_ ?_ fun fuel => by
          simp only [wrapWords, if_neg hunder, if_neg hrem, if_pos hover, if_pos hfits]
        · rintro _ ⟨⟩
          exact Or.inr (by omega)
        · rintro rfl
          rw [if_pos rfl] at hadd
          rw [len_nil] at hover
          omega
      · refine .splits (by omega) (Nat.not_le.mp hfits) fun fuel => ?_
        simp only [wrapWords, if_neg hunder, if_neg hrem, if_pos hover, if_neg hfits]
    · refine .adds (by omega) fun fuel => ?_
      simp only [wrapWords, if_neg hunder, if_neg hrem, if_neg hover]

theorem len_splitHead (width : Nat) (msgline word : Bytes) :
    len (splitHead width msgline word) ≤ width - len msgline :=
  len_take_le _ _

/-- A split takes from the word, or adds the space in front of it to the line. -/
theorem length_splitTail {width : Nat} {msgline word : Bytes} (hroom : len msgline < width)
    (hlong : width < len word) :
    (splitTail width msgline word).length ≤ word.length ∧
      (splitTail width msgline word).length +
          (width - len (msgline ++ splitHead width msgline word)) <
        word.length + (width - len msgline) ∧
      (msgline = [] → (splitTail width msgline word).length < word.length) := by
  have htail : (splitTail width msgline word).length ≤
      len (addition msgline word) - (width - len msgline) := List.length_take_le _ _
  have hword := len_le_length word
  have hadd := len_addition msgline word
  rw [len_append]
  by_cases hempty : msgline = []
  · rw [if_pos hempty] at hadd
    exact ⟨by omega, by omega, fun _ => by omega⟩
  · rw [if_neg hempty] at hadd
    have hspace : 0 < len (splitHead width msgline word) := by
      obtain ⟨k, hk⟩ : ∃ k, width - len msgline = k + 1 := ⟨width - len msgline - 1, by omega⟩
      have hfirst : addition msgline word = 32 :: word := by
        rw [addition, if_neg (by simpa using hempty)]
        rfl
      rw [splitHead, hk, hfirst, List.take_succ_cons, len_cons_start (by decide)]
      omega
    exact ⟨by omega, by omega, fun hnil => absurd hnil hempty⟩

/-- What the inner loop leaves behind. -/
structure LineDone (width : Nat) (msgline : Bytes) (lineInput : List Bytes) (msgline' : Bytes)
    (lineInput' : List Bytes) : Prop where
  fits : len msgline' ≤ width
  full : Full width msgline' lineInput'
  less : weight lineInput' ≤ weight lineInput
  progress : msgline = [] → 0 < width → lineInput ≠ [] → weight lineInput' < weight lineInput

/-- A line to which one more word was added. -/
theorem LineDone.step {width : Nat} {msgline₁ msgline msgline' : Bytes}
    {lineInput₁ lineInput lineInput' : List Bytes}
    (h : LineDone width msgline₁ lineInput₁ msgline' lineInput')
    (hless : weight lineInput₁ ≤ weight lineInput)
    (hprogress : msgline = [] → weight lineInput₁ < weight lineInput) :
    LineDone width msgline lineInput msgline' lineInput' where
  fits := h.fits
  full := h.full
  less := h.less.trans hless
  progress hempty _ _ := Nat.lt_of_le_of_lt h.less (hprogress hempty)

theorem wrapWords_ends {width fuel : Nat} {msgline : Bytes} {lineInput : List Bytes}
    (hlen : len msgline ≤ width) (hfuel : weight lineInput + (width - len msgline) < fuel) :
    ∃ msgline' lineInput', wrapWords width fuel msgline lineInput =
        some (.ok (msgline', lineInput')) ∧
      LineDone width msgline lineInput msgline' lineInput' := by
  induction fuel generalizing msgline lineInput with
  | zero => exact absurd hfuel (Nat.not_lt_zero _)
  | succ fuel ih =>
      rcases lineInput with _ | ⟨word, lineInput⟩
      · refine ⟨msgline, [], rfl, hlen, ?_, Nat.le_refl _, fun _ _ hne => absurd rfl hne⟩
        intro word hno
        cases hno
      · rw [weight_cons] at hfuel
        cases wrapWords_turn hlen word lineInput with
        | ends full begun eq =>
            refine ⟨msgline, word :: lineInput, eq fuel, hlen, full, Nat.le_refl _, ?_⟩
            intro hempty hpos
            rw [begun hempty] at hpos
            cases hpos
        | splits room long eq =>
            obtain ⟨htail, hless, hstart⟩ := length_splitTail room long
            have hhead := len_splitHead width msgline word
            have hnext : len (msgline ++ splitHead width msgline word) ≤ width := by
              rw [len_append]
              omega
            have hfuel' : weight (splitTail width msgline word :: lineInput) +
                (width - len (msgline ++ splitHead width msgline word)) < fuel := by
              rw [weight_cons]
              omega
            obtain ⟨msgline', lineInput', heq, hdone⟩ := ih hnext hfuel'
            refine ⟨msgline', lineInput', (eq fuel).trans heq, hdone.step ?_ fun hempty => ?_⟩
            · rw [weight_cons, weight_cons]
              omega
            · have hshort := hstart hempty
              rw [weight_cons, weight_cons]
              omega
        | adds fits eq =>
            have hfuel' : weight lineInput + (width - len (msgline ++ addition msgline word)) <
                fuel := by
              rw [len_append]
              omega
            obtain ⟨msgline', lineInput', heq, hdone⟩ := ih fits hfuel'
            refine ⟨msgline', lineInput', (eq fuel).trans heq, hdone.step ?_ fun _ => ?_⟩
            · rw [weight_cons]
              omega
            · rw [weight_cons]
              omega

/-! ## The outer loop ends -/

/-- The line that was wrapped stays in front if words of it are left. -/
def requeue : List Bytes → List (List Bytes) → List (List Bytes)
  | [], linesInput => linesInput
  | word :: rest, linesInput => (word :: rest) :: linesInput

theorem wrapLines_turn {width fuel : Nat} {height : Option Nat} {lines : List Bytes}
    (hroom : hasRoom height lines = true) {lineInput left : List Bytes} {msgline : Bytes}
    (hline : wrapWords width fuel [] lineInput = some (.ok (msgline, left)))
    (linesInput : List (List Bytes)) (lastLine : List Bytes) :
    wrapLines width height (fuel + 1) lines (lineInput :: linesInput) lastLine =
      wrapLines width height fuel (lines ++ [msgline]) (requeue left linesInput) left := by
  rw [wrapLines, if_pos hroom, hline]
  cases left <;> rfl

theorem wrapLines_stop {width fuel : Nat} {height : Option Nat} {lines : List Bytes}
    {linesInput : List (List Bytes)} (hstop : linesInput = [] ∨ hasRoom height lines = false)
    (lastLine : List Bytes) :
    wrapLines width height (fuel + 1) lines linesInput lastLine =
      some (wrapEnd width lines lastLine) := by
  cases linesInput with
  | nil => rfl
  | cons lineInput linesInput =>
      rw [wrapLines, if_neg (by simpa using hstop.resolve_left (List.cons_ne_nil _ _))]

theorem hasRoom_iff (height : Option Nat) (lines : List Bytes) :
    hasRoom height lines = true ↔ ∀ h, height = some h → lines.length < h := by
  cases height <;> simp [hasRoom]

/-- What holds of the lines between turns of the outer loop, and what the end relies on. -/
structure Wrapped (width : Nat) (height : Option Nat) (lines : List Bytes)
    (lastLine : List Bytes) : Prop where
  fits : ∀ l ∈ lines, len l ≤ width
  room : ∀ h, height = some h → lines.length ≤ h
  begun : lastLine ≠ [] → lines ≠ []
  full : ∀ word ∈ lastLine.head?,
    width < len (lines.getLastD [] ++ addition (lines.getLastD []) word)

/-- The lines are as many as fit, and none of them is too long. -/
def Bounded (width height : Option Nat) (lines : List Bytes) : Prop :=
  (∀ h, height = some h → lines.length ≤ h) ∧ ∀ w, width = some w → ∀ l ∈ lines, len l ≤ w

theorem Wrapped.ends {width : Nat} {height : Option Nat} {lines lastLine : List Bytes}
    (h : Wrapped width height lines lastLine) :
    ∃ r, wrapEnd width lines lastLine = .ok r ∧ Bounded (some width) height r := by
  rcases lastLine with _ | ⟨word, rest⟩
  · refine ⟨lines, rfl, h.room, ?_⟩
    rintro w ⟨⟩
    exact h.fits
  · have hne := h.begun (List.cons_ne_nil _ _)
    refine ⟨_, if_pos (h.full word rfl), fun k hk => ?_, ?_⟩
    · rw [List.length_append, List.length_dropLast, List.length_singleton,
        Nat.sub_add_cancel (List.length_pos_iff.mpr hne)]
      exact h.room k hk
    · rintro w ⟨⟩ l hl
      rcases List.mem_append.mp hl with hl | hl
      · exact h.fits l (List.dropLast_subset _ hl)
      · rw [List.mem_singleton.mp hl]
        exact len_take_le _ _

/-- One more line. -/
theorem Wrapped.line {width : Nat} {height : Option Nat} {lines lastLine : List Bytes}
    (h : Wrapped width height lines lastLine) (hroom : hasRoom height lines = true)
    {msgline : Bytes} {left : List Bytes} (hfits : len msgline ≤ width)
    (hfull : ∀ word ∈ left.head?, width < len (msgline ++ addition msgline word)) :
    Wrapped width height (lines ++ [msgline]) left where
  fits l hl := by
    rcases List.mem_append.mp hl with hl | hl
    · exact h.fits l hl
    · rwa [List.mem_singleton.mp hl]
  room k hk := by
    rw [List.length_append, List.length_singleton]
    exact (hasRoom_iff height lines).mp hroom k hk
  begun _ := by simp
  full := by
    rw [List.getLastD_concat]
    exact hfull

theorem wrapped_start (width : Nat) (height : Option Nat) : Wrapped width height [] [] where
  fits := List.forall_mem_nil _
  room _ _ := Nat.zero_le _
  begun hne := absurd rfl hne
  full _ hno := by cases hno

/-- How much is left to wrap. -/
def weightLines : List (List Bytes) → Nat
  | [] => 0
  | lineInput :: linesInput => weight lineInput + 1 + weightLines linesInput

@[simp] theorem weightLines_cons (lineInput : List Bytes) (linesInput : List (List Bytes)) :
    weightLines (lineInput :: linesInput) = weight lineInput + 1 + weightLines linesInput := rfl

/-- Lines of at least one column: each turn takes a line or a part of it. -/
theorem wrapLines_ends {width : Nat} (hwidth : 0 < width) {height : Option Nat} {fuel : Nat}
    {lines lastLine : List Bytes} {linesInput : List (List Bytes)}
    (h : Wrapped width height lines lastLine) (hfuel : weightLines linesInput + width + 1 < fuel) :
    ∃ r, wrapLines width height fuel lines linesInput lastLine = some (.ok r) ∧
      Bounded (some width) height r := by
  induction fuel generalizing lines linesInput lastLine with
  | zero => exact absurd hfuel (Nat.not_lt_zero _)
  | succ fuel ih =>
      by_cases hstop : linesInput = [] ∨ hasRoom height lines = false
      · obtain ⟨r, hr, hbounded⟩ := h.ends
        exact ⟨r, by rw [wrapLines_stop hstop, hr], hbounded⟩
      · rw [not_or, Bool.not_eq_false] at hstop
        rcases linesInput with _ | ⟨lineInput, linesInput⟩
        · exact absurd rfl hstop.1
        · rw [weightLines_cons] at hfuel
          have hnil : len ([] : Bytes) ≤ width := Nat.zero_le _
          have hfuel' : weight lineInput + (width - len ([] : Bytes)) < fuel := by
            rw [len_nil]
            omega
          obtain ⟨msgline, left, hline, hdone⟩ := wrapWords_ends hnil hfuel'
          rw [wrapLines_turn hstop.2 hline]
          refine ih (h.line hstop.2 hdone.fits fun word hword => ?_) ?_
          · exact (hdone.full word hword).resolve_left fun hzero => by omega
          · rcases left with _ | ⟨word, left⟩
            · show weightLines linesInput + width + 1 < fuel
              omega
            · have hless := hdone.progress rfl hwidth (by
                rintro rfl
                have hnone := hdone.less
                rw [weight_cons, weight_nil] at hnone
                omega)
              show weightLines ((word :: left) :: linesInput) + width + 1 < fuel
              rw [weightLines_cons]
              omega

/-! ## Lines of no column -/

theorem wrapWords_zero (fuel : Nat) (lineInput : List Bytes) :
    wrapWords 0 (fuel + 1) [] lineInput = some (.ok ([], lineInput)) := by
  cases lineInput <;> simp [wrapWords]

/-- What holds between turns of the outer loop where lines have no column. -/
structure Zero (height : Option Nat) (lines : List Bytes) (linesInput : List (List Bytes))
    (lastLine : List Bytes) : Prop where
  empty : ∀ l ∈ lines, l = []
  room : ∀ h, height = some h → lines.length ≤ h
  last : lastLine ≠ [] → lines ≠ [] ∧ linesInput.head? = some lastLine

/-- The lines that are left before the first word. -/
def blank (linesInput : List (List Bytes)) : Nat := (linesInput.takeWhile List.isEmpty).length

/-- The loop stops before it comes to a word, or the word leaves something on the last line. -/
def ZeroEnds (height : Option Nat) (lines : List Bytes) (linesInput : List (List Bytes))
    (lastLine : List Bytes) : Prop :=
  ∀ word ∈ linesInput.flatten.head?, ∃ h, height = some h ∧
    (lastLine = [] ∧ h ≤ lines.length + blank linesInput ∨ 0 < len word)

theorem Zero.turn {height : Option Nat} {lines lineInput lastLine : List Bytes}
    {linesInput : List (List Bytes)} (h : Zero height lines (lineInput :: linesInput) lastLine)
    (hroom : hasRoom height lines = true) :
    Zero height (lines ++ [[]]) (requeue lineInput linesInput) lineInput where
  empty l hl := by
    rcases List.mem_append.mp hl with hl | hl
    · exact h.empty l hl
    · exact List.mem_singleton.mp hl
  room k hk := by
    rw [List.length_append, List.length_singleton]
    exact (hasRoom_iff height lines).mp hroom k hk
  last hne := by
    refine ⟨by simp, ?_⟩
    rcases lineInput with _ | ⟨word, rest⟩
    · exact absurd rfl hne
    · rfl

theorem zeroEnds_turn {height : Option Nat} {lines lineInput lastLine : List Bytes}
    {linesInput : List (List Bytes)} (h : Zero height lines (lineInput :: linesInput) lastLine)
    (hroom : hasRoom height lines = true) :
    ZeroEnds height lines (lineInput :: linesInput) lastLine ↔
      ZeroEnds height (lines ++ [[]]) (requeue lineInput linesInput) lineInput := by
  rcases lineInput with _ | ⟨word, rest⟩
  · -- an empty line
    have hlast : lastLine = [] := by
      by_contra hne
      exact hne (Option.some.inj (h.last hne).2).symm
    subst hlast
    have hcount : lines.length + blank ([] :: linesInput) =
        (lines ++ [[]]).length + blank linesInput := by
      rw [blank, List.takeWhile_cons_of_pos rfl, List.length_cons, List.length_append,
        List.length_singleton, blank]
      omega
    unfold ZeroEnds
    rw [hcount]
    rfl
  · -- a word, which never fits
    unfold ZeroEnds
    refine forall₂_congr fun first hfirst => exists_congr fun k => and_congr_right fun hk => ?_
    have hlt := (hasRoom_iff height lines).mp hroom k hk
    constructor
    · rintro (⟨-, hle⟩ | hpos)
      · exact absurd hle (Nat.not_le.mpr hlt)
      · exact Or.inr hpos
    · rintro (⟨hno, -⟩ | hpos)
      · exact absurd hno (List.cons_ne_nil _ _)
      · exact Or.inr hpos

/-- Where the loop stops, the assertion holds if the word left something on the last line. -/
theorem Zero.stop {height : Option Nat} {lines lastLine : List Bytes}
    {linesInput : List (List Bytes)} (h : Zero height lines linesInput lastLine)
    (hstop : linesInput = [] ∨ hasRoom height lines = false) :
    ZeroEnds height lines linesInput lastLine ↔ Wrapped 0 height lines lastLine := by
  have hback : lines.getLastD [] = [] := by
    rcases List.eq_nil_or_concat lines with rfl | ⟨init, l, rfl⟩
    · rfl
    · rw [List.concat_eq_append, List.getLastD_concat]
      exact h.empty l (by simp)
  have hfits : ∀ l ∈ lines, len l ≤ 0 := fun l hl => by rw [h.empty l hl, len_nil]
  constructor
  · intro hends
    refine ⟨hfits, h.room, fun hne => (h.last hne).1, fun word hword => ?_⟩
    rcases lastLine with _ | ⟨first, rest⟩
    · cases hword
    · cases hword
      obtain ⟨-, hfront⟩ := h.last (List.cons_ne_nil _ _)
      rcases linesInput with _ | ⟨lineInput, linesInput⟩
      · cases hfront
      · cases hfront
        obtain ⟨k, -, ⟨hno, -⟩ | hpos⟩ := hends word rfl
        · exact absurd hno (List.cons_ne_nil _ _)
        · rw [hback]
          exact hpos
  · intro hwrapped word hword
    rcases hstop with rfl | hstop
    · cases hword
    · obtain ⟨k, hk, hle⟩ : ∃ k, height = some k ∧ k ≤ lines.length := by
        rcases height with _ | k
        · cases hstop
        · exact ⟨k, rfl, by simpa [hasRoom] using hstop⟩
      refine ⟨k, hk, ?_⟩
      rcases lastLine with _ | ⟨first, rest⟩
      · exact Or.inl ⟨rfl, by omega⟩
      · have hfull := hwrapped.full first rfl
        obtain ⟨-, hfront⟩ := h.last (List.cons_ne_nil _ _)
        rcases linesInput with _ | ⟨lineInput, linesInput⟩
        · cases hfront
        · cases hfront
          cases hword
          rw [hback] at hfull
          exact Or.inr hfull

theorem wrapLines_zero_turn {height : Option Nat} {lines : List Bytes}
    (hroom : hasRoom height lines = true) (fuel : Nat) (lineInput : List Bytes)
    (linesInput : List (List Bytes)) (lastLine : List Bytes) :
    wrapLines 0 height (fuel + 2) lines (lineInput :: linesInput) lastLine =
      wrapLines 0 height (fuel + 1) (lines ++ [[]]) (requeue lineInput linesInput) lineInput :=
  wrapLines_turn hroom (wrapWords_zero fuel lineInput) linesInput lastLine

theorem zeroEnds_of_ok {height : Option Nat} {fuel : Nat} {lines lastLine r : List Bytes}
    {linesInput : List (List Bytes)} (h : Zero height lines linesInput lastLine)
    (hok : wrapLines 0 height fuel lines linesInput lastLine = some (.ok r)) :
    ZeroEnds height lines linesInput lastLine := by
  induction fuel generalizing lines linesInput lastLine with
  | zero => cases hok
  | succ fuel ih =>
      by_cases hstop : linesInput = [] ∨ hasRoom height lines = false
      · refine (h.stop hstop).mpr ⟨fun l hl => by rw [h.empty l hl, len_nil], h.room,
          fun hne => (h.last hne).1, fun word hword => ?_⟩
        rw [wrapLines_stop hstop, Option.some.injEq] at hok
        rcases lastLine with _ | ⟨first, rest⟩
        · cases hword
        · cases hword
          rw [wrapEnd] at hok
          split at hok
          · next hfull => exact hfull
          · cases hok
      · rw [not_or, Bool.not_eq_false] at hstop
        rcases linesInput with _ | ⟨lineInput, linesInput⟩
        · exact absurd rfl hstop.1
        · refine (zeroEnds_turn h hstop.2).mpr ?_
          rcases fuel with _ | fuel
          · rw [wrapLines, if_pos hstop.2, wrapWords] at hok
            cases hok
          · rw [wrapLines_zero_turn hstop.2] at hok
            exact ih (h.turn hstop.2) hok

/-- How many turns are left where lines have no column. -/
def zeroTurns (height : Option Nat) (lines : List Bytes) (linesInput : List (List Bytes)) : Nat :=
  match height with
  | none => linesInput.length
  | some height => height - lines.length

theorem zeroTurns_turn {height : Option Nat} {lines lineInput lastLine : List Bytes}
    {linesInput : List (List Bytes)}
    (hends : ZeroEnds height lines (lineInput :: linesInput) lastLine)
    (hroom : hasRoom height lines = true) :
    zeroTurns height (lines ++ [[]]) (requeue lineInput linesInput) <
      zeroTurns height lines (lineInput :: linesInput) := by
  rcases height with _ | k
  · rcases lineInput with _ | ⟨word, rest⟩
    · exact Nat.lt_succ_self _
    · obtain ⟨k, hk, -⟩ := hends word rfl
      cases hk
  · have hlt := (hasRoom_iff (some k) lines).mp hroom k rfl
    show k - (lines ++ [[]]).length < k - lines.length
    rw [List.length_append, List.length_singleton]
    omega

theorem wrapLines_zero_ends {height : Option Nat} {fuel : Nat} {lines lastLine : List Bytes}
    {linesInput : List (List Bytes)} (h : Zero height lines linesInput lastLine)
    (hends : ZeroEnds height lines linesInput lastLine)
    (hfuel : zeroTurns height lines linesInput + 1 < fuel) :
    ∃ r, wrapLines 0 height fuel lines linesInput lastLine = some (.ok r) ∧
      Bounded (some 0) height r := by
  induction fuel generalizing lines linesInput lastLine with
  | zero => exact absurd hfuel (Nat.not_lt_zero _)
  | succ fuel ih =>
      by_cases hstop : linesInput = [] ∨ hasRoom height lines = false
      · obtain ⟨r, hr, hbounded⟩ := ((h.stop hstop).mp hends).ends
        exact ⟨r, by rw [wrapLines_stop hstop, hr], hbounded⟩
      · rw [not_or, Bool.not_eq_false] at hstop
        rcases linesInput with _ | ⟨lineInput, linesInput⟩
        · exact absurd rfl hstop.1
        · have hless := zeroTurns_turn hends hstop.2
          rcases fuel with _ | fuel
          · omega
          · rw [wrapLines_zero_turn hstop.2]
            exact ih (h.turn hstop.2) ((zeroEnds_turn h hstop.2).mp hends) (by omega)

theorem zero_start (height : Option Nat) (linesInput : List (List Bytes)) :
    Zero height [] linesInput [] where
  empty := List.forall_mem_nil _
  room _ _ := Nat.zero_le _
  last hne := absurd rfl hne

/-! ## Wrapping ends -/

/-- `Wrap` returns, no length underflows and no assertion fails, and the lines are as many and
as long as asked for. -/
def WrapsWithin (opts : Options) (str : Bytes) : Prop :=
  ∃ fuel lines, wrap fuel opts str = some (.ok lines) ∧ Bounded opts.width opts.height lines

/-- Where a text is wrapped within its bounds: lines of at least one column always; lines of no
column if there is no word, or the height is limited and the limit is reached before the first
word, or a code point begins in that word; and unlimited lines unless there is room for none. -/
def WrapFits (opts : Options) (str : Bytes) : Prop :=
  match opts.width with
  | none => opts.height ≠ some 0
  | some 0 => ∀ word ∈ (linesInput opts.allowEmptyLines str).flatten.head?,
      ∃ h, opts.height = some h ∧
        (h ≤ blank (linesInput opts.allowEmptyLines str) ∨ 0 < len word)
  | some (_ + 1) => True

theorem wrapsWithin_iff (opts : Options) (str : Bytes) :
    WrapsWithin opts str ↔ WrapFits opts str := by
  obtain ⟨width, height, allowEmptyLines⟩ := opts
  unfold WrapsWithin WrapFits wrap
  rcases width with _ | _ | width
  · constructor
    · rintro ⟨fuel, lines, heq, hheight, -⟩ rfl
      cases heq
      exact absurd (hheight 0 rfl) (by simp)
    · intro hne
      refine ⟨0, [str], rfl, fun h hh => ?_, fun w hw => by cases hw⟩
      have hpos : h ≠ 0 := by
        rintro rfl
        exact hne hh
      show 1 ≤ h
      omega
  · have hends : (∀ word ∈ (linesInput allowEmptyLines str).flatten.head?,
        ∃ h, height = some h ∧ (h ≤ blank (linesInput allowEmptyLines str) ∨ 0 < len word)) ↔
          ZeroEnds height [] (linesInput allowEmptyLines str) [] := by
      unfold ZeroEnds
      simp
    dsimp only
    rw [hends]
    constructor
    · rintro ⟨fuel, lines, heq, -⟩
      exact zeroEnds_of_ok (zero_start _ _) heq
    · intro hzero
      exact ⟨_, wrapLines_zero_ends (zero_start _ _) hzero (Nat.lt_succ_self _)⟩
  · refine ⟨fun _ => trivial, fun _ => ?_⟩
    exact ⟨_, wrapLines_ends (Nat.succ_pos width) (wrapped_start _ _) (Nat.lt_succ_self _)⟩

/-- A label that is measured with no column and a word: each turn begins another line. -/
theorem wrap_zero_diverges :
    (∀ fuel, wrap fuel { width := some 0 } (ascii "a") = none) ∧
      ¬WrapsWithin { width := some 0 } (ascii "a") := by
  have hloop : ∀ fuel lines lastLine, wrapLines 0 none fuel lines [[[97]]] lastLine = none := by
    intro fuel
    induction fuel with
    | zero => exact fun _ _ => rfl
    | succ fuel ih =>
        intro lines lastLine
        rcases fuel with _ | fuel
        · rfl
        · rw [wrapLines_zero_turn rfl]
          exact ih _ _
  have hinput : linesInput false (ascii "a") = [[[97]]] := by decide
  have hnone : ∀ fuel, wrap fuel { width := some 0 } (ascii "a") = none := by
    intro fuel
    show wrapLines 0 none fuel [] (linesInput false (ascii "a")) [] = none
    rw [hinput]
    exact hloop fuel [] []
  refine ⟨hnone, ?_⟩
  rintro ⟨fuel, lines, heq, -⟩
  rw [hnone fuel] at heq
  cases heq

end LineWrap
end Ui
end Debase
