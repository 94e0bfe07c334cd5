import Debase.Ui.LineWrapText

/-!
# Wrapping to a height

The lines that `Wrap` gives for a height, against the lines that it gives without a limit.  A label
is measured without a limit and drawn with one.
-/

namespace Debase
namespace Ui
namespace LineWrap

open Library Library.Utf8

/-- The lines that one line of a text gives without a limit. -/
def LineGives (width : Nat) (lineInput block : List Bytes) : Prop :=
  ∃ fuel, wrapLines width none fuel [] [lineInput] [] = some (.ok block)

/-- The lines that a text gives without a limit, by the lines of the text that they come from. -/
def Gives (width : Nat) (allowEmptyLines : Bool) (str : Bytes) (blocks : List (List Bytes)) :
    Prop :=
  List.Forall₂ (LineGives width) (linesInput allowEmptyLines str) blocks

/-- A line with the next one behind it, cut as `Wrap` cuts its last line: at a byte. -/
def joined (width : Nat) (line next : Bytes) : Bytes := (line ++ addition line next).take width

/-- The lines that are shown of all the lines of a text, where there is room for `height`. -/
inductive Shown (width height : Nat) (blocks : List (List Bytes)) : List Bytes → Prop
  | all (fits : blocks.flatten.length ≤ height) : Shown width height blocks blocks.flatten
  /-- The last line that is shown ends a line of the text. -/
  | ends {before after : List (List Bytes)} (hblocks : before ++ after = blocks)
      (last : before.flatten.length = height) : Shown width height blocks before.flatten
  /-- The last line that is shown goes on in the next one. -/
  | joins {before after : List (List Bytes)} {block : List Bytes} {k : Nat} {line next : Bytes}
      (hblocks : before ++ block :: after = blocks) (last : before.flatten.length + k + 1 = height)
      (hline : block[k]? = some line) (hnext : block[k + 1]? = some next) :
      Shown width height blocks (before.flatten ++ (block.take k ++ [joined width line next]))

variable {width height : Nat} {blocks : List (List Bytes)} {full shown : List Bytes}

theorem Shown.length_eq (h : Shown width height blocks shown) :
    shown.length = min height blocks.flatten.length := by
  cases h with
  | all fits => omega
  | ends hblocks last =>
      rw [← hblocks, List.flatten_append, List.length_append]
      omega
  | joins hblocks last hline hnext =>
      obtain ⟨hlt, -⟩ := List.getElem?_eq_some_iff.mp hnext
      rw [← hblocks, List.flatten_append, List.flatten_cons]
      simp only [List.length_append, List.length_take, List.length_singleton]
      omega

/-- The shown lines are no longer than the lines of the text may be. -/
theorem Shown.fits (h : Shown width height blocks shown)
    (hfull : ∀ l ∈ blocks.flatten, len l ≤ width) : ∀ l ∈ shown, len l ≤ width := by
  intro l hl
  cases h with
  | all fits => exact hfull l hl
  | ends hblocks last =>
      rw [← hblocks, List.flatten_append] at hfull
      exact hfull l (List.mem_append_left _ hl)
  | joins hblocks last hline hnext =>
      rw [← hblocks, List.flatten_append, List.flatten_cons] at hfull
      rcases List.mem_append.mp hl with hl | hl
      · exact hfull l (List.mem_append_left _ hl)
      · rcases List.mem_append.mp hl with hl | hl
        · exact hfull l (List.mem_append_right _
            (List.mem_append_left _ (List.mem_of_mem_take hl)))
        · rw [List.mem_singleton.mp hl]
          exact len_take_le _ _

/-- More room than there are lines makes no difference. -/
theorem Shown.of_min (h : Shown width (min height blocks.flatten.length) blocks shown) :
    Shown width height blocks shown := by
  rcases Nat.lt_or_ge height blocks.flatten.length with hlt | hle
  · rwa [Nat.min_eq_left (Nat.le_of_lt hlt)] at h
  · have hlength := h.length_eq
    rw [Nat.min_eq_right hle] at h
    cases h with
    | all fits => exact .all hle
    | @ends before after hblocks last =>
        have hwhole : before.flatten = blocks.flatten := by
          refine List.IsPrefix.eq_of_length_le ?_ (Nat.le_of_eq last.symm)
          rw [← hblocks, List.flatten_append]
          exact List.prefix_append _ _
        rw [hwhole]
        exact .all hle
    | joins hblocks last hline hnext =>
        obtain ⟨hmore, -⟩ := List.getElem?_eq_some_iff.mp hnext
        rw [← hblocks, List.flatten_append, List.flatten_cons, List.length_append,
          List.length_append] at last
        omega

/-- Two places in the lines of a text: the same block, or one block is in front of the other. -/
private theorem split_cases {before after before' after' : List (List Bytes)}
    {block block' : List Bytes} (h : before ++ block :: after = before' ++ block' :: after') :
    before = before' ∧ block = block' ∨
      before.flatten.length + block.length ≤ before'.flatten.length ∨
      before'.flatten.length + block'.length ≤ before.flatten.length := by
  rcases List.append_eq_append_iff.mp h with ⟨mid, rfl, hmid⟩ | ⟨mid, rfl, hmid⟩
  · rcases mid with _ | ⟨first, mid⟩
    · rw [List.nil_append, List.cons.injEq] at hmid
      exact Or.inl ⟨(List.append_nil _).symm, hmid.1⟩
    · rw [List.cons_append, List.cons.injEq] at hmid
      obtain ⟨rfl, -⟩ := hmid
      simp only [List.flatten_append, List.flatten_cons, List.length_append]
      omega
  · rcases mid with _ | ⟨first, mid⟩
    · rw [List.nil_append, List.cons.injEq] at hmid
      exact Or.inl ⟨List.append_nil _, hmid.1.symm⟩
    · rw [List.cons_append, List.cons.injEq] at hmid
      obtain ⟨rfl, -⟩ := hmid
      simp only [List.flatten_append, List.flatten_cons, List.length_append]
      omega

/-- Where a line goes on in the next one, no line of the text ends. -/
private theorem not_ends_of_joins {before after before' after' : List (List Bytes)}
    {block : List Bytes} {k : Nat} {next : Bytes}
    (h : before ++ after = before' ++ block :: after') (hnext : block[k + 1]? = some next) :
    before.flatten.length ≠ before'.flatten.length + k + 1 := by
  obtain ⟨hmore, -⟩ := List.getElem?_eq_some_iff.mp hnext
  rcases after with _ | ⟨first, after⟩
  · rw [List.append_nil] at h
    rw [h, List.flatten_append, List.flatten_cons, List.length_append, List.length_append]
    omega
  · rcases split_cases h with ⟨rfl, -⟩ | hlt | hlt <;> omega

/-- The lines that are shown end in one way. -/
theorem Shown.unique {shown' : List Bytes} (h : Shown width height blocks shown)
    (h' : Shown width height blocks shown') : shown = shown' := by
  have htake {before after : List (List Bytes)} (hblocks : before ++ after = blocks)
      (last : before.flatten.length = height) : before.flatten = blocks.flatten.take height := by
    rw [← hblocks, List.flatten_append, ← last, List.take_left]
  have hnoroom {before after : List (List Bytes)} {block : List Bytes} {k : Nat} {next : Bytes}
      (hblocks : before ++ block :: after = blocks)
      (last : before.flatten.length + k + 1 = height) (hnext : block[k + 1]? = some next) :
      height < blocks.flatten.length := by
    obtain ⟨hmore, -⟩ := List.getElem?_eq_some_iff.mp hnext
    rw [← hblocks, List.flatten_append, List.flatten_cons, List.length_append, List.length_append]
    omega
  cases h with
  | all fits =>
      cases h' with
      | all _ => rfl
      | ends hblocks last => rw [htake hblocks last, List.take_of_length_le fits]
      | joins hblocks last _ hnext => exact absurd (hnoroom hblocks last hnext) (by omega)
  | ends hblocks last =>
      cases h' with
      | all fits => rw [htake hblocks last, List.take_of_length_le fits]
      | ends hblocks' last' => rw [htake hblocks last, htake hblocks' last']
      | joins hblocks' last' _ hnext =>
          exact absurd (last.trans last'.symm) (not_ends_of_joins (hblocks.trans hblocks'.symm) hnext)
  | joins hblocks last hline hnext =>
      cases h' with
      | all fits => exact absurd (hnoroom hblocks last hnext) (by omega)
      | ends hblocks' last' =>
          exact absurd (last'.trans last.symm) (not_ends_of_joins (hblocks'.trans hblocks.symm) hnext)
      | joins hblocks' last' hline' hnext' =>
          obtain ⟨hmore, -⟩ := List.getElem?_eq_some_iff.mp hnext
          obtain ⟨hmore', -⟩ := List.getElem?_eq_some_iff.mp hnext'
          rcases split_cases (hblocks.trans hblocks'.symm) with ⟨rfl, rfl⟩ | hlt | hlt
          · -- the same block, and the same line of it
            have hk := Nat.add_left_cancel (Nat.succ.inj (last.trans last'.symm))
            subst hk
            rw [Option.some.inj (hline.symm.trans hline'),
              Option.some.inj (hnext.symm.trans hnext')]
          · omega
          · omega

/-! ## What a turn adds to a line -/

theorem wrapWords_extends {fuel : Nat} {msgline msgline' : Bytes} {lineInput left : List Bytes}
    (hlen : len msgline ≤ width)
    (heq : wrapWords width fuel msgline lineInput = some (.ok (msgline', left))) :
    msgline <+: msgline' := by
  induction fuel generalizing msgline lineInput with
  | zero => cases heq
  | succ fuel ih =>
      rcases lineInput with _ | ⟨word, lineInput⟩
      · cases heq
        exact List.prefix_refl _
      · cases wrapWords_turn hlen word lineInput with
        | ends full begun eq =>
            rw [eq fuel] at heq
            cases heq
            exact List.prefix_refl _
        | splits room long eq =>
            rw [eq fuel] at heq
            have hhead := len_splitHead width msgline word
            have hnext : len (msgline ++ splitHead width msgline word) ≤ width := by
              rw [len_append]
              omega
            exact (List.prefix_append _ _).trans (ih hnext heq)
        | adds fits eq =>
            rw [eq fuel] at heq
            exact (List.prefix_append _ _).trans (ih fits heq)

theorem wrapWords_done {fuel : Nat} {msgline msgline' : Bytes} {lineInput left : List Bytes}
    (hlen : len msgline ≤ width)
    (heq : wrapWords width fuel msgline lineInput = some (.ok (msgline', left))) :
    len msgline' ≤ width ∧ Full width msgline' left := by
  induction fuel generalizing msgline lineInput with
  | zero => cases heq
  | succ fuel ih =>
      rcases lineInput with _ | ⟨word, lineInput⟩
      · cases heq
        exact ⟨hlen, fun word hno => by cases hno⟩
      · cases wrapWords_turn hlen word lineInput with
        | ends full begun eq =>
            rw [eq fuel] at heq
            cases heq
            exact ⟨hlen, full⟩
        | splits room long eq =>
            rw [eq fuel] at heq
            have hhead := len_splitHead width msgline word
            exact ih (by rw [len_append]; omega) heq
        | adds fits eq =>
            rw [eq fuel] at heq
            exact ih fits heq

/-- A line begins with its first word, or with as much of it as fits. -/
theorem wrapWords_begins (hwidth : 0 < width) {fuel : Nat} {word msgline : Bytes}
    {lineInput left : List Bytes}
    (heq : wrapWords width fuel [] (word :: lineInput) = some (.ok (msgline, left))) :
    word.take width <+: msgline := by
  rcases fuel with _ | fuel
  · cases heq
  · have hnil : len ([] : Bytes) ≤ width := Nat.zero_le _
    have hadd : addition [] word = word := rfl
    cases wrapWords_turn hnil word lineInput with
    | ends full begun eq =>
        have hzero := begun rfl
        omega
    | splits room long eq =>
        rw [eq fuel] at heq
        have hhead := len_splitHead width [] word
        have hext := wrapWords_extends (by rw [List.nil_append]; omega) heq
        have hsplit : splitHead width [] word = word.take width := by simp [splitHead, hadd]
        rwa [List.nil_append, hsplit] at hext
    | adds fits eq =>
        rw [eq fuel] at heq
        have hext := wrapWords_extends fits heq
        rw [List.nil_append, hadd] at hext
        exact (List.take_prefix width word).trans hext

/-- The letters of a word that still fit are letters of the line that the word begins. -/
theorem take_addition {line word next : Bytes} (hlong : width < len (line ++ addition line word))
    (hnext : word.take width <+: next) :
    (line ++ addition line word).take width = joined width line next := by
  have hbytes := len_le_length (line ++ addition line word)
  obtain ⟨rest, rfl⟩ := hnext
  unfold joined addition at *
  rw [← List.append_assoc] at *
  rw [← List.append_assoc]
  generalize line ++ (if line.isEmpty = true then [] else [32]) = start at *
  rw [List.length_append] at hbytes
  -- what fits of the word is in front of the rest
  have hfits : (word.take width ++ rest).take (width - start.length) =
      word.take (width - start.length) := by
    rw [List.take_append_of_le_length (by rw [List.length_take]; omega), List.take_take,
      Nat.min_eq_left (Nat.sub_le _ _)]
  rw [List.take_append, List.take_append, hfits]

/-! ## More turns -/

theorem wrapWords_mono {fuel fuel' : Nat} {msgline : Bytes} {lineInput : List Bytes}
    {r : Except Fault (Bytes × List Bytes)} (h : wrapWords width fuel msgline lineInput = some r)
    (hle : fuel ≤ fuel') : wrapWords width fuel' msgline lineInput = some r := by
  induction fuel generalizing fuel' msgline lineInput with
  | zero => cases h
  | succ fuel ih =>
      obtain ⟨fuel', rfl⟩ : ∃ k, fuel' = k + 1 := ⟨fuel' - 1, by omega⟩
      rcases lineInput with _ | ⟨word, lineInput⟩
      · exact h
      · simp only [wrapWords] at h ⊢
        split_ifs at h ⊢
        · exact h
        · exact h
        · exact h
        · exact ih h (by omega)
        · exact ih h (by omega)

theorem wrapLines_mono {limit : Option Nat} {fuel fuel' : Nat} {lines lastLine : List Bytes}
    {linesInput : List (List Bytes)} {r : Except Fault (List Bytes)}
    (h : wrapLines width limit fuel lines linesInput lastLine = some r) (hle : fuel ≤ fuel') :
    wrapLines width limit fuel' lines linesInput lastLine = some r := by
  induction fuel generalizing fuel' lines linesInput lastLine with
  | zero => cases h
  | succ fuel ih =>
      obtain ⟨fuel', rfl⟩ : ∃ k, fuel' = k + 1 := ⟨fuel' - 1, by omega⟩
      have hle' : fuel ≤ fuel' := by omega
      rcases linesInput with _ | ⟨lineInput, linesInput⟩
      · exact h
      · rw [wrapLines] at h ⊢
        split_ifs at h ⊢
        · rcases hline : wrapWords width fuel [] lineInput with _ | e | ⟨msgline, left⟩
          · rw [hline] at h
            cases h
          · rw [hline] at h
            rw [wrapWords_mono hline hle']
            exact h
          · rw [hline] at h
            rw [wrapWords_mono hline hle']
            rcases left with _ | ⟨word, left⟩
            · exact ih h hle'
            · exact ih h hle'
        · exact h

/-! ## All turns -/

/-- The lines that are there already and the words left of the line wrapped last make no difference
to what comes next. -/
theorem wrapLines_shift {fuel : Nat} {lines lastLine r : List Bytes}
    {linesInput : List (List Bytes)} (hlast : linesInput = [] → lastLine = [])
    (heq : wrapLines width none fuel lines linesInput lastLine = some (.ok r))
    (lines' lastLine' : List Bytes) (hlast' : linesInput = [] → lastLine' = []) :
    ∃ new, r = lines ++ new ∧
      wrapLines width none fuel lines' linesInput lastLine' = some (.ok (lines' ++ new)) := by
  induction fuel generalizing lines lines' linesInput lastLine lastLine' with
  | zero => cases heq
  | succ fuel ih =>
      rcases linesInput with _ | ⟨lineInput, linesInput⟩
      · obtain rfl := wrapLines_nil (hlast rfl) heq
        obtain rfl := hlast' rfl
        refine ⟨[], (List.append_nil _).symm, ?_⟩
        rw [List.append_nil]
        rfl
      · obtain ⟨msgline, left, hline, hrest⟩ := wrapLines_ok heq
        obtain ⟨new, rfl, hnew⟩ := ih requeue_eq_nil hrest (lines' ++ [msgline]) left requeue_eq_nil
        refine ⟨msgline :: new, by rw [List.append_assoc]; rfl, ?_⟩
        rw [wrapLines_turn rfl hline, hnew, List.append_assoc]
        rfl

/-- A line of a text that fits on one line. -/
theorem LineGives.single {fuel : Nat} {lineInput : List Bytes} {msgline : Bytes}
    (hline : wrapWords width fuel [] lineInput = some (.ok (msgline, []))) :
    LineGives width lineInput [msgline] := by
  refine ⟨fuel + 2, ?_⟩
  rw [wrapLines_turn rfl (wrapWords_mono hline (Nat.le_succ fuel))]
  rfl

/-- A line of a text that takes another line. -/
theorem LineGives.cons {fuel : Nat} {lineInput left block : List Bytes} {msgline : Bytes}
    (hne : left ≠ []) (hline : wrapWords width fuel [] lineInput = some (.ok (msgline, left)))
    (h : LineGives width left block) : LineGives width lineInput (msgline :: block) := by
  obtain ⟨fuel', heq⟩ := h
  have hmore := wrapLines_mono heq (Nat.le_max_right fuel fuel')
  obtain ⟨new, hnew, hall⟩ := wrapLines_shift (fun hno => by cases hno) hmore [msgline] left
    (fun hno => by cases hno)
  refine ⟨max fuel fuel' + 1, ?_⟩
  rw [wrapLines_turn rfl (wrapWords_mono hline (Nat.le_max_left fuel fuel'))]
  obtain ⟨word, rest, rfl⟩ := List.exists_cons_of_ne_nil hne
  rw [hnew]
  exact hall

/-- The first line that a line of a text gives, and the others. -/
theorem LineGives.turn {fuel : Nat} {lineInput left block : List Bytes} {msgline : Bytes}
    (h : LineGives width lineInput block)
    (hline : wrapWords width fuel [] lineInput = some (.ok (msgline, left))) :
    ∃ block', block = msgline :: block' ∧ (left = [] → block' = []) ∧
      (left ≠ [] → LineGives width left block') := by
  obtain ⟨_ | fuel', heq⟩ := h
  · cases heq
  · obtain ⟨msgline', left', hline', hrest⟩ := wrapLines_ok heq
    -- more turns give the same line
    have hsame := (wrapWords_mono hline (Nat.le_max_left fuel fuel')).symm.trans
      (wrapWords_mono hline' (Nat.le_max_right fuel fuel'))
    cases hsame
    rcases left with _ | ⟨word, left⟩
    · obtain ⟨new, rfl, hnew⟩ := wrapLines_shift (fun _ => rfl) hrest [] [] fun _ => rfl
      refine ⟨new, rfl, fun _ => ?_, fun hne => absurd rfl hne⟩
      rcases fuel' with _ | fuel'
      · cases hnew
      · exact wrapLines_nil rfl hnew
    · have hne : word :: left ≠ [] := List.cons_ne_nil _ _
      obtain ⟨new, rfl, hnew⟩ := wrapLines_shift requeue_eq_nil hrest [] [] fun _ => rfl
      exact ⟨new, rfl, fun hnil => absurd hnil hne, fun _ => ⟨fuel', hnew⟩⟩

/-- Without a limit every line of the text gives its lines. -/
theorem wrapLines_gives {fuel : Nat} {lines lastLine : List Bytes} {linesInput : List (List Bytes)}
    (hlast : linesInput = [] → lastLine = [])
    (heq : wrapLines width none fuel lines linesInput lastLine = some (.ok full)) :
    ∃ blocks, List.Forall₂ (LineGives width) linesInput blocks ∧
      full = lines ++ blocks.flatten := by
  induction fuel generalizing lines linesInput lastLine with
  | zero => cases heq
  | succ fuel ih =>
      rcases linesInput with _ | ⟨lineInput, linesInput⟩
      · obtain rfl := wrapLines_nil (hlast rfl) heq
        exact ⟨[], .nil, (List.append_nil _).symm⟩
      · obtain ⟨msgline, left, hline, hrest⟩ := wrapLines_ok heq
        obtain ⟨blocks, hblocks, rfl⟩ := ih requeue_eq_nil hrest
        rcases left with _ | ⟨word, left⟩
        · exact ⟨[msgline] :: blocks, .cons (.single hline) hblocks, by simp⟩
        · cases hblocks with
          | cons hblock hblocks =>
              exact ⟨_, .cons (.cons (List.cons_ne_nil _ _) hline hblock) hblocks, by simp⟩

/-- Between turns: the lines of whole lines of the text, and lines of the next one if words of it
are left. -/
structure Begun (before : List (List Bytes)) (part lines lastLine : List Bytes)
    (linesInput : List (List Bytes)) : Prop where
  lines_eq : lines = before.flatten ++ part
  whole : lastLine = [] → part = []
  begun : lastLine ≠ [] → part ≠ [] ∧ linesInput.head? = some lastLine

theorem Begun.lastLine_eq_nil {before : List (List Bytes)} {part lines lastLine : List Bytes}
    (h : Begun before part lines lastLine []) : lastLine = [] := by
  by_contra hne
  cases (h.begun hne).2

/-- A turn of the outer loop. -/
theorem Begun.turn {before : List (List Bytes)} {part lines lastLine left : List Bytes}
    {linesInput : List (List Bytes)} {lineInput : List Bytes} {msgline : Bytes}
    (h : Begun before part lines lastLine (lineInput :: linesInput)) :
    (left = [] → Begun (before ++ [part ++ [msgline]]) [] (lines ++ [msgline]) left
      (requeue left linesInput)) ∧
    (left ≠ [] → Begun before (part ++ [msgline]) (lines ++ [msgline]) left
      (requeue left linesInput)) := by
  have hlines : lines ++ [msgline] = before.flatten ++ (part ++ [msgline]) := by
    rw [h.lines_eq, List.append_assoc]
  constructor
  · intro hnil
    refine ⟨?_, fun _ => rfl, fun hne => absurd hnil hne⟩
    rw [hlines, List.flatten_append, List.flatten_singleton, List.append_nil]
  · intro hne
    refine ⟨hlines, fun hnil => absurd hnil hne, fun _ => ⟨by simp, ?_⟩⟩
    obtain ⟨word, rest, rfl⟩ := List.exists_cons_of_ne_nil hne
    rfl

/-- The loop stops at the height: what is shown of the line that comes next. -/
theorem wrapEnd_shown (hwidth : 0 < width) {fuel : Nat} {before : List (List Bytes)}
    {part lines lineInput lastLine left block : List Bytes} {linesInput : List (List Bytes)}
    {msgline : Bytes} (h : Wrapped width (some height) lines lastLine)
    (hbegun : Begun before part lines lastLine (lineInput :: linesInput))
    (hheight : lines.length = height)
    (hline : wrapWords width fuel [] lineInput = some (.ok (msgline, left)))
    (hblock : LineGives width lineInput block) :
    ∃ shown, wrapEnd width lines lastLine = .ok shown ∧
      Shown width height (before ++ (part ++ block) :: blocks) shown := by
  rcases lastLine with _ | ⟨word, lastLine⟩
  · obtain rfl := hbegun.whole rfl
    obtain rfl : lines = before.flatten := by
      rw [hbegun.lines_eq, List.append_nil]
    exact ⟨_, rfl, .ends rfl hheight⟩
  · obtain ⟨hpart, hhead⟩ := hbegun.begun (List.cons_ne_nil _ _)
    obtain ⟨first, line, rfl⟩ := List.eq_nil_or_concat part |>.resolve_left hpart
    rw [List.concat_eq_append] at *
    obtain rfl : lines = before.flatten ++ first ++ [line] := by
      rw [hbegun.lines_eq, List.append_assoc]
    have hlong := h.full word rfl
    rw [List.getLastD_concat] at hlong
    obtain rfl : lineInput = word :: lastLine := by
      simpa using hhead
    obtain ⟨block', rfl, -, -⟩ := hblock.turn hline
    refine ⟨_, if_pos (by rw [List.getLastD_concat]; exact hlong), ?_⟩
    rw [List.getLastD_concat, List.dropLast_concat,
      take_addition hlong (wrapWords_begins hwidth hline)]
    have hlength : before.flatten.length + first.length + 1 = height := by
      rw [← hheight]
      simp only [List.length_append, List.length_singleton]
    have hjoins : Shown width height (before ++ (first ++ [line] ++ msgline :: block') :: blocks)
        (before.flatten ++ ((first ++ [line] ++ msgline :: block').take first.length ++
          [joined width line msgline])) :=
      .joins rfl hlength (by simp) (by simp)
    have htake : (first ++ [line] ++ msgline :: block').take first.length = first := by
      rw [List.append_assoc, List.take_left]
    rwa [htake, ← List.append_assoc] at hjoins

/-- As long as there is room, both loops make the same turns. -/
theorem wrapLines_shown (hwidth : 0 < width) {fuel : Nat} {before : List (List Bytes)}
    {part lines lastLine : List Bytes} {linesInput : List (List Bytes)}
    (h : Wrapped width (some height) lines lastLine)
    (hbegun : Begun before part lines lastLine linesInput)
    (hblocks : List.Forall₂ (LineGives width) linesInput blocks)
    (heq : wrapLines width none fuel lines linesInput lastLine = some (.ok full)) :
    ∃ shown, wrapLines width (some height) fuel lines linesInput lastLine = some (.ok shown) ∧
      Shown width height (before ++ blocks.modifyHead (part ++ ·)) shown := by
  induction fuel generalizing before part lines linesInput lastLine blocks with
  | zero => cases heq
  | succ fuel ih =>
      have hfits := h.room height rfl
      cases hblocks with
      | nil =>
          obtain rfl := hbegun.lastLine_eq_nil
          obtain rfl := hbegun.whole rfl
          have hlines := hbegun.lines_eq
          rw [List.append_nil] at hlines
          subst hlines
          refine ⟨_, rfl, ?_⟩
          have hall : Shown width height before before.flatten := .all hfits
          simpa using hall
      | @cons lineInput block linesInput blocks hblock hblocks =>
          obtain ⟨msgline, left, hline, hrest⟩ := wrapLines_ok heq
          by_cases hroom : hasRoom (some height) lines = true
          · obtain ⟨hmsgline, hfull⟩ := wrapWords_done (Nat.zero_le _) hline
            have hnext := h.line hroom hmsgline fun word hword =>
              (hfull word hword).resolve_left fun hzero => by omega
            obtain ⟨hwhole, hmore⟩ := @Begun.turn _ _ _ _ left _ _ msgline hbegun
            obtain ⟨block', rfl, hnil, hgives⟩ := hblock.turn hline
            rw [wrapLines_turn hroom hline]
            by_cases hleft : left = []
            · obtain rfl := hnil hleft
              have hshown := ih hnext (hwhole hleft) (by rw [hleft]; exact hblocks) hrest
              cases blocks <;> simpa using hshown
            · obtain ⟨word, rest, rfl⟩ := List.exists_cons_of_ne_nil hleft
              have hshown := ih hnext (hmore hleft) (.cons (hgives hleft) hblocks) hrest
              simpa using hshown
          · rw [Bool.not_eq_true] at hroom
            have hheight : lines.length = height := by
              simp [hasRoom] at hroom
              omega
            rw [wrapLines_stop (Or.inr hroom)]
            obtain ⟨shown, hshown, hspec⟩ :=
              wrapEnd_shown hwidth h hbegun hheight hline hblock
            exact ⟨shown, by rw [hshown], hspec⟩

/-- A text that is wrapped to a height: the lines that each line of it has without a limit, as many
as there is room for, and as much of the next line behind the last one as fits. -/
theorem wrap_shown (hwidth : 0 < width) {fuel : Nat} {allowEmptyLines : Bool} {str : Bytes}
    (heq : wrap fuel { width := some width, allowEmptyLines } str = some (.ok full))
    (hblocks : Gives width allowEmptyLines str blocks) (height : Nat) :
    ∃ shown, wrap fuel { width := some width, height := some height, allowEmptyLines } str =
        some (.ok shown) ∧
      Shown width height blocks shown := by
  have hbegun : Begun [] [] [] [] (linesInput allowEmptyLines str) :=
    ⟨rfl, fun _ => rfl, fun hne => absurd rfl hne⟩
  have hshown := wrapLines_shown hwidth (wrapped_start width (some height)) hbegun hblocks heq
  cases blocks <;> exact hshown

/-- Wrapping without a limit puts the lines together that each line of the text gives. -/
theorem wrap_gives {fuel : Nat} {allowEmptyLines : Bool} {str : Bytes}
    (heq : wrap fuel { width := some width, allowEmptyLines } str = some (.ok full)) :
    ∃ blocks, Gives width allowEmptyLines str blocks ∧ full = blocks.flatten :=
  wrapLines_gives (fun _ => rfl) heq

/-- A text that is wrapped to a height is shown as the height has it, and in no other way. -/
theorem wrap_height (hwidth : 0 < width) {fuel : Nat} {allowEmptyLines : Bool} {str : Bytes}
    (heq : wrap fuel { width := some width, allowEmptyLines } str = some (.ok full)) :
    ∃ blocks, Gives width allowEmptyLines str blocks ∧ full = blocks.flatten ∧
      ∀ (height : Nat) (shown : List Bytes),
        wrap fuel { width := some width, height := some height, allowEmptyLines } str =
          some (.ok shown) ↔ Shown width height blocks shown := by
  obtain ⟨blocks, hblocks, hfull⟩ := wrap_gives heq
  refine ⟨blocks, hblocks, hfull, fun height shown => ?_⟩
  obtain ⟨shown', hwrap, hshown⟩ := wrap_shown hwidth heq hblocks height
  rw [hwrap]
  constructor
  · rintro ⟨⟩
    exact hshown
  · intro h
    rw [hshown.unique h]

/-- A text of four lines: in two rows the second one ends with a letter of the third. -/
theorem wrap_height_oneTwo : ∃ blocks,
    Gives 5 false (ascii "one two three four") blocks ∧
      [ascii "one", ascii "two", ascii "three", ascii "four"] = blocks.flatten ∧
      ∀ (height : Nat) (shown : List Bytes),
        wrap 30 { width := some 5, height := some height } (ascii "one two three four") =
          some (.ok shown) ↔ Shown 5 height blocks shown :=
  wrap_height (by decide) (by decide +kernel)

/-! ## Enough turns -/

theorem wrap_mono {fuel fuel' : Nat} {opts : Options} {str : Bytes}
    {r : Except Fault (List Bytes)} (h : wrap fuel opts str = some r) (hle : fuel ≤ fuel') :
    wrap fuel' opts str = some r := by
  unfold wrap at h ⊢
  cases hwidth : opts.width with
  | none =>
      rw [hwidth] at h
      exact h
  | some width =>
      rw [hwidth] at h
      exact wrapLines_mono h hle

/-- As many turns as wrapping to lines of at least one column takes. -/
def enough (opts : Options) (str : Bytes) : Nat :=
  weightLines (linesInput opts.allowEmptyLines str) + opts.width.getD 0 + 2

theorem wrap_enough (hwidth : 0 < width) (allowEmptyLines : Bool) (str : Bytes) :
    ∃ lines, wrap (enough { width := some width, allowEmptyLines } str)
        { width := some width, allowEmptyLines } str = some (.ok lines) ∧
      ∀ l ∈ lines, len l ≤ width := by
  obtain ⟨lines, hlines, -, hfits⟩ := wrapLines_ends hwidth (wrapped_start width none)
    (Nat.lt_succ_self (weightLines (linesInput allowEmptyLines str) + width + 1))
  exact ⟨lines, hlines, hfits width rfl⟩

end LineWrap
end Ui
end Debase
