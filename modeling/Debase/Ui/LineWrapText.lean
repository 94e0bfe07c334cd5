import Debase.Ui.LineWrap

/-!
# What line wrapping keeps

With unlimited height, wrapping moves every word to a line.  A word that is longer than a line
is split by bytes into as many bytes as it has code points, so it is kept if it is ASCII, and
loses bytes if it is not.
-/

namespace Debase
namespace Ui
namespace LineWrap

open Git Library Library.Utf8

/-! ## Words -/

theorem isAscii_of_isSpace {b : UInt8} (h : isSpace b = true) : isAscii b = true := by
  rw [isAscii_iff]
  rw [isSpace, Bool.or_eq_true, Bool.and_eq_true, decide_eq_true_eq, decide_eq_true_eq,
    decide_eq_true_eq] at h
  rcases h with rfl | ⟨-, h⟩
  · decide
  · rw [UInt8.le_iff_toNat_le] at h
    exact Nat.lt_of_le_of_lt h (by decide)

theorem wellFormed_wordsFrom {word bs : Bytes} (h : WellFormed (word ++ bs)) :
    ∀ w ∈ wordsFrom isSpace word bs, WellFormed w := by
  induction bs generalizing word with
  | nil =>
      rw [List.append_nil] at h
      rw [wordsFrom]
      split
      · exact List.forall_mem_nil _
      · exact List.forall_mem_singleton.mpr h
  | cons x bs ih =>
      rw [wordsFrom]
      split
      · next hx =>
          obtain ⟨hword, hbs⟩ := h.cut_ascii (isAscii_of_isSpace hx)
          split
          · exact ih hbs
          · exact List.forall_mem_cons.mpr ⟨hword, ih hbs⟩
      · refine ih ?_
        rwa [List.append_assoc]

theorem wellFormed_words {str : Bytes} (h : WellFormed str) :
    ∀ w ∈ words isSpace str, WellFormed w :=
  wellFormed_wordsFrom (show WellFormed ([] ++ str) from h)

/-- The words that are wrapped are those of the text. -/
theorem linesInput_flatten (allowEmptyLines : Bool) (str : Bytes) :
    (linesInput allowEmptyLines str).flatten = words isSpace str := by
  have hsep : ∀ x : UInt8, decide (x = 10) = true → isSpace x = true := by
    intro x hx
    rw [of_decide_eq_true hx]
    rfl
  rw [← words_lines hsep str, linesInput, ← List.flatMap_def]
  generalize lines (fun x => decide (x = 10)) str = ls
  induction ls with
  | nil => rfl
  | cons line ls ih =>
      rw [List.flatMap_cons, List.filter_cons]
      split
      · rw [List.flatMap_cons, ih]
      · next hskip =>
          have hempty : line = [] := by
            by_contra hne
            exact hskip (by simp [hne])
          rw [ih, hempty]
          rfl

/-- What is added to a line are the words of the addition. -/
theorem words_addition (msgline word : Bytes) :
    words isSpace (msgline ++ addition msgline word) =
      words isSpace msgline ++ words isSpace word := by
  unfold addition
  rcases msgline with _ | ⟨b, msgline⟩
  · rfl
  · exact words_append (b :: msgline) (by decide) word

/-! ## Pieces of words -/

/-- The pieces that words are broken into, where only a word that is longer than a line is in
more than one piece. -/
inductive Broken (width : Option Nat) : List Bytes → List Bytes → Prop
  | nil : Broken width [] []
  | cons {word : Bytes} {pieces rest rest' : List Bytes} (joined : pieces.flatten = word)
      (whole : (∀ w, width = some w → len word ≤ w) → pieces = [word])
      (others : Broken width rest rest') : Broken width (word :: rest) (pieces ++ rest')

variable {width : Option Nat}

theorem Broken.append {as ps bs qs : List Bytes} (ha : Broken width as ps)
    (hb : Broken width bs qs) : Broken width (as ++ bs) (ps ++ qs) := by
  induction ha with
  | nil => exact hb
  | cons joined whole _ ih =>
      rw [List.append_assoc]
      exact .cons joined whole ih

theorem Broken.split {as bs ps : List Bytes} (h : Broken width (as ++ bs) ps) :
    ∃ qs rs, ps = qs ++ rs ∧ Broken width as qs ∧ Broken width bs rs := by
  induction as generalizing ps with
  | nil => exact ⟨[], ps, rfl, .nil, h⟩
  | cons word as ih =>
      cases h with
      | @cons _ pieces _ rest joined whole others =>
          obtain ⟨qs, rs, rfl, hqs, hrs⟩ := ih others
          exact ⟨pieces ++ qs, rs, (List.append_assoc _ _ _).symm, .cons joined whole hqs, hrs⟩

theorem Broken.flatten {as ps : List Bytes} (h : Broken width as ps) :
    ps.flatten = as.flatten := by
  induction h with
  | nil => rfl
  | cons joined _ _ ih => rw [List.flatten_append, joined, ih, List.flatten_cons]

/-- A word in one piece. -/
theorem Broken.keep {rest rest' : List Bytes} (word : Bytes) (h : Broken width rest rest') :
    Broken width (word :: rest) (word :: rest') :=
  @Broken.cons width word [word] rest rest' (List.flatten_singleton ..) (fun _ => rfl) h

theorem Broken.refl (width : Option Nat) (as : List Bytes) : Broken width as as := by
  induction as with
  | nil => exact .nil
  | cons word as ih => exact ih.keep word

/-! ## Words that are kept -/

/-- A word that can be moved: if it is longer than a line, it is ASCII. -/
structure Movable (width : Nat) (word : Bytes) : Prop where
  ne_nil : word ≠ []
  solid : ∀ x ∈ word, isSpace x = false
  wellFormed : WellFormed word
  ascii : width < len word → ∀ b ∈ word, isAscii b = true

/-- A split of an ASCII word keeps all of it. -/
theorem Movable.split {width : Nat} {msgline word : Bytes} (h : Movable width word)
    (hroom : len msgline < width) (hlong : width < len word) :
    ∃ head, splitHead width msgline word = addition msgline head ∧
      word = head ++ splitTail width msgline word ∧
      (∀ b ∈ head, isSpace b = false) ∧ (∀ b ∈ head, isAscii b = true) ∧
      Movable width (splitTail width msgline word) := by
  have hascii := h.ascii hlong
  have hlen : len word = word.length := len_of_ascii hascii
  have hadd := len_addition msgline word
  -- where the word is cut
  obtain ⟨k, hk, hhead, htail⟩ : ∃ k, k < word.length ∧
      splitHead width msgline word = addition msgline (word.take k) ∧
      splitTail width msgline word = word.drop k := by
    unfold splitHead splitTail
    by_cases hempty : msgline = []
    · subst hempty
      refine ⟨width, by omega, rfl, ?_⟩
      show (word.drop width).take (len word - width) = word.drop width
      rw [List.take_of_length_le (by rw [List.length_drop]; omega)]
    · rw [if_neg hempty] at hadd
      have hspace : ∀ x, addition msgline x = 32 :: x := fun x => by
        rw [addition, if_neg (by simpa using hempty)]
        rfl
      obtain ⟨j, hj⟩ : ∃ j, width - len msgline = j + 1 := ⟨width - len msgline - 1, by omega⟩
      refine ⟨j, by omega, ?_, ?_⟩
      · rw [hspace, hspace, hj, List.take_succ_cons]
      · rw [hadd, hspace, hj, List.drop_succ_cons,
          List.take_of_length_le (by rw [List.length_drop]; omega)]
  refine ⟨word.take k, hhead, ?_, fun b hb => h.solid b (List.mem_of_mem_take hb),
    fun b hb => hascii b (List.mem_of_mem_take hb), ?_⟩
  · rw [htail, List.take_append_drop]
  · rw [htail]
    have hmem : ∀ b ∈ word.drop k, b ∈ word := fun b hb => List.mem_of_mem_drop hb
    refine ⟨fun hnil => ?_, fun b hb => h.solid b (hmem b hb), ?_, fun _ b hb => ?_⟩
    · have hzero := congrArg List.length hnil
      rw [List.length_drop, List.length_nil] at hzero
      omega
    · exact .ascii fun b hb => hascii b (hmem b hb)
    · exact hascii b (hmem b hb)

theorem wellFormed_addition {msgline word : Bytes} (h : WellFormed msgline)
    (hword : WellFormed word) : WellFormed (msgline ++ addition msgline word) := by
  unfold addition
  split
  · exact h.append (WellFormed.nil.append hword)
  · have hspace : ∀ b ∈ ([32] : Bytes), isAscii b = true :=
      List.forall_mem_singleton.mpr (by decide)
    exact h.append ((WellFormed.ascii hspace).append hword)

/-- The words of a piece of a word. -/
theorem words_piece {head : Bytes} (h : ∀ b ∈ head, isSpace b = false) :
    (words isSpace head).flatten = head := by
  rw [words_flatten]
  exact List.filter_eq_self.mpr fun b hb => by rw [h b hb]; rfl

/-- What one line takes. -/
structure LineKept (width : Nat) (msgline : Bytes) (lineInput : List Bytes) (msgline' : Bytes)
    (lineInput' : List Bytes) : Prop where
  wellFormed : WellFormed msgline'
  movable : ∀ word ∈ lineInput', Movable width word
  pieces : ∃ ps, words isSpace msgline' = words isSpace msgline ++ ps ∧
    ∀ qs, Broken (some width) lineInput' qs → Broken (some width) lineInput (ps ++ qs)

theorem wrapWords_kept {width fuel : Nat} {msgline msgline' : Bytes}
    {lineInput lineInput' : List Bytes} (hlen : len msgline ≤ width) (hmsg : WellFormed msgline)
    (hmovable : ∀ word ∈ lineInput, Movable width word)
    (heq : wrapWords width fuel msgline lineInput = some (.ok (msgline', lineInput'))) :
    LineKept width msgline lineInput msgline' lineInput' := by
  induction fuel generalizing msgline lineInput with
  | zero => cases heq
  | succ fuel ih =>
      rcases lineInput with _ | ⟨word, lineInput⟩
      · cases heq
        exact ⟨hmsg, hmovable, [], (List.append_nil _).symm, fun _ h => h⟩
      · obtain ⟨hword, hrest⟩ := List.forall_mem_cons.mp hmovable
        cases wrapWords_turn hlen word lineInput with
        | ends full begun eq =>
            rw [eq fuel] at heq
            cases heq
            exact ⟨hmsg, hmovable, [], (List.append_nil _).symm, fun _ h => h⟩
        | splits room long eq =>
            rw [eq fuel] at heq
            obtain ⟨head, hhead, hjoin, hsolid, hascii, htail⟩ := hword.split room long
            have hfits := len_splitHead width msgline word
            rw [hhead] at heq hfits
            obtain ⟨hwell, hmov, ps, hps, hbroken⟩ := ih (by rw [len_append]; omega)
              (wellFormed_addition hmsg (.ascii hascii))
              (List.forall_mem_cons.mpr ⟨htail, hrest⟩) heq
            refine ⟨hwell, hmov, words isSpace head ++ ps, ?_, fun qs hqs => ?_⟩
            · rw [hps, words_addition, List.append_assoc]
            · -- the pieces of the tail follow those of the head
              have hall := hbroken qs hqs
              rw [List.append_assoc]
              generalize ps ++ qs = pieces at hall
              cases hall with
              | @cons _ tails _ others joined whole hothers =>
                  rw [← List.append_assoc]
                  refine .cons ?_ (fun hshort => ?_) hothers
                  · rw [List.flatten_append, words_piece hsolid, joined, ← hjoin]
                  · exact absurd (hshort width rfl) (Nat.not_le.mpr long)
        | adds fits eq =>
            rw [eq fuel] at heq
            obtain ⟨hwell, hmov, ps, hps, hbroken⟩ := ih fits
              (wellFormed_addition hmsg hword.wellFormed) hrest heq
            refine ⟨hwell, hmov, word :: ps, ?_, fun qs hqs => ?_⟩
            · rw [hps, words_addition, words_word hword.solid hword.ne_nil, List.append_assoc,
                List.singleton_append]
            · exact (hbroken qs hqs).keep word

/-- One turn of the outer loop with unlimited height, where the result is known. -/
theorem wrapLines_ok {width fuel : Nat} {lines lastLine r lineInput : List Bytes}
    {linesInput : List (List Bytes)}
    (heq : wrapLines width none (fuel + 1) lines (lineInput :: linesInput) lastLine =
      some (.ok r)) :
    ∃ msgline left, wrapWords width fuel [] lineInput = some (.ok (msgline, left)) ∧
      wrapLines width none fuel (lines ++ [msgline]) (requeue left linesInput) left =
        some (.ok r) := by
  have hroom : hasRoom none lines = true := rfl
  rcases hline : wrapWords width fuel [] lineInput with _ | e | ⟨msgline, left⟩
  · rw [wrapLines, if_pos hroom, hline] at heq
    cases heq
  · rw [wrapLines, if_pos hroom, hline] at heq
    cases heq
  · rw [wrapLines_turn rfl hline] at heq
    exact ⟨msgline, left, rfl, heq⟩

theorem requeue_flatten (left : List Bytes) (linesInput : List (List Bytes)) :
    (requeue left linesInput).flatten = left ++ linesInput.flatten := by
  cases left <;> rfl

theorem requeue_eq_nil {left : List Bytes} {linesInput : List (List Bytes)}
    (h : requeue left linesInput = []) : left = [] := by
  cases left with
  | nil => rfl
  | cons word left => cases h

theorem wrapLines_nil {width fuel : Nat} {lines lastLine r : List Bytes} (hlast : lastLine = [])
    (heq : wrapLines width none (fuel + 1) lines [] lastLine = some (.ok r)) : r = lines := by
  subst hlast
  cases heq
  rfl

theorem wrapLines_kept {width fuel : Nat} {lines lastLine r : List Bytes}
    {linesInput : List (List Bytes)} (hlast : linesInput = [] → lastLine = [])
    (hmovable : ∀ word ∈ linesInput.flatten, Movable width word)
    (heq : wrapLines width none fuel lines linesInput lastLine = some (.ok r)) :
    ∃ new, r = lines ++ new ∧ (∀ l ∈ new, WellFormed l) ∧
      Broken (some width) linesInput.flatten (new.flatMap (words isSpace)) := by
  induction fuel generalizing lines linesInput lastLine with
  | zero => cases heq
  | succ fuel ih =>
      rcases linesInput with _ | ⟨lineInput, linesInput⟩
      · obtain rfl := wrapLines_nil (hlast rfl) heq
        exact ⟨[], (List.append_nil _).symm, List.forall_mem_nil _, .nil⟩
      · obtain ⟨msgline, left, hline, hrest⟩ := wrapLines_ok heq
        rw [List.flatten_cons] at hmovable
        obtain ⟨hwell, hmov, ps, hps, hbroken⟩ := wrapWords_kept (Nat.zero_le _) .nil
          (fun word hword => hmovable word (List.mem_append_left _ hword)) hline
        obtain ⟨new, rfl, hnew, hpieces⟩ := ih requeue_eq_nil (fun word hword => by
          rw [requeue_flatten] at hword
          rcases List.mem_append.mp hword with hword | hword
          · exact hmov word hword
          · exact hmovable word (List.mem_append_right _ hword)) hrest
        refine ⟨msgline :: new, by rw [List.append_assoc]; rfl,
          List.forall_mem_cons.mpr ⟨hwell, hnew⟩, ?_⟩
        rw [requeue_flatten] at hpieces
        obtain ⟨qs, rs, hqs, hleft, hothers⟩ := hpieces.split
        rw [List.flatMap_cons, hps, hqs, words_nil, List.nil_append, ← List.append_assoc,
          List.flatten_cons]
        exact (hbroken qs hleft).append hothers

/-! ## Words that lose bytes -/

/-- The bytes that are no white space. -/
def ink (bs : Bytes) : Nat := bs.countP fun b => !isSpace b

@[simp] theorem ink_append (as bs : Bytes) : ink (as ++ bs) = ink as + ink bs := List.countP_append

theorem ink_space (bs : Bytes) : ink (32 :: bs) = ink bs := List.countP_cons_of_neg (by decide)

theorem ink_take_le (k : Nat) (bs : Bytes) : ink (bs.take k) ≤ ink bs :=
  (List.take_sublist k bs).countP_le

theorem ink_of_solid {bs : Bytes} (h : ∀ b ∈ bs, isSpace b = false) : ink bs = bs.length :=
  List.countP_eq_length.mpr fun b hb => by rw [h b hb]; rfl

theorem ink_addition (msgline word : Bytes) : ink (addition msgline word) = ink word := by
  unfold addition
  split
  · rfl
  · exact ink_space word

/-- A word that does not fit on a line and is not ASCII. -/
structure Lossy (width : Nat) (word : Bytes) : Prop where
  solid : ∀ x ∈ word, isSpace x = false
  long : width < len word
  bytes : len word < word.length

theorem split_eq {width : Nat} {msgline word : Bytes} (hlong : width < len word) :
    splitHead width msgline word ++ splitTail width msgline word =
      (addition msgline word).take (len (addition msgline word)) := by
  have hadd := len_addition msgline word
  obtain ⟨k, hk⟩ : ∃ k, len (addition msgline word) = (width - len msgline) + k :=
    ⟨len (addition msgline word) - (width - len msgline), by omega⟩
  rw [splitHead, splitTail, hk, Nat.add_sub_cancel_left, ← List.take_add]

/-- A split keeps as many bytes of a word as it has code points. -/
theorem ink_split {width : Nat} (msgline : Bytes) {word : Bytes} (hlong : width < len word) :
    ink (splitHead width msgline word) + ink (splitTail width msgline word) ≤ ink word ∧
      (Lossy width word →
        ink (splitHead width msgline word) + ink (splitTail width msgline word) < ink word) := by
  rw [← ink_append, split_eq hlong]
  refine ⟨(ink_take_le _ _).trans_eq (ink_addition msgline word), fun hlossy => ?_⟩
  have htake : ink ((addition msgline word).take (len (addition msgline word))) =
      ink (word.take (len word)) := by
    rw [len_addition]
    unfold addition
    rcases msgline with _ | ⟨b, msgline⟩
    · rfl
    · rw [if_neg (List.cons_ne_nil b msgline)]
      exact ink_space (word.take (len word))
  have hsolid : ∀ b ∈ word.take (len word), isSpace b = false := fun b hb =>
    hlossy.solid b (List.mem_of_mem_take hb)
  have hbytes := hlossy.bytes
  rw [htake, ink_of_solid hsolid, ink_of_solid hlossy.solid, List.length_take]
  omega

/-- A line takes no more than there was, and less where it splits a lossy word. -/
theorem wrapWords_ink {width fuel : Nat} {msgline msgline' : Bytes}
    {lineInput lineInput' : List Bytes} (hlen : len msgline ≤ width)
    (heq : wrapWords width fuel msgline lineInput = some (.ok (msgline', lineInput'))) :
    ink msgline' + ink lineInput'.flatten ≤ ink msgline + ink lineInput.flatten ∧
      ((∃ word ∈ lineInput, Lossy width word) →
        ink msgline' + ink lineInput'.flatten < ink msgline + ink lineInput.flatten ∨
          ∃ word ∈ lineInput', Lossy width word) := by
  induction fuel generalizing msgline lineInput with
  | zero => cases heq
  | succ fuel ih =>
      rcases lineInput with _ | ⟨word, lineInput⟩
      · cases heq
        exact ⟨Nat.le_refl _, Or.inr⟩
      · cases wrapWords_turn hlen word lineInput with
        | ends full begun eq =>
            rw [eq fuel] at heq
            cases heq
            exact ⟨Nat.le_refl _, Or.inr⟩
        | splits room long eq =>
            rw [eq fuel] at heq
            have hfits := len_splitHead width msgline word
            obtain ⟨hle, hlt⟩ := ink_split msgline long
            obtain ⟨hrest, hlossy⟩ := ih (by rw [len_append]; omega) heq
            rw [List.flatten_cons, ink_append, ink_append] at hrest hlossy
            rw [List.flatten_cons, ink_append]
            refine ⟨by omega, ?_⟩
            rintro ⟨x, hx, hxl⟩
            rcases List.mem_cons.mp hx with rfl | hx
            · have hless := hlt hxl
              exact Or.inl (by omega)
            · exact (hlossy ⟨x, List.mem_cons_of_mem _ hx, hxl⟩).imp_left fun h => by omega
        | adds fits eq =>
            rw [eq fuel] at heq
            obtain ⟨hrest, hlossy⟩ := ih fits heq
            rw [ink_append, ink_addition] at hrest hlossy
            rw [List.flatten_cons, ink_append]
            refine ⟨by omega, ?_⟩
            rintro ⟨x, hx, hxl⟩
            rcases List.mem_cons.mp hx with rfl | hx
            · have hlong := hxl.long
              have hadd := len_addition msgline x
              rw [len_append] at fits
              omega
            · exact (hlossy ⟨x, hx, hxl⟩).imp_left fun h => by omega

theorem wrapLines_ink {width fuel : Nat} {lines lastLine r : List Bytes}
    {linesInput : List (List Bytes)} (hlast : linesInput = [] → lastLine = [])
    (heq : wrapLines width none fuel lines linesInput lastLine = some (.ok r)) :
    ink r.flatten ≤ ink lines.flatten + ink linesInput.flatten.flatten ∧
      ((∃ word ∈ linesInput.flatten, Lossy width word) →
        ink r.flatten < ink lines.flatten + ink linesInput.flatten.flatten) := by
  induction fuel generalizing lines linesInput lastLine with
  | zero => cases heq
  | succ fuel ih =>
      rcases linesInput with _ | ⟨lineInput, linesInput⟩
      · obtain rfl := wrapLines_nil (hlast rfl) heq
        refine ⟨Nat.le_refl _, ?_⟩
        rintro ⟨x, hx, -⟩
        cases hx
      · obtain ⟨msgline, left, hline, hrest⟩ := wrapLines_ok heq
        obtain ⟨hle, hlossy⟩ := wrapWords_ink (Nat.zero_le _) hline
        obtain ⟨hles, hlossys⟩ := ih requeue_eq_nil hrest
        have hnil : ink ([] : Bytes) = 0 := rfl
        rw [requeue_flatten, List.flatten_append, List.flatten_append, List.flatten_singleton,
          ink_append, ink_append] at hles hlossys
        rw [List.flatten_cons, List.flatten_append, ink_append]
        refine ⟨by omega, ?_⟩
        rintro ⟨x, hx, hxl⟩
        rcases List.mem_append.mp hx with hx | hx
        · rcases hlossy ⟨x, hx, hxl⟩ with hlt | ⟨y, hy, hyl⟩
          · omega
          · have hless := hlossys ⟨y, List.mem_append_left _ hy, hyl⟩
            omega
        · have hless := hlossys ⟨x, List.mem_append_right _ hx, hxl⟩
          omega

/-! ## What wrapping keeps -/

/-- The lines are the text: without white space they are the same, every line is well-formed, and
a word is broken only if it is longer than a line. -/
structure Preserves (width : Option Nat) (str : Bytes) (lines : List Bytes) : Prop where
  text : (lines.flatten.filter fun b => !isSpace b) = str.filter fun b => !isSpace b
  whole : ∀ l ∈ lines, WellFormed l
  breaks : Broken width (words isSpace str) (lines.flatMap (words isSpace))

theorem filter_flatten (lines : List Bytes) :
    (lines.flatten.filter fun b => !isSpace b) = (lines.flatMap (words isSpace)).flatten := by
  induction lines with
  | nil => rfl
  | cons l lines ih =>
      rw [List.flatten_cons, List.filter_append, ih, List.flatMap_cons, List.flatten_append,
        words_flatten]

theorem preserves_of_broken {width : Option Nat} {str : Bytes} {lines : List Bytes}
    (hwhole : ∀ l ∈ lines, WellFormed l)
    (h : Broken width (words isSpace str) (lines.flatMap (words isSpace))) :
    Preserves width str lines where
  text := by rw [filter_flatten, h.flatten, words_flatten]
  whole := hwhole
  breaks := h

/-- `Wrap` with unlimited height returns lines that are the text. -/
def WrapPreserves (width : Option Nat) (allowEmptyLines : Bool) (str : Bytes) : Prop :=
  ∃ fuel lines, wrap fuel ⟨width, none, allowEmptyLines⟩ str = some (.ok lines) ∧
    Preserves width str lines

/-- A lossy word loses bytes. -/
theorem not_wrapPreserves {w : Nat} {allowEmptyLines : Bool} {str word : Bytes}
    (hword : word ∈ words isSpace str) (hlossy : Lossy w word) :
    ¬WrapPreserves (some w) allowEmptyLines str := by
  rintro ⟨fuel, lines, hok, hpreserves⟩
  have hless := (wrapLines_ink (fun _ => rfl) hok).2
    ⟨word, by rw [linesInput_flatten]; exact hword, hlossy⟩
  have hlength : ∀ bs : Bytes, ink bs = (bs.filter fun b => !isSpace b).length := fun bs =>
    List.countP_eq_length_filter
  rw [linesInput_flatten, words_flatten, hlength, hlength, hpreserves.text, List.flatten_nil,
    hlength, List.filter_filter] at hless
  simp at hless

theorem movable_of_word {w : Nat} {str : Bytes} (hstr : WellFormed str)
    (hcond : ∀ word ∈ words isSpace str, w < len word → ∀ b ∈ word, isAscii b = true)
    {word : Bytes} (hword : word ∈ words isSpace str) : Movable w word where
  ne_nil := (words_mem hword).1
  solid := (words_mem hword).2
  wellFormed := wellFormed_words hstr word hword
  ascii := hcond word hword

theorem wrap_preserves_iff {str : Bytes} (hstr : WellFormed str) {width : Option Nat}
    (hwidth : width ≠ some 0) (allowEmptyLines : Bool) :
    WrapPreserves width allowEmptyLines str ↔
      ∀ w, width = some w → ∀ word ∈ words isSpace str, w < len word →
        ∀ b ∈ word, isAscii b = true := by
  constructor
  · rintro hpreserves w rfl word hword hlong
    by_contra hascii
    have hwell := wellFormed_words hstr word hword
    refine not_wrapPreserves hword ⟨(words_mem hword).2, hlong, ?_⟩ hpreserves
    exact lt_of_le_of_ne (len_le_length word) fun heq => hascii (hwell.ascii_of_len heq)
  · intro hcond
    rcases width with _ | w
    · refine ⟨0, [str], rfl, preserves_of_broken (List.forall_mem_singleton.mpr hstr) ?_⟩
      rw [List.flatMap_cons, List.flatMap_nil, List.append_nil]
      exact .refl _ _
    · have hpos : 0 < w := Nat.pos_of_ne_zero fun hzero => hwidth (by rw [hzero])
      obtain ⟨lines, hok, -⟩ := wrapLines_ends hpos (wrapped_start w none)
        (Nat.lt_succ_self (weightLines (linesInput allowEmptyLines str) + w + 1))
      obtain ⟨new, hnew, hwhole, hbroken⟩ := wrapLines_kept (fun _ => rfl) (fun word hword => by
        rw [linesInput_flatten] at hword
        exact movable_of_word hstr (hcond w rfl) hword) hok
      rw [List.nil_append] at hnew
      rw [← hnew] at hwhole hbroken
      rw [linesInput_flatten] at hbroken
      exact ⟨_, lines, hok, preserves_of_broken hwhole hbroken⟩

/-- A text whose long word is ASCII. -/
theorem wrapPreserves_dejaVu :
    WrapPreserves (some 5) false (encode "déjà vu repeatedly".toList) :=
  (wrap_preserves_iff ⟨_, rfl⟩ (by decide) false).mpr (by decide +kernel)

/-- A word of three accented letters on lines of two: half of the letters' bytes are lost. -/
theorem wrap_eee_loses :
    WellFormed (encode "ééé".toList) ∧
      wrap 10 { width := some 2 } (encode "ééé".toList) =
        some (.ok [encode "é".toList, [0xc3]]) ∧
      ¬WrapPreserves (some 2) false (encode "ééé".toList) := by
  refine ⟨⟨_, rfl⟩, by decide +kernel, ?_⟩
  have hword : encode "ééé".toList ∈ words isSpace (encode "ééé".toList) := by decide +kernel
  exact not_wrapPreserves hword ⟨by decide +kernel, by decide +kernel, by decide +kernel⟩

end LineWrap
end Ui
end Debase
