import Debase.Ui.TextField

/-!
# The view of a text field

Where the value is whole code points, the offsets of a field are the numbers of two of them: the
first that is shown, and the one the cursor is at.  What a key does is stated by these numbers.
-/

namespace Debase
namespace Ui

open Library Library.Utf8

namespace TextField

/-- The input is a pass over the views. -/
def Input.isPass : Input → Bool
  | .layout => true
  | .draw => true
  | _ => false

/-- The field takes keys. -/
structure Ready (f : TextField) : Prop where
  focused : f.focusedAndEnabled = true
  released : f.drag = false

/-! ## Code points by their number -/

/-- The value is in code points, the last typed of which may have come in part; the view of `w`
columns begins at number `l` and the cursor is at number `c`. -/
structure At (f : TextField) (w : Nat) (xs : List Bytes) (l c : Nat) : Prop where
  ready : f.Ready
  width : f.size.x = w
  codepoints : ∀ x ∈ xs, IsCodepoint x
  value : f.value = xs.flatten
  offLeft : f.offLeft = offset xs l
  offCursor : f.offCursor = offset xs c
  left_le : l ≤ c
  cursor_le : c ≤ xs.length
  inView : c ≤ l + w
  filled : l ≤ xs.length - w

section Offsets

variable {f : TextField} {w : Nat} {xs : List Bytes}

theorem iterator_offset (hvalue : f.value = xs.flatten) (i : Nat) :
    f.iterator (offset xs i) = some (offset xs i) :=
  iterator_natCast (by rw [hvalue]; exact offset_le_length xs i)

theorem leftMax_offset (hxs : ∀ x ∈ xs, IsCodepoint x) (hvalue : f.value = xs.flatten)
    (hwidth : f.size.x = w) : f.leftMax = some (offset xs (xs.length - w)) := by
  rw [leftMax, hvalue, hwidth, ← UTF8.nextN_offset_neg hxs (Nat.le_refl _),
    offset_of_length_le (Nat.le_refl _)]

theorem cursorMax_offset (hxs : ∀ x ∈ xs, IsCodepoint x) (hvalue : f.value = xs.flatten)
    (hwidth : f.size.x = w) {l : Nat} (hl : l ≤ xs.length) (hleft : f.offLeft = offset xs l) :
    f.cursorMax = some (offset xs (l + w)) := by
  rw [cursorMax, left, hleft, iterator_offset hvalue, Option.bind_eq_bind, Option.bind_some, hvalue,
    hwidth, UTF8.nextN_offset hxs hl]

end Offsets

theorem clamp_of_le {v lo hi : Int} (hlo : lo ≤ v) (hhi : v ≤ hi) : clamp v lo hi = v := by
  rw [clamp, if_neg (by omega), if_neg (by omega)]

theorem clamp_of_ge {v lo hi : Int} (hlo : lo ≤ hi) (hhi : hi ≤ v) : clamp v lo hi = hi := by
  rw [clamp, if_neg (by omega)]
  split <;> omega

theorem clamp_offset_zero (xs : List Bytes) (l m : Nat) :
    clamp (offset xs l) 0 (offset xs m) = offset xs (min l m) := by
  rcases Nat.le_total l m with h | h
  · rw [Nat.min_eq_left h]
    exact clamp_of_le (Int.natCast_nonneg _) (Int.ofNat_le.mpr (offset_mono xs h))
  · rw [Nat.min_eq_right h]
    exact clamp_of_ge (Int.natCast_nonneg _) (Int.ofNat_le.mpr (offset_mono xs h))

theorem clamp_offset {xs : List Bytes} {l c m : Nat} (hl : l ≤ c) (hm : c ≤ m) :
    clamp (offset xs c) (offset xs l) (offset xs m) = offset xs c :=
  clamp_of_le (Int.ofNat_le.mpr (offset_mono xs hl)) (Int.ofNat_le.mpr (offset_mono xs hm))

/-- The update of the offsets, where it leaves the cursor between two code points. -/
theorem offUpdate_clamp {f : TextField} {w : Nat} {xs : List Bytes} {l c : Nat} (hready : f.Ready)
    (hwidth : f.size.x = w) (hxs : ∀ x ∈ xs, IsCodepoint x) (hvalue : f.value = xs.flatten)
    (hleft : clamp f.offLeft 0 (offset xs (xs.length - w)) = offset xs l)
    (hfilled : l ≤ xs.length - w)
    (hcursor : clamp f.offCursor (offset xs l) (offset xs (l + w)) = offset xs c) (hle : l ≤ c)
    (hlength : c ≤ xs.length) (hview : c ≤ l + w) :
    ∃ f', f.offUpdate = some f' ∧ f'.At w xs l c := by
  refine ⟨{ f with offLeft := offset xs l, offCursor := offset xs c }, ?_,
    ⟨hready.focused, hready.released⟩, hwidth, hxs, hvalue, rfl, rfl, hle, hlength, hview,
    hfilled⟩
  have hmin : left { f with offLeft := offset xs l } = some (offset xs l) :=
    iterator_offset (f := { f with offLeft := offset xs l }) hvalue l
  have hmax : cursorMax { f with offLeft := offset xs l } = some (offset xs (l + w)) :=
    cursorMax_offset (f := { f with offLeft := offset xs l }) hxs hvalue hwidth
      (Nat.le_trans hle hlength) rfl
  simp only [offUpdate, leftMax_offset hxs hvalue hwidth, Option.bind_eq_bind,
    Option.bind_some, hleft, hmin, hmax, hcursor, Option.pure_def]

/-- The update keeps a cursor that is in the view. -/
theorem offUpdate_at {f : TextField} {w : Nat} {xs : List Bytes} {l c : Nat} (hready : f.Ready)
    (hwidth : f.size.x = w) (hxs : ∀ x ∈ xs, IsCodepoint x) (hvalue : f.value = xs.flatten)
    (hleft : clamp f.offLeft 0 (offset xs (xs.length - w)) = offset xs l)
    (hfilled : l ≤ xs.length - w) (hcursor : f.offCursor = offset xs c) (hle : l ≤ c)
    (hlength : c ≤ xs.length) (hview : c ≤ l + w) :
    ∃ f', f.offUpdate = some f' ∧ f'.At w xs l c := by
  refine offUpdate_clamp hready hwidth hxs hvalue hleft hfilled ?_ hle hlength hview
  rw [hcursor]
  exact clamp_offset hle hview

namespace At

variable {f : TextField} {w : Nat} {xs : List Bytes} {l c : Nat}

theorem left_le_length (h : f.At w xs l c) : l ≤ xs.length := Nat.le_trans h.left_le h.cursor_le

theorem left_eq (h : f.At w xs l c) : f.left = some (offset xs l) := by
  rw [TextField.left, h.offLeft, iterator_offset h.value]

theorem cursor_eq (h : f.At w xs l c) : f.cursor = some (offset xs c) := by
  rw [TextField.cursor, h.offCursor, iterator_offset h.value]

theorem leftMax_eq (h : f.At w xs l c) : f.leftMax = some (offset xs (xs.length - w)) :=
  leftMax_offset h.codepoints h.value h.width

theorem cursorMax_eq (h : f.At w xs l c) : f.cursorMax = some (offset xs (l + w)) :=
  cursorMax_offset h.codepoints h.value h.width h.left_le_length h.offLeft

theorem prev_eq (h : f.At w xs l c) {i : Nat} (hi : i ≤ xs.length) :
    UTF8.prev f.value (offset xs i) 0 = some (offset xs (i - 1)) := by
  rw [h.value]
  exact UTF8.nextN_offset_neg h.codepoints hi 1

theorem next_eq (h : f.At w xs l c) {i : Nat} (hi : i ≤ xs.length) :
    UTF8.next f.value (offset xs i) f.value.length = some (offset xs (i + 1)) := by
  rw [h.value]
  exact UTF8.nextN_offset h.codepoints hi 1

theorem ne_nil (h : f.At w xs l c) : ∀ x ∈ xs, x ≠ [] := fun x hx => (h.codepoints x hx).ne_nil

theorem cursor_eq_zero_iff (h : f.At w xs l c) : offset xs c = 0 ↔ c = 0 := by
  rw [← offset_zero xs]
  exact offset_inj h.ne_nil h.cursor_le (Nat.zero_le _)

theorem cursor_eq_length_iff (h : f.At w xs l c) :
    offset xs c = f.value.length ↔ c = xs.length := by
  rw [h.value, ← offset_of_length_le (Nat.le_refl xs.length)]
  exact offset_inj h.ne_nil h.cursor_le (Nat.le_refl _)

theorem cursor_eq_left_iff (h : f.At w xs l c) : offset xs c = offset xs l ↔ c = l :=
  offset_inj h.ne_nil h.cursor_le h.left_le_length

/-- The cursor is at the end of the display, or of the text. -/
theorem cursor_eq_max_iff (h : f.At w xs l c) :
    offset xs c = offset xs (l + w) ↔ c = l + w ∨ c = xs.length := by
  have hle := h.cursor_le
  have hview := h.inView
  by_cases hmax : l + w ≤ xs.length
  · rw [offset_inj h.ne_nil hle hmax]
    omega
  · rw [offset_of_length_le (by omega : xs.length ≤ l + w),
      ← offset_of_length_le (Nat.le_refl xs.length), offset_inj h.ne_nil hle (Nat.le_refl _)]
    omega

end At

/-! ## Passes over the views -/

theorem At.offUpdate {f : TextField} {w : Nat} {xs : List Bytes} {l c : Nat} (h : f.At w xs l c) :
    ∃ f', f.offUpdate = some f' ∧ f'.At w xs l c := by
  refine offUpdate_at h.ready h.width h.codepoints h.value ?_ h.filled h.offCursor h.left_le
    h.cursor_le h.inView
  rw [h.offLeft, clamp_offset_zero, Nat.min_eq_left h.filled]

theorem At.layout {f : TextField} {w : Nat} {xs : List Bytes} {l c : Nat} (h : f.At w xs l c) :
    ∃ f', f.layout = some f' ∧ f'.At w xs l c := by
  obtain ⟨f', hf', h'⟩ := h.offUpdate
  have hlen : UTF8.lenBetween f'.value (offset xs l) (offset xs c) =
      some (len ((f'.value.take (offset xs c)).drop (offset xs l))) :=
    if_pos (offset_mono xs h.left_le)
  rw [TextField.layout, hf', Option.bind_eq_bind, Option.bind_some, if_pos h'.ready.focused,
    h'.left_eq, h'.cursor_eq]
  simp only [Option.bind_eq_bind, Option.bind_some, hlen, Option.pure_def]
  exact ⟨_, rfl, ⟨h'.ready.focused, h'.ready.released⟩, h'.width, h'.codepoints, h'.value,
    h'.offLeft, h'.offCursor, h'.left_le, h'.cursor_le, h'.inView, h'.filled⟩

theorem At.pass {f : TextField} {w : Nat} {xs : List Bytes} {l c : Nat} (h : f.At w xs l c)
    {i : Input} (hi : i.isPass = true) : ∃ f', f.step i = some f' ∧ f'.At w xs l c := by
  cases i with
  | layout => exact h.layout
  | draw =>
      obtain ⟨right, hright⟩ : ∃ right, UTF8.nextN f.value (offset xs l) f.value.length f.size.x =
          some right := by
        have hmax := h.cursorMax_eq
        rw [cursorMax, h.left_eq] at hmax
        exact ⟨_, hmax⟩
      refine ⟨f, ?_, h⟩
      simp only [TextField.step, TextField.draw, h.left_eq, Option.bind_eq_bind, Option.bind_some,
        hright, Option.pure_def, Option.map_some]
  | _ => cases hi

/-! ## Moving the cursor -/

namespace At

variable {f : TextField} {w : Nat} {xs : List Bytes} {l c : Nat}

theorem shiftLeft_eq (h : f.At w xs l c) :
    f.shiftLeft = some { f with offLeft := offset xs (l - 1) } := by
  simp only [TextField.shiftLeft, h.left_eq, Option.bind_eq_bind, Option.bind_some,
    h.prev_eq h.left_le_length, Option.pure_def]

theorem shiftRight_eq (h : f.At w xs l c) :
    f.shiftRight = some { f with offLeft := offset xs (l + 1) } := by
  simp only [TextField.shiftRight, h.left_eq, Option.bind_eq_bind, Option.bind_some,
    h.next_eq h.left_le_length, Option.pure_def]

/-- The offsets set to other places that are in order. -/
theorem withOffsets (h : f.At w xs l c) (l' c' : Nat) (hle : l' ≤ c') (hlength : c' ≤ xs.length)
    (hview : c' ≤ l' + w) (hfilled : l' ≤ xs.length - w) :
    At { f with offLeft := offset xs l', offCursor := offset xs c' } w xs l' c' :=
  ⟨⟨h.ready.focused, h.ready.released⟩, h.width, h.codepoints, h.value, rfl, rfl, hle,
    hlength, hview, hfilled⟩

theorem handleLeft_zero (h : f.At w xs l 0) : f.handleLeft = some (f, none) := by
  rw [TextField.handleLeft, h.cursor_eq, Option.bind_eq_bind, Option.bind_some,
    if_pos (h.cursor_eq_zero_iff.mpr rfl)]
  rfl

theorem handleLeft_succ (h : f.At w xs l (c + 1)) :
    ∃ r, f.handleLeft = some r ∧ ∃ l', r.1.At w xs l' c := by
  have hprev := h.prev_eq h.cursor_le
  have hlength := h.cursor_le
  have hview := h.inView
  have hfilled := h.filled
  have hne : ¬offset xs (c + 1) = 0 := fun hzero =>
    absurd (h.cursor_eq_zero_iff.mp hzero) (by omega)
  rw [Nat.add_sub_cancel] at hprev
  rw [TextField.handleLeft, h.cursor_eq, Option.bind_eq_bind, Option.bind_some, if_neg hne,
    h.left_eq, Option.bind_eq_bind, Option.bind_some]
  by_cases hleft : c + 1 = l
  · -- the view goes along
    rw [if_pos (h.cursor_eq_left_iff.mpr hleft), h.shiftLeft_eq, Option.bind_some]
    simp only [hprev, Option.bind_some, Option.pure_def]
    exact ⟨_, rfl, l - 1, h.withOffsets _ _ (by omega) (by omega) (by omega) (by omega)⟩
  · have hle := h.left_le
    rw [if_neg fun heq => hleft (h.cursor_eq_left_iff.mp heq)]
    simp only [Option.pure_def, Option.bind_some, hprev]
    refine ⟨_, rfl, l, ?_⟩
    have hat := h.withOffsets l c (by omega) (by omega) (by omega) hfilled
    rwa [← h.offLeft] at hat

theorem handleRight_length (h : f.At w xs l xs.length) : f.handleRight = some (f, none) := by
  rw [TextField.handleRight, h.cursor_eq, Option.bind_eq_bind, Option.bind_some,
    if_pos (h.cursor_eq_length_iff.mpr rfl)]
  rfl

theorem handleRight_lt (h : f.At w xs l c) (hc : c < xs.length) :
    ∃ r, f.handleRight = some r ∧ ∃ l', r.1.At w xs l' (c + 1) := by
  have hnext := h.next_eq h.cursor_le
  have hle := h.left_le
  have hview := h.inView
  have hfilled := h.filled
  have hne : ¬offset xs c = f.value.length := fun hend =>
    absurd (h.cursor_eq_length_iff.mp hend) (by omega)
  rw [TextField.handleRight, h.cursor_eq, Option.bind_eq_bind, Option.bind_some, if_neg hne,
    h.cursorMax_eq, Option.bind_eq_bind, Option.bind_some]
  by_cases hright : c = l + w
  · rw [if_pos (h.cursor_eq_max_iff.mpr (Or.inl hright)), h.shiftRight_eq, Option.bind_some]
    simp only [hnext, Option.bind_some, Option.pure_def]
    exact ⟨_, rfl, l + 1, h.withOffsets _ _ (by omega) (by omega) (by omega) (by omega)⟩
  · rw [if_neg fun heq => by have := h.cursor_eq_max_iff.mp heq; omega]
    simp only [Option.pure_def, Option.bind_some, hnext]
    refine ⟨_, rfl, l, ?_⟩
    have hat := h.withOffsets l (c + 1) (by omega) (by omega) (by omega) hfilled
    rwa [← h.offLeft] at hat

theorem handleUp (h : f.At w xs l c) : ∃ r, f.handleUp = some r ∧ ∃ l', r.1.At w xs l' 0 := by
  have hat : At { f with offLeft := (0 : Nat), offCursor := (0 : Nat) } w xs 0 0 :=
    h.withOffsets 0 0 (Nat.le_refl 0) (Nat.zero_le _) (Nat.zero_le _) (Nat.zero_le _)
  obtain ⟨f', hf', h'⟩ := hat.offUpdate
  have hleft : left { f with offLeft := 0 } = some 0 :=
    iterator_natCast (f := { f with offLeft := 0 }) (Nat.zero_le _)
  refine ⟨(f', none), ?_, 0, h'⟩
  simp only [TextField.handleUp, hleft, Option.bind_eq_bind, Option.bind_some, Option.pure_def]
  exact congrArg (fun r => Option.bind r _) hf'

theorem handleDown (h : f.At w xs l c) :
    ∃ r, f.handleDown = some r ∧ ∃ l', r.1.At w xs l' xs.length := by
  have hsub := Nat.sub_le xs.length w
  have hat := h.withOffsets (xs.length - w) xs.length hsub (Nat.le_refl _)
    (by omega) (Nat.le_refl _)
  obtain ⟨f', hf', h'⟩ := hat.offUpdate
  have hmax : cursorMax { f with offLeft := offset xs (xs.length - w) } =
      some (offset xs xs.length) := by
    have hend := cursorMax_offset (f := { f with offLeft := offset xs (xs.length - w) })
      h.codepoints h.value h.width hsub rfl
    rw [hend, offset_of_length_le (Nat.le_refl xs.length), offset_of_length_le]
    change xs.length ≤ xs.length - w + w
    omega
  refine ⟨(f', none), ?_, _, h'⟩
  simp only [TextField.handleDown, h.leftMax_eq, hmax, Option.bind_eq_bind, Option.bind_some,
    hf', Option.pure_def]

end At

/-! ## Deleting -/

/-- Two texts that begin with the same code points. -/
theorem offset_append_eq {as : List Bytes} (bs bs' : List Bytes) {i : Nat} (h : i ≤ as.length) :
    offset (as ++ bs) i = offset (as ++ bs') i := by
  rw [offset_append_left h, offset_append_left h]

theorem erase_value {f : TextField} {as bs : List Bytes} {x : Bytes}
    (hvalue : f.value = (as ++ x :: bs).flatten) :
    (f.erase (offset (as ++ x :: bs) as.length) (offset (as ++ x :: bs) (as.length + 1))).value =
      (as ++ bs).flatten := by
  have hdrop : (as ++ x :: bs).drop (as.length + 1) = bs := by simp
  rw [erase, hvalue, take_offset, drop_offset, List.take_left, hdrop, List.flatten_append]

theorem codepoints_erase {as bs : List Bytes} {x : Bytes}
    (h : ∀ y ∈ as ++ x :: bs, IsCodepoint y) : ∀ y ∈ as ++ bs, IsCodepoint y := by
  intro y hy
  refine h y ?_
  rcases List.mem_append.mp hy with hy | hy
  · exact List.mem_append_left _ hy
  · exact List.mem_append_right _ (List.mem_cons_of_mem x hy)

namespace At

variable {f : TextField} {w : Nat} {as bs : List Bytes} {x : Bytes} {l : Nat}

theorem handleDelete_zero {xs : List Bytes} (h : f.At w xs l 0) :
    f.handleDelete = some (f, none) := by
  rw [TextField.handleDelete, h.cursor_eq, Option.bind_eq_bind, Option.bind_some,
    if_pos (h.cursor_eq_zero_iff.mpr rfl)]
  rfl

/-- The update after a code point next to the cursor is erased.  The view begins before it, or has
room for what is after. -/
theorem offUpdate_erase {c : Nat} (h : f.At w (as ++ x :: bs) l c) (hbefore : as.length ≤ c)
    (hafter : c ≤ as.length + 1) (hfits : l ≤ as.length ∨ bs.length ≤ w) {off : Int}
    (hoff : off = offset (as ++ bs) as.length) :
    ∃ f' l', TextField.offUpdate { f.erase (offset (as ++ x :: bs) as.length)
        (offset (as ++ x :: bs) (as.length + 1)) with offCursor := off } = some f' ∧
      f'.At w (as ++ bs) l' as.length := by
  have hlength : (as ++ bs).length = as.length + bs.length := List.length_append
  have hlength' : (as ++ x :: bs).length = as.length + (bs.length + 1) := List.length_append
  have hmono := offset_mono (as ++ x :: bs) (show as.length ≤ as.length + 1 from Nat.le_succ _)
  have hsame := offset_append_eq (x :: bs) bs (Nat.le_refl as.length)
  have hle := h.left_le
  have hview := h.inView
  have hfilled := h.filled
  have hleft : clamp f.offLeft 0 (offset (as ++ bs) ((as ++ bs).length - w)) =
      offset (as ++ bs) (min l ((as ++ bs).length - w)) := by
    rw [h.offLeft]
    by_cases hl : l ≤ as.length
    · rw [offset_append_eq _ bs hl, clamp_offset_zero]
    · -- the view begins where the cursor is, and moves with it
      have hlast : (as ++ bs).length - w = as.length := by omega
      have hcursor : l = as.length + 1 := by omega
      rw [hlast, Nat.min_eq_right (by omega), hcursor, ← hsame]
      exact clamp_of_ge (Int.natCast_nonneg _) (Int.ofNat_le.mpr hmono)
  obtain ⟨f', hf', h'⟩ := offUpdate_at
    (f := { f.erase (offset (as ++ x :: bs) as.length) (offset (as ++ x :: bs) (as.length + 1)) with
      offCursor := off })
    ⟨h.ready.focused, h.ready.released⟩ h.width (codepoints_erase h.codepoints)
    (erase_value h.value) hleft (Nat.min_le_right _ _) hoff (by omega) (by omega) (by omega)
  exact ⟨f', _, hf', h'⟩

/-- Backspace. -/
theorem handleDelete_succ (h : f.At w (as ++ x :: bs) l (as.length + 1))
    (hfits : l ≤ as.length ∨ bs.length ≤ w) :
    ∃ r, f.handleDelete = some r ∧ ∃ l', r.1.At w (as ++ bs) l' as.length := by
  have hmono := offset_mono (as ++ x :: bs) (show as.length ≤ as.length + 1 from Nat.le_succ _)
  have hcursor : f.offCursor -
      ↑(offset (as ++ x :: bs) (as.length + 1) - offset (as ++ x :: bs) as.length) =
        offset (as ++ bs) as.length := by
    rw [h.offCursor, ← offset_append_eq (x :: bs) bs (Nat.le_refl as.length)]
    omega
  have hne : ¬offset (as ++ x :: bs) (as.length + 1) = 0 := fun hzero =>
    absurd (h.cursor_eq_zero_iff.mp hzero) (by omega)
  have hprev := h.prev_eq h.cursor_le
  rw [Nat.add_sub_cancel] at hprev
  obtain ⟨f', l', hf', h'⟩ :=
    h.offUpdate_erase (Nat.le_succ _) (Nat.le_refl _) hfits hcursor
  refine ⟨(f', some .valueChanged), ?_, l', h'⟩
  rw [TextField.handleDelete, h.cursor_eq, Option.bind_eq_bind, Option.bind_some, if_neg hne, hprev]
  exact congrArg (fun r => Option.bind r _) hf'

theorem handleFnDelete_length {xs : List Bytes} (h : f.At w xs l xs.length) :
    f.handleFnDelete = some (f, none) := by
  rw [TextField.handleFnDelete, h.cursor_eq, Option.bind_eq_bind, Option.bind_some,
    if_pos (h.cursor_eq_length_iff.mpr rfl)]
  rfl

theorem handleFnDelete_lt (h : f.At w (as ++ x :: bs) l as.length) :
    ∃ r, f.handleFnDelete = some r ∧ ∃ l', r.1.At w (as ++ bs) l' as.length := by
  have hcursor : f.offCursor = offset (as ++ bs) as.length := by
    rw [h.offCursor, offset_append_eq _ bs (Nat.le_refl _)]
  have hne : ¬offset (as ++ x :: bs) as.length = f.value.length := fun hend =>
    absurd (h.cursor_eq_length_iff.mp hend) (by simp)
  obtain ⟨f', l', hf', h'⟩ :=
    h.offUpdate_erase (Nat.le_refl _) (Nat.le_succ _) (Or.inl h.left_le) hcursor
  refine ⟨(f', some .valueChanged), ?_, l', h'⟩
  rw [TextField.handleFnDelete, h.cursor_eq, Option.bind_eq_bind, Option.bind_some, if_neg hne,
    h.next_eq h.cursor_le]
  exact congrArg (fun r => Option.bind r _) hf'

end At

/-! ## Typing -/

namespace At

variable {f : TextField} {w : Nat} {xs ys : List Bytes} {l c l' c' : Nat}

/-- A byte that is typed, where the update leaves the cursor between two code points.  The view is
shifted before if the cursor is at the end of the display. -/
theorem handleTyped (h : f.At w xs l c) {t : Int} (ht : typeable t = true)
    (hys : ∀ y ∈ ys, IsCodepoint y)
    (hvalue : (xs.take c).flatten ++ UInt8.ofNat t.toNat :: (xs.drop c).flatten = ys.flatten)
    (hleft : clamp (offset xs (if c = l + w ∨ c = xs.length then l + 1 else l)) 0
      (offset ys (ys.length - w)) = offset ys l')
    (hfilled : l' ≤ ys.length - w) (hcursor : offset xs c + 1 = offset ys c') (hle : l' ≤ c')
    (hlength : c' ≤ ys.length) (hview : c' ≤ l' + w) :
    ∃ r, f.handleTyped t = some r ∧ r.1.At w ys l' c' := by
  have hcursor' : f.offCursor + 1 = offset ys c' := by
    rw [h.offCursor, ← hcursor]
    rfl
  have hvalue' : f.value.take (offset xs c) ++ UInt8.ofNat t.toNat :: f.value.drop (offset xs c) =
      ys.flatten := by
    rw [h.value, take_offset, drop_offset, hvalue]
  rw [TextField.handleTyped, if_pos ht, h.cursor_eq, Option.bind_eq_bind, Option.bind_some,
    h.cursorMax_eq, Option.bind_eq_bind, Option.bind_some]
  by_cases hmax : c = l + w ∨ c = xs.length
  · rw [if_pos hmax] at hleft
    rw [if_pos (h.cursor_eq_max_iff.mpr hmax), h.shiftRight_eq, Option.bind_some]
    obtain ⟨f', hf', h'⟩ := offUpdate_at
      (f := { f.insert (offset xs c) (UInt8.ofNat t.toNat) with
        offLeft := offset xs (l + 1), offCursor := f.offCursor + 1 })
      ⟨h.ready.focused, h.ready.released⟩ h.width hys hvalue' hleft hfilled hcursor' hle hlength
      hview
    exact ⟨(f', some .valueChanged), congrArg (fun r => Option.bind r _) hf', h'⟩
  · rw [if_neg hmax, ← h.offLeft] at hleft
    rw [if_neg fun heq => hmax (h.cursor_eq_max_iff.mp heq)]
    obtain ⟨f', hf', h'⟩ := offUpdate_at
      (f := { f.insert (offset xs c) (UInt8.ofNat t.toNat) with offCursor := f.offCursor + 1 })
      ⟨h.ready.focused, h.ready.released⟩ h.width hys hvalue' hleft hfilled hcursor' hle hlength
      hview
    exact ⟨(f', some .valueChanged), congrArg (fun r => Option.bind r _) hf', h'⟩

end At

/-- Where the view is after the first byte of a character has come. -/
theorem view_start {w l : Nat} {as bs : List Bytes} (b : UInt8) (hle : l ≤ as.length)
    (hview : as.length ≤ l + w) (hfilled : l ≤ (as ++ bs).length - w)
    (hfits : 0 < w ∨ ∃ y bs', bs = y :: bs' ∧ y.length = 1) :
    ∃ l', clamp (offset (as ++ bs)
        (if as.length = l + w ∨ as.length = (as ++ bs).length then l + 1 else l)) 0
        (offset (as ++ [b] :: bs) ((as ++ [b] :: bs).length - w)) = offset (as ++ [b] :: bs) l' ∧
      l' ≤ (as ++ [b] :: bs).length - w ∧ (w = 0 ∨ l' ≤ as.length) ∧ l' ≤ as.length + 1 ∧
      as.length + 1 ≤ l' + w := by
  have hlength : (as ++ [b] :: bs).length = as.length + (bs.length + 1) := List.length_append
  have hlength' : (as ++ bs).length = as.length + bs.length := List.length_append
  by_cases hmax : as.length = l + w ∨ as.length = (as ++ bs).length
  · rw [if_pos hmax]
    rcases Nat.lt_or_eq_of_le hle with hlt | rfl
    · rw [offset_append_eq _ ([b] :: bs) hlt, clamp_offset_zero]
      exact ⟨_, rfl, Nat.min_le_right _ _, by omega, by omega, by omega⟩
    · rcases bs with _ | ⟨y, bs⟩
      · -- the view is at the end of the text, and stays
        have hw : 0 < w := by
          rcases hfits with hw | ⟨y, bs', hno, -⟩
          · exact hw
          · cases hno
        have hend : offset (as ++ []) (as.length + 1) = offset (as ++ [[b]]) as.length := by
          rw [List.append_nil, offset_append_left (Nat.le_refl _),
            offset_of_length_le (Nat.le_succ _), offset_of_length_le (Nat.le_refl _)]
        rw [hend, clamp_offset_zero]
        exact ⟨_, rfl, Nat.min_le_right _ _, by omega, by omega, by omega⟩
      · -- without a column the view goes along with the cursor
        have hw : w = 0 := by
          rw [List.length_cons] at hlength'
          omega
        obtain ⟨z, bs', hcons, hz⟩ := hfits.resolve_left (by omega)
        cases hcons
        have hnext : offset (as ++ y :: bs) (as.length + 1) =
            offset (as ++ [b] :: y :: bs) (as.length + 1) := by
          rw [offset_append_right, offset_append_right, offset_cons_succ, offset_cons_succ,
            offset_zero, offset_zero, hz, List.length_singleton]
        rw [hnext, clamp_offset_zero]
        exact ⟨_, rfl, Nat.min_le_right _ _, by omega, by omega, by omega⟩
  · rw [if_neg hmax, offset_append_eq _ ([b] :: bs) hle, clamp_offset_zero]
    exact ⟨_, rfl, Nat.min_le_right _ _, by omega, by omega, by omega⟩

theorem ofNat_toNat_cast (b : UInt8) : UInt8.ofNat (b.toNat : Int).toNat = b := by
  rw [Int.toNat_natCast, UInt8.ofNat_toNat]

/-- The first byte of a character. -/
theorem At.handleTyped_start {f : TextField} {w : Nat} {as bs : List Bytes} {l : Nat}
    (h : f.At w (as ++ bs) l as.length) {b : UInt8} (hb : codepointStart b = true)
    (ht : typeable b.toNat = true)
    (hfits : 0 < w ∨ ∃ y bs', bs = y :: bs' ∧ y.length = 1) :
    ∃ r, f.handleTyped b.toNat = some r ∧
      ∃ l', r.1.At w (as ++ [b] :: bs) l' (as.length + 1) ∧ (w = 0 ∨ l' ≤ as.length) := by
  have hys : ∀ y ∈ as ++ [b] :: bs, IsCodepoint y := by
    intro y hy
    rcases List.mem_append.mp hy with hy | hy
    · exact h.codepoints y (List.mem_append_left _ hy)
    · rcases List.mem_cons.mp hy with rfl | hy
      · exact ⟨b, [], rfl, hb, List.forall_mem_nil _⟩
      · exact h.codepoints y (List.mem_append_right _ hy)
  have hvalue : ((as ++ bs).take as.length).flatten ++
      UInt8.ofNat (b.toNat : Int).toNat :: ((as ++ bs).drop as.length).flatten =
        (as ++ [b] :: bs).flatten := by
    rw [ofNat_toNat_cast, List.take_left, List.drop_left, List.flatten_append, List.flatten_cons,
      List.singleton_append]
  have hcursor : offset (as ++ bs) as.length + 1 = offset (as ++ [b] :: bs) (as.length + 1) := by
    rw [offset_append_right, offset_cons_succ, offset_zero, List.length_singleton,
      offset_append_left (Nat.le_refl _), offset_of_length_le (Nat.le_refl _)]
  obtain ⟨l', hleft, hfilled, hbefore, hle, hview⟩ :=
    view_start b h.left_le h.inView h.filled hfits
  obtain ⟨r, hr, h'⟩ := h.handleTyped ht hys hvalue hleft hfilled hcursor hle (by simp) hview
  exact ⟨r, hr, l', h', hbefore⟩

/-- Where the view is after another byte of a character has come. -/
theorem view_tail {w l : Nat} {as bs : List Bytes} (x : Bytes) (b : UInt8)
    (hle : l ≤ as.length + 1) (hl : w = 0 ∨ l ≤ as.length) (hview : as.length + 1 ≤ l + w)
    (hfilled : l ≤ (as ++ x :: bs).length - w)
    (hfits : 2 ≤ w ∨ w = 1 ∧ bs = [] ∨ w = 0 ∧ ∃ y bs', bs = y :: bs' ∧ y.length = 1) :
    ∃ l', clamp (offset (as ++ x :: bs)
        (if as.length + 1 = l + w ∨ as.length + 1 = (as ++ x :: bs).length then l + 1 else l)) 0
        (offset (as ++ (x ++ [b]) :: bs) ((as ++ (x ++ [b]) :: bs).length - w)) =
          offset (as ++ (x ++ [b]) :: bs) l' ∧ l' ≤ (as ++ (x ++ [b]) :: bs).length - w ∧
      (w = 0 ∨ l' ≤ as.length) ∧ l' ≤ as.length + 1 ∧ as.length + 1 ≤ l' + w := by
  have hlength : (as ++ (x ++ [b]) :: bs).length = as.length + (bs.length + 1) := List.length_append
  have hlength' : (as ++ x :: bs).length = as.length + (bs.length + 1) := List.length_append
  by_cases hmax : as.length + 1 = l + w ∨ as.length + 1 = (as ++ x :: bs).length
  · rw [if_pos hmax]
    by_cases hw : w = 0
    · -- without a column the view goes along with the cursor
      obtain ⟨y, bs', rfl, hy⟩ : ∃ y bs', bs = y :: bs' ∧ y.length = 1 := by
        rcases hfits with hno | ⟨hno, -⟩ | ⟨-, hy⟩
        · omega
        · omega
        · exact hy
      have hend : l + 1 = as.length + 2 := by omega
      have hnext : offset (as ++ x :: y :: bs') (as.length + 2) =
          offset (as ++ (x ++ [b]) :: y :: bs') (as.length + 1) := by
        rw [offset_append_right, offset_append_right, offset_cons_succ, offset_cons_succ,
          offset_cons_succ, offset_zero, offset_zero, hy, List.length_append,
          List.length_singleton]
      rw [hend, hnext, clamp_offset_zero]
      exact ⟨_, rfl, Nat.min_le_right _ _, by omega, by omega, by omega⟩
    · have hl := hl.resolve_left hw
      -- at the end of the text the update moves the view back
      have hback : l + 1 ≤ as.length ∨ (as ++ (x ++ [b]) :: bs).length - w ≤ as.length := by
        rcases hfits with hw | ⟨-, rfl⟩ | ⟨hno, -⟩
        · omega
        · rw [List.length_nil] at hlength
          omega
        · omega
      refine ⟨min (l + 1) ((as ++ (x ++ [b]) :: bs).length - w), ?_, Nat.min_le_right _ _,
        by omega, by omega, by omega⟩
      rcases hback with hlt | hback
      · rw [offset_append_eq _ ((x ++ [b]) :: bs) hlt, clamp_offset_zero]
      · rw [offset_append_eq _ (x :: bs) hback, clamp_offset_zero,
          offset_append_eq _ ((x ++ [b]) :: bs) (Nat.le_trans (Nat.min_le_right _ _) hback)]
  · have hl : l ≤ as.length := by omega
    rw [if_neg hmax, offset_append_eq _ ((x ++ [b]) :: bs) hl, clamp_offset_zero]
    exact ⟨_, rfl, Nat.min_le_right _ _, by omega, by omega, by omega⟩

/-- Another byte of a character, the first bytes of which have come. -/
theorem At.handleTyped_tail {f : TextField} {w : Nat} {as bs : List Bytes} {x : Bytes} {l : Nat}
    (h : f.At w (as ++ x :: bs) l (as.length + 1)) (hl : w = 0 ∨ l ≤ as.length) {b : UInt8}
    (hb : codepointStart b = false) (ht : typeable b.toNat = true)
    (hfits : 2 ≤ w ∨ w = 1 ∧ bs = [] ∨ w = 0 ∧ ∃ y bs', bs = y :: bs' ∧ y.length = 1) :
    ∃ r, f.handleTyped b.toNat = some r ∧
      ∃ l', r.1.At w (as ++ (x ++ [b]) :: bs) l' (as.length + 1) ∧ (w = 0 ∨ l' ≤ as.length) := by
  have hys : ∀ y ∈ as ++ (x ++ [b]) :: bs, IsCodepoint y := by
    intro y hy
    rcases List.mem_append.mp hy with hy | hy
    · exact h.codepoints y (List.mem_append_left _ hy)
    · rcases List.mem_cons.mp hy with rfl | hy
      · exact (h.codepoints x (List.mem_append_right _ List.mem_cons_self)).concat hb
      · exact h.codepoints y (List.mem_append_right _ (List.mem_cons_of_mem x hy))
  have hvalue : ((as ++ x :: bs).take (as.length + 1)).flatten ++
      UInt8.ofNat (b.toNat : Int).toNat :: ((as ++ x :: bs).drop (as.length + 1)).flatten =
        (as ++ (x ++ [b]) :: bs).flatten := by
    rw [ofNat_toNat_cast, List.take_length_add_append, List.drop_length_add_append]
    simp
  have hcursor : offset (as ++ x :: bs) (as.length + 1) + 1 =
      offset (as ++ (x ++ [b]) :: bs) (as.length + 1) := by
    rw [offset_append_right, offset_append_right, offset_cons_succ, offset_cons_succ, offset_zero,
      List.length_append, List.length_singleton]
    rfl
  obtain ⟨l', hleft, hfilled, hbefore, hle, hview⟩ :=
    view_tail x b h.left_le hl h.inView h.filled hfits
  obtain ⟨r, hr, h'⟩ := h.handleTyped ht hys hvalue hleft hfilled hcursor hle (by simp) hview
  exact ⟨r, hr, l', h', hbefore⟩

end TextField
end Ui
end Debase
