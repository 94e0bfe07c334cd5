import Debase.Ui.TextView

/-!
# Editing in a text field

What a field is for: an editor of the text before the cursor and the text after it.  The field
keeps the text as bytes and two offsets into them, the view and the cursor.  A run of keys, with
layout passes in between, edits the text as the plain editor does, unless the update of the
offsets after an edit moves the cursor.
-/

namespace Debase
namespace Ui

open Library Library.Utf8

/-! ## The plain editor -/

/-- The text before and after the cursor. -/
structure Editor where
  before : List Char
  after : List Char
deriving DecidableEq

/-- A character that can be typed. -/
structure Typed where
  char : Char
  typeable : 32 ≤ char.toNat ∧ char.toNat ≠ 127

/-- What is typed. -/
inductive Stroke where
  | char (c : Typed)
  | backspace
  | forwardDelete
  | left
  | right
  | up
  | down

namespace Editor

/-- What a stroke does. -/
def edit (e : Editor) : Stroke → Editor
  | .char c => ⟨e.before ++ [c.char], e.after⟩
  | .backspace => ⟨e.before.dropLast, e.after⟩
  | .forwardDelete => ⟨e.before, e.after.tail⟩
  | .left => ⟨e.before.dropLast, e.before.getLast?.toList ++ e.after⟩
  | .right => ⟨e.before ++ e.after.head?.toList, e.after.tail⟩
  | .up => ⟨[], e.before ++ e.after⟩
  | .down => ⟨e.before ++ e.after, []⟩

end Editor

/-- The events of a stroke: a character arrives byte by byte. -/
def Stroke.keys : Stroke → List Int
  | .char c => (String.utf8EncodeChar c.char).map fun b => (b.toNat : Int)
  | .backspace => [Event.keyDelete]
  | .forwardDelete => [Event.keyFnDelete]
  | .left => [Event.keyLeft]
  | .right => [Event.keyRight]
  | .up => [Event.keyUp]
  | .down => [Event.keyDown]

namespace TextField

/-- The event of a key. -/
def keyEvent (type : Int) : Input := .event ⟨type, ⟨⟨0, 0⟩, false, false, false⟩⟩

/-- The field shows what the editor holds. -/
structure Shows (f : TextField) (e : Editor) : Prop where
  ready : f.Ready
  value : f.value = encode (e.before ++ e.after)
  cursor : f.offCursor = (encode e.before).length
  /-- The view begins between two characters, the cursor is in it, and it is filled from the end
  of the text if something is hidden before it. -/
  view : ∃ hidden shown, e.before = hidden ++ shown ∧ f.offLeft = (encode hidden).length ∧
    shown.length ≤ f.size.x ∧ (hidden ≠ [] → f.size.x ≤ shown.length + e.after.length)

/-! ## Runs of keys -/

/-- There is room for a byte: two columns; or one, and the byte is a character or comes at the end
of the text; or none, and the character at the cursor is one byte. -/
def TypedFits (f : TextField) (t : Int) : Prop :=
  2 ≤ f.size.x ∨ f.size.x = 1 ∧ (t < 128 ∨ f.offCursor = f.value.length) ∨
    f.size.x = 0 ∧ f.offCursor < f.value.length ∧ AtStart (f.value.drop (f.offCursor.toNat + 1))

/-- Backspace finds the cursor not at the beginning of the display, unless nothing is before it
or no more than a display of text is after it. -/
def DeleteFits (f : TextField) : Prop :=
  f.offCursor ≠ f.offLeft ∨ f.offCursor = 0 ∨ len (f.value.drop f.offCursor.toNat) ≤ f.size.x

/-- A key edits the text where the cursor is, and leaves it there. -/
def KeyFits (f : TextField) (ev : Event) : Prop :=
  (ev.type = Event.keyDelete → f.DeleteFits) ∧ (typeable ev.type = true → f.TypedFits ev.type)

def InputFits (f : TextField) (i : Input) : Prop := ∀ ev ∈ i.event?, f.KeyFits ev

instance (f : TextField) (t : Int) : Decidable (f.TypedFits t) :=
  inferInstanceAs (Decidable (_ ∨ _))

instance (f : TextField) : Decidable f.DeleteFits := inferInstanceAs (Decidable (_ ∨ _))

instance (f : TextField) (ev : Event) : Decidable (f.KeyFits ev) :=
  inferInstanceAs (Decidable (_ ∧ _))

instance (f : TextField) (i : Input) : Decidable (f.InputFits i) :=
  inferInstanceAs (Decidable (∀ ev ∈ i.event?, _))

theorem typeable_iff (t : Int) : typeable t = true ↔ 32 ≤ t ∧ t < 256 ∧ t ≠ 127 := by
  unfold typeable isPrint
  simp only [Bool.and_eq_true, Bool.or_eq_true, decide_eq_true_eq, UInt8.le_iff_toNat_le,
    UInt8.lt_iff_toNat_lt]
  constructor
  · rintro ⟨⟨hnonneg, hlt⟩, hprint⟩
    have hbyte : (UInt8.ofNat t.toNat).toNat = t.toNat := toNat_byte (by omega)
    rw [hbyte] at hprint
    change _ ∨ (32 ≤ t.toNat ∧ t.toNat < 127) at hprint
    omega
  · rintro ⟨hge, hlt, hne⟩
    have hbyte : (UInt8.ofNat t.toNat).toNat = t.toNat := toNat_byte (by omega)
    rw [hbyte]
    change _ ∧ (_ ∨ (32 ≤ t.toNat ∧ t.toNat < 127))
    omega

theorem handleKey_typeable {t : Int} (ht : typeable t = true) (f : TextField) :
    f.handleKey t = f.handleTyped t := by
  rw [typeable_iff] at ht
  have hother : ∀ k : Int, k < 32 ∨ k = 127 ∨ 256 ≤ k → t ≠ k := by
    intro k hk
    omega
  rw [handleKey, if_neg (hother _ (by decide)), if_neg (hother _ (by decide)),
    if_neg (hother _ (by decide)), if_neg (hother _ (by decide)), if_neg (hother _ (by decide)),
    if_neg (hother _ (by decide)), if_neg (hother _ (by decide)), if_neg (hother _ (by decide)),
    if_neg (hother _ (by decide)), if_neg (hother _ (by decide))]

theorem typeable_byte {c : Typed} {b : UInt8} (hb : b ∈ String.utf8EncodeChar c.char) :
    typeable b.toNat = true := by
  have hlt := b.toNat_lt
  have hc := c.typeable
  rw [typeable_iff]
  rcases utf8EncodeChar_cases c.char with
    ⟨hascii, x, hx, hcode⟩ | ⟨-, x, tail, hx, hfirst, -, htail⟩
  · rw [hx, List.mem_singleton] at hb
    subst hb
    omega
  · rw [hx] at hb
    rcases List.mem_cons.mp hb with rfl | hb
    · omega
    · have hstart := htail b hb
      rw [Bool.eq_false_iff, Ne, codepointStart_iff] at hstart
      omega

theorem Ready.step_key {f : TextField} (h : f.Ready) {t : Int} (ht : t ≠ Event.typeMouse)
    {r : TextField × Option Callout} (hr : f.handleKey t = some r) :
    f.step (keyEvent t) = some r.1 := by
  have hevent : f.handleEvent ⟨t, ⟨⟨0, 0⟩, false, false, false⟩⟩ = some (r.1, true, r.2) := by
    rw [TextField.handleEvent, if_neg ht, if_pos h.focused, h.released, if_neg Bool.false_ne_true,
      hr, Option.map_some]
  rw [keyEvent, TextField.step, hevent]
  rfl

/-- What a byte needs, in code points. -/
theorem At.fits_of_typedFits {f : TextField} {w : Nat} {as bs : List Bytes} {l : Nat}
    (h : f.At w (as ++ bs) l as.length) {t : Int} (hfits : f.TypedFits t) :
    2 ≤ w ∨ w = 1 ∧ (t < 128 ∨ bs = []) ∨ w = 0 ∧ ∃ y bs', bs = y :: bs' ∧ y.length = 1 := by
  have hwidth := h.width
  rcases hfits with hw | ⟨hw, hone⟩ | ⟨hw, hlt, hstart⟩
  · exact Or.inl (by omega)
  · refine Or.inr (Or.inl ⟨by omega, hone.imp_right fun hend => ?_⟩)
    rw [h.offCursor] at hend
    have hlength := h.cursor_eq_length_iff.mp (Int.ofNat_inj.mp hend)
    rw [List.length_append] at hlength
    exact List.length_eq_zero_iff.mp (by omega)
  · refine Or.inr (Or.inr ⟨by omega, ?_⟩)
    rcases bs with _ | ⟨y, bs⟩
    · rw [h.offCursor, h.value, List.append_nil, offset_of_length_le (Nat.le_refl _)] at hlt
      omega
    · refine ⟨y, bs, rfl, ?_⟩
      obtain ⟨b, tail, rfl, -, htail⟩ := h.codepoints y (List.mem_append_right _ List.mem_cons_self)
      have hdrop : f.value.drop (f.offCursor.toNat + 1) = tail ++ bs.flatten := by
        rw [h.offCursor, Int.toNat_natCast, ← List.drop_drop, h.value, drop_offset, List.drop_left]
        rfl
      rw [hdrop] at hstart
      cases tail with
      | nil => rfl
      | cons z tail =>
          have hz := hstart z rfl
          rw [htail z List.mem_cons_self] at hz
          cases hz

/-- The inputs that are no passes. -/
def keysOf (inputs : List Input) : List Input := inputs.filter fun i => !i.isPass

namespace At

variable {f : TextField} {w : Nat} {xs : List Bytes} {l c : Nat}

theorem passes (h : f.At w xs l c) {inputs : List Input} (hkeys : keysOf inputs = []) :
    ∃ f', run step f inputs = some f' ∧ f'.At w xs l c := by
  induction inputs generalizing f with
  | nil => exact ⟨f, rfl, h⟩
  | cons i inputs ih =>
      have hall := List.filter_eq_nil_iff.mp hkeys
      have hi : i.isPass = true := by simpa using hall i List.mem_cons_self
      obtain ⟨f₁, hfirst, h₁⟩ := h.pass hi
      obtain ⟨f', hrest, h'⟩ := ih h₁
        (List.filter_eq_nil_iff.mpr fun j hj => hall j (List.mem_cons_of_mem i hj))
      exact ⟨f', Run.cons_eq_some.mpr ⟨f₁, hfirst, hrest⟩, h'⟩

/-- Passes, and the first key after them. -/
theorem key (h : f.At w xs l c) {inputs : List Input} {t : Int} {rest : List Input}
    (hkeys : keysOf inputs = keyEvent t :: rest) (hmeet : StepsMeet step InputFits f inputs)
    (ht : t ≠ Event.typeMouse) {Q : TextField → Prop}
    (hkey : ∀ g : TextField, g.At w xs l c → (t = Event.keyDelete → g.DeleteFits) →
      (typeable t = true → g.TypedFits t) → ∃ r, g.handleKey t = some r ∧ Q r.1) :
    ∃ g inputs', Q g ∧ keysOf inputs' = rest ∧ StepsMeet step InputFits g inputs' ∧
      run step f inputs = run step g inputs' := by
  obtain ⟨passes, inputs', rfl, hpasses, -, hrest⟩ := List.filter_eq_cons_iff.mp hkeys
  have hnone : keysOf passes = [] := List.filter_eq_nil_iff.mpr hpasses
  obtain ⟨g, hg, hat⟩ := h.passes hnone
  obtain ⟨hfits, hmeet'⟩ := Run.stepsMeet_append hmeet hg
  obtain ⟨hdelete, htyped⟩ := hfits _ rfl
  obtain ⟨r, hr, hQ⟩ := hkey g hat hdelete htyped
  have hstep := hat.ready.step_key ht hr
  refine ⟨r.1, inputs', hQ, hrest, hmeet' _ hstep, ?_⟩
  rw [Run.append, hg, Option.bind_some, run, hstep, Option.bind_some]

end At

/-- The bytes of characters. -/
def bytes (cs : List Char) : List Bytes := cs.map String.utf8EncodeChar

theorem flatten_bytes (cs : List Char) : (bytes cs).flatten = encode cs := List.flatMap_def.symm

theorem bytes_append (cs ds : List Char) : bytes (cs ++ ds) = bytes cs ++ bytes ds :=
  List.map_append

@[simp] theorem length_bytes (cs : List Char) : (bytes cs).length = cs.length := List.length_map _

/-- The bytes after the first of a character. -/
theorem At.tail {f : TextField} {w : Nat} {as bs : List Bytes} {x : Bytes} {l : Nat}
    (h : f.At w (as ++ x :: bs) l (as.length + 1)) (hl : w = 0 ∨ l ≤ as.length) {tail : Bytes}
    (htail : ∀ b ∈ tail, codepointStart b = false) {inputs rest : List Input}
    (hkeys : keysOf inputs = (tail.map fun b => keyEvent b.toNat) ++ rest)
    (hmeet : StepsMeet step InputFits f inputs) :
    ∃ g inputs' l', g.At w (as ++ (x ++ tail) :: bs) l' (as.length + 1) ∧ keysOf inputs' = rest ∧
      StepsMeet step InputFits g inputs' ∧ run step f inputs = run step g inputs' := by
  induction tail generalizing f x l inputs with
  | nil => exact ⟨f, inputs, l, by rwa [List.append_nil], hkeys, hmeet, rfl⟩
  | cons b tail ih =>
      obtain ⟨hb, htail⟩ := List.forall_mem_cons.mp htail
      have hlt := b.toNat_lt
      have hge : 128 ≤ b.toNat := by
        rw [Bool.eq_false_iff, Ne, codepointStart_iff] at hb
        omega
      have ht : typeable b.toNat = true := by
        rw [typeable_iff]
        omega
      obtain ⟨g, inputs', ⟨l', hat, hl'⟩, hrest, hmeet', hrun⟩ := h.key hkeys hmeet
        (by rw [Event.typeMouse]; omega)
        (Q := fun g => ∃ l', g.At w (as ++ (x ++ [b]) :: bs) l' (as.length + 1) ∧
          (w = 0 ∨ l' ≤ as.length))
        (fun g hat _ htyped => by
          have hat' : g.At w ((as ++ [x]) ++ bs) l (as ++ [x]).length := by
            rwa [List.append_assoc, List.singleton_append, List.length_append]
          have hfits := (hat'.fits_of_typedFits (htyped ht)).imp_right
            (Or.imp_left (And.imp_right fun hend => hend.resolve_left (by omega)))
          obtain ⟨r, hr, hQ⟩ := hat.handleTyped_tail hl hb ht hfits
          exact ⟨r, (handleKey_typeable ht g).trans hr, hQ⟩)
      obtain ⟨g', inputs'', l'', hat', hrest', hmeet'', hrun'⟩ := ih hat hl' htail hrest hmeet'
      rw [List.append_assoc, List.singleton_append] at hat'
      exact ⟨g', inputs'', l'', hat', hrest', hmeet'', hrun.trans hrun'⟩

/-- The field shows characters before and after the cursor. -/
def Holds (f : TextField) (w : Nat) (e : Editor) : Prop :=
  ∃ l, f.At w (bytes e.before ++ bytes e.after) l e.before.length

theorem holds_iff_at {f : TextField} {w : Nat} {e : Editor} {xs : List Bytes} {c : Nat}
    (hxs : xs = bytes e.before ++ bytes e.after) (hc : c = e.before.length) :
    (∃ l, f.At w xs l c) ↔ f.Holds w e := by
  rw [Holds, hxs, hc]

/-- What is asked of a backspace, in code points. -/
theorem At.fits_of_deleteFits {f : TextField} {w : Nat} {as bs : List Bytes} {x : Bytes} {l : Nat}
    (h : f.At w (as ++ x :: bs) l (as.length + 1)) (hfits : f.DeleteFits) :
    l ≤ as.length ∨ bs.length ≤ w := by
  have hle := h.left_le
  have hwidth := h.width
  rcases hfits with hne | hzero | hlen
  · refine Or.inl ?_
    have hne' : as.length + 1 ≠ l := by
      rintro rfl
      exact hne (h.offCursor.trans h.offLeft.symm)
    omega
  · rw [h.offCursor] at hzero
    have hzero' := h.cursor_eq_zero_iff.mp (Int.ofNat_eq_zero.mp hzero)
    omega
  · refine Or.inr ?_
    have hdrop : (as ++ x :: bs).drop (as.length + 1) = bs := by simp
    have hbs : ∀ y ∈ bs, IsCodepoint y := fun y hy =>
      h.codepoints y (List.mem_append_right _ (List.mem_cons_of_mem x hy))
    rw [h.offCursor, Int.toNat_natCast, h.value, drop_offset, hdrop, len_flatten hbs] at hlen
    omega

namespace Holds

variable {f : TextField} {w : Nat}

theorem handleDelete {e : Editor} (h : f.Holds w e) (hfits : f.DeleteFits) :
    ∃ r, f.handleKey Event.keyDelete = some r ∧ r.1.Holds w (e.edit .backspace) := by
  obtain ⟨l, h⟩ := h
  obtain ⟨before, after⟩ := e
  change ∃ r, f.handleDelete = some r ∧ _
  rcases List.eq_nil_or_concat before with rfl | ⟨front, c, rfl⟩
  · exact ⟨_, h.handleDelete_zero, l, h⟩
  · have hat : f.At w (bytes front ++ String.utf8EncodeChar c :: bytes after) l
        ((bytes front).length + 1) := by
      simpa [bytes] using h
    obtain ⟨r, hr, hat'⟩ := hat.handleDelete_succ (hat.fits_of_deleteFits hfits)
    refine ⟨r, hr, (holds_iff_at ?_ ?_).mp hat'⟩ <;> simp [Editor.edit]

theorem handleFnDelete {e : Editor} (h : f.Holds w e) :
    ∃ r, f.handleKey Event.keyFnDelete = some r ∧ r.1.Holds w (e.edit .forwardDelete) := by
  obtain ⟨l, h⟩ := h
  obtain ⟨before, after⟩ := e
  change ∃ r, f.handleFnDelete = some r ∧ _
  rcases after with _ | ⟨c, after⟩
  · have hat : f.At w (bytes before) l (bytes before).length := by
      simpa [bytes] using h
    refine ⟨_, hat.handleFnDelete_length, (holds_iff_at ?_ ?_).mp ⟨l, hat⟩⟩ <;>
      simp [Editor.edit, bytes]
  · have hat : f.At w (bytes before ++ String.utf8EncodeChar c :: bytes after) l
        (bytes before).length := by
      simpa [bytes] using h
    obtain ⟨r, hr, hat'⟩ := hat.handleFnDelete_lt
    refine ⟨r, hr, (holds_iff_at ?_ ?_).mp hat'⟩ <;> simp [Editor.edit]

theorem handleLeft {e : Editor} (h : f.Holds w e) :
    ∃ r, f.handleKey Event.keyLeft = some r ∧ r.1.Holds w (e.edit .left) := by
  obtain ⟨l, h⟩ := h
  obtain ⟨before, after⟩ := e
  change ∃ r, f.handleLeft = some r ∧ _
  rcases List.eq_nil_or_concat before with rfl | ⟨front, c, rfl⟩
  · exact ⟨_, h.handleLeft_zero, l, h⟩
  · have hat : f.At w (bytes front ++ String.utf8EncodeChar c :: bytes after) l
        (front.length + 1) := by
      simpa [bytes] using h
    obtain ⟨r, hr, hat'⟩ := hat.handleLeft_succ
    refine ⟨r, hr, (holds_iff_at ?_ ?_).mp hat'⟩ <;> simp [Editor.edit, bytes]

theorem handleRight {e : Editor} (h : f.Holds w e) :
    ∃ r, f.handleKey Event.keyRight = some r ∧ r.1.Holds w (e.edit .right) := by
  obtain ⟨l, h⟩ := h
  obtain ⟨before, after⟩ := e
  change ∃ r, f.handleRight = some r ∧ _
  rcases after with _ | ⟨c, after⟩
  · have hat : f.At w (bytes before) l (bytes before).length := by
      simpa [bytes] using h
    refine ⟨_, hat.handleRight_length, (holds_iff_at ?_ ?_).mp ⟨l, hat⟩⟩ <;>
      simp [Editor.edit, bytes]
  · obtain ⟨r, hr, hat'⟩ := h.handleRight_lt (by simp)
    refine ⟨r, hr, (holds_iff_at ?_ ?_).mp hat'⟩ <;> simp [Editor.edit, bytes]

theorem handleUp {e : Editor} (h : f.Holds w e) :
    ∃ r, f.handleKey Event.keyUp = some r ∧ r.1.Holds w (e.edit .up) := by
  obtain ⟨l, h⟩ := h
  obtain ⟨r, hr, hat'⟩ := h.handleUp
  refine ⟨r, hr, (holds_iff_at ?_ ?_).mp hat'⟩ <;> simp [Editor.edit, bytes]

theorem handleDown {e : Editor} (h : f.Holds w e) :
    ∃ r, f.handleKey Event.keyDown = some r ∧ r.1.Holds w (e.edit .down) := by
  obtain ⟨l, h⟩ := h
  obtain ⟨r, hr, hat'⟩ := h.handleDown
  refine ⟨r, hr, (holds_iff_at ?_ ?_).mp hat'⟩ <;> simp [Editor.edit, bytes]

/-- A stroke that is one key. -/
theorem stroke_key {e : Editor} (h : f.Holds w e) {s : Stroke} {t : Int} (hs : s.keys = [t])
    (ht : t ≠ Event.typeMouse)
    (hkey : ∀ g : TextField, g.Holds w e → (t = Event.keyDelete → g.DeleteFits) →
      ∃ r, g.handleKey t = some r ∧ r.1.Holds w (e.edit s)) {inputs rest : List Input}
    (hkeys : keysOf inputs = s.keys.map keyEvent ++ rest)
    (hmeet : StepsMeet step InputFits f inputs) :
    ∃ g inputs', g.Holds w (e.edit s) ∧ keysOf inputs' = rest ∧
      StepsMeet step InputFits g inputs' ∧ run step f inputs = run step g inputs' := by
  obtain ⟨l, h⟩ := h
  rw [hs] at hkeys
  exact h.key hkeys hmeet ht fun g hat hfits _ => hkey g ⟨l, hat⟩ hfits

/-- The bytes of a character. -/
theorem stroke_char {e : Editor} (h : f.Holds w e) (c : Typed) {inputs rest : List Input}
    (hkeys : keysOf inputs = (Stroke.char c).keys.map keyEvent ++ rest)
    (hmeet : StepsMeet step InputFits f inputs) :
    ∃ g inputs', g.Holds w (e.edit (.char c)) ∧ keysOf inputs' = rest ∧
      StepsMeet step InputFits g inputs' ∧ run step f inputs = run step g inputs' := by
  obtain ⟨l, h⟩ := h
  obtain ⟨b, tail, hbytes, hb, htail⟩ := utf8EncodeChar_eq_cons c.char
  have hmem : b ∈ String.utf8EncodeChar c.char := by
    rw [hbytes]
    exact List.mem_cons_self
  have ht : typeable b.toNat = true := typeable_byte hmem
  have hlt := b.toNat_lt
  have hat : f.At w (bytes e.before ++ bytes e.after) l (bytes e.before).length := by
    rwa [length_bytes]
  rw [Stroke.keys, hbytes, List.map_cons, List.map_cons, List.map_map, List.cons_append] at hkeys
  obtain ⟨g, inputs', ⟨l', hat', hl'⟩, hrest, hmeet', hrun⟩ := hat.key hkeys hmeet
    (by rw [Event.typeMouse]; omega)
    (Q := fun g => ∃ l', g.At w (bytes e.before ++ [b] :: bytes e.after) l'
      ((bytes e.before).length + 1) ∧ (w = 0 ∨ l' ≤ (bytes e.before).length))
    (fun g hat _ htyped => by
      have hfits := hat.fits_of_typedFits (htyped ht)
      have hroom : 0 < w ∨ ∃ y bs', bytes e.after = y :: bs' ∧ y.length = 1 :=
        hfits.elim (fun hw => Or.inl (by omega))
          (Or.imp (fun hw => by omega) And.right)
      obtain ⟨r, hr, hQ⟩ := hat.handleTyped_start hb ht hroom
      exact ⟨r, (handleKey_typeable ht g).trans hr, hQ⟩)
  obtain ⟨g', inputs'', l'', hat'', hrest', hmeet'', hrun'⟩ := hat'.tail hl' htail hrest hmeet'
  refine ⟨g', inputs'', (holds_iff_at ?_ ?_).mp ⟨l'', hat''⟩, hrest', hmeet'', hrun.trans hrun'⟩
  · simp [Editor.edit, bytes, hbytes]
  · simp [Editor.edit]

/-- A stroke, with passes before its keys. -/
theorem stroke {e : Editor} (h : f.Holds w e) (s : Stroke) {inputs rest : List Input}
    (hkeys : keysOf inputs = s.keys.map keyEvent ++ rest)
    (hmeet : StepsMeet step InputFits f inputs) :
    ∃ g inputs', g.Holds w (e.edit s) ∧ keysOf inputs' = rest ∧
      StepsMeet step InputFits g inputs' ∧ run step f inputs = run step g inputs' := by
  cases s with
  | char c => exact h.stroke_char c hkeys hmeet
  | backspace =>
      exact h.stroke_key rfl (by decide) (fun g hg hfits => hg.handleDelete (hfits rfl)) hkeys hmeet
  | forwardDelete =>
      exact h.stroke_key rfl (by decide) (fun g hg _ => hg.handleFnDelete) hkeys hmeet
  | left => exact h.stroke_key rfl (by decide) (fun g hg _ => hg.handleLeft) hkeys hmeet
  | right => exact h.stroke_key rfl (by decide) (fun g hg _ => hg.handleRight) hkeys hmeet
  | up => exact h.stroke_key rfl (by decide) (fun g hg _ => hg.handleUp) hkeys hmeet
  | down => exact h.stroke_key rfl (by decide) (fun g hg _ => hg.handleDown) hkeys hmeet

theorem run_strokes {e : Editor} (h : f.Holds w e) {strokes : List Stroke} {inputs : List Input}
    (hkeys : keysOf inputs = (strokes.flatMap Stroke.keys).map keyEvent)
    (hmeet : StepsMeet step InputFits f inputs) :
    ∃ f', run step f inputs = some f' ∧ f'.Holds w (strokes.foldl Editor.edit e) := by
  induction strokes generalizing f e inputs with
  | nil =>
      obtain ⟨l, h⟩ := h
      obtain ⟨f', hrun, h'⟩ := h.passes hkeys
      exact ⟨f', hrun, l, h'⟩
  | cons s strokes ih =>
      rw [List.flatMap_cons, List.map_append] at hkeys
      obtain ⟨g, inputs', hg, hrest, hmeet', hrun⟩ := h.stroke s hkeys hmeet
      obtain ⟨f', hrun', h'⟩ := ih hg hrest hmeet'
      exact ⟨f', hrun.trans hrun', h'⟩

end Holds

theorem offset_bytes (cs ds : List Char) :
    offset (bytes cs ++ bytes ds) cs.length = (encode cs).length := by
  rw [offset_append_left (Nat.le_of_eq (length_bytes cs).symm),
    offset_of_length_le (Nat.le_of_eq (length_bytes cs)), flatten_bytes]

theorem isCodepoint_bytes {cs : List Char} : ∀ x ∈ bytes cs, IsCodepoint x := by
  intro x hx
  obtain ⟨c, -, rfl⟩ := List.mem_map.mp hx
  exact isCodepoint_utf8EncodeChar c

theorem Shows.holds {f : TextField} {e : Editor} (h : f.Shows e) : f.Holds f.size.x.toNat e := by
  obtain ⟨hidden, shown, hsplit, hleft, hview, hfilled⟩ := h.view
  have hbefore : e.before.length = hidden.length + shown.length := by
    rw [hsplit, List.length_append]
  have hlength : (bytes e.before ++ bytes e.after).length =
      hidden.length + shown.length + e.after.length := by
    rw [List.length_append, length_bytes, length_bytes, hbefore]
  have hhidden : offset (bytes e.before ++ bytes e.after) hidden.length =
      (encode hidden).length := by
    rw [hsplit, bytes_append, List.append_assoc, ← bytes_append, offset_bytes]
  refine ⟨hidden.length, h.ready, by omega, ?_, ?_, ?_, ?_, by omega, by omega, by omega, ?_⟩
  · rw [← bytes_append]
    exact isCodepoint_bytes
  · rw [h.value, ← bytes_append, flatten_bytes]
  · rw [hleft, hhidden]
  · rw [h.cursor, offset_bytes]
  · rcases hidden with _ | ⟨c, hidden⟩
    · exact Nat.zero_le _
    · have hfull := hfilled (List.cons_ne_nil c hidden)
      omega

theorem Holds.shows {f : TextField} {w : Nat} {e : Editor} (h : f.Holds w e) : f.Shows e := by
  obtain ⟨l, h⟩ := h
  have hle := h.left_le
  have hview := h.inView
  have hfilled := h.filled
  have hwidth := h.width
  have htake : (e.before.take l).length = l := List.length_take_of_le hle
  have hdrop : (e.before.drop l).length = e.before.length - l := List.length_drop
  have hsplit : bytes e.before ++ bytes e.after =
      bytes (e.before.take l) ++ bytes (e.before.drop l ++ e.after) := by
    rw [← bytes_append, ← bytes_append, ← List.append_assoc, List.take_append_drop]
  rw [List.length_append, length_bytes, length_bytes] at hfilled
  refine ⟨h.ready, ?_, ?_, e.before.take l, e.before.drop l, (List.take_append_drop l _).symm, ?_,
    by omega, fun hne => ?_⟩
  · rw [h.value, ← bytes_append, flatten_bytes]
  · rw [h.offCursor, offset_bytes]
  · have hoffset := offset_bytes (e.before.take l) (e.before.drop l ++ e.after)
    rw [htake] at hoffset
    rw [h.offLeft, hsplit, hoffset]
  · have hpos := List.length_pos_of_ne_nil hne
    omega

/-- A run of strokes, with layout passes anywhere between the keys, does to the field what it does
to the editor. -/
theorem run_edits {f : TextField} {e : Editor} (h : f.Shows e) {strokes : List Stroke}
    {inputs : List Input} (hkeys : keysOf inputs = (strokes.flatMap Stroke.keys).map keyEvent)
    (hmeet : StepsMeet step InputFits f inputs) :
    ∃ f', run step f inputs = some f' ∧ f'.Shows (strokes.foldl Editor.edit e) := by
  obtain ⟨f', hrun, h'⟩ := h.holds.run_strokes hkeys hmeet
  exact ⟨f', hrun, h'.shows⟩

/-- A new value is shown with the cursor at its end. -/
theorem setValue_shows {f : TextField} (hready : f.Ready) (hwidth : 0 ≤ f.size.x) {cs : List Char}
    (hne : f.value ≠ encode cs) (hsize : (encode cs).length ≤ ssizeMax) :
    ∃ f', f.setValue (encode cs) = some f' ∧ f'.Shows ⟨cs, []⟩ := by
  have hle := offset_le_length (bytes cs) ((bytes cs).length - f.size.x.toNat)
  have hlength : (bytes cs).length ≤ (bytes cs).length - f.size.x.toNat + f.size.x.toNat := by omega
  have hend : offset (bytes cs) (bytes cs).length = (encode cs).length := by
    rw [offset_of_length_le (Nat.le_refl _), flatten_bytes]
  have hmax : offset (bytes cs) ((bytes cs).length - f.size.x.toNat + f.size.x.toNat) =
      (encode cs).length := by
    rw [offset_of_length_le hlength, flatten_bytes]
  rw [flatten_bytes] at hle
  have hleft : clamp ssizeMax 0 (offset (bytes cs) ((bytes cs).length - f.size.x.toNat)) =
      offset (bytes cs) ((bytes cs).length - f.size.x.toNat) :=
    clamp_of_ge (Int.natCast_nonneg _) (by omega)
  have hcursor : clamp ssizeMax (offset (bytes cs) ((bytes cs).length - f.size.x.toNat))
      (offset (bytes cs) ((bytes cs).length - f.size.x.toNat + f.size.x.toNat)) =
        offset (bytes cs) (bytes cs).length := by
    rw [hmax, hend]
    exact clamp_of_ge (by omega) hsize
  obtain ⟨f', hf', h'⟩ := offUpdate_clamp
    (f := { f with value := encode cs, offLeft := ssizeMax, offCursor := ssizeMax })
    ⟨hready.focused, hready.released⟩ (Int.toNat_of_nonneg hwidth).symm isCodepoint_bytes
    (flatten_bytes cs).symm hleft (Nat.le_refl _) hcursor (Nat.sub_le _ _) (Nat.le_refl _) hlength
  rw [setValue, if_neg hne, seek]
  refine ⟨f', hf', Holds.shows (w := f.size.x.toNat) ((holds_iff_at ?_ ?_).mp ⟨_, h'⟩)⟩
  · simp [bytes]
  · simp

/-! ## Three columns -/

/-- A field of three columns that takes keys. -/
def narrow : TextField where
  size := ⟨3, 1⟩
  hitTestInset := ⟨0, 0, 0, 0⟩
  enabledWindow := true
  value := encode ['a', 'b', 'c', 'd', 'e', 'f', 'g', 'h']
  align := .left
  drag := false
  offLeft := 5
  offCursor := 8
  focused := true
  cursorState := ⟨true, ⟨3, 0⟩⟩

theorem narrow_shows : narrow.Shows ⟨['a', 'b', 'c', 'd', 'e', 'f', 'g', 'h'], []⟩ :=
  ⟨⟨rfl, rfl⟩, rfl, by decide, ['a', 'b', 'c', 'd', 'e'], ['f', 'g', 'h'], rfl, by decide,
    by decide, by decide⟩

/-- A character of two bytes before the last one, with a layout pass between its bytes. -/
theorem run_edits_narrow : ∃ f', run step narrow
    [keyEvent Event.keyLeft, .layout, keyEvent 0xC3, .layout, keyEvent 0xA9, .layout,
      keyEvent Event.keyFnDelete] = some f' ∧
      f'.Shows ⟨['a', 'b', 'c', 'd', 'e', 'f', 'g', 'é'], []⟩ := by
  have hkeys : keysOf [keyEvent Event.keyLeft, .layout, keyEvent 0xC3, .layout, keyEvent 0xA9,
      .layout, keyEvent Event.keyFnDelete] =
      ([Stroke.left, .char ⟨'é', by decide⟩, .forwardDelete].flatMap Stroke.keys).map keyEvent := by
    decide
  exact run_edits narrow_shows hkeys (by decide)

/-- The cursor goes to the beginning of the display, before `d`; then backspace deletes `c` and
leaves the cursor behind `d`. -/
theorem run_edits_backspace :
    keysOf [keyEvent Event.keyLeft, keyEvent Event.keyLeft, keyEvent Event.keyLeft,
        keyEvent Event.keyLeft, keyEvent Event.keyLeft, .layout, keyEvent Event.keyDelete] =
      ([Stroke.left, .left, .left, .left, .left, .backspace].flatMap Stroke.keys).map keyEvent ∧
    narrow.Shows ⟨['a', 'b', 'c', 'd', 'e', 'f', 'g', 'h'], []⟩ ∧
    ∃ f', run step narrow
        [keyEvent Event.keyLeft, keyEvent Event.keyLeft, keyEvent Event.keyLeft,
          keyEvent Event.keyLeft, keyEvent Event.keyLeft, .layout, keyEvent Event.keyDelete] =
          some f' ∧
      f'.value = encode ['a', 'b', 'd', 'e', 'f', 'g', 'h'] ∧
      f'.offCursor = (encode ['a', 'b', 'd']).length ∧
      ¬f'.Shows ([Stroke.left, .left, .left, .left, .left, .backspace].foldl Editor.edit
        ⟨['a', 'b', 'c', 'd', 'e', 'f', 'g', 'h'], []⟩) := by
  refine ⟨by decide, narrow_shows, { narrow with
    value := encode ['a', 'b', 'd', 'e', 'f', 'g', 'h'], offLeft := 3, offCursor := 3,
    cursorState := ⟨true, ⟨0, 0⟩⟩ }, by decide, rfl, by decide, fun h => ?_⟩
  exact absurd h.cursor (by decide)

end TextField
end Ui
end Debase
