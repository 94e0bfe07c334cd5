import Mathlib.Data.List.Basic

/-!
# Writing JSON to a stream

The pretty printer of `nlohmann::json` (`lib/nlohmann/json.h`, `serializer`) with
its strict error handler: a string that is not valid UTF-8 throws, and what was
written before it stays written.

The main results say when the printer gets through (`ok_dump`), and that what it
leaves behind when it does not is the beginning of another document, cut before
its end (`dump_object_cut`).
-/

namespace Debase
namespace Library

/-- What a writer has written, and whether it went on to its end. -/
structure Out where
  text : List UInt8
  ok : Bool
deriving DecidableEq

namespace Out

/-- Write a text. -/
def write (text : List UInt8) : Out := ⟨text, true⟩

/-- One writer after another; a writer that threw is the last one. -/
def andThen (x y : Out) : Out := if x.ok then ⟨x.text ++ y.text, y.ok⟩ else x

instance : Append Out := ⟨andThen⟩

@[simp] theorem ok_write (text : List UInt8) : (write text).ok = true := rfl

@[simp] theorem text_write (text : List UInt8) : (write text).text = text := rfl

@[simp] theorem ok_append (x y : Out) : (x ++ y).ok = (x.ok && y.ok) := by
  change (andThen x y).ok = _
  unfold andThen
  cases h : x.ok <;> simp [h]

theorem append_of_ok {x : Out} (h : x.ok = true) (y : Out) : x ++ y = ⟨x.text ++ y.text, y.ok⟩ := by
  change andThen x y = _
  rw [andThen, if_pos h]

theorem append_of_not_ok {x : Out} (h : x.ok = false) (y : Out) : x ++ y = x := by
  change andThen x y = _
  rw [andThen, if_neg (by simp [h])]

theorem text_append {x : Out} (h : x.ok = true) (y : Out) :
    (x ++ y).text = x.text ++ y.text := by
  rw [append_of_ok h]

/-- `y` gets through, and `x` is the same or threw within the text of `y`. -/
def Completes (x y : Out) : Prop :=
  y.ok = true ∧ (x = y ∨ (x.ok = false ∧ x.text <+: y.text))

theorem Completes.write (text : List UInt8) : Completes (write text) (write text) :=
  ⟨rfl, Or.inl rfl⟩

theorem Completes.append {x y x' y' : Out} (h : Completes x y) (h' : Completes x' y') :
    Completes (x ++ x') (y ++ y') := by
  obtain ⟨hy, hx⟩ := h
  obtain ⟨hy', hx'⟩ := h'
  refine ⟨by simp [hy, hy'], ?_⟩
  rw [append_of_ok hy]
  rcases hx with rfl | ⟨hok, hpre⟩
  · rw [append_of_ok hy]
    rcases hx' with rfl | ⟨hok', hpre'⟩
    · exact Or.inl rfl
    · exact Or.inr ⟨hok', (List.prefix_append_right_inj _).mpr hpre'⟩
  · rw [append_of_not_ok hok]
    exact Or.inr ⟨hok, hpre.trans (List.prefix_append _ _)⟩

/-- A writer that threw wrote a part of the text, cut before what comes last. -/
theorem Completes.cut {x y : Out} (h : Completes x y) (hok : x.ok = false)
    {last : List UInt8} (hlast : last ≠ []) :
    (x ++ Out.write last).text <+: (y ++ Out.write last).text ∧
      (x ++ Out.write last).text ≠ (y ++ Out.write last).text := by
  obtain ⟨hy, rfl | ⟨-, hpre⟩⟩ := h
  · rw [hok] at hy
    cases hy
  · rw [append_of_not_ok hok, append_of_ok hy]
    refine ⟨hpre.trans (List.prefix_append _ _), fun heq => ?_⟩
    have hlen := hpre.length_le
    have hpos := List.length_pos_iff.mpr hlast
    rw [heq] at hlen
    simp only [text_write, List.length_append] at hlen
    omega

end Out

/-! ## UTF-8 -/

/-- The table of `decode`: the types of the bytes, then the transitions. -/
def utf8d : List Nat :=
  List.replicate 128 0 ++ List.replicate 16 1 ++ List.replicate 16 9 ++ List.replicate 32 7 ++
    [8, 8] ++ List.replicate 30 2 ++
    [0xA, 3, 3, 3, 3, 3, 3, 3, 3, 3, 3, 3, 3, 4, 3, 3] ++
    [0xB, 6, 6, 6, 5, 8, 8, 8, 8, 8, 8, 8, 8, 8, 8, 8] ++
    [0, 1, 2, 3, 5, 8, 7, 1, 1, 1, 4, 6, 1, 1, 1, 1] ++
    [1, 1, 1, 1, 1, 1, 1, 1, 1, 1, 1, 1, 1, 1, 1, 1] ++
    [1, 0, 1, 1, 1, 1, 1, 0, 1, 0, 1, 1, 1, 1, 1, 1] ++
    [1, 2, 1, 1, 1, 1, 1, 2, 1, 2, 1, 1, 1, 1, 1, 1] ++
    [1, 1, 1, 1, 1, 1, 1, 2, 1, 1, 1, 1, 1, 1, 1, 1] ++
    [1, 2, 1, 1, 1, 1, 1, 1, 1, 2, 1, 1, 1, 1, 1, 1] ++
    [1, 1, 1, 1, 1, 1, 1, 3, 1, 3, 1, 1, 1, 1, 1, 1] ++
    [1, 3, 1, 1, 1, 1, 1, 3, 1, 3, 1, 1, 1, 1, 1, 1] ++
    [1, 3, 1, 1, 1, 1, 1, 1, 1, 1, 1, 1, 1, 1, 1, 1]

/-- `UTF8_ACCEPT`. -/
def utf8Accept : Nat := 0

/-- `UTF8_REJECT`. -/
def utf8Reject : Nat := 1

/-- The state after `decode`. -/
def decodeState (state : Nat) (byte : UInt8) : Nat :=
  utf8d.getD (256 + state * 16 + utf8d.getD byte.toNat 0) 0

/-- The code point after `decode`. -/
def decodeCodepoint (state : Nat) (codep : UInt32) (byte : UInt8) : UInt32 :=
  if state ≠ utf8Accept then (byte.toUInt32 &&& (0x3f : UInt32)) ||| (codep <<< 6)
  else ((0xff : UInt32) >>> UInt32.ofNat (utf8d.getD byte.toNat 0)) &&& byte.toUInt32

/-- The states of `decode` over a string end in `UTF8_ACCEPT` and never reach
`UTF8_REJECT`. -/
def utf8From (state : Nat) : List UInt8 → Bool
  | [] => state = utf8Accept
  | b :: bs =>
      let state := decodeState state b
      state ≠ utf8Reject && utf8From state bs

/-- A string that is valid UTF-8. -/
def validUtf8 (s : List UInt8) : Bool := utf8From utf8Accept s

/-! ## Strings -/

/-- The lower-case hexadecimal digit of a number under 16. -/
def hexDigit (n : Nat) : UInt8 := UInt8.ofNat (if n < 10 then 48 + n else 87 + n)

/-- What `dump_escaped` puts into its buffer for a code point that ends with this
byte. -/
def escape (codepoint : UInt32) (byte : UInt8) : List UInt8 :=
  if codepoint = 0x08 then [92, 98]
  else if codepoint = 0x09 then [92, 116]
  else if codepoint = 0x0A then [92, 110]
  else if codepoint = 0x0C then [92, 102]
  else if codepoint = 0x0D then [92, 114]
  else if codepoint = 0x22 then [92, 34]
  else if codepoint = 0x5C then [92, 92]
  else if codepoint ≤ 0x1F then
    [92, 117, 48, 48, hexDigit (codepoint.toNat / 16), hexDigit (codepoint.toNat % 16)]
  else [byte]

/-- `string_buffer.size()`. -/
def bufferSize : Nat := 512

/-- The variables of `dump_escaped` after a byte, and what it wrote to the stream. -/
structure Escaped where
  state : Nat
  codep : UInt32
  buffer : List UInt8
  written : List UInt8
deriving DecidableEq

/-- The body of the loop of `dump_escaped`, `none` where it throws.  The buffer is
written when there is no room for another code point. -/
def dumpByte (state : Nat) (codep : UInt32) (buffer : List UInt8) (b : UInt8) : Option Escaped :=
  let state' := decodeState state b
  let codep' := decodeCodepoint state codep b
  if state' = utf8Accept then
    let buffer' := buffer ++ escape codep' b
    if bufferSize - buffer'.length < 13 then some ⟨state', codep', [], buffer'⟩
    else some ⟨state', codep', buffer', []⟩
  else if state' = utf8Reject then none
  else some ⟨state', codep', buffer ++ [b], []⟩

/-- The loop of `dump_escaped`. -/
def dumpLoop (state : Nat) (codep : UInt32) (buffer written : List UInt8) :
    List UInt8 → Out
  | [] => if state = utf8Accept then ⟨written ++ buffer, true⟩ else ⟨written, false⟩
  | b :: bs =>
      match dumpByte state codep buffer b with
      | none => ⟨written, false⟩
      | some e => dumpLoop e.state e.codep e.buffer (written ++ e.written) bs

/-- `dump_escaped`. -/
def dumpEscaped (s : List UInt8) : Out := dumpLoop utf8Accept 0 [] [] s

/-- The loop throws exactly at a rejected byte. -/
theorem dumpByte_eq_none {state : Nat} {codep : UInt32} {buffer : List UInt8} {b : UInt8} :
    dumpByte state codep buffer b = none ↔ decodeState state b = utf8Reject := by
  unfold dumpByte
  dsimp only
  split
  · next haccept =>
      have hne : decodeState state b ≠ utf8Reject := by
        rw [haccept]
        decide
      split <;> simp [hne]
  · split
    · next hreject => simp [hreject]
    · next hreject => simp [hreject]

theorem dumpByte_eq_some {state : Nat} {codep : UInt32} {buffer : List UInt8} {b : UInt8}
    {e : Escaped} (h : dumpByte state codep buffer b = some e) :
    e.state = decodeState state b ∧
      (e.written = [] ∨ (e.buffer = [] ∧ e.state = utf8Accept)) := by
  unfold dumpByte at h
  dsimp only at h
  split at h
  · next haccept =>
      split at h
      · cases h
        exact ⟨rfl, Or.inr ⟨rfl, haccept⟩⟩
      · cases h
        exact ⟨rfl, Or.inl rfl⟩
  · split at h
    · cases h
    · cases h
      exact ⟨rfl, Or.inl rfl⟩

theorem ok_dumpLoop (state : Nat) (codep : UInt32) (buffer written s : List UInt8) :
    (dumpLoop state codep buffer written s).ok = utf8From state s := by
  induction s generalizing state codep buffer written with
  | nil =>
      rw [dumpLoop, utf8From]
      split <;> simp_all
  | cons b bs ih =>
      rw [dumpLoop, utf8From]
      cases hbyte : dumpByte state codep buffer b with
      | none => simp [dumpByte_eq_none.mp hbyte]
      | some e =>
          have hne : decodeState state b ≠ utf8Reject := by
            intro hreject
            rw [dumpByte_eq_none.mpr hreject] at hbyte
            cases hbyte
          dsimp only
          rw [ih, (dumpByte_eq_some hbyte).1]
          simp [hne]

@[simp] theorem ok_dumpEscaped (s : List UInt8) : (dumpEscaped s).ok = validUtf8 s :=
  ok_dumpLoop _ _ _ _ _

/-- The loop throws with what it began with, or with the text of a beginning of
the string that ends where the buffer was last written. -/
theorem dumpLoop_cut {state : Nat} {codep : UInt32} {buffer written s : List UInt8}
    (h : (dumpLoop state codep buffer written s).ok = false) :
    (dumpLoop state codep buffer written s).text = written ∨
      ∃ p, dumpLoop state codep buffer written p =
        ⟨(dumpLoop state codep buffer written s).text, true⟩ := by
  induction s generalizing state codep buffer written with
  | nil =>
      rw [dumpLoop] at h ⊢
      split at h
      · cases h
      · next hstate =>
          rw [if_neg hstate]
          exact Or.inl rfl
  | cons b bs ih =>
      rw [dumpLoop] at h ⊢
      cases hbyte : dumpByte state codep buffer b with
      | none => exact Or.inl rfl
      | some e =>
          simp only [hbyte] at h ⊢
          have hcons : ∀ p, dumpLoop state codep buffer written (b :: p) =
              dumpLoop e.state e.codep e.buffer (written ++ e.written) p := by
            intro p
            rw [dumpLoop]
            simp only [hbyte]
          rcases ih h with htext | ⟨p, hp⟩
          · rcases (dumpByte_eq_some hbyte).2 with hnone | ⟨hbuffer, hstate⟩
            · left
              rw [htext, hnone, List.append_nil]
            · -- nothing was written after this byte
              refine Or.inr ⟨[b], ?_⟩
              rw [hcons, htext, dumpLoop, if_pos hstate, hbuffer, List.append_nil]
          · exact Or.inr ⟨b :: p, by rw [hcons, hp]⟩

/-- What a string leaves behind is the text of a valid one. -/
theorem dumpEscaped_completes (s : List UInt8) :
    ∃ p, validUtf8 p = true ∧ (validUtf8 s = true → p = s) ∧
      (dumpEscaped s).Completes (dumpEscaped p) := by
  by_cases hs : validUtf8 s = true
  · exact ⟨s, hs, fun _ => rfl, by rw [ok_dumpEscaped, hs], Or.inl rfl⟩
  · have hok : (dumpEscaped s).ok = false := by rw [ok_dumpEscaped]; simpa using hs
    have hvalid : ∀ {p t : List UInt8}, dumpEscaped p = ⟨t, true⟩ → validUtf8 p = true := by
      intro p t hp
      rw [← ok_dumpEscaped, hp]
    rcases dumpLoop_cut hok with htext | ⟨p, hp⟩
    · refine ⟨[], rfl, fun h => absurd h hs, rfl, Or.inr ⟨hok, ?_⟩⟩
      rw [dumpEscaped, htext]
      exact List.nil_prefix
    · refine ⟨p, hvalid hp, fun h => absurd h hs, by rw [dumpEscaped, hp], Or.inr ⟨hok, ?_⟩⟩
      rw [dumpEscaped.eq_1 p, hp]
      exact List.prefix_refl _

/-! ## Values -/

/-- A JSON value; the members of an object are in key order. -/
inductive Json where
  | object (members : List (List UInt8 × Json))
  | array (elements : List Json)
  | string (s : List UInt8)
  | number (n : Int)

namespace Json

open Out

/-- A line's indentation. -/
def spaces (n : Nat) : Out := write (List.replicate n 32)

theorem completes_spaces (n : Nat) : (spaces n).Completes (spaces n) := .write _

/-- The decimal digits of a number. -/
def digits (n : Int) : List UInt8 :=
  (if n < 0 then [45] else []) ++ (Nat.toDigits 10 n.natAbs).map fun c => UInt8.ofNat c.toNat

mutual

/-- `dump` with pretty printing. -/
def dump (step : Nat) : Json → Nat → Out
  | object [], _ => write [123, 125]
  | object (m :: ms), indent =>
      write [123, 10] ++ dumpMembers step (m :: ms) (indent + step) ++ write [10] ++
        spaces indent ++ write [125]
  | array [], _ => write [91, 93]
  | array (e :: es), indent =>
      write [91, 10] ++ dumpElements step (e :: es) (indent + step) ++ write [10] ++
        spaces indent ++ write [93]
  | string s, _ => write [34] ++ dumpEscaped s ++ write [34]
  | number n, _ => write (digits n)

/-- The members of an object, with commas between them. -/
def dumpMembers (step : Nat) : List (List UInt8 × Json) → Nat → Out
  | [], _ => write []
  | (key, value) :: ms, indent =>
      spaces indent ++ write [34] ++ dumpEscaped key ++ write [34, 58, 32] ++
        dump step value indent ++ write (if ms.isEmpty then [] else [44, 10]) ++
        dumpMembers step ms indent

/-- The elements of an array, with commas between them. -/
def dumpElements (step : Nat) : List Json → Nat → Out
  | [], _ => write []
  | e :: es, indent =>
      spaces indent ++ dump step e indent ++ write (if es.isEmpty then [] else [44, 10]) ++
        dumpElements step es indent

end

mutual

/-- All strings and keys in a value are valid UTF-8. -/
def validStrings : Json → Bool
  | object ms => validMembers ms
  | array es => validElements es
  | string s => validUtf8 s
  | number _ => true

/-- The same for the members of an object. -/
def validMembers : List (List UInt8 × Json) → Bool
  | [] => true
  | (key, value) :: ms => validUtf8 key && value.validStrings && validMembers ms

/-- The same for the elements of an array. -/
def validElements : List Json → Bool
  | [] => true
  | e :: es => e.validStrings && validElements es

end

theorem validMembers_iff (ms : List (List UInt8 × Json)) :
    validMembers ms = true ↔ ∀ m ∈ ms, validUtf8 m.1 = true ∧ m.2.validStrings = true := by
  induction ms with
  | nil => simp [validMembers]
  | cons m ms ih =>
      obtain ⟨key, value⟩ := m
      rw [validMembers, Bool.and_eq_true, Bool.and_eq_true, ih, List.forall_mem_cons]

mutual

/-- The printer gets through exactly when all strings are valid UTF-8. -/
theorem ok_dump (step : Nat) : (j : Json) → (indent : Nat) →
    (j.dump step indent).ok = j.validStrings
  | object [], _ => rfl
  | object (m :: ms), indent => by
      rw [dump, validStrings]
      simp [spaces, ok_dumpMembers step (m :: ms)]
  | array [], _ => rfl
  | array (e :: es), indent => by
      rw [dump, validStrings]
      simp [spaces, ok_dumpElements step (e :: es)]
  | string s, _ => by
      rw [dump, validStrings]
      simp
  | number n, _ => rfl

theorem ok_dumpMembers (step : Nat) : (ms : List (List UInt8 × Json)) → (indent : Nat) →
    (dumpMembers step ms indent).ok = validMembers ms
  | [], _ => rfl
  | (key, value) :: ms, indent => by
      rw [dumpMembers, validMembers]
      simp [spaces, ok_dump step value, ok_dumpMembers step ms, Bool.and_assoc]

theorem ok_dumpElements (step : Nat) : (es : List Json) → (indent : Nat) →
    (dumpElements step es indent).ok = validElements es
  | [], _ => rfl
  | e :: es, indent => by
      rw [dumpElements, validElements]
      simp [spaces, ok_dump step e, ok_dumpElements step es]

end

mutual

/-- Whatever a value leaves behind, there is a value with valid strings whose text
it begins. -/
theorem dump_completes (step : Nat) : (j : Json) →
    ∃ j' : Json, j'.validStrings = true ∧
      ∀ indent, (j.dump step indent).Completes (j'.dump step indent)
  | object [] => ⟨object [], rfl, fun _ => .write _⟩
  | object (m :: ms) => by
      obtain ⟨ms', hvalid, hlen, hms⟩ := dumpMembers_completes step (m :: ms)
      obtain ⟨m', ms', rfl⟩ := List.exists_cons_of_length_eq_add_one hlen
      refine ⟨object (m' :: ms'), hvalid, fun indent => ?_⟩
      rw [dump, dump]
      exact ((((Completes.write _).append (hms _)).append (.write _)).append
        (.write _)).append (.write _)
  | array [] => ⟨array [], rfl, fun _ => .write _⟩
  | array (e :: es) => by
      obtain ⟨es', hvalid, hlen, hes⟩ := dumpElements_completes step (e :: es)
      obtain ⟨e', es', rfl⟩ := List.exists_cons_of_length_eq_add_one hlen
      refine ⟨array (e' :: es'), hvalid, fun indent => ?_⟩
      rw [dump, dump]
      exact ((((Completes.write _).append (hes _)).append (.write _)).append
        (.write _)).append (.write _)
  | string s => by
      obtain ⟨p, hvalid, -, hp⟩ := dumpEscaped_completes s
      refine ⟨string p, hvalid, fun indent => ?_⟩
      rw [dump, dump]
      exact ((Completes.write _).append hp).append (.write _)
  | number n => ⟨number n, rfl, fun _ => .write _⟩

theorem dumpMembers_completes (step : Nat) : (ms : List (List UInt8 × Json)) →
    ∃ ms', validMembers ms' = true ∧ ms'.length = ms.length ∧
      ∀ indent, (dumpMembers step ms indent).Completes (dumpMembers step ms' indent)
  | [] => ⟨[], rfl, rfl, fun _ => .write _⟩
  | (key, value) :: ms => by
      obtain ⟨key', hkey, -, hdumpKey⟩ := dumpEscaped_completes key
      obtain ⟨value', hvalue, hdumpValue⟩ := dump_completes step value
      obtain ⟨ms', hms, hlen, hdumpMs⟩ := dumpMembers_completes step ms
      refine ⟨(key', value') :: ms', ?_, by simp [hlen], fun indent => ?_⟩
      · rw [validMembers, hkey, hvalue, hms]
        rfl
      · have hempty : ms'.isEmpty = ms.isEmpty := by
          cases ms <;> cases ms' <;> simp at hlen ⊢
        rw [dumpMembers, dumpMembers, hempty]
        exact ((((((Completes.write _).append (.write _)).append hdumpKey).append
          (.write _)).append (hdumpValue _)).append (.write _)).append (hdumpMs _)

theorem dumpElements_completes (step : Nat) : (es : List Json) →
    ∃ es', validElements es' = true ∧ es'.length = es.length ∧
      ∀ indent, (dumpElements step es indent).Completes (dumpElements step es' indent)
  | [] => ⟨[], rfl, rfl, fun _ => .write _⟩
  | e :: es => by
      obtain ⟨e', he, hdumpE⟩ := dump_completes step e
      obtain ⟨es', hes, hlen, hdumpEs⟩ := dumpElements_completes step es
      refine ⟨e' :: es', ?_, by simp [hlen], fun indent => ?_⟩
      · rw [validElements, he, hes]
        rfl
      · have hempty : es'.isEmpty = es.isEmpty := by
          cases es <;> cases es' <;> simp at hlen ⊢
        rw [dumpElements, dumpElements, hempty]
        exact (((Completes.write _).append (hdumpE _)).append (.write _)).append (hdumpEs _)

end

/-- An object that does not get through leaves the beginning of the text of an
object with valid strings, cut before its end. -/
theorem dump_object_cut (step : Nat) {ms : List (List UInt8 × Json)}
    (h : (object ms).validStrings = false) (indent : Nat) :
    ∃ ms', (object ms').validStrings = true ∧
      ((object ms).dump step indent).text <+: ((object ms').dump step indent).text ∧
      ((object ms).dump step indent).text ≠ ((object ms').dump step indent).text := by
  cases ms with
  | nil => cases h
  | cons m ms =>
      obtain ⟨ms', hvalid, hlen, hms⟩ := dumpMembers_completes step (m :: ms)
      obtain ⟨m', ms', rfl⟩ := List.exists_cons_of_length_eq_add_one hlen
      have hbegin := (((Completes.write [123, 10]).append (hms (indent + step))).append
        (.write [10])).append (completes_spaces indent)
      have hok : ((object (m :: ms)).dump step indent).ok = false := by rw [ok_dump, h]
      rw [dump] at hok ⊢
      refine ⟨m' :: ms', hvalid, ?_⟩
      rw [dump]
      exact hbegin.cut (by simpa using hok) (by simp)

end Json

end Library
end Debase
