import Debase.Library.Json

/-!
# Closed texts

A reader of JSON can stop only where every string, array and object is closed;
what follows there it need not look at.  `scan` follows a text far enough to see
that; no beginning of a printed object is closed but the whole of it
(`not_closed_of_prefix`).
-/

namespace Debase
namespace Library

/-- Where a scan stands: between strings, in a string, or behind a backslash. -/
inductive Mode where
  | plain
  | str
  | esc
deriving DecidableEq

/-- The number of open arrays and objects, and the mode. -/
structure Scan where
  depth : Nat
  mode : Mode
deriving DecidableEq

/-- Scan a byte. -/
def Scan.byte (s : Scan) (b : UInt8) : Scan :=
  match s.mode with
  | .plain =>
      if b = 34 then { s with mode := .str }
      else if b = 123 ∨ b = 91 then { s with depth := s.depth + 1 }
      else if b = 125 ∨ b = 93 then { s with depth := s.depth - 1 }
      else s
  | .str =>
      if b = 34 then { s with mode := .plain }
      else if b = 92 then { s with mode := .esc }
      else s
  | .esc => { s with mode := .str }

/-- Scan a text. -/
def scan (s : Scan) (text : List UInt8) : Scan := text.foldl Scan.byte s

/-- A text in which everything that was opened is closed. -/
def Closed (text : List UInt8) : Prop := text ≠ [] ∧ scan ⟨0, .plain⟩ text = ⟨0, .plain⟩

instance (text : List UInt8) : Decidable (Closed text) := inferInstanceAs (Decidable (_ ∧ _))

/-- A text with a closed beginning. -/
def BeginsClosed (text : List UInt8) : Prop := ∃ value, value <+: text ∧ Closed value

/-- A scan never comes below a depth. -/
def Above (base : Nat) : Scan → List UInt8 → Prop
  | _, [] => True
  | s, b :: bs => base ≤ (s.byte b).depth ∧ Above base (s.byte b) bs

theorem scan_append (s : Scan) (text text' : List UInt8) :
    scan s (text ++ text') = scan (scan s text) text' := List.foldl_append

theorem above_append {base : Nat} {s : Scan} {text text' : List UInt8} :
    Above base s (text ++ text') ↔ Above base s text ∧ Above base (scan s text) text' := by
  induction text generalizing s with
  | nil => simp [Above, scan]
  | cons b bs ih =>
      rw [List.cons_append, Above, Above, ih, and_assoc]
      rfl

theorem Above.mono {base base' : Nat} (hle : base' ≤ base) {s : Scan} {text : List UInt8}
    (h : Above base s text) : Above base' s text := by
  induction text generalizing s with
  | nil => trivial
  | cons b bs ih => exact ⟨Nat.le_trans hle h.1, ih h.2⟩

theorem Above.le_depth {base : Nat} {s : Scan} {text : List UInt8} (h : Above base s text)
    (hs : base ≤ s.depth) : base ≤ (scan s text).depth := by
  induction text generalizing s with
  | nil => exact hs
  | cons b bs ih => exact ih h.2 h.1

/-- A text leads from one scan to another, above a depth. -/
def Leads (base : Nat) (s s' : Scan) (text : List UInt8) : Prop :=
  scan s text = s' ∧ Above base s text

namespace Leads

variable {base : Nat} {s s' s'' : Scan} {text text' : List UInt8}

theorem nil : Leads base s s [] := ⟨rfl, trivial⟩

theorem append (h : Leads base s s' text) (h' : Leads base s' s'' text') :
    Leads base s s'' (text ++ text') := by
  obtain ⟨rfl, habove⟩ := h
  refine ⟨?_, above_append.mpr ⟨habove, h'.2⟩⟩
  rw [scan_append]
  exact h'.1

theorem byte {b : UInt8} (hbyte : s.byte b = s') (hle : base ≤ s'.depth) :
    Leads base s s' [b] := by
  subst hbyte
  exact ⟨rfl, hle, trivial⟩

theorem mono {base' : Nat} (hle : base' ≤ base) (h : Leads base s s' text) :
    Leads base' s s' text := ⟨h.1, h.2.mono hle⟩

/-- Bytes that mean nothing outside strings. -/
theorem plain {d : Nat} (htext : ∀ b ∈ text, (Scan.mk d .plain).byte b = ⟨d, .plain⟩) :
    Leads d ⟨d, .plain⟩ ⟨d, .plain⟩ text := by
  induction text with
  | nil => exact nil
  | cons b bs ih =>
      have hfirst : Leads d ⟨d, .plain⟩ ⟨d, .plain⟩ [b] :=
        byte (htext b List.mem_cons_self) (Nat.le_refl _)
      exact hfirst.append (ih fun b' hb' => htext b' (List.mem_cons_of_mem _ hb'))

end Leads

/-- What a writer writes leads from one scan to another, if it gets through. -/
def Out.Leads (base : Nat) (s s' : Scan) (x : Out) : Prop :=
  x.ok = true → Library.Leads base s s' x.text

theorem Out.Leads.append {base : Nat} {s s' s'' : Scan} {x y : Out} (h : x.Leads base s s')
    (h' : y.Leads base s' s'') : (x ++ y).Leads base s s'' := by
  intro hok
  rw [Out.ok_append, Bool.and_eq_true] at hok
  rw [Out.append_of_ok hok.1]
  exact (h hok.1).append (h' hok.2)

theorem Out.Leads.mono {base base' : Nat} {s s' : Scan} {x : Out} (hle : base' ≤ base)
    (h : x.Leads base s s') : x.Leads base' s s' := fun hok => (h hok).mono hle

theorem Out.leads_write {base : Nat} {s s' : Scan} {text : List UInt8}
    (h : Library.Leads base s s' text) : (Out.write text).Leads base s s' := fun _ => h

/-! ## Strings -/

/-- `decode` never leaves its nine states. -/
theorem decodeState_le (state : Nat) (hstate : state ≤ 8) (b : UInt8) :
    decodeState state b ≤ 8 := by
  have htype : utf8d.getD b.toNat 0 ≤ 11 := by
    have hall : ∀ n < 256, utf8d.getD n 0 ≤ 11 := by decide +kernel
    exact hall _ b.toNat_lt
  have hall : ∀ state ≤ 8, ∀ type ≤ 11, utf8d.getD (256 + state * 16 + type) 0 ≤ 8 := by
    decide +kernel
  exact hall state hstate _ htype

/-- A quotation mark or a backslash is a code point of its own. -/
theorem decodeState_special (state : Nat) (hstate : state ≤ 8) {b : UInt8}
    (hb : b = 34 ∨ b = 92) : decodeState state b = if state = 0 then utf8Accept else utf8Reject := by
  have hall : ∀ state ≤ 8, decodeState state 34 = (if state = 0 then utf8Accept else utf8Reject) ∧
      decodeState state 92 = if state = 0 then utf8Accept else utf8Reject := by
    decide +kernel
  rcases hb with rfl | rfl
  · exact (hall state hstate).1
  · exact (hall state hstate).2

/-- A byte that is nothing special in a string. -/
private theorem leads_str_byte {d : Nat} {b : UInt8} (hquote : b ≠ 34) (hslash : b ≠ 92) :
    Leads d ⟨d, .str⟩ ⟨d, .str⟩ [b] :=
  Leads.byte (by simp [Scan.byte, hquote, hslash]) (Nat.le_refl _)

/-- A backslash and what it escapes. -/
private theorem leads_str_escape (d : Nat) (b : UInt8) :
    Leads d ⟨d, .str⟩ ⟨d, .str⟩ [92, b] := by
  have hslash : Leads d ⟨d, .str⟩ ⟨d, .esc⟩ [92] := Leads.byte rfl (Nat.le_refl _)
  exact hslash.append (Leads.byte rfl (Nat.le_refl _))

private theorem hexDigit_ne (n : Nat) (hn : n < 16) : hexDigit n ≠ 34 ∧ hexDigit n ≠ 92 := by
  have hall : ∀ n < 16, hexDigit n ≠ 34 ∧ hexDigit n ≠ 92 := by decide
  exact hall n hn

/-- What stands for a code point in a string does not end it. -/
theorem leads_escape {d state : Nat} (hstate : state ≤ 8) {codep : UInt32} {b : UInt8}
    (haccept : decodeState state b = utf8Accept) :
    Leads d ⟨d, .str⟩ ⟨d, .str⟩ (escape (decodeCodepoint state codep b) b) := by
  have hspecial : b = 34 ∨ b = 92 → decodeCodepoint state codep b = b.toUInt32 := by
    intro hb
    rw [decodeState_special state hstate hb] at haccept
    have hzero : state = 0 := by
      by_contra hne
      rw [if_neg hne] at haccept
      cases haccept
    subst hzero
    rcases hb with rfl | rfl <;> rfl
  unfold escape
  split_ifs with h1 h2 h3 h4 h5 h6 h7 h8
  · exact leads_str_escape d _
  · exact leads_str_escape d _
  · exact leads_str_escape d _
  · exact leads_str_escape d _
  · exact leads_str_escape d _
  · exact leads_str_escape d _
  · exact leads_str_escape d _
  · -- \u00XX
    have hlt : (decodeCodepoint state codep b).toNat ≤ 0x1F := h8
    obtain ⟨hq, hs⟩ := hexDigit_ne ((decodeCodepoint state codep b).toNat / 16) (by omega)
    obtain ⟨hq', hs'⟩ := hexDigit_ne ((decodeCodepoint state codep b).toNat % 16) (by omega)
    have hzeros : Leads d ⟨d, .str⟩ ⟨d, .str⟩ [48, 48] :=
      (leads_str_byte (by decide) (by decide)).append (leads_str_byte (by decide) (by decide))
    exact (leads_str_escape d 117).append
      (hzeros.append ((leads_str_byte hq hs).append (leads_str_byte hq' hs')))
  · apply leads_str_byte
    · rintro rfl
      exact h6 (hspecial (Or.inl rfl))
    · rintro rfl
      exact h7 (hspecial (Or.inr rfl))

theorem leads_dumpByte {d state : Nat} (hstate : state ≤ 8) {codep : UInt32}
    {buffer : List UInt8} {b : UInt8} {e : Escaped} (h : dumpByte state codep buffer b = some e)
    (hbuffer : Leads d ⟨d, .str⟩ ⟨d, .str⟩ buffer) :
    Leads d ⟨d, .str⟩ ⟨d, .str⟩ e.written ∧ Leads d ⟨d, .str⟩ ⟨d, .str⟩ e.buffer := by
  unfold dumpByte at h
  dsimp only at h
  split at h
  · next haccept =>
      have hall : Leads d ⟨d, .str⟩ ⟨d, .str⟩
          (buffer ++ escape (decodeCodepoint state codep b) b) :=
        hbuffer.append (leads_escape hstate haccept)
      split at h
      · cases h
        exact ⟨hall, .nil⟩
      · cases h
        exact ⟨.nil, hall⟩
  · next haccept =>
      split at h
      · cases h
      · next hreject =>
          have hne : ¬(b = 34 ∨ b = 92) := by
            intro hb
            rw [decodeState_special state hstate hb] at haccept hreject
            by_cases hzero : state = 0
            · exact haccept (if_pos hzero)
            · exact hreject (if_neg hzero)
          cases h
          exact ⟨.nil, hbuffer.append
            (leads_str_byte (fun hb => hne (Or.inl hb)) fun hb => hne (Or.inr hb))⟩

/-- An escaped string does not end where it stands. -/
theorem leads_dumpLoop {d state : Nat} (hstate : state ≤ 8) {codep : UInt32}
    {buffer written s : List UInt8} (hwritten : Leads d ⟨d, .str⟩ ⟨d, .str⟩ written)
    (hbuffer : Leads d ⟨d, .str⟩ ⟨d, .str⟩ buffer) :
    (dumpLoop state codep buffer written s).Leads d ⟨d, .str⟩ ⟨d, .str⟩ := by
  induction s generalizing state codep buffer written with
  | nil =>
      rw [dumpLoop]
      split
      · exact fun _ => hwritten.append hbuffer
      · intro hok
        cases hok
  | cons b bs ih =>
      rw [dumpLoop]
      cases hbyte : dumpByte state codep buffer b with
      | none =>
          intro hok
          cases hok
      | some e =>
          obtain ⟨hnew, hrest⟩ := leads_dumpByte hstate hbyte hbuffer
          have hstate' : e.state ≤ 8 := by
            rw [(dumpByte_eq_some hbyte).1]
            exact decodeState_le state hstate b
          exact ih hstate' (hwritten.append hnew) hrest

theorem leads_dumpEscaped (d : Nat) (s : List UInt8) :
    (dumpEscaped s).Leads d ⟨d, .str⟩ ⟨d, .str⟩ :=
  leads_dumpLoop (Nat.zero_le _) .nil .nil

/-! ## Values -/

namespace Json

/-- A quotation mark opens a string. -/
private theorem leads_quote (d : Nat) :
    (Out.write [34]).Leads d ⟨d, .plain⟩ ⟨d, .str⟩ :=
  Out.leads_write (Leads.byte rfl (Nat.le_refl _))

/-- A quotation mark closes a string. -/
private theorem leads_unquote (d : Nat) :
    (Out.write [34]).Leads d ⟨d, .str⟩ ⟨d, .plain⟩ :=
  Out.leads_write (Leads.byte rfl (Nat.le_refl _))

private theorem leads_spaces (d n : Nat) : (spaces n).Leads d ⟨d, .plain⟩ ⟨d, .plain⟩ := by
  apply Out.leads_write
  apply Leads.plain
  intro b hb
  rw [List.eq_of_mem_replicate hb]
  rfl

private theorem leads_newline (d : Nat) : (Out.write [10]).Leads d ⟨d, .plain⟩ ⟨d, .plain⟩ :=
  Out.leads_write (Leads.byte rfl (Nat.le_refl _))

private theorem leads_comma (d : Nat) (last : Bool) :
    (Out.write (if last then [] else [44, 10])).Leads d ⟨d, .plain⟩ ⟨d, .plain⟩ := by
  apply Out.leads_write
  cases last with
  | true => exact .nil
  | false => exact (Leads.byte rfl (Nat.le_refl _)).append (Leads.byte rfl (Nat.le_refl _))

private theorem leads_open {d : Nat} {b : UInt8} (hb : b = 123 ∨ b = 91) :
    Leads d ⟨d, .plain⟩ ⟨d + 1, .plain⟩ [b] := by
  rcases hb with rfl | rfl <;> exact Leads.byte rfl (Nat.le_succ d)

private theorem leads_close {d : Nat} {b : UInt8} (hb : b = 125 ∨ b = 93) :
    Leads d ⟨d + 1, .plain⟩ ⟨d, .plain⟩ [b] := by
  rcases hb with rfl | rfl <;> exact Leads.byte rfl (Nat.le_refl _)

/-- Brackets around lines that stay above them. -/
private theorem leads_brackets {d indent : Nat} {opening closing : UInt8} {x : Out}
    (hopen : opening = 123 ∨ opening = 91) (hclose : closing = 125 ∨ closing = 93)
    (hx : x.Leads (d + 1) ⟨d + 1, .plain⟩ ⟨d + 1, .plain⟩) :
    (Out.write [opening, 10] ++ x ++ Out.write [10] ++ spaces indent ++
      Out.write [closing]).Leads d ⟨d, .plain⟩ ⟨d, .plain⟩ := by
  have hle : d ≤ d + 1 := Nat.le_succ d
  have hfirst : (Out.write [opening, 10]).Leads d ⟨d, .plain⟩ ⟨d + 1, .plain⟩ :=
    Out.leads_write ((leads_open hopen).append (Leads.byte rfl hle))
  exact (((hfirst.append (hx.mono hle)).append ((leads_newline _).mono hle)).append
    ((leads_spaces _ _).mono hle)).append (Out.leads_write (leads_close hclose))

private theorem digits_plain (d : Nat) (n : Int) :
    Leads d ⟨d, .plain⟩ ⟨d, .plain⟩ (digits n) := by
  have hplain : ∀ b : UInt8, 45 ≤ b.toNat → b.toNat ≤ 57 →
      (Scan.mk d .plain).byte b = ⟨d, .plain⟩ := by
    intro b hlow hhigh
    have hne : ∀ k : UInt8, 57 < k.toNat ∨ k.toNat < 45 → b ≠ k := by
      rintro k hk rfl
      omega
    simp [Scan.byte, hne 34 (by decide), hne 123 (by decide), hne 91 (by decide),
      hne 125 (by decide), hne 93 (by decide)]
  apply Leads.plain
  intro b hb
  rcases List.mem_append.mp hb with hsign | hdigit
  · split at hsign
    · rw [List.mem_singleton.mp hsign]
      exact hplain 45 (by decide) (by decide)
    · cases hsign
  · obtain ⟨c, hc, rfl⟩ := List.mem_map.mp hdigit
    have hdigit := Nat.isDigit_of_mem_toDigits (by decide) (by decide) hc
    have hrange : 48 ≤ c.toNat ∧ c.toNat ≤ 57 := by
      simpa [Char.isDigit, Char.le_def, UInt32.le_iff_toNat_le] using hdigit
    have hsmall : (UInt8.ofNat c.toNat).toNat = c.toNat := UInt8.toNat_ofNat_of_lt' (by
      show c.toNat < 256
      omega)
    exact hplain _ (by omega) (by omega)

mutual

/-- A printed value ends where it began. -/
theorem leads_dump (step : Nat) : (j : Json) → (d indent : Nat) →
    (j.dump step indent).Leads d ⟨d, .plain⟩ ⟨d, .plain⟩
  | object [], d, _ => by
      rw [dump]
      exact Out.leads_write ((leads_open (Or.inl rfl)).append (leads_close (Or.inl rfl)))
  | object (m :: ms), d, indent => by
      rw [dump]
      exact leads_brackets (Or.inl rfl) (Or.inl rfl) (leads_dumpMembers step (m :: ms) _ _)
  | array [], d, _ => by
      rw [dump]
      exact Out.leads_write ((leads_open (Or.inr rfl)).append (leads_close (Or.inr rfl)))
  | array (e :: es), d, indent => by
      rw [dump]
      exact leads_brackets (Or.inr rfl) (Or.inr rfl) (leads_dumpElements step (e :: es) _ _)
  | string s, d, _ => by
      rw [dump]
      exact ((leads_quote d).append (leads_dumpEscaped d s)).append (leads_unquote d)
  | number n, d, _ => by
      rw [dump]
      exact Out.leads_write (digits_plain d n)

theorem leads_dumpMembers (step : Nat) : (ms : List (List UInt8 × Json)) → (d indent : Nat) →
    (dumpMembers step ms indent).Leads d ⟨d, .plain⟩ ⟨d, .plain⟩
  | [], d, _ => Out.leads_write .nil
  | (key, value) :: ms, d, indent => by
      rw [dumpMembers]
      have hcolon : (Out.write [34, 58, 32]).Leads d ⟨d, .str⟩ ⟨d, .plain⟩ :=
        Out.leads_write ((Leads.byte rfl (Nat.le_refl _)).append
          ((Leads.byte rfl (Nat.le_refl _)).append (Leads.byte rfl (Nat.le_refl _))))
      exact ((((((leads_spaces d _).append (leads_quote d)).append
        (leads_dumpEscaped d key)).append hcolon).append (leads_dump step value d _)).append
        (leads_comma d _)).append (leads_dumpMembers step ms d _)

theorem leads_dumpElements (step : Nat) : (es : List Json) → (d indent : Nat) →
    (dumpElements step es indent).Leads d ⟨d, .plain⟩ ⟨d, .plain⟩
  | [], d, _ => Out.leads_write .nil
  | e :: es, d, indent => by
      rw [dumpElements]
      exact (((leads_spaces d _).append (leads_dump step e d _)).append
        (leads_comma d _)).append (leads_dumpElements step es d _)

end

/-- A printed object is closed. -/
theorem closed_dump {step indent : Nat} {ms : List (List UInt8 × Json)}
    (hok : (object ms).validStrings = true) : Closed ((object ms).dump step indent).text := by
  have hleads := leads_dump step (object ms) 0 indent (by rw [ok_dump, hok])
  refine ⟨?_, hleads.1⟩
  cases ms with
  | nil => simp [dump]
  | cons m ms =>
      rw [dump]
      by_cases hvalid : (dumpMembers step (m :: ms) (indent + step)).ok = true
      · simp [Out.text_append, hvalid, spaces]
      · rw [ok_dumpMembers] at hvalid
        exact absurd hok hvalid

/-- No beginning of a printed object is closed, but the whole of it. -/
theorem not_closed_of_prefix {step indent : Nat} {ms : List (List UInt8 × Json)}
    (hok : (object ms).validStrings = true) {text : List UInt8}
    (hpre : text <+: ((object ms).dump step indent).text)
    (hne : text ≠ ((object ms).dump step indent).text) : ¬Closed text := by
  obtain ⟨inner, htext, habove⟩ : ∃ inner,
      ((object ms).dump step indent).text = 123 :: (inner ++ [125]) ∧
        Above 1 ⟨1, .plain⟩ inner := by
    cases ms with
    | nil => exact ⟨[], rfl, trivial⟩
    | cons m ms =>
        have hmembers := leads_dumpMembers step (m :: ms) 1 (indent + step)
        have hinner : (Out.write [10] ++ dumpMembers step (m :: ms) (indent + step) ++
            Out.write [10] ++ spaces indent).Leads 1 ⟨1, .plain⟩ ⟨1, .plain⟩ :=
          (((leads_newline 1).append hmembers).append (leads_newline 1)).append (leads_spaces 1 _)
        have hvalid : (dumpMembers step (m :: ms) (indent + step)).ok = true := by
          rw [ok_dumpMembers]
          exact hok
        have hbegin : ∀ begin, (Out.write begin ++ dumpMembers step (m :: ms) (indent + step)).text =
            begin ++ (dumpMembers step (m :: ms) (indent + step)).text :=
          fun begin => Out.text_append rfl _
        refine ⟨_, ?_, (hinner (by simp [spaces, hvalid])).2⟩
        rw [dump]
        simp [Out.text_append, hvalid, spaces, hbegin]
  rw [htext] at hpre hne
  rintro ⟨hnil, hclosed⟩
  cases text with
  | nil => exact hnil rfl
  | cons b rest =>
      obtain ⟨rfl, hrest⟩ := List.cons_prefix_cons.mp hpre
      rcases List.prefix_concat_iff.mp hrest with hall | ⟨tail, rfl⟩
      · exact hne (by rw [hall])
      · -- the outer brace is still open
        have hdepth := (above_append.mp habove).1.le_depth (Nat.le_refl 1)
        have hscan : scan ⟨0, .plain⟩ (123 :: rest) = scan ⟨1, .plain⟩ rest := rfl
        rw [← hscan, hclosed] at hdepth
        exact absurd hdepth (by decide)

/-- A printed object that was cut has no closed beginning. -/
theorem not_beginsClosed_of_prefix {step indent : Nat} {ms : List (List UInt8 × Json)}
    (hok : (object ms).validStrings = true) {text : List UInt8}
    (hpre : text <+: ((object ms).dump step indent).text)
    (hne : text ≠ ((object ms).dump step indent).text) : ¬BeginsClosed text := by
  rintro ⟨value, hvalue, hclosed⟩
  refine not_closed_of_prefix hok (hvalue.trans hpre) ?_ hclosed
  intro heq
  rw [heq] at hvalue
  exact hne (hpre.eq_of_length_le hvalue.length_le)

end Json

end Library
end Debase
