import Mathlib.Data.List.Basic

/-!
# UTF-8

A code point is a Unicode scalar value, and its encoding is one byte that begins it and
continuation bytes.  A text of bytes is well-formed if it is the encoding of code points.
-/

namespace Debase
namespace Library
namespace Utf8

/-- The byte begins a code point: it is no continuation byte. -/
def codepointStart (b : UInt8) : Bool := b &&& 0xC0 != 0x80

/-- The encoding of code points. -/
def encode (cs : List Char) : List UInt8 := cs.flatMap String.utf8EncodeChar

/-- The bytes are the encoding of code points. -/
def WellFormed (bs : List UInt8) : Prop := ∃ cs, encode cs = bs

/-- How many code points begin in the bytes. -/
def len (bs : List UInt8) : Nat := bs.countP codepointStart

@[simp] theorem len_nil : len [] = 0 := rfl

@[simp] theorem len_append (as bs : List UInt8) : len (as ++ bs) = len as + len bs :=
  List.countP_append

theorem len_cons (b : UInt8) (bs : List UInt8) :
    len (b :: bs) = len bs + if codepointStart b then 1 else 0 :=
  List.countP_cons

theorem len_cons_start {b : UInt8} (h : codepointStart b = true) (bs : List UInt8) :
    len (b :: bs) = len bs + 1 := by
  rw [len_cons, if_pos h]

theorem len_cons_tail {b : UInt8} (h : codepointStart b = false) (bs : List UInt8) :
    len (b :: bs) = len bs := by
  rw [len_cons, h]
  rfl

theorem len_le_length (bs : List UInt8) : len bs ≤ bs.length := List.countP_le_length

@[simp] theorem encode_nil : encode [] = [] := rfl

@[simp] theorem encode_cons (c : Char) (cs : List Char) :
    encode (c :: cs) = String.utf8EncodeChar c ++ encode cs := List.flatMap_cons

@[simp] theorem encode_append (cs ds : List Char) : encode (cs ++ ds) = encode cs ++ encode ds :=
  List.flatMap_append

/-! ## The bytes of a code point -/

/-- An ASCII byte is below 128. -/
def isAscii (b : UInt8) : Bool := b < 128

theorem isAscii_iff (b : UInt8) : isAscii b = true ↔ b.toNat < 128 := by
  simp [isAscii, UInt8.lt_iff_toNat_lt]

/-- Continuation bytes are those from 128 to 191. -/
theorem codepointStart_iff (b : UInt8) :
    codepointStart b = true ↔ b.toNat < 128 ∨ 192 ≤ b.toNat := by
  have hall : ∀ n < 256, codepointStart (UInt8.ofNat n) = true ↔ n < 128 ∨ 192 ≤ n := by
    decide +kernel
  have hb := hall b.toNat b.toNat_lt
  rwa [UInt8.ofNat_toNat] at hb

theorem codepointStart_of_isAscii {b : UInt8} (h : isAscii b = true) : codepointStart b = true :=
  (codepointStart_iff b).mpr (Or.inl ((isAscii_iff b).mp h))

theorem toNat_byte {n : Nat} (h : n < 256) : (UInt8.ofNat n).toNat = n :=
  UInt8.toNat_ofNat_of_lt' h

theorem codepointStart_tail (n : Nat) : codepointStart (UInt8.ofNat (n % 64 + 128)) = false := by
  have hlt : n % 64 < 64 := Nat.mod_lt _ (by omega)
  rw [Bool.eq_false_iff, Ne, codepointStart_iff, toNat_byte (by omega)]
  omega

/-- The bytes of a code point: an ASCII byte, or another first byte and continuation bytes. -/
theorem utf8EncodeChar_cases (c : Char) :
    (c.toNat < 128 ∧ ∃ b, String.utf8EncodeChar c = [b] ∧ b.toNat = c.toNat) ∨
      (128 ≤ c.toNat ∧ ∃ b tail, String.utf8EncodeChar c = b :: tail ∧ 192 ≤ b.toNat ∧ tail ≠ [] ∧
        ∀ x ∈ tail, codepointStart x = false) := by
  have htoNat : c.toNat = c.val.toNat := rfl
  rw [htoNat]
  generalize hv : c.val.toNat = v
  unfold String.utf8EncodeChar
  dsimp only
  rw [hv]
  split
  · next h => exact Or.inl ⟨by omega, _, rfl, toNat_byte (by omega)⟩
  · next h =>
      refine Or.inr ⟨by omega, ?_⟩
      have hfirst : ∀ k n : Nat, n + k < 256 → 192 ≤ k → 192 ≤ (UInt8.ofNat (n + k)).toNat := by
        intro k n hlt hk
        rw [toNat_byte hlt]
        omega
      split
      · refine ⟨_, _, rfl, hfirst 192 _ (by omega) (by omega), List.cons_ne_nil _ _, ?_⟩
        exact List.forall_mem_singleton.mpr (codepointStart_tail v)
      · split
        · refine ⟨_, _, rfl, hfirst 224 _ (by omega) (by omega), List.cons_ne_nil _ _, ?_⟩
          exact List.forall_mem_cons.mpr ⟨codepointStart_tail _,
            List.forall_mem_singleton.mpr (codepointStart_tail v)⟩
        · refine ⟨_, _, rfl, hfirst 240 _ (by omega) (by omega), List.cons_ne_nil _ _, ?_⟩
          exact List.forall_mem_cons.mpr ⟨codepointStart_tail _, List.forall_mem_cons.mpr
            ⟨codepointStart_tail _, List.forall_mem_singleton.mpr (codepointStart_tail v)⟩⟩

/-- A first byte, and continuation bytes. -/
theorem utf8EncodeChar_eq_cons (c : Char) : ∃ b tail, String.utf8EncodeChar c = b :: tail ∧
    codepointStart b = true ∧ ∀ x ∈ tail, codepointStart x = false := by
  rcases utf8EncodeChar_cases c with ⟨hc, b, hb, hcode⟩ | ⟨-, b, tail, hb, hfirst, -, htail⟩
  · refine ⟨b, [], hb, (codepointStart_iff b).mpr (Or.inl ?_), List.forall_mem_nil _⟩
    omega
  · exact ⟨b, tail, hb, (codepointStart_iff b).mpr (Or.inr hfirst), htail⟩

theorem len_eq_zero {bs : List UInt8} (h : ∀ x ∈ bs, codepointStart x = false) : len bs = 0 :=
  List.countP_eq_zero.mpr fun x hx => by simp [h x hx]

@[simp] theorem len_utf8EncodeChar (c : Char) : len (String.utf8EncodeChar c) = 1 := by
  obtain ⟨b, tail, hb, hstart, htail⟩ := utf8EncodeChar_eq_cons c
  rw [hb, len_cons, len_eq_zero htail, if_pos hstart]

@[simp] theorem len_encode (cs : List Char) : len (encode cs) = cs.length := by
  induction cs with
  | nil => rfl
  | cons c cs ih =>
      rw [encode_cons, len_append, len_utf8EncodeChar, ih, List.length_cons, Nat.add_comm]

/-- The bytes of one code point, or those of its bytes that came so far. -/
def IsCodepoint (x : List UInt8) : Prop :=
  ∃ b tail, x = b :: tail ∧ codepointStart b = true ∧ ∀ y ∈ tail, codepointStart y = false

theorem isCodepoint_utf8EncodeChar (c : Char) : IsCodepoint (String.utf8EncodeChar c) :=
  utf8EncodeChar_eq_cons c

theorem IsCodepoint.ne_nil {x : List UInt8} (h : IsCodepoint x) : x ≠ [] := by
  obtain ⟨b, tail, rfl, -, -⟩ := h
  exact List.cons_ne_nil b tail

theorem IsCodepoint.len_eq {x : List UInt8} (h : IsCodepoint x) : len x = 1 := by
  obtain ⟨b, tail, rfl, hb, htail⟩ := h
  rw [len_cons_start hb, len_eq_zero htail]

theorem IsCodepoint.concat {x : List UInt8} (h : IsCodepoint x) {y : UInt8}
    (hy : codepointStart y = false) : IsCodepoint (x ++ [y]) := by
  obtain ⟨b, tail, rfl, hb, htail⟩ := h
  refine ⟨b, tail ++ [y], rfl, hb, fun z hz => ?_⟩
  rcases List.mem_append.mp hz with hz | hz
  · exact htail z hz
  · rwa [List.mem_singleton.mp hz]

theorem len_flatten {xs : List (List UInt8)} (h : ∀ x ∈ xs, IsCodepoint x) :
    len xs.flatten = xs.length := by
  induction xs with
  | nil => rfl
  | cons x xs ih =>
      obtain ⟨hx, hrest⟩ := List.forall_mem_cons.mp h
      rw [List.flatten_cons, len_append, hx.len_eq, ih hrest, List.length_cons, Nat.add_comm]

/-! ## Cutting between code points -/

/-- No continuation byte comes first. -/
def AtStart (bs : List UInt8) : Prop := ∀ b ∈ bs.head?, codepointStart b = true

theorem AtStart.nil : AtStart [] := fun _ hno => by cases hno

theorem AtStart.cons {b : UInt8} (h : codepointStart b = true) (bs : List UInt8) :
    AtStart (b :: bs) :=
  fun x hx => by
    cases hx
    exact h

instance (bs : List UInt8) : Decidable (AtStart bs) :=
  inferInstanceAs (Decidable (∀ b ∈ bs.head?, _))

theorem atStart_encode (cs : List Char) : AtStart (encode cs) := by
  cases cs with
  | nil => exact .nil
  | cons c cs =>
      obtain ⟨b, tail, hb, hstart, -⟩ := utf8EncodeChar_eq_cons c
      rw [encode_cons, hb]
      exact .cons hstart _

theorem atStart_flatten {xs : List (List UInt8)} (h : ∀ x ∈ xs, IsCodepoint x) :
    AtStart xs.flatten := by
  cases xs with
  | nil => exact .nil
  | cons x xs =>
      obtain ⟨b, tail, rfl, hb, -⟩ := h x List.mem_cons_self
      exact .cons hb _

/-- A cut in front of a byte that begins a code point is between code points. -/
theorem encode_eq_append {cs : List Char} {p q : List UInt8} (h : encode cs = p ++ q)
    (hq : AtStart q) : ∃ as bs, cs = as ++ bs ∧ encode as = p ∧ encode bs = q := by
  induction cs generalizing p with
  | nil =>
      obtain ⟨rfl, rfl⟩ := List.append_eq_nil_iff.mp h.symm
      exact ⟨[], [], rfl, rfl, rfl⟩
  | cons c cs ih =>
      rcases p with _ | ⟨x, p⟩
      · exact ⟨[], c :: cs, rfl, rfl, h⟩
      · obtain ⟨b, tail, hb, -, htail⟩ := utf8EncodeChar_eq_cons c
        rw [encode_cons, hb, List.cons_append, List.cons_append, List.cons.injEq] at h
        obtain ⟨rfl, h⟩ := h
        rcases List.append_eq_append_iff.mp h with ⟨rest, rfl, hrest⟩ | ⟨rest, htails, rfl⟩
        · obtain ⟨as, bs, rfl, has, hbs⟩ := ih hrest
          refine ⟨c :: as, bs, rfl, ?_, hbs⟩
          rw [encode_cons, hb, has, List.cons_append]
        · -- what is left of the continuation bytes is in front of the rest
          rcases rest with _ | ⟨y, rest⟩
          · refine ⟨[c], cs, rfl, ?_, rfl⟩
            rw [encode_cons, encode_nil, hb, htails, List.append_nil, List.append_nil]
          · have hstart := hq y rfl
            rw [htail y (by simp [htails])] at hstart
            cases hstart

/-- The continuation bytes that come first are known. -/
theorem cut_unique {u u' q q' : List UInt8} (h : u ++ q = u' ++ q')
    (hu : ∀ x ∈ u, codepointStart x = false) (hu' : ∀ x ∈ u', codepointStart x = false)
    (hq : AtStart q) (hq' : AtStart q') : u = u' ∧ q = q' := by
  have hnone : ∀ {a r : List UInt8}, AtStart (a ++ r) → (∀ x ∈ a, codepointStart x = false) →
      a = [] := by
    intro a r hstart ha
    rcases a with _ | ⟨x, a⟩
    · rfl
    · have hx := hstart x rfl
      rw [ha x List.mem_cons_self] at hx
      cases hx
  rcases List.append_eq_append_iff.mp h with ⟨a, rfl, rfl⟩ | ⟨a, rfl, rfl⟩
  · obtain rfl := hnone hq fun x hx => hu' x (List.mem_append_right _ hx)
    exact ⟨(List.append_nil u).symm, rfl⟩
  · obtain rfl := hnone hq' fun x hx => hu x (List.mem_append_right _ hx)
    exact ⟨List.append_nil u', rfl⟩

theorem WellFormed.nil : WellFormed [] := ⟨[], rfl⟩

theorem WellFormed.append {as bs : List UInt8} (ha : WellFormed as) (hb : WellFormed bs) :
    WellFormed (as ++ bs) := by
  obtain ⟨cs, rfl⟩ := ha
  obtain ⟨ds, rfl⟩ := hb
  exact ⟨cs ++ ds, encode_append cs ds⟩

theorem WellFormed.cut {p q : List UInt8} (h : WellFormed (p ++ q)) (hq : AtStart q) :
    WellFormed p ∧ WellFormed q := by
  obtain ⟨cs, hcs⟩ := h
  obtain ⟨as, bs, -, has, hbs⟩ := encode_eq_append hcs hq
  exact ⟨⟨as, has⟩, ⟨bs, hbs⟩⟩

theorem WellFormed.atStart {bs : List UInt8} (h : WellFormed bs) : AtStart bs := by
  obtain ⟨cs, rfl⟩ := h
  exact atStart_encode cs

/-! ## ASCII -/

theorem utf8EncodeChar_ascii :
    ∀ n < 128, String.utf8EncodeChar (Char.ofNat n) = [UInt8.ofNat n] := by
  decide +kernel

theorem WellFormed.ascii {bs : List UInt8} (h : ∀ b ∈ bs, isAscii b = true) : WellFormed bs := by
  induction bs with
  | nil => exact .nil
  | cons b bs ih =>
      have hb := (isAscii_iff b).mp (h b List.mem_cons_self)
      have hone : WellFormed [b] := by
        refine ⟨[Char.ofNat b.toNat], ?_⟩
        rw [encode_cons, encode_nil, List.append_nil, utf8EncodeChar_ascii _ hb, UInt8.ofNat_toNat]
      exact hone.append (ih fun x hx => h x (List.mem_cons_of_mem _ hx))

theorem len_of_ascii {bs : List UInt8} (h : ∀ b ∈ bs, isAscii b = true) :
    len bs = bs.length :=
  List.countP_eq_length.mpr fun b hb => codepointStart_of_isAscii (h b hb)

/-- An ASCII byte is a code point, so what is on both sides of it is well-formed. -/
theorem WellFormed.cut_ascii {p q : List UInt8} {a : UInt8} (h : WellFormed (p ++ a :: q))
    (ha : isAscii a = true) : WellFormed p ∧ WellFormed q := by
  obtain ⟨hp, ds, hds⟩ := h.cut (.cons (codepointStart_of_isAscii ha) q)
  refine ⟨hp, ?_⟩
  rcases ds with _ | ⟨d, ds⟩
  · cases hds
  · rw [isAscii_iff] at ha
    rcases utf8EncodeChar_cases d with ⟨-, b, hb, -⟩ | ⟨-, b, tail, hb, hfirst, -⟩
    · rw [encode_cons, hb] at hds
      cases hds
      exact ⟨ds, rfl⟩
    · rw [encode_cons, hb] at hds
      cases hds
      omega

/-- Where every byte begins a code point, the text is ASCII. -/
theorem WellFormed.ascii_of_len {bs : List UInt8} (h : WellFormed bs) (hlen : len bs = bs.length) :
    ∀ b ∈ bs, isAscii b = true := by
  obtain ⟨cs, rfl⟩ := h
  have hall : ∀ b ∈ encode cs, codepointStart b = true := List.countP_eq_length.mp hlen
  intro b hb
  obtain ⟨c, hc, hb⟩ := List.mem_flatMap.mp hb
  have hstart : ∀ x ∈ String.utf8EncodeChar c, codepointStart x = true := fun x hx =>
    hall x (List.mem_flatMap.mpr ⟨c, hc, hx⟩)
  rcases utf8EncodeChar_cases c with ⟨hlt, x, hx, hcode⟩ | ⟨-, x, tail, hx, -, hne, htail⟩
  · rw [hx] at hb
    rw [List.mem_singleton.mp hb, isAscii_iff]
    omega
  · obtain ⟨y, hy⟩ := List.exists_mem_of_ne_nil tail hne
    have hy' := hstart y (by rw [hx]; exact List.mem_cons_of_mem _ hy)
    rw [htail y hy] at hy'
    cases hy'

end Utf8
end Library
end Debase
