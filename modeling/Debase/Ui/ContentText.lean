import Debase.UTF8

/-!
# The text of a line in the conflict panel

`_ContentTextFilter` drops what is not printable and replaces tabs by spaces, for a line of a
file, which may be any bytes.
-/

namespace Debase
namespace Ui

open Library.Utf8

/-- `isprint` in the C locale. -/
def isPrint (b : UInt8) : Bool := 32 ≤ b && b < 127

/-- `iscntrl` in the C locale. -/
def isCntrl (b : UInt8) : Bool := b < 32 || b = 127

/-- `TabSize`. -/
def tabSize : Nat := 8

/-- One turn of the loop of `_ContentTextFilter`, for the bytes from `it` to `itNext`, the first
of which is `b`: what it adds to the text, and the column `i` after it. -/
def contentTextTurn (n : Nat) (b : UInt8) (codepoint : Bytes) (i : Nat) : Bytes × Nat :=
  if isAscii b then
    if isPrint b then ([b], i + 1)
    else if b = 9 then
      let spaceCount := tabSize - i % tabSize
      let spaceCountLimited := min (n - i) spaceCount
      (List.replicate spaceCountLimited 32, i + spaceCountLimited)
    else ([], i)
  else (codepoint, i + 1)

/-- The loop over the bytes from `it` on.  It takes at least one byte a turn, so `gas` is never
used up where it is the number of the bytes. -/
def contentTextLoop (n : Nat) : Nat → Bytes → Nat → Option Bytes
  | _, [], _ => some []
  | 0, _ :: _, _ => none
  | gas + 1, b :: rest, i =>
      if i < n then do
        let itNext ← UTF8.next (b :: rest) 0 (b :: rest).length
        let turn := contentTextTurn n b ((b :: rest).take itNext) i
        let buf ← contentTextLoop n gas ((b :: rest).drop itNext) turn.2
        pure (turn.1 ++ buf)
      else some []

/-- What `_ContentTextFilter` puts into `buf`. -/
def contentText (n : Nat) (str : Bytes) : Option Bytes := contentTextLoop n str.length str 0

/-- `_ContentTextFilter`.  `buf.reserve(len)` throws for more than a string can hold, before anything
of the line is looked at. -/
def contentTextFilter (maxSize n : Nat) (str : Bytes) : Option Bytes :=
  if maxSize < n then none else contentText n str

/-- `(size_t)width`. -/
def sizeT (width : Int) : Nat := (width % 2 ^ 64).toNat

/-- What one turn takes is a byte and the continuation bytes after it. -/
theorem next_first (b : UInt8) (rest : Bytes) :
    ∃ u q, rest = u ++ q ∧ UTF8.next (b :: rest) 0 (b :: rest).length = some (b :: u).length ∧
      AtStart q ∧ ∀ x ∈ u, codepointStart x = false := by
  obtain ⟨u, q, rfl, hwalk, hq, hle, -⟩ := UTF8.nextN_first b rest 0
  refine ⟨u, q, rfl, hwalk, hq, fun x hx => ?_⟩
  have hzero : u.countP codepointStart = 0 := Nat.le_zero.mp hle
  rw [List.countP_eq_zero] at hzero
  exact Bool.eq_false_iff.mpr (hzero x hx)

theorem isCntrl_eq_false_iff (b : UInt8) : isCntrl b = false ↔ 32 ≤ b.toNat ∧ b.toNat ≠ 127 := by
  rw [isCntrl, Bool.or_eq_false_iff, decide_eq_false_iff_not, decide_eq_false_iff_not,
    UInt8.lt_iff_toNat_lt, ← UInt8.toNat_inj, Nat.not_lt]
  rfl

theorem isPrint_iff (b : UInt8) : isPrint b = true ↔ 32 ≤ b.toNat ∧ b.toNat < 127 := by
  rw [isPrint, Bool.and_eq_true, decide_eq_true_eq, decide_eq_true_eq, UInt8.le_iff_toNat_le,
    UInt8.lt_iff_toNat_lt]
  rfl

/-- What a turn adds has no control character, and no more code points than columns. -/
theorem contentTextTurn_bounds {n i : Nat} (hi : i < n) (b : UInt8) {u : Bytes}
    (hu : ∀ x ∈ u, codepointStart x = false) :
    (∀ x ∈ (contentTextTurn n b (b :: u) i).1, isCntrl x = false) ∧
      i + len (contentTextTurn n b (b :: u) i).1 ≤ (contentTextTurn n b (b :: u) i).2 ∧
      (contentTextTurn n b (b :: u) i).2 ≤ n := by
  unfold contentTextTurn
  split
  · split
    · next hprint =>
        refine ⟨List.forall_mem_singleton.mpr ?_, ?_, hi⟩
        · rw [isPrint_iff] at hprint
          rw [isCntrl_eq_false_iff]
          omega
        · exact Nat.add_le_add_left (len_le_length [b]) i
    · split
      · refine ⟨fun x hx => ?_, ?_, by dsimp only; omega⟩
        · rw [(List.mem_replicate.mp hx).2]
          rfl
        · dsimp only
          have hlen := len_le_length (List.replicate (min (n - i) (tabSize - i % tabSize)) 32)
          rw [List.length_replicate] at hlen
          exact Nat.add_le_add_left hlen i
      · exact ⟨List.forall_mem_nil _, Nat.le_refl i, Nat.le_of_lt hi⟩
  · next hascii =>
      rw [isAscii_iff] at hascii
      refine ⟨List.forall_mem_cons.mpr ⟨?_, fun x hx => ?_⟩, ?_, hi⟩
      · rw [isCntrl_eq_false_iff]
        omega
      · have htail := hu x hx
        rw [Bool.eq_false_iff, Ne, codepointStart_iff] at htail
        rw [isCntrl_eq_false_iff]
        omega
      · rw [len_cons, len_eq_zero hu]
        split <;> omega

theorem contentTextLoop_turn {n i : Nat} (hi : i < n) (gas : Nat) {b : UInt8} {u q : Bytes}
    (hnext : UTF8.next (b :: (u ++ q)) 0 (b :: (u ++ q)).length = some (b :: u).length) :
    contentTextLoop n (gas + 1) (b :: (u ++ q)) i =
      (contentTextLoop n gas q (contentTextTurn n b (b :: u) i).2).map
        ((contentTextTurn n b (b :: u) i).1 ++ ·) := by
  have htake : (b :: (u ++ q)).take (b :: u).length = b :: u := List.take_left' rfl
  have hdrop : (b :: (u ++ q)).drop (b :: u).length = q := List.drop_left' rfl
  rw [contentTextLoop, if_pos hi, hnext]
  simp only [Option.bind_eq_bind, Option.bind_some, htake, hdrop]
  cases contentTextLoop n gas q (contentTextTurn n b (b :: u) i).2 <;> rfl

/-- Whatever the line is, no control character is left, and no column too many. -/
theorem contentTextLoop_bounds (n gas : Nat) (rest : Bytes) (i : Nat) (hgas : rest.length ≤ gas) :
    ∃ r, contentTextLoop n gas rest i = some r ∧ (∀ b ∈ r, isCntrl b = false) ∧ len r ≤ n - i := by
  induction gas generalizing rest i with
  | zero =>
      obtain rfl := List.length_eq_zero_iff.mp (Nat.le_zero.mp hgas)
      exact ⟨[], rfl, List.forall_mem_nil _, Nat.zero_le _⟩
  | succ gas ih =>
      rcases rest with _ | ⟨b, rest⟩
      · exact ⟨[], rfl, List.forall_mem_nil _, Nat.zero_le _⟩
      · obtain ⟨u, q, rfl, hnext, -, hu⟩ := next_first b rest
        have hq : q.length ≤ gas := by
          rw [List.length_cons, List.length_append] at hgas
          omega
        by_cases hi : i < n
        · obtain ⟨hclean, hcount, hmax⟩ := contentTextTurn_bounds hi b hu
          obtain ⟨r, hr, hcleans, hcounts⟩ := ih q (contentTextTurn n b (b :: u) i).2 hq
          refine ⟨(contentTextTurn n b (b :: u) i).1 ++ r, ?_, ?_, ?_⟩
          · rw [contentTextLoop_turn hi gas hnext, hr]
            rfl
          · exact fun x hx => (List.mem_append.mp hx).elim (hclean x) (hcleans x)
          · rw [len_append]
            omega
        · refine ⟨[], ?_, List.forall_mem_nil _, Nat.zero_le _⟩
          rw [contentTextLoop, if_neg hi]

/-! ## The columns of a line -/

/-- The line with a tab as spaces up to the next multiple of 8 columns, and without the other
ASCII characters that are not printable.  Its first column is `column`. -/
def expand (column : Nat) : List Char → List Char
  | [] => []
  | c :: cs =>
      if c = '\t' then
        let spaces := 8 - column % 8
        List.replicate spaces ' ' ++ expand (column + spaces) cs
      else if c.toNat < 32 ∨ c.toNat = 127 then expand column cs
      else c :: expand (column + 1) cs

theorem next_codepoint (b : UInt8) {u : Bytes} (hu : ∀ x ∈ u, codepointStart x = false)
    (cs : List Char) :
    UTF8.next (b :: (u ++ encode cs)) 0 (b :: (u ++ encode cs)).length = some (b :: u).length := by
  obtain ⟨u', q, heq, hnext, hq, hu'⟩ := next_first b (u ++ encode cs)
  obtain ⟨rfl, -⟩ := cut_unique heq hu hu' (atStart_encode cs) hq
  exact hnext

theorem encode_replicate_space (k : Nat) : encode (List.replicate k ' ') = List.replicate k 32 := by
  induction k with
  | zero => rfl
  | succ k ih =>
      rw [List.replicate_succ, encode_cons, ih]
      rfl

/-- One turn takes one code point of the line. -/
theorem contentTextTurn_expand {n i : Nat} (hi : i < n) {c : Char} {b : UInt8} {u : Bytes}
    (hc : String.utf8EncodeChar c = b :: u) (cs : List Char) :
    encode ((expand i (c :: cs)).take (n - i)) = (contentTextTurn n b (b :: u) i).1 ++
      encode ((expand (contentTextTurn n b (b :: u) i).2 cs).take
        (n - (contentTextTurn n b (b :: u) i).2)) := by
  have hkeep : ∀ d : List Char, encode ((c :: d).take (n - i)) =
      b :: u ++ encode (d.take (n - (i + 1))) := by
    intro d
    obtain ⟨k, hk⟩ : ∃ k, n - i = k + 1 := ⟨n - i - 1, by omega⟩
    rw [hk, List.take_succ_cons, encode_cons, hc, show n - (i + 1) = k by omega]
  have htab : c = '\t' ↔ c.toNat = 9 := by
    rw [← Char.toNat_inj]
    rfl
  rw [contentTextTurn, expand]
  rcases utf8EncodeChar_cases c with ⟨hlt, b', hb', hcode⟩ | ⟨hle, b', u', hb', hfirst, -, -⟩
  · rw [hc, List.cons.injEq] at hb'
    obtain ⟨rfl, rfl⟩ := hb'
    rw [if_pos ((isAscii_iff b).mpr (by omega))]
    by_cases hprint : isPrint b = true
    · rw [if_pos hprint]
      rw [isPrint_iff] at hprint
      have hkept : ¬(c.toNat < 32 ∨ c.toNat = 127) := by omega
      rw [if_neg (mt htab.mp (by omega)), if_neg hkept]
      exact hkeep _
    · rw [if_neg hprint]
      rw [isPrint_iff] at hprint
      have hnine : b = 9 ↔ c.toNat = 9 := by
        rw [← UInt8.toNat_inj, hcode]
        rfl
      by_cases hc9 : c.toNat = 9
      · rw [if_pos (hnine.mpr hc9), if_pos (htab.mpr hc9)]
        dsimp only [tabSize]
        rw [List.take_append, encode_append, List.take_replicate, List.length_replicate,
          encode_replicate_space]
        -- past the limit both sides are empty
        rcases Nat.le_total (n - i) (8 - i % 8) with hcut | hfits
        · rw [Nat.min_eq_left hcut, Nat.sub_eq_zero_of_le hcut,
            Nat.sub_eq_zero_of_le (show n ≤ i + (n - i) by omega), List.take_zero, List.take_zero]
        · rw [Nat.min_eq_right hfits, Nat.sub_sub]
      · have hdropped : c.toNat < 32 ∨ c.toNat = 127 := by omega
        rw [if_neg (mt hnine.mp hc9), if_neg (mt htab.mp hc9), if_pos hdropped]
        rfl
  · rw [hc, List.cons.injEq] at hb'
    obtain ⟨rfl, rfl⟩ := hb'
    have hascii : ¬isAscii b = true := by
      rw [isAscii_iff]
      omega
    have hkept : ¬(c.toNat < 32 ∨ c.toNat = 127) := by omega
    rw [if_neg hascii, if_neg (mt htab.mp (by omega)), if_neg hkept]
    exact hkeep _

theorem contentTextLoop_encode (n gas : Nat) (cs : List Char) (i : Nat)
    (hgas : (encode cs).length ≤ gas) :
    contentTextLoop n gas (encode cs) i = some (encode ((expand i cs).take (n - i))) := by
  induction cs generalizing gas i with
  | nil => cases gas <;> simp [contentTextLoop, expand]
  | cons c cs ih =>
      obtain ⟨b, u, hc, -, hu⟩ := utf8EncodeChar_eq_cons c
      rw [encode_cons, hc, List.cons_append, List.length_cons, List.length_append] at hgas
      rcases gas with _ | gas
      · omega
      · rw [encode_cons, hc, List.cons_append]
        by_cases hi : i < n
        · rw [contentTextLoop_turn hi gas (next_codepoint b hu cs), ih gas _ (by omega),
            contentTextTurn_expand hi hc cs]
          rfl
        · rw [contentTextLoop, if_neg hi, Nat.sub_eq_zero_of_le (Nat.not_lt.mp hi), List.take_zero]
          rfl

/-- What `_ContentTextFilter` makes of a line. -/
structure Filters (maxSize n : Nat) (line : Bytes) : Prop where
  bounds : ∃ r, contentTextFilter maxSize n line = some r ∧ (∀ b ∈ r, isCntrl b = false) ∧
    len r ≤ n
  columns : ∀ cs, encode cs = line →
    contentTextFilter maxSize n line = some (encode ((expand 0 cs).take n))

theorem contentText_encode (n : Nat) (cs : List Char) :
    contentText n (encode cs) = some (encode ((expand 0 cs).take n)) :=
  contentTextLoop_encode n (encode cs).length cs 0 (Nat.le_refl _)

/-- A line is filtered if and only if room can be reserved for as many bytes as there are columns. -/
theorem contentTextFilter_filters_iff (maxSize n : Nat) (line : Bytes) :
    Filters maxSize n line ↔ n ≤ maxSize := by
  constructor
  · rintro ⟨⟨r, hr, -⟩, -⟩
    by_contra hlong
    rw [contentTextFilter, if_pos (Nat.not_le.mp hlong)] at hr
    cases hr
  · intro hroom
    have hfilter (str : Bytes) : contentTextFilter maxSize n str = contentText n str :=
      if_neg (Nat.not_lt.mpr hroom)
    refine ⟨?_, ?_⟩
    · rw [hfilter]
      exact contentTextLoop_bounds n line.length line 0 (Nat.le_refl _)
    · rintro cs rfl
      rw [hfilter]
      exact contentText_encode n cs

/-- A line on a screen of 12 columns, where the right side of the panel has the width -1, with
strings of less than 2^63 bytes. -/
theorem not_filters_narrow : ¬Filters (2 ^ 63 - 1) (sizeT (-1)) [104, 105] := by
  rw [contentTextFilter_filters_iff]
  decide

end Ui
end Debase
