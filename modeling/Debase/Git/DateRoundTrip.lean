import Mathlib.Tactic.Ring
import Debase.Git.Date

/-!
# Dates read back

A date that `StringFromTime` prints is read back by `TimeFromString`: the
calendar functions are inverse to each other, and so are the conversions of
`snprintf` and `sscanf`.

The zone is the exception.  It is printed as two signed numbers, hours and
minutes, and read as one, whose sign goes to the hours only.
-/

namespace Debase
namespace Git

/-! ## The calendar -/

/-- The year of a day of an era, which has 400 years and 146097 days. -/
def yearOfEra (dayOfEra : Int) : Int :=
  (dayOfEra - dayOfEra / 1460 + dayOfEra / 36524 - dayOfEra / 146096) / 365

theorem yearOfEra_bounds {d : Int} (h0 : 0 ≤ d) (h1 : d < 146097) :
    0 ≤ yearOfEra d ∧ yearOfEra d ≤ 399 := by
  unfold yearOfEra
  omega

/-- The day, counted from March 1, of a day of an era. -/
def dayOfYear (dayOfEra : Int) : Int :=
  dayOfEra - (365 * yearOfEra dayOfEra + yearOfEra dayOfEra / 4 - yearOfEra dayOfEra / 100)

/-- A day of an era falls into the year that `yearOfEra` says. -/
theorem dayOfYear_bounds {d : Int} (h0 : 0 ≤ d) (h1 : d < 146097) :
    0 ≤ dayOfYear d ∧ dayOfYear d ≤ 365 := by
  unfold dayOfYear
  generalize hy : yearOfEra d = y
  unfold yearOfEra at hy
  -- four years have 1460 days or one more
  have hfour : y = 4 * (d / 1460) - 1 ∨ y = 4 * (d / 1460) ∨ y = 4 * (d / 1460) + 1 ∨
      y = 4 * (d / 1460) + 2 ∨ y = 4 * (d / 1460) + 3 := by omega
  have hcentury : y / 100 = 0 ∨ y / 100 = 1 ∨ y / 100 = 2 ∨ y / 100 = 3 := by omega
  rcases hfour with hq | hq | hq | hq | hq <;>
    rcases hcentury with hc | hc | hc | hc <;> rw [hc] <;> omega

/-- Of a month that begins with March: its number in a year that begins with
January. -/
def fromMarch (marchMonth : Int) : Int := (marchMonth + 2) % 12

/-- The parts of `civilFromDays`. -/
theorem civilFromDays_eq (days : Int) :
    let era := (days + 719468) / 146097
    let dayOfEra := days + 719468 - era * 146097
    let marchMonth := (5 * dayOfYear dayOfEra + 2) / 153
    civilFromDays days =
      (yearOfEra dayOfEra + era * 400 + (if fromMarch marchMonth ≤ 1 then 1 else 0),
        fromMarch marchMonth, dayOfYear dayOfEra - (153 * marchMonth + 2) / 5 + 1) := rfl

/-- The date of a day is a date of that day. -/
theorem daysFromCivil_civilFromDays {days year mon mday : Int}
    (h : civilFromDays days = (year, mon, mday)) :
    daysFromCivil year mon 1 + (mday - 1) = days ∧ (0 ≤ mon ∧ mon < 12) ∧
      1 ≤ mday ∧ mday ≤ 31 := by
  rw [civilFromDays_eq] at h
  simp only [Prod.mk.injEq] at h
  generalize hera : (days + 719468) / 146097 = era at h
  generalize hdoe : days + 719468 - era * 146097 = dayOfEra at h
  have hdoe0 : 0 ≤ dayOfEra := by omega
  have hdoe1 : dayOfEra < 146097 := by omega
  obtain ⟨hyoe0, hyoe1⟩ := yearOfEra_bounds hdoe0 hdoe1
  obtain ⟨hdoy0, hdoy1⟩ := dayOfYear_bounds hdoe0 hdoe1
  have hdoy : dayOfYear dayOfEra = dayOfEra -
      (365 * yearOfEra dayOfEra + yearOfEra dayOfEra / 4 - yearOfEra dayOfEra / 100) := rfl
  generalize dayOfYear dayOfEra = doy at h hdoy hdoy0 hdoy1
  generalize yearOfEra dayOfEra = yoe at h hdoy hyoe0 hyoe1
  generalize hmp : (5 * doy + 2) / 153 = marchMonth at h
  obtain ⟨hyear, hmon, hmday⟩ := h
  have hmp0 : 0 ≤ marchMonth ∧ marchMonth ≤ 11 := by omega
  unfold fromMarch at hmon hyear
  -- the year as counted from March is found again
  have hy : (if mon ≤ 1 then year - 1 else year) = yoe + era * 400 := by
    rw [hmon] at hyear
    by_cases hm : mon ≤ 1
    · rw [if_pos hm] at hyear ⊢
      omega
    · rw [if_neg hm] at hyear ⊢
      omega
  have hsameEra : (yoe + era * 400) / 400 = era := by omega
  have hmonth : (mon + 10) % 12 = marchMonth := by omega
  refine ⟨?_, by omega, by omega, by omega⟩
  unfold daysFromCivil
  dsimp only
  rw [hy, hsameEra, hmonth, Int.add_sub_cancel]
  omega

/-- The fields that `gmtime_r` sets, as far as they are printed, are in range, and
`timegm` gets the time back from them. -/
theorem timegm_gmtime {t : Int} {tm : Tm} (h : gmtime t = some tm) :
    timegm tm = t ∧ (0 ≤ tm.wday ∧ tm.wday < 7) ∧ (0 ≤ tm.mon ∧ tm.mon < 12) ∧
      (1 ≤ tm.mday ∧ tm.mday ≤ 31) ∧ (0 ≤ tm.hour ∧ tm.hour < 24) ∧
      (0 ≤ tm.min ∧ tm.min < 60) ∧ (0 ≤ tm.sec ∧ tm.sec < 60) ∧
      -2 ^ 31 ≤ tm.year ∧ tm.year < 2 ^ 31 := by
  unfold gmtime at h
  rcases hcivil : civilFromDays (t / 86400) with ⟨year, mon, mday⟩
  obtain ⟨hdays, hmon, hday0, hday1⟩ := daysFromCivil_civilFromDays hcivil
  simp only [hcivil] at h
  split at h
  · next hyear =>
      cases h
      refine ⟨?_, ?_, hmon, ⟨hday0, hday1⟩, ?_, ?_, ?_, hyear⟩
      · show (daysFromCivil (year - 1900 + 1900) mon 1 + (mday - 1)) * 86400 +
          t % 86400 / 3600 * 3600 + t % 86400 / 60 % 60 * 60 + t % 86400 % 60 = t
        rw [Int.sub_add_cancel, hdays]
        omega
      · dsimp only
        omega
      · dsimp only
        omega
      · dsimp only
        omega
      · dsimp only
        omega
  · cases h

/-! ## Numbers -/

theorem length_digits_pos (n : Nat) : 0 < (digits n).length := by
  unfold digits
  rw [List.length_map]
  exact Nat.length_toDigits_pos

/-- A number below 100 has one digit or two. -/
theorem length_digits_le_two {n : Nat} (hn : n < 100) : (digits n).length ≤ 2 := by
  unfold digits
  rw [List.length_map, Nat.length_toDigits_le_iff (by omega) (by omega)]
  omega

/-- The byte of a digit. -/
private theorem toUInt8_of_isDigit {c : Char} (hc : c.isDigit = true) :
    c.toNat.toUInt8.toNat = c.toNat ∧ 48 ≤ c.toNat ∧ c.toNat ≤ 57 := by
  unfold Char.isDigit at hc
  simp only [Bool.and_eq_true, decide_eq_true_eq] at hc
  obtain ⟨hlow, hhigh⟩ := hc
  have h48 : 48 ≤ c.toNat := by simpa [UInt32.le_iff_toNat_le] using hlow
  have h57 : c.toNat ≤ 57 := by simpa [UInt32.le_iff_toNat_le] using hhigh
  refine ⟨?_, h48, h57⟩
  rw [Nat.toUInt8_eq, UInt8.toNat_ofNat']
  omega

theorem isDigit_of_mem_digits {n : Nat} {b : UInt8} (hb : b ∈ digits n) : isDigit b = true := by
  obtain ⟨c, hc, rfl⟩ := List.mem_map.mp hb
  obtain ⟨hnat, h48, h57⟩ :=
    toUInt8_of_isDigit (Nat.isDigit_of_mem_toDigits (by decide) (by decide) hc)
  simp only [isDigit, Bool.and_eq_true, decide_eq_true_eq, UInt8.le_iff_toNat_le, hnat]
  exact ⟨h48, h57⟩

theorem digitsValue_append (ds es : Bytes) :
    digitsValue (ds ++ es) = 10 ^ es.length * digitsValue ds + digitsValue es := by
  have hfold : ∀ (es : Bytes) (n : Nat),
      es.foldl (fun n d => 10 * n + (d.toNat - 48)) n = 10 ^ es.length * n + digitsValue es := by
    intro es
    induction es with
    | nil => simp [digitsValue]
    | cons e es ih =>
        intro n
        unfold digitsValue
        rw [List.foldl_cons, List.foldl_cons, ih, ih (10 * 0 + (e.toNat - 48)), List.length_cons,
          Nat.pow_succ]
        ring
  unfold digitsValue
  rw [List.foldl_append, hfold]
  rfl

/-- Zeros in front of a number do not change it. -/
@[simp] theorem digitsValue_zeros (n : Nat) (ds : Bytes) :
    digitsValue (List.replicate n 48 ++ ds) = digitsValue ds := by
  induction n with
  | zero => rfl
  | succ n ih =>
      rw [List.replicate_succ, List.cons_append]
      exact ih

/-- Reading the digits of a number gives the number. -/
@[simp] theorem digitsValue_digits (n : Nat) : digitsValue (digits n) = n := by
  have hchars : ∀ (cs : List Char) (m : Nat), (∀ c ∈ cs, c.isDigit = true) →
      (cs.map fun c => c.toNat.toUInt8).foldl (fun n d => 10 * n + (d.toNat - 48)) m =
        Nat.ofDigitChars 10 cs m := by
    intro cs
    induction cs with
    | nil =>
        intro m _
        rfl
    | cons c cs ih =>
        intro m hcs
        obtain ⟨hnat, -, -⟩ := toUInt8_of_isDigit (hcs c List.mem_cons_self)
        rw [List.map_cons, List.foldl_cons, hnat,
          ih _ fun d hd => hcs d (List.mem_cons_of_mem _ hd), Nat.ofDigitChars_cons]
        rfl
  unfold digitsValue digits
  rw [hchars _ _ fun c hc => Nat.isDigit_of_mem_toDigits (by decide) (by decide) hc]
  exact Nat.ofDigitChars_ten_toDigits

/-- The sign that is printed in front of a number. -/
def signOf (plus : Bool) (n : Int) : Bytes :=
  if n < 0 then ascii "-" else if plus then ascii "+" else []

/-- A printed number is a sign and digits. -/
theorem printInt_eq (plus : Bool) (width : Nat) (n : Int) :
    ∃ ds, printInt plus width n = signOf plus n ++ ds ∧ ds ≠ [] ∧
      (∀ b ∈ ds, isDigit b = true) ∧ digitsValue ds = n.natAbs := by
  refine ⟨List.replicate (width - (signOf plus n).length - (digits n.natAbs).length) 48 ++
    digits n.natAbs, ?_, ?_, ?_, ?_⟩
  · show signOf plus n ++ List.replicate _ 48 ++ digits n.natAbs = _
    rw [List.append_assoc]
    rfl
  · intro hnil
    have hdigits := (List.append_eq_nil_iff.mp hnil).2
    have hpos := length_digits_pos n.natAbs
    rw [hdigits] at hpos
    simp at hpos
  · intro b hb
    rcases List.mem_append.mp hb with hb | hb
    · rw [List.eq_of_mem_replicate hb]
      rfl
    · exact isDigit_of_mem_digits hb
  · rw [digitsValue_zeros, digitsValue_digits]

/-- A number below 100 that is printed with two digits. -/
theorem printInt_two {n : Nat} (hn : n < 100) :
    (printInt false 2 n).length = 2 ∧ (∀ b ∈ printInt false 2 n, isDigit b = true) ∧
      digitsValue (printInt false 2 n) = n := by
  obtain ⟨ds, hds, -, hdigit, hvalue⟩ := printInt_eq false 2 n
  have hsign : signOf false n = [] := by
    unfold signOf
    rw [if_neg (by omega)]
    rfl
  rw [hsign, List.nil_append] at hds
  refine ⟨?_, hds ▸ hdigit, ?_⟩
  · have hle := length_digits_le_two hn
    unfold printInt
    rw [if_neg (by omega)]
    simp only [Bool.false_eq_true, if_false, List.nil_append, List.length_nil, List.length_append,
      List.length_replicate, Int.natAbs_natCast]
    omega
  · rw [hds, hvalue, Int.natAbs_natCast]

/-! ## Scanning -/

theorem dropWhile_blank {blank s : Bytes} (hblank : ∀ b ∈ blank, isSpace b = true)
    (hs : ∀ b ∈ s.head?, isSpace b = false) : (blank ++ s).dropWhile isSpace = s := by
  rw [List.dropWhile_append_of_pos hblank]
  cases s with
  | nil => rfl
  | cons b s =>
      rw [List.dropWhile_cons_of_neg]
      simp [hs b rfl]

theorem takeWhile_run {p : UInt8 → Bool} {l rest : Bytes} (hl : ∀ b ∈ l, p b = true)
    (hrest : ∀ b ∈ rest.head?, p b = false) : (l ++ rest).takeWhile p = l := by
  rw [List.takeWhile_append_of_pos hl]
  cases rest with
  | nil => simp
  | cons b rest =>
      rw [List.takeWhile_cons_of_neg]
      · exact List.append_nil l
      · simp [hrest b rfl]

theorem isSpace_of_isDigit {b : UInt8} (hb : isDigit b = true) : isSpace b = false := by
  simp only [isDigit, isSpace, Bool.and_eq_true, decide_eq_true_eq, Bool.or_eq_false_iff,
    decide_eq_false_iff_not, Bool.and_eq_false_iff, UInt8.le_iff_toNat_le, UInt8.ext_iff] at *
  have h48 : (48 : UInt8).toNat = 48 := rfl
  have h32 : (32 : UInt8).toNat = 32 := rfl
  have h13 : (13 : UInt8).toNat = 13 := rfl
  omega

/-- `%d` reads white space, a sign and digits. -/
theorem scanInt_signed {blank sign ds rest : Bytes} (hblank : ∀ b ∈ blank, isSpace b = true)
    (hsign : sign = [] ∨ sign = ascii "-" ∨ sign = ascii "+") (hne : ds ≠ [])
    (hds : ∀ b ∈ ds, isDigit b = true) (hrest : ∀ b ∈ rest.head?, isDigit b = false)
    (hsmall : digitsValue ds < 2 ^ 63) :
    scanInt (blank ++ (sign ++ (ds ++ rest))) =
      some (Int.bmod (if sign = ascii "-" then -(digitsValue ds : Int) else digitsValue ds)
        (2 ^ 32), rest) := by
  obtain ⟨d, ds', rfl⟩ := List.exists_cons_of_ne_nil hne
  have hd : isDigit d = true := hds d List.mem_cons_self
  have hnotMinus : d ≠ 45 := by
    rintro rfl
    exact absurd hd (by decide)
  have hnotPlus : d ≠ 43 := by
    rintro rfl
    exact absurd hd (by decide)
  have hstart : ∀ b ∈ (sign ++ (d :: ds' ++ rest)).head?, isSpace b = false := by
    intro b hb
    rcases hsign with rfl | rfl | rfl
    · obtain rfl : d = b := by simpa using hb
      exact isSpace_of_isDigit hd
    · obtain rfl : 45 = b := by simpa [ascii] using hb
      rfl
    · obtain rfl : 43 = b := by simpa [ascii] using hb
      rfl
  have hrun : (d :: ds' ++ rest).takeWhile isDigit = d :: ds' := takeWhile_run hds hrest
  have hhead : (sign ++ (d :: ds' ++ rest)).head? = some 45 ↔ sign = ascii "-" := by
    rcases hsign with rfl | rfl | rfl
    · simp [ascii, hnotMinus]
    · simp [ascii]
    · simp [ascii]
  -- the sign, if there is one, is skipped
  have hunsigned : (if (sign ++ (d :: ds' ++ rest)).head? = some 45 ∨
      (sign ++ (d :: ds' ++ rest)).head? = some 43 then (sign ++ (d :: ds' ++ rest)).drop 1
      else sign ++ (d :: ds' ++ rest)) = d :: ds' ++ rest := by
    rcases hsign with rfl | rfl | rfl
    · simp [hnotMinus, hnotPlus]
    · simp [ascii]
    · simp [ascii]
  unfold scanInt
  rw [dropWhile_blank hblank hstart]
  dsimp only
  rw [hunsigned, hrun, if_neg (by simp), List.drop_left]
  simp only [hhead, Option.some.injEq, Prod.mk.injEq, and_true]
  congr 1
  by_cases hminus : sign = ascii "-"
  · simp only [hminus, if_true]
    omega
  · simp only [hminus, if_false]
    omega

theorem signOf_eq_minus (plus : Bool) (n : Int) : signOf plus n = ascii "-" ↔ n < 0 := by
  unfold signOf
  by_cases hn : n < 0
  · simp [hn]
  · rw [if_neg hn]
    cases plus
    · simp [ascii, hn]
    · simp [ascii, hn]

theorem signOf_cases (plus : Bool) (n : Int) :
    signOf plus n = [] ∨ signOf plus n = ascii "-" ∨ signOf plus n = ascii "+" := by
  unfold signOf
  split
  · exact Or.inr (Or.inl rfl)
  · split
    · exact Or.inr (Or.inr rfl)
    · exact Or.inl rfl

/-- `%d` reads back what `%d` and its relatives print. -/
theorem scanInt_printInt {blank rest : Bytes} {n : Int} (plus : Bool) (width : Nat)
    (hblank : ∀ b ∈ blank, isSpace b = true) (hrest : ∀ b ∈ rest.head?, isDigit b = false)
    (hn : n.natAbs < 2 ^ 63) :
    scanInt (blank ++ (printInt plus width n ++ rest)) = some (Int.bmod n (2 ^ 32), rest) := by
  obtain ⟨ds, hprint, hne, hds, hvalue⟩ := printInt_eq plus width n
  have hscan := scanInt_signed hblank (signOf_cases plus n) hne hds hrest (by rw [hvalue]; exact hn)
  rw [hprint, List.append_assoc, hscan]
  have hsigned : (if signOf plus n = ascii "-" then -(digitsValue ds : Int) else digitsValue ds) =
      n := by
    simp only [signOf_eq_minus, hvalue]
    split
    · omega
    · omega
  rw [hsigned]

/-- A number that fits an `int` is stored as it is. -/
theorem bmod_int {n : Int} (hlow : -2 ^ 31 ≤ n) (hhigh : n < 2 ^ 31) : Int.bmod n (2 ^ 32) = n := by
  apply Int.bmod_eq_of_le
  · norm_num
    omega
  · norm_num
    omega

theorem scanInt_printInt_int {blank rest : Bytes} {n : Int} (plus : Bool) (width : Nat)
    (hblank : ∀ b ∈ blank, isSpace b = true) (hrest : ∀ b ∈ rest.head?, isDigit b = false)
    (hlow : -2 ^ 31 ≤ n) (hhigh : n < 2 ^ 31) :
    scanInt (blank ++ (printInt plus width n ++ rest)) = some (n, rest) := by
  rw [scanInt_printInt plus width hblank hrest (by omega), bmod_int hlow hhigh]

/-- `%15s` reads a word up to a space. -/
theorem scanWord_word {blank word rest : Bytes} (hblank : ∀ b ∈ blank, isSpace b = true)
    (hlen : word.length = 3) (hword : ∀ b ∈ word, isSpace b = false)
    (hrest : ∀ b ∈ rest.head?, isSpace b = true) :
    scanWord (blank ++ (word ++ rest)) = some (word, rest) := by
  have hstart : ∀ b ∈ (word ++ rest).head?, isSpace b = false := by
    intro b hb
    cases word with
    | nil => simp at hlen
    | cons c word =>
        obtain rfl : c = b := by simpa using hb
        exact hword c List.mem_cons_self
  have hrun : (word ++ rest).takeWhile (fun b => !isSpace b) = word := by
    apply takeWhile_run
    · intro b hb
      simp [hword b hb]
    · intro b hb
      simp [hrest b hb]
  have htake : word.take 15 = word := List.take_of_length_le (by omega)
  unfold scanWord
  rw [dropWhile_blank hblank hstart]
  dsimp only
  rw [hrun, htake, if_neg, List.drop_left]
  intro hempty
  rw [List.isEmpty_iff.mp hempty] at hlen
  simp at hlen

/-! ## Date lines -/

/-- The names of the days and months are words of 3 characters, and found again. -/
theorem weekdays_name (i : Fin 7) :
    (weekdays.getD i []).length = 3 ∧ (∀ b ∈ weekdays.getD i [], isSpace b = false ∧ b ≠ 0) ∧
      weekdays.idxOf? (weekdays.getD i []) = some i.val := by
  have hletters : (weekdays.getD i []).all (fun b => !isSpace b && b != 0) = true := by
    revert i
    decide
  refine ⟨?_, by simpa using hletters, ?_⟩
  · revert i
    decide
  · revert i
    decide

theorem months_name (i : Fin 12) :
    (months.getD i []).length = 3 ∧ (∀ b ∈ months.getD i [], isSpace b = false ∧ b ≠ 0) ∧
      months.idxOf? (months.getD i []) = some i.val := by
  have hletters : (months.getD i []).all (fun b => !isSpace b && b != 0) = true := by
    revert i
    decide
  refine ⟨?_, by simpa using hletters, ?_⟩
  · revert i
    decide
  · revert i
    decide

/-- A line as `StringFromTime` prints it, with any zone. -/
def dateLine (tm : Tm) (zone : Bytes) : Bytes :=
  weekdays.getD tm.wday.toNat [] ++ ascii " " ++ months.getD tm.mon.toNat [] ++
    ascii " " ++ printInt false 0 tm.mday ++ ascii " " ++ printInt false 2 tm.hour ++
    ascii ":" ++ printInt false 2 tm.min ++ ascii ":" ++ printInt false 2 tm.sec ++
    ascii " " ++ printInt false 4 (tm.year + 1900) ++ ascii " " ++ zone

/-- The zone that `StringFromTime` prints. -/
def printZone (offset : Int) : Bytes :=
  printInt true 3 (offset.tdiv 60) ++ printInt false 2 (offset.tmod 60)

theorem stringFromTime_eq {t : Time} {tm : Tm} (h : gmtime (t.time + t.offset * 60) = some tm) :
    stringFromTime t = .ok (dateLine tm (printZone t.offset)) := by
  unfold stringFromTime dateLine printZone
  rw [h]
  simp only [List.append_assoc]

/-- A `struct tm` with names for its day and month, whose other fields are `int`s. -/
structure Tm.Printable (tm : Tm) : Prop where
  wday : 0 ≤ tm.wday ∧ tm.wday < 7
  mon : 0 ≤ tm.mon ∧ tm.mon < 12
  mday : -2 ^ 31 ≤ tm.mday ∧ tm.mday < 2 ^ 31
  hour : -2 ^ 31 ≤ tm.hour ∧ tm.hour < 2 ^ 31
  min : -2 ^ 31 ≤ tm.min ∧ tm.min < 2 ^ 31
  sec : -2 ^ 31 ≤ tm.sec ∧ tm.sec < 2 ^ 31
  year : -2 ^ 31 ≤ tm.year ∧ tm.year < 2 ^ 31

/-- What `gmtime_r` sets can be printed. -/
theorem printable_of_gmtime {t : Int} {tm : Tm} (h : gmtime t = some tm) : tm.Printable := by
  obtain ⟨-, hwday, hmon, ⟨hday0, hday1⟩, ⟨hhour0, hhour1⟩, ⟨hmin0, hmin1⟩, ⟨hsec0, hsec1⟩,
    hyear⟩ := timegm_gmtime h
  exact ⟨hwday, hmon, by omega, by omega, by omega, by omega, hyear⟩

/-- `sscanf` reads the fields of a date line. -/
theorem scanDate_dateLine {tm : Tm} (htm : tm.Printable) {zone rest : Bytes} {offset : Int}
    (hzone : scanInt (ascii " " ++ zone) = some (offset, rest)) :
    scanDate (dateLine tm zone) =
      some ⟨weekdays.getD tm.wday.toNat [], months.getD tm.mon.toNat [],
        ⟨tm.sec, tm.min, tm.hour, tm.mday, 0, Int.bmod (tm.year + 1900) (2 ^ 32), 0⟩, offset⟩ := by
  have hspace : ∀ b ∈ ascii " ", isSpace b = true := List.all_eq_true.mp rfl
  have hnothing : ∀ b ∈ ([] : Bytes), isSpace b = true := by simp
  have hatSpace : ∀ (s : Bytes), ∀ b ∈ (ascii " " ++ s).head?, isDigit b = false ∧
      isSpace b = true := by
    rintro s b ⟨⟩
    exact ⟨rfl, rfl⟩
  have hatColon : ∀ (s : Bytes), ∀ b ∈ (ascii ":" ++ s).head?, isDigit b = false := by
    rintro s b ⟨⟩
    rfl
  obtain ⟨hwlen, hword, -⟩ := weekdays_name ⟨tm.wday.toNat, by have := htm.wday; omega⟩
  obtain ⟨hmlen, hmonth, -⟩ := months_name ⟨tm.mon.toNat, by have := htm.mon; omega⟩
  have hyear : (tm.year + 1900).natAbs < 2 ^ 63 := by
    obtain ⟨hlow, hhigh⟩ := htm.year
    omega
  -- what is left to read before each field
  generalize hzoneText : ascii " " ++ zone = atZone at hzone
  generalize hyearText : ascii " " ++ (printInt false 4 (tm.year + 1900) ++ atZone) = atYear
  generalize hsecText : ascii ":" ++ (printInt false 2 tm.sec ++ atYear) = atSec
  generalize hminText : ascii ":" ++ (printInt false 2 tm.min ++ atSec) = atMin
  generalize hhourText : ascii " " ++ (printInt false 2 tm.hour ++ atMin) = atHour
  generalize hmdayText : ascii " " ++ (printInt false 0 tm.mday ++ atHour) = atMday
  generalize hmonthText : ascii " " ++ (months.getD tm.mon.toNat [] ++ atMday) = atMonth
  have hline : dateLine tm zone = weekdays.getD tm.wday.toNat [] ++ atMonth := by
    unfold dateLine
    simp only [List.append_assoc, hzoneText, hyearText, hsecText, hminText, hhourText, hmdayText,
      hmonthText]
  have hweekday : scanWord (dateLine tm zone) =
      some (weekdays.getD tm.wday.toNat [], atMonth) := by
    rw [hline]
    exact scanWord_word hnothing hwlen (fun b hb => (hword b hb).1)
      (fun b hb => (hatSpace _ b (hmonthText ▸ hb)).2)
  have hmon : scanWord atMonth = some (months.getD tm.mon.toNat [], atMday) := by
    rw [← hmonthText]
    exact scanWord_word hspace hmlen (fun b hb => (hmonth b hb).1)
      (fun b hb => (hatSpace _ b (hmdayText ▸ hb)).2)
  have hmday : scanInt atMday = some (tm.mday, atHour) := by
    rw [← hmdayText]
    exact scanInt_printInt_int false 0 hspace (fun b hb => (hatSpace _ b (hhourText ▸ hb)).1)
      htm.mday.1 htm.mday.2
  have hhour : scanInt atHour = some (tm.hour, atMin) := by
    rw [← hhourText]
    exact scanInt_printInt_int false 2 hspace (fun b hb => hatColon _ b (hminText ▸ hb))
      htm.hour.1 htm.hour.2
  have hmin : scanInt (printInt false 2 tm.min ++ atSec) = some (tm.min, atSec) :=
    scanInt_printInt_int false 2 hnothing (fun b hb => hatColon _ b (hsecText ▸ hb))
      htm.min.1 htm.min.2
  have hsec : scanInt (printInt false 2 tm.sec ++ atYear) = some (tm.sec, atYear) :=
    scanInt_printInt_int false 2 hnothing (fun b hb => (hatSpace _ b (hyearText ▸ hb)).1)
      htm.sec.1 htm.sec.2
  have hyearScan : scanInt atYear = some (Int.bmod (tm.year + 1900) (2 ^ 32), atZone) := by
    rw [← hyearText]
    exact scanInt_printInt false 4 hspace (fun b hb => (hatSpace _ b (hzoneText ▸ hb)).1) hyear
  have hcolonMin : scanChar 58 atMin = some (printInt false 2 tm.min ++ atSec) := by
    rw [← hminText]
    rfl
  have hcolonSec : scanChar 58 atSec = some (printInt false 2 tm.sec ++ atYear) := by
    rw [← hsecText]
    rfl
  unfold scanDate
  simp only [hweekday, hmon, hmday, hhour, hmin, hsec, hyearScan, hcolonMin, hcolonSec, hzone,
    bind, Option.bind]

/-- The bytes that end a C string or a line. -/
def EndsText (b : UInt8) : Prop := b = 0 ∨ b = 10

theorem endsText_zero : EndsText 0 := Or.inl rfl

theorem notMem_printInt {b : UInt8} (hb : EndsText b) (plus : Bool) (width : Nat) (n : Int) :
    b ∉ printInt plus width n := by
  obtain ⟨ds, hprint, -, hds, -⟩ := printInt_eq plus width n
  rw [hprint]
  intro hmem
  rcases List.mem_append.mp hmem with hsign | hdigit
  · rcases hb with rfl | rfl <;> rcases signOf_cases plus n with hs | hs | hs <;>
      rw [hs] at hsign <;> revert hsign <;> decide
  · have hno := hds b hdigit
    rcases hb with rfl | rfl <;> revert hno <;> decide

/-- No date line has an end in it. -/
theorem notMem_dateLine {b : UInt8} (hb : EndsText b) {tm : Tm} (htm : tm.Printable)
    {zone : Bytes} (hzone : b ∉ zone) : b ∉ dateLine tm zone := by
  obtain ⟨-, hword, -⟩ := weekdays_name ⟨tm.wday.toNat, by have := htm.wday; omega⟩
  obtain ⟨-, hmonth, -⟩ := months_name ⟨tm.mon.toNat, by have := htm.mon; omega⟩
  have hname : ¬(isSpace b = false ∧ b ≠ 0) := by
    rcases hb with rfl | rfl <;> decide
  have hweekday : b ∉ weekdays.getD tm.wday.toNat [] := fun h => hname (hword b h)
  have hmon : b ∉ months.getD tm.mon.toNat [] := fun h => hname (hmonth b h)
  have hspace : b ∉ ascii " " := by
    rcases hb with rfl | rfl <;> decide
  have hcolon : b ∉ ascii ":" := by
    rcases hb with rfl | rfl <;> decide
  simp only [dateLine, List.mem_append, hweekday, hmon, hspace, hcolon, hzone,
    notMem_printInt hb, or_self, not_false_eq_true]

/-- The offset that `TimeFromString` makes of the number it reads for the zone. -/
def zoneOffset (n : Int) : Int :=
  (if 0 ≤ n then 1 else -1) * ((n.natAbs / 100 : Nat) : Int) * 60 + ((n.natAbs % 100 : Nat) : Int)

/-- The day and the time of a date line are read as they were printed. -/
theorem timeFromString_dateLine {tm : Tm} (htm : tm.Printable) (htime : timegm tm ≠ -1)
    {zone rest : Bytes} {n : Int} (hscan : scanInt (ascii " " ++ zone) = some (n, rest))
    (hzone : (0 : UInt8) ∉ zone) :
    timeFromString (dateLine tm zone) =
      .ok ⟨timegm tm - zoneOffset n * 60, zoneOffset n⟩ := by
  obtain ⟨hwlen, -, hweekday⟩ := weekdays_name ⟨tm.wday.toNat, by have := htm.wday; omega⟩
  obtain ⟨hmlen, -, hmonth⟩ := months_name ⟨tm.mon.toNat, by have := htm.mon; omega⟩
  have hyear : Int.bmod (Int.bmod (tm.year + 1900) (2 ^ 32) - 1900) (2 ^ 32) = tm.year := by
    rw [Int.bmod_sub_bmod, Int.add_sub_cancel]
    exact bmod_int htm.year.1 htm.year.2
  have hmon : ((tm.mon.toNat : Nat) : Int) = tm.mon := Int.toNat_of_nonneg htm.mon.1
  unfold timeFromString
  rw [cString_eq_self (notMem_dateLine endsText_zero htm hzone), scanDate_dateLine htm hscan]
  dsimp only
  rw [List.take_of_length_le hwlen.le, List.take_of_length_le hmlen.le]
  unfold nameParse
  rw [hweekday, hmonth]
  simp only [bind, Except.bind, hyear, hmon]
  -- `timegm` does not look at the day of the week
  have hgm : ∀ w, timegm ⟨tm.sec, tm.min, tm.hour, tm.mday, tm.mon, tm.year, w⟩ = timegm tm :=
    fun _ => rfl
  rw [hgm, if_neg htime]
  rfl

/-! ## Zones -/

/-- A zone of a date line: a sign, hours and minutes. -/
def zoneText (minus : Bool) (hh mm : Nat) : Bytes :=
  (if minus then ascii "-" else ascii "+") ++ (printInt false 2 hh ++ printInt false 2 mm)

/-- The offset that a zone stands for. -/
def zoneMinutes (minus : Bool) (hh mm : Nat) : Int :=
  if minus then -((hh * 60 + mm : Nat) : Int) else ((hh * 60 + mm : Nat) : Int)

/-- A zone is read as one number of four digits. -/
theorem scanInt_zoneText (minus : Bool) {hh mm : Nat} (hhour : hh < 100) (hmin : mm < 100) :
    scanInt (ascii " " ++ zoneText minus hh mm) =
      some (if minus then -((100 * hh + mm : Nat) : Int) else ((100 * hh + mm : Nat) : Int),
        []) := by
  obtain ⟨hlenHour, hdigitHour, hvalueHour⟩ := printInt_two hhour
  obtain ⟨hlenMin, hdigitMin, hvalueMin⟩ := printInt_two hmin
  have hvalue : digitsValue (printInt false 2 hh ++ printInt false 2 mm) = 100 * hh + mm := by
    rw [digitsValue_append, hlenMin, hvalueHour, hvalueMin]
    norm_num
  have hdigit : ∀ b ∈ printInt false 2 hh ++ printInt false 2 mm, isDigit b = true := by
    intro b hb
    rcases List.mem_append.mp hb with hb | hb
    · exact hdigitHour b hb
    · exact hdigitMin b hb
  have hne : printInt false 2 hh ++ printInt false 2 mm ≠ [] := by
    intro hnil
    have hlen := congrArg List.length hnil
    rw [List.length_append, hlenHour] at hlen
    simp at hlen
  have hsign : (if minus then ascii "-" else ascii "+") = [] ∨
      (if minus then ascii "-" else ascii "+") = ascii "-" ∨
      (if minus then ascii "-" else ascii "+") = ascii "+" := by
    cases minus
    · exact Or.inr (Or.inr rfl)
    · exact Or.inr (Or.inl rfl)
  have hscan := @scanInt_signed (ascii " ") _ _ [] (List.all_eq_true.mp rfl) hsign hne hdigit
    (by simp) (by omega)
  rw [List.append_nil, hvalue] at hscan
  unfold zoneText
  rw [hscan]
  cases minus
  · have hplus : ¬(if false = true then ascii "-" else ascii "+") = ascii "-" := by decide
    rw [if_neg hplus, bmod_int (by omega) (by omega)]
    rfl
  · rw [if_pos (by rfl), bmod_int (by omega) (by omega)]
    rfl

theorem zero_notMem_zoneText (minus : Bool) (hh mm : Nat) :
    (0 : UInt8) ∉ zoneText minus hh mm := by
  have hsign : (0 : UInt8) ∉ (if minus then ascii "-" else ascii "+") := by
    cases minus <;> decide
  simp only [zoneText, List.mem_append, hsign, notMem_printInt endsText_zero, or_self,
    not_false_eq_true]

/-- The sign of a zone goes to its hours only. -/
theorem zoneOffset_zoneText (minus : Bool) (hh : Nat) {mm : Nat} (hmin : mm < 100) :
    zoneOffset (if minus then -((100 * hh + mm : Nat) : Int) else ((100 * hh + mm : Nat) : Int)) =
        zoneMinutes minus hh mm ↔
      minus = false ∨ mm = 0 := by
  unfold zoneOffset zoneMinutes
  cases minus with
  | false =>
      simp only [Bool.false_eq_true, if_false, true_or, iff_true, Int.natAbs_natCast]
      rw [if_pos (by omega)]
      omega
  | true =>
      simp only [if_true, Bool.true_eq_false, false_or, Int.natAbs_neg, Int.natAbs_natCast]
      by_cases hzero : 100 * hh + mm = 0
      · rw [if_pos (by omega)]
        omega
      · rw [if_neg (by omega)]
        omega

/-- C divides the absolute value and gives quotient and remainder the sign. -/
theorem tdiv_tmod_sixty (n : Int) :
    n.tdiv 60 = (if n < 0 then -((n.natAbs / 60 : Nat) : Int) else ((n.natAbs / 60 : Nat) : Int)) ∧
      n.tmod 60 =
        (if n < 0 then -((n.natAbs % 60 : Nat) : Int) else ((n.natAbs % 60 : Nat) : Int)) := by
  by_cases hn : n < 0
  · obtain ⟨m, rfl⟩ : ∃ m : Nat, n = -(m : Int) := ⟨n.natAbs, by omega⟩
    rw [if_pos hn, if_pos hn, Int.neg_tdiv, Int.neg_tmod, Int.natAbs_neg, Int.natAbs_natCast]
    exact ⟨rfl, rfl⟩
  · obtain ⟨m, rfl⟩ : ∃ m : Nat, n = m := ⟨n.natAbs, by omega⟩
    rw [if_neg hn, if_neg hn, Int.natAbs_natCast]
    exact ⟨rfl, rfl⟩

/-- `%+03d` is a sign and two digits. -/
theorem printInt_hours (n : Int) :
    printInt true 3 n = (if n < 0 then ascii "-" else ascii "+") ++ printInt false 2 n.natAbs := by
  have hpositive : ¬((n.natAbs : Nat) : Int) < 0 := by omega
  unfold printInt
  rw [if_neg hpositive, Int.natAbs_natCast]
  by_cases hn : n < 0
  · simp only [hn, if_true, Bool.false_eq_true, if_false, List.append_assoc, List.nil_append]
    rfl
  · simp only [hn, if_true, Bool.false_eq_true, if_false, List.append_assoc, List.nil_append]
    rfl

/-- The zones that are printed as two numbers without a second sign. -/
theorem printZone_eq {offset : Int} (h : 0 ≤ offset ∨ offset % 60 = 0) :
    printZone offset =
      (if offset.tdiv 60 < 0 then ascii "-" else ascii "+") ++
        (printInt false 2 (offset.natAbs / 60 : Nat) ++
          printInt false 2 (offset.natAbs % 60 : Nat)) := by
  obtain ⟨hquot, hrem⟩ := tdiv_tmod_sixty offset
  have habs : (offset.tdiv 60).natAbs = offset.natAbs / 60 := by
    rw [hquot]
    split
    · omega
    · omega
  have hmin : offset.tmod 60 = ((offset.natAbs % 60 : Nat) : Int) := by
    rw [hrem]
    split
    · omega
    · rfl
  unfold printZone
  rw [printInt_hours, habs, hmin, List.append_assoc]

/-- A zone with whole hours or without a minus is read as it was meant. -/
theorem scanInt_printZone {offset : Int} (hrange : offset.natAbs < 15 * 60)
    (h : 0 ≤ offset ∨ offset % 60 = 0) :
    ∃ n, scanInt (ascii " " ++ printZone offset) = some (n, []) ∧ zoneOffset n = offset := by
  obtain ⟨hquot, -⟩ := tdiv_tmod_sixty offset
  have hzone : printZone offset =
      zoneText (decide (offset.tdiv 60 < 0)) (offset.natAbs / 60) (offset.natAbs % 60) := by
    rw [printZone_eq h]
    unfold zoneText
    simp only [decide_eq_true_eq]
  rw [hzone, scanInt_zoneText _ (by omega) (by omega)]
  refine ⟨_, rfl, ?_⟩
  have hread := zoneOffset_zoneText (decide (offset.tdiv 60 < 0)) (offset.natAbs / 60)
    (show offset.natAbs % 60 < 100 by omega)
  rw [hread.mpr]
  · unfold zoneMinutes
    rw [hquot]
    by_cases hneg : offset < 0
    · rw [if_pos hneg]
      by_cases hhours : -((offset.natAbs / 60 : Nat) : Int) < 0
      · simp only [hhours, decide_true, if_true]
        omega
      · simp only [hhours, decide_false, Bool.false_eq_true, if_false]
        omega
    · rw [if_neg hneg]
      have hhours : ¬((offset.natAbs / 60 : Nat) : Int) < 0 := by omega
      simp only [hhours, decide_false, Bool.false_eq_true, if_false]
      omega
  · by_cases hneg : offset < 0
    · exact Or.inr (by omega)
    · left
      rw [hquot, if_neg hneg, decide_eq_false_iff_not]
      omega

/-- A negative zone with minutes is printed with a second sign, where reading
stops. -/
theorem scanInt_printZone_signed {offset : Int} (hrange : offset.natAbs < 15 * 60)
    (h : ¬(0 ≤ offset ∨ offset % 60 = 0)) :
    ∃ n rest, scanInt (ascii " " ++ printZone offset) = some (n, rest) ∧
      zoneOffset n ≠ offset := by
  obtain ⟨hneg, hminutes⟩ := not_or.mp h
  obtain ⟨hquot, hrem⟩ := tdiv_tmod_sixty offset
  rw [if_pos (by omega)] at hquot hrem
  have hrest : ∀ b ∈ (printInt false 2 (offset.tmod 60)).head?, isDigit b = false := by
    obtain ⟨ds, hds, -⟩ := printInt_eq false 2 (offset.tmod 60)
    have hsign : signOf false (offset.tmod 60) = ascii "-" := (signOf_eq_minus _ _).mpr (by omega)
    rw [hds, hsign]
    rintro b ⟨⟩
    rfl
  refine ⟨offset.tdiv 60, printInt false 2 (offset.tmod 60), ?_, ?_⟩
  · exact scanInt_printInt_int true 3 (List.all_eq_true.mp rfl) hrest (by omega) (by omega)
  · -- fewer than 100: all of it counts as minutes, and minutes have no sign
    have hhundred : (offset.tdiv 60).natAbs / 100 = 0 := by omega
    unfold zoneOffset
    rw [hhundred]
    omega

theorem notMem_printZone {b : UInt8} (hb : EndsText b) (offset : Int) : b ∉ printZone offset := by
  simp only [printZone, List.mem_append, notMem_printInt hb, or_self, not_false_eq_true]

/-! ## The round trip -/

/-- A time that is moved by two offsets is the same if the offsets are. -/
theorem sameTime_iff (t : Time) (offset : Int) :
    (⟨t.time + t.offset * 60 - offset * 60, offset⟩ : Time) = t ↔ offset = t.offset := by
  rcases t with ⟨time, zone⟩
  rw [Time.mk.injEq]
  constructor
  · exact And.right
  · intro hoffset
    subst hoffset
    exact ⟨Int.add_sub_cancel time (offset * 60), rfl⟩

/-- Printing and reading a time gives it back exactly when its zone is not behind
UTC by a part of an hour. -/
theorem read_print_iff {t : Time} {tm : Tm} (hrange : t.offset.natAbs < 15 * 60)
    (hgm : gmtime (t.time + t.offset * 60) = some tm) (hlocal : t.time + t.offset * 60 ≠ -1) :
    (stringFromTime t >>= timeFromString) = .ok t ↔ 0 ≤ t.offset ∨ t.offset % 60 = 0 := by
  obtain ⟨htime, -⟩ := timegm_gmtime hgm
  have htm : tm.Printable := printable_of_gmtime hgm
  have hread : ∀ n rest, scanInt (ascii " " ++ printZone t.offset) = some (n, rest) →
      ((stringFromTime t >>= timeFromString) = .ok t ↔ zoneOffset n = t.offset) := by
    intro n rest hscan
    have hlast : timegm tm ≠ -1 := by rwa [htime]
    have hline := timeFromString_dateLine htm hlast hscan
      (notMem_printZone endsText_zero t.offset)
    have hbind : (stringFromTime t >>= timeFromString) =
        timeFromString (dateLine tm (printZone t.offset)) := by
      rw [stringFromTime_eq hgm]
      simp only [bind, Except.bind]
    rw [hbind, hline, htime, Except.ok.injEq]
    exact sameTime_iff t (zoneOffset n)
  by_cases hzone : 0 ≤ t.offset ∨ t.offset % 60 = 0
  · obtain ⟨n, hscan, hoffset⟩ := scanInt_printZone hrange hzone
    rw [hread n [] hscan]
    exact ⟨fun _ => hzone, fun _ => hoffset⟩
  · obtain ⟨n, rest, hscan, hoffset⟩ := scanInt_printZone_signed hrange hzone
    rw [hread n rest hscan]
    exact ⟨fun heq => absurd heq hoffset, fun hok => absurd hok hzone⟩

/-- A date line is read with the offset of its zone exactly when that is not
behind UTC by a part of an hour. -/
theorem read_zone_iff {tm : Tm} (htm : tm.Printable) (htime : timegm tm ≠ -1) (minus : Bool)
    {hh mm : Nat} (hhour : hh < 100) (hmin : mm < 60) :
    (timeFromString (dateLine tm (zoneText minus hh mm))).map Time.offset =
        .ok (zoneMinutes minus hh mm) ↔
      minus = false ∨ mm = 0 := by
  have hhundred : mm < 100 := by omega
  have hline := timeFromString_dateLine htm htime (scanInt_zoneText minus hhour hhundred)
    (zero_notMem_zoneText minus hh mm)
  rw [hline, ← zoneOffset_zoneText minus hh hhundred]
  unfold Except.map
  rw [Except.ok.injEq]

/-- The date codec: a time with an offset of less than 15 hours, and a date line
with any zone. -/
theorem dateCodec_iff {t : Time} {tm line : Tm} (hrange : t.offset.natAbs < 15 * 60)
    (hgm : gmtime (t.time + t.offset * 60) = some tm) (hlocal : t.time + t.offset * 60 ≠ -1)
    (hline : line.Printable) (htime : timegm line ≠ -1) (minus : Bool) {hh mm : Nat}
    (hhour : hh < 100) (hmin : mm < 60) :
    ((stringFromTime t >>= timeFromString) = .ok t ↔ 0 ≤ t.offset ∨ t.offset % 60 = 0) ∧
      ((timeFromString (dateLine line (zoneText minus hh mm))).map Time.offset =
          .ok (zoneMinutes minus hh mm) ↔ minus = false ∨ mm = 0) :=
  ⟨read_print_iff hrange hgm hlocal, read_zone_iff hline htime minus hhour hmin⟩

/-- 2023-11-14 in Newfoundland. -/
def newfoundland : Time := ⟨1700000000, -210⟩

/-- A time that is printed with the zone `-03-30`, which reads as 3 minutes. -/
theorem newfoundland_misread :
    newfoundland.offset.natAbs < 15 * 60 ∧
      (gmtime (newfoundland.time + newfoundland.offset * 60)).isSome = true ∧
      newfoundland.time + newfoundland.offset * 60 ≠ -1 ∧
      (stringFromTime newfoundland).toOption =
        some (ascii "Tue Nov 14 18:43:20 2023 -03-30") ∧
      (stringFromTime newfoundland >>= timeFromString).toOption = some ⟨1699987220, 3⟩ ∧
      (timeFromString (ascii "Tue Nov 14 18:43:20 2023 -0330")).toOption =
        some ⟨1699996400, -150⟩ := by
  decide

/-- Zones east of UTC. -/
theorem dateCodec_india :
    (stringFromTime ⟨1700000000, 330⟩ >>= timeFromString) = .ok ⟨1700000000, 330⟩ ∧
      (timeFromString (dateLine ⟨20, 43, 3, 15, 10, 123, 3⟩ (zoneText false 5 45))).map
        Time.offset = .ok 345 := by
  have hgm : gmtime 1700019800 = some ⟨20, 43, 3, 15, 10, 123, 3⟩ := by decide
  have hcodec := @dateCodec_iff ⟨1700000000, 330⟩ ⟨20, 43, 3, 15, 10, 123, 3⟩
    ⟨20, 43, 3, 15, 10, 123, 3⟩ (by decide) hgm (by decide) (printable_of_gmtime hgm)
    (by decide) false 5 45 (by decide) (by decide)
  exact ⟨hcodec.1.mpr (Or.inl (by decide)), hcodec.2.mpr (Or.inl rfl)⟩

end Git
end Debase
