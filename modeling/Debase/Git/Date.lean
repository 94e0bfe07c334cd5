import Mathlib.Data.List.Basic
import Debase.Git.Object

/-!
# Dates

`StringFromTime` and `TimeFromString` of `git/Git.h`, on top of the C library
calls they make: `gmtime_r` and `timegm` for the proleptic Gregorian calendar,
`snprintf` for the conversions `%d`, `%0wd` and `%+0wd`, and `sscanf` for `%15s`,
`%d` and literal characters.
-/

namespace Debase
namespace Git

/-! ## The calendar -/

/-- `struct tm`, without the fields nobody reads. -/
structure Tm where
  sec : Int
  min : Int
  hour : Int
  mday : Int
  mon : Int
  year : Int
  wday : Int
deriving DecidableEq

/-- Days since 1970-01-01 of a date; `mon` counts from 0 (January). -/
def daysFromCivil (year mon mday : Int) : Int :=
  -- years begin in March, so that the leap day comes last
  let y := if mon ≤ 1 then year - 1 else year
  let era := y / 400
  let yearOfEra := y - era * 400
  let dayOfYear := (153 * ((mon + 10) % 12) + 2) / 5 + mday - 1
  let dayOfEra := yearOfEra * 365 + yearOfEra / 4 - yearOfEra / 100 + dayOfYear
  era * 146097 + dayOfEra - 719468

/-- Year, month (from 0) and day of the month of a day since 1970-01-01. -/
def civilFromDays (days : Int) : Int × Int × Int :=
  let z := days + 719468
  let era := z / 146097
  let dayOfEra := z - era * 146097
  let yearOfEra := (dayOfEra - dayOfEra / 1460 + dayOfEra / 36524 - dayOfEra / 146096) / 365
  let dayOfYear := dayOfEra - (365 * yearOfEra + yearOfEra / 4 - yearOfEra / 100)
  let marchMonth := (5 * dayOfYear + 2) / 153
  let mday := dayOfYear - (153 * marchMonth + 2) / 5 + 1
  let mon := (marchMonth + 2) % 12
  (yearOfEra + era * 400 + (if mon ≤ 1 then 1 else 0), mon, mday)

/-- `gmtime_r`; it fails when the year does not fit an `int`. -/
def gmtime (t : Int) : Option Tm :=
  let days := t / 86400
  let rest := t % 86400
  let (year, mon, mday) := civilFromDays days
  if -2 ^ 31 ≤ year - 1900 ∧ year - 1900 < 2 ^ 31 then
    some ⟨rest % 60, rest / 60 % 60, rest / 3600, mday, mon, year - 1900, (days + 4) % 7⟩
  else none

/-- `timegm`. -/
def timegm (tm : Tm) : Int :=
  let days := daysFromCivil (tm.year + 1900) tm.mon 1 + (tm.mday - 1)
  days * 86400 + tm.hour * 3600 + tm.min * 60 + tm.sec

/-! ## Printing -/

/-- The decimal digits of a number. -/
def digits (n : Nat) : Bytes := (Nat.toDigits 10 n).map fun c => c.toNat.toUInt8

/-- `%0wd`, or `%+0wd` with `plus`: a sign, zeros up to the width, the digits. -/
def printInt (plus : Bool) (width : Nat) (n : Int) : Bytes :=
  let sign := if n < 0 then ascii "-" else if plus then ascii "+" else []
  let ds := digits n.natAbs
  sign ++ List.replicate (width - sign.length - ds.length) 48 ++ ds

/-- `_Weekdays`. -/
def weekdays : List Bytes := ["Sun", "Mon", "Tue", "Wed", "Thu", "Fri", "Sat"].map ascii

/-- `_Months`. -/
def months : List Bytes :=
  ["Jan", "Feb", "Mar", "Apr", "May", "Jun", "Jul", "Aug", "Sep", "Oct", "Nov", "Dec"].map ascii

/-- `StringFromTime`: `"%s %s %d %02d:%02d:%02d %04d %+03d%02d"`. -/
def stringFromTime (t : Time) : Except Exn Bytes :=
  match gmtime (t.time + t.offset * 60) with
  | none => .error (.runtimeError "gmtime_r failed")
  | some tm =>
      .ok (weekdays.getD tm.wday.toNat [] ++ ascii " " ++ months.getD tm.mon.toNat [] ++
        ascii " " ++ printInt false 0 tm.mday ++ ascii " " ++ printInt false 2 tm.hour ++
        ascii ":" ++ printInt false 2 tm.min ++ ascii ":" ++ printInt false 2 tm.sec ++
        ascii " " ++ printInt false 4 (tm.year + 1900) ++ ascii " " ++
        printInt true 3 (t.offset.tdiv 60) ++ printInt false 2 (t.offset.tmod 60))

/-! ## Reading -/

/-- `isspace` in the C locale. -/
def isSpace (b : UInt8) : Bool := b = 32 || (9 ≤ b && b ≤ 13)

/-- `isdigit`. -/
def isDigit (b : UInt8) : Bool := 48 ≤ b && b ≤ 57

/-- `%15s`: at most 15 bytes up to white space, at least one. -/
def scanWord (s : Bytes) : Option (Bytes × Bytes) :=
  let s := s.dropWhile isSpace
  let word := (s.takeWhile fun b => !isSpace b).take 15
  if word.isEmpty then none else some (word, s.drop word.length)

/-- The value of a run of digits. -/
def digitsValue (ds : Bytes) : Nat := ds.foldl (fun n d => 10 * n + (d.toNat - 48)) 0

/-- `%d`: `strtol` saturates at 64 bits, and the value is stored in an `int`. -/
def scanInt (s : Bytes) : Option (Int × Bytes) :=
  let s := s.dropWhile isSpace
  let negative := s.head? = some 45
  let unsigned := if s.head? = some 45 ∨ s.head? = some 43 then s.drop 1 else s
  let ds := unsigned.takeWhile isDigit
  if ds.isEmpty then none
  else
    let n : Int := if negative then -(digitsValue ds : Int) else digitsValue ds
    some (Int.bmod (max (-2 ^ 63) (min (2 ^ 63 - 1) n)) (2 ^ 32), unsigned.drop ds.length)

/-- A literal character of a format. -/
def scanChar (b : UInt8) (s : Bytes) : Option Bytes :=
  if s.head? = some b then some (s.drop 1) else none

/-- What `sscanf` stores for `"%15s %15s %d %d:%d:%d %d %d"`. -/
structure DateFields where
  weekday : Bytes
  month : Bytes
  tm : Tm
  offset : Int

/-- The `sscanf` of `TimeFromString`; `none` when fewer than 8 items are read. -/
def scanDate (s : Bytes) : Option DateFields := do
  let (weekday, s) ← scanWord s
  let (month, s) ← scanWord s
  let (mday, s) ← scanInt s
  let (hour, s) ← scanInt s
  let s ← scanChar 58 s
  let (min, s) ← scanInt s
  let s ← scanChar 58 s
  let (sec, s) ← scanInt s
  let (year, s) ← scanInt s
  let (offset, _) ← scanInt s
  some ⟨weekday, month, ⟨sec, min, hour, mday, 0, year, 0⟩, offset⟩

/-- `_WeekdayParse` and `_MonthParse`: the place of a name in a list. -/
def nameParse (names : List Bytes) (s : Bytes) : Except Exn Int :=
  match names.idxOf? s with
  | some i => .ok i
  | none => .error (.runtimeError "failed to parse weekday")

/-- `TimeFromString`. -/
def timeFromString (s : Bytes) : Except Exn Time :=
  match scanDate (cString s) with
  | none => .error (.runtimeError "sscanf failed")
  | some f => do
      -- the names are capped to 3 characters
      let wday ← nameParse weekdays (f.weekday.take 3)
      let mon ← nameParse months (f.month.take 3)
      let tm := { f.tm with wday := wday, mon := mon, year := Int.bmod (f.tm.year - 1900) (2 ^ 32) }
      let offs : Int := if 0 ≤ f.offset then 1 else -1
      let offh : Int := f.offset.natAbs / 100
      let offm : Int := f.offset.natAbs % 100
      let offset := offs * offh * 60 + offm
      let t := timegm tm
      if t = -1 then .error (.runtimeError "timegm failed")
      else pure ⟨t - offset * 60, offset⟩

example : (stringFromTime ⟨0, 60⟩).toOption = some (ascii "Thu Jan 1 01:00:00 1970 +0100") := by
  decide

example : (timeFromString (ascii "Thu Jan 1 01:00:00 1970 +0100")).toOption = some ⟨0, 60⟩ := by
  decide

end Git
end Debase
