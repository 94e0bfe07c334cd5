import Debase.Git.DateRoundTrip
import Debase.Git.Reflog
import Debase.Library.Utf8

/-!
# Ids and dates on the screen

`DisplayStringForId` and `ShortStringForTime` of `git/Git.h`, and how long what they give is.
-/

namespace Debase
namespace Git

open Library Library.Utf8

/-- `DisplayStringForId`. -/
def displayStringForId (id : Oid) (len : Nat) : Bytes := (stringFromId id).take len

/-- What `ShortStringForTime` prints: `"%s %s %u %02u:%02u"`. -/
def shortDate (tm : Tm) : Bytes :=
  weekdays.getD tm.wday.toNat [] ++ ascii " " ++ months.getD tm.mon.toNat [] ++ ascii " " ++
    printInt false 0 tm.mday ++ ascii " " ++ printInt false 2 tm.hour ++ ascii ":" ++
    printInt false 2 tm.min

/-- `ShortStringForTime`. -/
def shortStringForTime (t : Time) : Except Exn Bytes :=
  match gmtime (t.time + t.offset * 60) with
  | none => .error (.runtimeError "gmtime_r failed")
  | some tm => .ok (shortDate tm)

theorem length_displayStringForId (id : Oid) {n : Nat} (hn : n ≤ 40) :
    (displayStringForId id n).length = n := by
  rw [displayStringForId, List.length_take, length_stringFromId, Nat.min_eq_left hn]

theorem isAscii_of_mem_displayStringForId {id : Oid} {n : Nat} {b : UInt8}
    (hb : b ∈ displayStringForId id n) : isAscii b = true := by
  have hdigit := mem_stringFromId (List.mem_of_mem_take hb)
  rw [isAscii_iff]
  omega

/-! ## The length of a date -/

theorem isAscii_of_isDigit {b : UInt8} (hb : isDigit b = true) : isAscii b = true := by
  simp only [isDigit, Bool.and_eq_true, decide_eq_true_eq, UInt8.le_iff_toNat_le] at hb
  have h57 : (57 : UInt8).toNat = 57 := rfl
  rw [isAscii_iff]
  omega

theorem isAscii_weekdays (i : Fin 7) : ∀ b ∈ weekdays.getD i [], isAscii b = true := by
  have hall : (weekdays.getD i []).all isAscii = true := by
    revert i
    decide
  simpa using hall

theorem isAscii_months (i : Fin 12) : ∀ b ∈ months.getD i [], isAscii b = true := by
  have hall : (months.getD i []).all isAscii = true := by
    revert i
    decide
  simpa using hall

/-- A printed field of a time: two digits. -/
theorem printInt_field {n : Int} (hlow : 0 ≤ n) (hhigh : n < 100) :
    (printInt false 2 n).length = 2 ∧ ∀ b ∈ printInt false 2 n, isAscii b = true := by
  obtain ⟨k, rfl⟩ := Int.eq_ofNat_of_zero_le hlow
  obtain ⟨hlength, hdigits, -⟩ := @printInt_two k (by omega)
  exact ⟨hlength, fun b hb => isAscii_of_isDigit (hdigits b hb)⟩

/-- A printed day of a month: one digit or two. -/
theorem printInt_day {n : Int} (hlow : 1 ≤ n) (hhigh : n ≤ 31) :
    1 ≤ (printInt false 0 n).length ∧ (printInt false 0 n).length ≤ 2 ∧
      ∀ b ∈ printInt false 0 n, isAscii b = true := by
  obtain ⟨k, rfl⟩ := Int.eq_ofNat_of_zero_le (show 0 ≤ n by omega)
  have hprint : printInt false 0 (k : Int) = digits k := by
    unfold printInt
    rw [if_neg (by omega)]
    simp
  rw [hprint]
  exact ⟨length_digits_pos k, length_digits_le_two (by omega),
    fun b hb => isAscii_of_isDigit (isDigit_of_mem_digits hb)⟩

/-- A date takes 15 or 16 columns, whatever the time is. -/
theorem shortDate_columns {t : Int} {tm : Tm} (h : gmtime t = some tm) :
    15 ≤ (shortDate tm).length ∧ (shortDate tm).length ≤ 16 ∧
      ∀ b ∈ shortDate tm, isAscii b = true := by
  obtain ⟨-, ⟨hwday, hwday'⟩, ⟨hmon, hmon'⟩, ⟨hday, hday'⟩, ⟨hhour, hhour'⟩, ⟨hmin, hmin'⟩, -⟩ :=
    timegm_gmtime h
  have hname := (weekdays_name ⟨tm.wday.toNat, by omega⟩).1
  have hname' := (months_name ⟨tm.mon.toNat, by omega⟩).1
  have hletters := isAscii_weekdays ⟨tm.wday.toNat, by omega⟩
  have hletters' := isAscii_months ⟨tm.mon.toNat, by omega⟩
  obtain ⟨hfield, hfieldAscii⟩ := @printInt_field tm.hour hhour (by omega)
  obtain ⟨hfield', hfieldAscii'⟩ := @printInt_field tm.min hmin (by omega)
  obtain ⟨hone, htwo, hdayAscii⟩ := printInt_day hday hday'
  have hspace : ∀ b ∈ ascii " ", isAscii b = true := List.forall_mem_singleton.mpr rfl
  have hcolon : ∀ b ∈ ascii ":", isAscii b = true := List.forall_mem_singleton.mpr rfl
  have hlength : (shortDate tm).length = 14 + (printInt false 0 tm.mday).length := by
    simp only [shortDate, List.length_append, hname, hname', hfield, hfield']
    have hsep : (ascii " ").length = 1 := rfl
    have hsep' : (ascii ":").length = 1 := rfl
    omega
  refine ⟨by omega, by omega, fun b hb => ?_⟩
  simp only [shortDate, List.mem_append] at hb
  grind

end Git
end Debase
