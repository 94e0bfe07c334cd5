import Mathlib.Data.List.Basic

/-!
# Texts in pieces

A text that is the concatenation of pieces, and where the pieces begin.
-/

namespace Debase
namespace Library

variable {α : Type}

/-- Where piece `i` begins; behind the last piece it is the length of the text. -/
def offset (xs : List (List α)) (i : Nat) : Nat := (xs.take i).flatten.length

@[simp] theorem offset_zero (xs : List (List α)) : offset xs 0 = 0 := rfl

theorem offset_cons_succ (x : List α) (xs : List (List α)) (i : Nat) :
    offset (x :: xs) (i + 1) = x.length + offset xs i := by
  rw [offset, List.take_succ_cons, List.flatten_cons, List.length_append, offset]

theorem offset_of_length_le {xs : List (List α)} {i : Nat} (h : xs.length ≤ i) :
    offset xs i = xs.flatten.length := by
  rw [offset, List.take_of_length_le h]

theorem flatten_take_append_drop (xs : List (List α)) (i : Nat) :
    (xs.take i).flatten ++ (xs.drop i).flatten = xs.flatten := by
  rw [← List.flatten_append, List.take_append_drop]

theorem take_offset (xs : List (List α)) (i : Nat) :
    xs.flatten.take (offset xs i) = (xs.take i).flatten := by
  rw [← flatten_take_append_drop xs i, offset, List.take_left]

theorem drop_offset (xs : List (List α)) (i : Nat) :
    xs.flatten.drop (offset xs i) = (xs.drop i).flatten := by
  rw [← flatten_take_append_drop xs i, offset, List.drop_left]

theorem offset_le_length (xs : List (List α)) (i : Nat) : offset xs i ≤ xs.flatten.length := by
  rw [← flatten_take_append_drop xs i, offset, List.length_append]
  exact Nat.le_add_right _ _

theorem offset_append_left {xs : List (List α)} {i : Nat} (h : i ≤ xs.length)
    (ys : List (List α)) : offset (xs ++ ys) i = offset xs i := by
  rw [offset, List.take_append_of_le_length h, offset]

theorem offset_append_right (xs ys : List (List α)) (i : Nat) :
    offset (xs ++ ys) (xs.length + i) = xs.flatten.length + offset ys i := by
  rw [offset, List.take_length_add_append, List.flatten_append, List.length_append, offset]

theorem offset_add (xs : List (List α)) {i : Nat} (h : i ≤ xs.length) (n : Nat) :
    offset xs (i + n) = offset xs i + offset (xs.drop i) n := by
  have happend := offset_append_right (xs.take i) (xs.drop i) n
  rwa [List.take_append_drop, List.length_take_of_le h] at happend

theorem offset_mono (xs : List (List α)) {i j : Nat} (h : i ≤ j) : offset xs i ≤ offset xs j := by
  obtain ⟨k, rfl⟩ := Nat.exists_eq_add_of_le h
  by_cases hi : i ≤ xs.length
  · rw [offset_add xs hi]
    exact Nat.le_add_right _ _
  · exact Nat.le_of_eq
      ((offset_of_length_le (by omega)).trans (offset_of_length_le (by omega)).symm)

/-- Pieces that are not empty begin at different places. -/
theorem offset_lt {xs : List (List α)} (hne : ∀ x ∈ xs, x ≠ []) {i j : Nat} (h : i < j)
    (hi : i < xs.length) : offset xs i < offset xs j := by
  obtain ⟨x, rest, hdrop⟩ := List.exists_cons_of_ne_nil (List.drop_eq_nil_iff.not.mpr (by omega) :
    xs.drop i ≠ [])
  have hx : x ≠ [] := hne x (List.mem_of_mem_drop (by rw [hdrop]; exact List.mem_cons_self))
  have hnext := offset_mono xs (show i + 1 ≤ j from h)
  have hone := offset_add xs (Nat.le_of_lt hi) 1
  rw [hdrop, offset_cons_succ, offset_zero] at hone
  have hpos := List.length_pos_of_ne_nil hx
  omega

theorem offset_inj {xs : List (List α)} (hne : ∀ x ∈ xs, x ≠ []) {i j : Nat} (hi : i ≤ xs.length)
    (hj : j ≤ xs.length) : offset xs i = offset xs j ↔ i = j := by
  constructor
  · intro h
    rcases Nat.lt_trichotomy i j with hlt | heq | hlt
    · have := offset_lt hne hlt (by omega)
      omega
    · exact heq
    · have := offset_lt hne hlt (by omega)
      omega
  · rintro rfl
    rfl

end Library
end Debase
