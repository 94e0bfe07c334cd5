import Mathlib.Data.List.Basic
import Mathlib.Logic.Function.Iterate

/-!
# Timelines

What undo and redo mean: the states something went through, in order, and which of
them is the present one.  A change drops the states after the present one; undo and
redo move along the states and drop nothing.
-/

namespace Debase
namespace Library

variable {α β : Type}

/-- The states something went through, and the place of the present one. -/
@[ext] structure Timeline (α : Type) where
  states : List α
  pos : Nat
  pos_lt : pos < states.length

namespace Timeline

/-- The present state. -/
def present (t : Timeline α) : α := t.states.get ⟨t.pos, t.pos_lt⟩

/-- Nothing has happened yet. -/
def single (x : α) : Timeline α := ⟨[x], 0, Nat.one_pos⟩

/-- A new state; the ones that were undone are dropped. -/
def change (t : Timeline α) (x : α) : Timeline α where
  states := t.states.take (t.pos + 1) ++ [x]
  pos := t.pos + 1
  pos_lt := by
    have := t.pos_lt
    rw [List.length_append, List.length_take, List.length_singleton]
    omega

/-- Back to the state before, if there is one. -/
def undo (t : Timeline α) : Timeline α where
  states := t.states
  pos := t.pos - 1
  pos_lt := by
    have := t.pos_lt
    omega

/-- Forth to the state after, if there is one. -/
def redo (t : Timeline α) : Timeline α where
  states := t.states
  pos := min (t.pos + 1) (t.states.length - 1)
  pos_lt := by
    have := t.pos_lt
    omega

/-- What is there now: a change, unless it is the present state. -/
def observe [DecidableEq α] (t : Timeline α) (x : α) : Timeline α :=
  if t.present = x then t else t.change x

/-- The present state is the one at its place. -/
theorem getElem?_pos (t : Timeline α) : t.states[t.pos]? = some t.present :=
  List.getElem?_eq_getElem t.pos_lt

theorem present_eq_iff {t : Timeline α} {x : α} : t.present = x ↔ t.states[t.pos]? = some x := by
  rw [getElem?_pos, Option.some.injEq]

@[simp] theorem present_single (x : α) : (single x).present = x := rfl

@[simp] theorem states_undo (t : Timeline α) : t.undo.states = t.states := rfl

@[simp] theorem states_redo (t : Timeline α) : t.redo.states = t.states := rfl

@[simp] theorem present_change (t : Timeline α) (x : α) : (t.change x).present = x := by
  have := t.pos_lt
  apply present_eq_iff.mpr
  show (t.states.take (t.pos + 1) ++ [x])[t.pos + 1]? = some x
  rw [List.getElem?_append_right (by rw [List.length_take]; omega), List.length_take]
  have hzero : t.pos + 1 - min (t.pos + 1) t.states.length = 0 := by omega
  rw [hzero]
  rfl

theorem observe_present [DecidableEq α] (t : Timeline α) : t.observe t.present = t := if_pos rfl

@[simp] theorem present_observe [DecidableEq α] (t : Timeline α) (x : α) :
    (t.observe x).present = x := by
  unfold observe
  split
  · next h => exact h
  · exact t.present_change x

/-- One step back or forth. -/
def turn (back : Bool) (t : Timeline α) : Timeline α := if back then t.undo else t.redo

/-- How many steps there are in a direction. -/
def turnsLeft (back : Bool) (t : Timeline α) : Nat :=
  if back then t.pos else t.states.length - 1 - t.pos

theorem turnsLeft_turn {back : Bool} {t : Timeline α} (h : 0 < t.turnsLeft back) :
    (t.turn back).turnsLeft back + 1 = t.turnsLeft back := by
  cases back with
  | true =>
      have hpos : 0 < t.pos := h
      show t.pos - 1 + 1 = t.pos
      omega
  | false =>
      have hpos : 0 < t.states.length - 1 - t.pos := h
      show t.states.length - 1 - min (t.pos + 1) (t.states.length - 1) + 1 =
        t.states.length - 1 - t.pos
      omega

/-! ## Several steps -/

@[simp] theorem states_iterate_undo (t : Timeline α) (n : Nat) :
    (undo^[n] t).states = t.states := by
  induction n generalizing t with
  | zero => rfl
  | succ n ih => rw [Function.iterate_succ_apply, ih, states_undo]

@[simp] theorem pos_iterate_undo (t : Timeline α) (n : Nat) : (undo^[n] t).pos = t.pos - n := by
  induction n generalizing t with
  | zero => rfl
  | succ n ih =>
      rw [Function.iterate_succ_apply, ih]
      show t.pos - 1 - n = t.pos - (n + 1)
      omega

@[simp] theorem states_iterate_redo (t : Timeline α) (n : Nat) :
    (redo^[n] t).states = t.states := by
  induction n generalizing t with
  | zero => rfl
  | succ n ih => rw [Function.iterate_succ_apply, ih, states_redo]

@[simp] theorem pos_iterate_redo (t : Timeline α) (n : Nat) :
    (redo^[n] t).pos = min (t.pos + n) (t.states.length - 1) := by
  induction n generalizing t with
  | zero =>
      have := t.pos_lt
      show t.pos = min (t.pos + 0) (t.states.length - 1)
      omega
  | succ n ih =>
      rw [Function.iterate_succ_apply, ih]
      show min (min (t.pos + 1) (t.states.length - 1) + n) (t.states.length - 1) = _
      omega

/-- Redoing some of what was undone leads to the state that was there before the
rest of it. -/
theorem present_redo_undo (t : Timeline α) {n m : Nat} (hn : n ≤ t.pos) (hm : m ≤ n) :
    t.states[t.pos - (n - m)]? = some (redo^[m] (undo^[n] t)).present := by
  have hlt := t.pos_lt
  rw [← getElem?_pos, states_iterate_redo, states_iterate_undo, pos_iterate_redo,
    states_iterate_undo, pos_iterate_undo]
  have hpos : t.pos - (n - m) = min (t.pos - n + m) (t.states.length - 1) := by omega
  rw [hpos]

/-- A change after some steps back keeps the states up to the present one and
drops the ones that were undone. -/
theorem change_undo (t : Timeline α) {n : Nat} (hn : n ≤ t.pos) (x : α) :
    ((undo^[n] t).change x).states = t.states.take (t.pos + 1 - n) ++ [x] := by
  show (undo^[n] t).states.take ((undo^[n] t).pos + 1) ++ [x] = _
  have hpos : t.pos - n + 1 = t.pos + 1 - n := by omega
  rw [states_iterate_undo, pos_iterate_undo, hpos]

end Timeline

end Library
end Debase
