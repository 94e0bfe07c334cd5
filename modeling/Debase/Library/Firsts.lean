import Mathlib.Data.List.Pairwise

/-!
# The first of each

A list without the elements that are the same as an earlier one, as a loop makes it that appends
what it has not seen; and the loop that stops when it has enough.
-/

namespace Debase
namespace Library

variable {α : Type}

/-- Append the elements of a list that are new, one after the other. -/
def firsts (same : α → α → Bool) : List α → List α → List α
  | done, [] => done
  | done, a :: l => firsts same (if done.any (same a) then done else done ++ [a]) l

/-- The same, until there are `n`. -/
def firstsUpTo (same : α → α → Bool) (n : Nat) : List α → List α → List α
  | done, [] => done
  | done, a :: l =>
      if done.length < n then
        firstsUpTo same n (if done.any (same a) then done else done ++ [a]) l
      else done

variable {same : α → α → Bool}

theorem firsts_append (done l l' : List α) :
    firsts same done (l ++ l') = firsts same (firsts same done l) l' := by
  induction l generalizing done with
  | nil => rfl
  | cons a l ih => exact ih _

/-- What is appended is some of the list, in its order. -/
theorem firsts_eq_append (done l : List α) :
    ∃ new, firsts same done l = done ++ new ∧ new.Sublist l := by
  induction l generalizing done with
  | nil => exact ⟨[], (List.append_nil done).symm, .slnil⟩
  | cons a l ih =>
      obtain ⟨new, hnew, hsub⟩ := ih (if done.any (same a) then done else done ++ [a])
      rw [firsts, hnew]
      split
      · exact ⟨new, rfl, hsub.cons a⟩
      · exact ⟨a :: new, by simp, hsub.cons_cons a⟩

/-- No element is the same as an earlier one. -/
theorem pairwise_firsts {done : List α} (h : done.Pairwise fun a b => same b a = false)
    (l : List α) : (firsts same done l).Pairwise fun a b => same b a = false := by
  induction l generalizing done with
  | nil => exact h
  | cons a l ih =>
      refine ih ?_
      split
      · exact h
      · next hnew =>
          rw [List.pairwise_append]
          refine ⟨h, List.pairwise_singleton _ _, fun b hb c hc => ?_⟩
          rw [List.mem_singleton.mp hc]
          exact Bool.eq_false_iff.mpr fun hsame => hnew (List.any_eq_true.mpr ⟨b, hb, hsame⟩)

/-- Every element of the list is the same as one that is kept. -/
theorem any_firsts (hrefl : ∀ a, same a a = true) (done : List α) {a : α} {l : List α}
    (ha : a ∈ done ∨ a ∈ l) : (firsts same done l).any (same a) = true := by
  induction l generalizing done with
  | nil =>
      rcases ha with ha | ha
      · exact List.any_eq_true.mpr ⟨a, ha, hrefl a⟩
      · cases ha
  | cons b l ih =>
      rw [firsts]
      split
      · next hold =>
          rcases ha with ha | ha
          · exact ih done (Or.inl ha)
          · rcases List.mem_cons.mp ha with rfl | ha
            · -- what is the same as an earlier element
              obtain ⟨new, hnew, -⟩ := @firsts_eq_append _ same done l
              rw [hnew, List.any_append, hold, Bool.true_or]
            · exact ih done (Or.inr ha)
      · rcases ha with ha | ha
        · exact ih _ (Or.inl (List.mem_append_left _ ha))
        · rcases List.mem_cons.mp ha with rfl | ha
          · exact ih _ (Or.inl (List.mem_append_right _ List.mem_cons_self))
          · exact ih _ (Or.inr ha)

/-- The loop that stops keeps the first ones of what the whole loop keeps. -/
theorem firstsUpTo_eq_take {n : Nat} {done : List α} (h : done.length ≤ n) (l : List α) :
    firstsUpTo same n done l = (firsts same done l).take n := by
  induction l generalizing done with
  | nil => exact (List.take_of_length_le h).symm
  | cons a l ih =>
      rw [firstsUpTo]
      split
      · next hroom =>
          rw [firsts]
          refine ih ?_
          split
          · omega
          · rw [List.length_append, List.length_singleton]
            omega
      · next hfull =>
          obtain ⟨new, hnew, -⟩ := @firsts_eq_append _ same done (a :: l)
          rw [hnew, List.take_append_of_le_length (by omega), List.take_of_length_le h]

/-- What the loop leaves out is the same as an element it keeps, or comes after it has enough. -/
theorem firstsUpTo_leaves_out (hrefl : ∀ a, same a a = true) {n : Nat} {done : List α}
    (h : done.length ≤ n) (newer : List α) (a : α) (older : List α) :
    (firstsUpTo same n done (newer ++ a :: older)).any (same a) = true ∨
      (firstsUpTo same n done (newer ++ a :: older)).length = n ∧
        firstsUpTo same n done (newer ++ a :: older) = firstsUpTo same n done newer := by
  rw [firstsUpTo_eq_take h, firstsUpTo_eq_take h, firsts_append]
  generalize firsts same done newer = kept
  obtain ⟨more, hmore, -⟩ := @firsts_eq_append _ same kept (a :: older)
  by_cases hroom : kept.length < n
  · left
    have hlength : (firsts same kept [a]).length ≤ n := by
      simp only [firsts]
      split
      · omega
      · rw [List.length_append, List.length_singleton]
        omega
    have hfirst := any_firsts hrefl kept (Or.inr (List.mem_singleton_self a))
    obtain ⟨rest, hrest, -⟩ := @firsts_eq_append _ same (firsts same kept [a]) older
    rw [← List.singleton_append, firsts_append, hrest, List.take_append,
      List.take_of_length_le hlength, List.any_append, hfirst, Bool.true_or]
  · right
    rw [hmore, List.take_append_of_le_length (by omega), List.length_take]
    exact ⟨by omega, rfl⟩

/-- Where no two elements meet a predicate, the first that meets it is the only one. -/
theorem find?_eq_some_iff_mem {meets : α → Bool} {l : List α}
    (h : l.Pairwise fun a b => meets a = true → meets b = false) {a : α} :
    l.find? meets = some a ↔ a ∈ l ∧ meets a = true := by
  constructor
  · intro hfind
    exact ⟨List.mem_of_find?_eq_some hfind, List.find?_some hfind⟩
  · rintro ⟨hmem, hmeets⟩
    induction l with
    | nil => cases hmem
    | cons b l ih =>
        obtain ⟨hb, hl⟩ := List.pairwise_cons.mp h
        rcases List.mem_cons.mp hmem with rfl | hmem
        · exact List.find?_cons_of_pos hmeets
        · have hearlier : ¬ meets b = true := by
            intro hmeetsb
            rw [hb a hmem hmeetsb] at hmeets
            cases hmeets
          rw [List.find?_cons_of_neg hearlier]
          exact ih hl hmem

end Library
end Debase
