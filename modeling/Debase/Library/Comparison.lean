import Mathlib.Data.List.Sort
import Mathlib.Order.RelIso.Basic

/-!
# Hand-written comparisons

A comparison is a Boolean `less`, as `operator <` is in C++.  Two of them make the
lexicographic one, a comparison orders the keys of a map, and it sorts a list.
-/

namespace Debase
namespace Library

variable {α β : Type}

/-- A comparison is a strict total order. -/
abbrev Orders (less : α → α → Bool) : Prop :=
  IsStrictTotalOrder α fun x y => less x y = true

namespace Orders

variable {less : α → α → Bool}

theorem irrefl (h : Orders less) (x : α) : less x x = false :=
  Bool.eq_false_iff.mpr (h.toIrrefl.irrefl x)

theorem asymm (h : Orders less) {x y : α} (hxy : less x y = true) : less y x = false := by
  refine Bool.eq_false_iff.mpr fun hyx => ?_
  have hxx := h.toIsTrans.trans x y x hxy hyx
  rw [h.irrefl] at hxx
  cases hxx

theorem eq_of (h : Orders less) {x y : α} (hxy : less x y = false) (hyx : less y x = false) :
    x = y :=
  h.toTrichotomous.trichotomous x y (Bool.eq_false_iff.mp hxy) (Bool.eq_false_iff.mp hyx)

theorem less_or_less (h : Orders less) {x y : α} (hne : x ≠ y) :
    less x y = true ∨ less y x = true := by
  by_contra hno
  rw [not_or, Bool.not_eq_true, Bool.not_eq_true] at hno
  exact hne (h.eq_of hno.1 hno.2)

/-- The comparison of what an injective function gives. -/
theorem comap (h : Orders less) {f : β → α} (hf : Function.Injective f) :
    Orders fun x y => less (f x) (f y) where
  irrefl x := h.toIrrefl.irrefl (f x)
  trans _ _ _ := h.toIsTrans.trans _ _ _
  trichotomous _ _ hxy hyx := hf (h.toTrichotomous.trichotomous _ _ hxy hyx)

end Orders

/-- `<` of a linear order. -/
theorem orders_lt [LE α] [LT α] [DecidableLT α] [Std.LawfulOrderLT α] [Std.IsLinearOrder α] :
    Orders fun x y : α => decide (x < y) where
  irrefl x := by simp [Std.lt_irrefl]
  trans x y z hxy hyz := by
    rw [decide_eq_true_eq] at *
    exact Std.lt_trans hxy hyz
  trichotomous x y hxy hyx := by
    rw [decide_eq_true_eq] at *
    exact Std.Trichotomous.trichotomous x y hxy hyx

/-- Compare the first parts, and the second parts where these are the same. -/
def lexLess [DecidableEq α] (less : α → α → Bool) (less' : β → β → Bool) (x y : α × β) : Bool :=
  if x.1 ≠ y.1 then less x.1 y.1 else less' x.2 y.2

theorem orders_lexLess [DecidableEq α] {less : α → α → Bool} {less' : β → β → Bool}
    (h : Orders less) (h' : Orders less') : Orders (lexLess less less') where
  irrefl x := by
    simp [lexLess, h'.irrefl]
  trans x y z hxy hyz := by
    unfold lexLess at *
    by_cases hfirst : x.1 = y.1
    · by_cases hsecond : y.1 = z.1
      · rw [if_neg (by simpa using hfirst)] at hxy
        rw [if_neg (by simpa using hsecond)] at hyz
        rw [if_neg (by simpa using hfirst.trans hsecond)]
        exact h'.toIsTrans.trans _ _ _ hxy hyz
      · rw [if_pos hsecond] at hyz
        rwa [hfirst, if_pos hsecond]
    · rw [if_pos hfirst] at hxy
      by_cases hsecond : y.1 = z.1
      · rwa [← hsecond, if_pos hfirst]
      · rw [if_pos hsecond] at hyz
        have hxz := h.toIsTrans.trans _ _ _ hxy hyz
        rw [if_pos]
        · exact hxz
        · intro heq
          rw [heq, h.irrefl] at hxz
          cases hxz
  trichotomous x y hxy hyx := by
    unfold lexLess at *
    by_cases hfirst : x.1 = y.1
    · rw [if_neg (by simpa using hfirst), Bool.not_eq_true] at hxy
      rw [if_neg (by simpa using hfirst.symm), Bool.not_eq_true] at hyx
      exact Prod.ext hfirst (h'.eq_of hxy hyx)
    · rw [if_pos hfirst, Bool.not_eq_true] at hxy
      rw [if_pos (Ne.symm hfirst), Bool.not_eq_true] at hyx
      exact absurd (h.eq_of hxy hyx) hfirst

/-! ## The order of a map's keys -/

/-- Two keys are the same where neither is less. -/
def compareOf (less : α → α → Bool) (x y : α) : Ordering :=
  if less x y then .lt else if less y x then .gt else .eq

section Compare

variable {less : α → α → Bool}

theorem compareOf_eq_lt (x y : α) : compareOf less x y = .lt ↔ less x y = true := by
  unfold compareOf
  split
  · simp_all
  · split <;> simp_all

theorem compareOf_eq_eq (h : Orders less) (x y : α) : compareOf less x y = .eq ↔ x = y := by
  unfold compareOf
  constructor
  · intro heq
    split at heq
    · cases heq
    · next hxy =>
        split at heq
        · cases heq
        · next hyx => exact h.eq_of (Bool.eq_false_iff.mpr hxy) (Bool.eq_false_iff.mpr hyx)
  · rintro rfl
    simp [h.irrefl]

theorem compareOf_swap (h : Orders less) (x y : α) :
    compareOf less x y = (compareOf less y x).swap := by
  unfold compareOf
  by_cases hxy : less x y = true
  · rw [if_pos hxy, if_neg (by simp [h.asymm hxy]), if_pos hxy]
    rfl
  · by_cases hyx : less y x = true
    · rw [if_neg hxy, if_pos hyx, if_pos hyx]
      rfl
    · rw [if_neg hxy, if_neg hyx, if_neg hyx, if_neg hxy]
      rfl

theorem transCmp_compareOf (h : Orders less) : Std.TransCmp (compareOf less) where
  eq_swap := compareOf_swap h _ _
  isLE_trans {x y z} hxy hyz := by
    rw [Ordering.isLE_iff_eq_lt_or_eq_eq, compareOf_eq_lt, compareOf_eq_eq h] at *
    rcases hxy with hxy | rfl
    · rcases hyz with hyz | rfl
      · exact Or.inl (h.toIsTrans.trans x y z hxy hyz)
      · exact Or.inl hxy
    · exact hyz

theorem lawfulEqCmp_compareOf (h : Orders less) : Std.LawfulEqCmp (compareOf less) :=
  haveI := transCmp_compareOf h
  { eq_of_compare := (compareOf_eq_eq h _ _).mp }

end Compare

/-! ## Sorting -/

section Sorting

variable {less : α → α → Bool}

/-- `std::sort`. -/
def sortBy (less : α → α → Bool) (xs : List α) : List α :=
  xs.insertionSort fun x y => less y x = false

theorem mem_sortBy {xs : List α} {x : α} : x ∈ sortBy less xs ↔ x ∈ xs :=
  (List.perm_insertionSort _ xs).mem_iff

/-- Where nothing occurs twice, each value is less than those after it. -/
theorem pairwise_sortBy (h : Orders less) {xs : List α} (hnodup : xs.Nodup) :
    (sortBy less xs).Pairwise fun x y => less x y = true := by
  have : Std.Total fun x y : α => less y x = false :=
    ⟨fun x y => by
      rcases Bool.eq_false_or_eq_true (less y x) with hyx | hyx
      · exact Or.inr (h.asymm hyx)
      · exact Or.inl hyx⟩
  have : IsTrans α fun x y : α => less y x = false :=
    ⟨fun x y z hyx hzy => by
      refine Bool.eq_false_iff.mpr fun hzx => ?_
      rcases Bool.eq_false_or_eq_true (less x y) with hxy | hxy
      · have hzy' := h.toIsTrans.trans z x y hzx hxy
        rw [hzy] at hzy'
        cases hzy'
      · rw [h.eq_of hyx hxy, hzx] at hzy
        cases hzy⟩
  have hsorted := List.pairwise_insertionSort (fun x y => less y x = false) xs
  have hdistinct : (sortBy less xs).Nodup := (List.perm_insertionSort _ xs).nodup_iff.mpr hnodup
  refine (hsorted.and hdistinct).imp ?_
  rintro x y ⟨hle, hne⟩
  exact (h.less_or_less hne).resolve_right (by rw [hle]; exact Bool.false_ne_true)

/-- A list in strict order is known from its members. -/
theorem eq_of_pairwise_less (h : Orders less) {xs ys : List α}
    (hxs : xs.Pairwise fun x y => less x y = true) (hys : ys.Pairwise fun x y => less x y = true)
    (hmem : ∀ x, x ∈ xs ↔ x ∈ ys) : xs = ys := by
  have hnodup : ∀ {zs : List α}, zs.Pairwise (fun x y => less x y = true) → zs.Nodup := by
    refine fun hzs => hzs.imp ?_
    rintro x _ hless rfl
    rw [h.irrefl] at hless
    cases hless
  refine List.Perm.eq_of_pairwise ?_ hxs hys
    ((List.perm_ext_iff_of_nodup (hnodup hxs) (hnodup hys)).mpr hmem)
  intro x y _ _ hxy hyx
  rw [h.asymm hxy] at hyx
  cases hyx

end Sorting

end Library
end Debase
