import Mathlib.Data.List.Basic

/-!
# Lines and words

A text is cut at its line ends, and at its separators into words that are not empty.
-/

namespace Debase
namespace Library

variable {α : Type}

section Words

variable (sep : α → Bool)

/-- The words of a text, of which `word` was read before. -/
def wordsFrom (word : List α) : List α → List (List α)
  | [] => if word.isEmpty then [] else [word]
  | x :: rest =>
      if sep x then
        if word.isEmpty then wordsFrom [] rest else word :: wordsFrom [] rest
      else wordsFrom (word ++ [x]) rest

/-- The longest runs without a separator. -/
def words (text : List α) : List (List α) := wordsFrom sep [] text

variable {sep}

/-- A separator ends a word. -/
theorem wordsFrom_append (word as : List α) {s : α} (hs : sep s = true) (bs : List α) :
    wordsFrom sep word (as ++ s :: bs) = wordsFrom sep word as ++ words sep bs := by
  induction as generalizing word with
  | nil =>
      simp only [List.nil_append, wordsFrom, hs, if_true]
      split
      · rfl
      · rfl
  | cons x as ih =>
      rw [List.cons_append, wordsFrom, wordsFrom]
      split
      · split
        · exact ih []
        · rw [ih [], List.cons_append]
      · exact ih (word ++ [x])

theorem words_append (as : List α) {s : α} (hs : sep s = true) (bs : List α) :
    words sep (as ++ s :: bs) = words sep as ++ words sep bs :=
  wordsFrom_append [] as hs bs

theorem wordsFrom_word (word : List α) {bs : List α} (hbs : ∀ x ∈ bs, sep x = false)
    (hne : word ++ bs ≠ []) : wordsFrom sep word bs = [word ++ bs] := by
  induction bs generalizing word with
  | nil =>
      rw [List.append_nil] at *
      rw [wordsFrom, if_neg (by simpa using hne)]
  | cons x bs ih =>
      rw [wordsFrom, if_neg (by simp [hbs x List.mem_cons_self]),
        ih (word ++ [x]) (fun y hy => hbs y (List.mem_cons_of_mem _ hy)) (by simp),
        List.append_assoc, List.singleton_append]

/-- A text without separators is a word. -/
theorem words_word {bs : List α} (hbs : ∀ x ∈ bs, sep x = false) (hne : bs ≠ []) :
    words sep bs = [bs] :=
  wordsFrom_word [] hbs hne

@[simp] theorem words_nil : words sep ([] : List α) = [] := rfl

theorem wordsFrom_flatten (word bs : List α) (hword : ∀ x ∈ word, sep x = false) :
    (wordsFrom sep word bs).flatten = word ++ bs.filter fun x => !sep x := by
  induction bs generalizing word with
  | nil =>
      rw [wordsFrom]
      split
      · next hempty => simp [List.isEmpty_iff.mp hempty]
      · simp
  | cons x bs ih =>
      rw [wordsFrom]
      split
      · next hx =>
          rw [List.filter_cons_of_neg (by simp [hx])]
          split
          · next hempty =>
              rw [ih [] (List.forall_mem_nil _), List.isEmpty_iff.mp hempty]
          · rw [List.flatten_cons, ih [] (List.forall_mem_nil _), List.nil_append]
      · next hx =>
          rw [Bool.not_eq_true] at hx
          rw [List.filter_cons_of_pos (by simp [hx]), ih, List.append_assoc,
            List.singleton_append]
          intro y hy
          rcases List.mem_append.mp hy with hy | hy
          · exact hword y hy
          · rwa [List.mem_singleton.mp hy]

/-- The words are the text without its separators. -/
theorem words_flatten (bs : List α) :
    (words sep bs).flatten = bs.filter fun x => !sep x :=
  wordsFrom_flatten [] bs (List.forall_mem_nil _)

theorem wordsFrom_mem {word bs w : List α} (hword : ∀ x ∈ word, sep x = false)
    (hw : w ∈ wordsFrom sep word bs) : w ≠ [] ∧ ∀ x ∈ w, sep x = false := by
  induction bs generalizing word with
  | nil =>
      rw [wordsFrom] at hw
      split at hw
      · cases hw
      · next hne =>
          obtain rfl := List.mem_singleton.mp hw
          exact ⟨by simpa using hne, hword⟩
  | cons x bs ih =>
      rw [wordsFrom] at hw
      split at hw
      · split at hw
        · exact ih (List.forall_mem_nil _) hw
        · next hne =>
            rcases List.mem_cons.mp hw with rfl | hw
            · exact ⟨by simpa using hne, hword⟩
            · exact ih (List.forall_mem_nil _) hw
      · next hx =>
          refine ih ?_ hw
          intro y hy
          rcases List.mem_append.mp hy with hy | hy
          · exact hword y hy
          · rw [List.mem_singleton.mp hy]
            exact Bool.not_eq_true _ ▸ hx

/-- A word is not empty and has no separator. -/
theorem words_mem {bs w : List α} (hw : w ∈ words sep bs) : w ≠ [] ∧ ∀ x ∈ w, sep x = false :=
  wordsFrom_mem (List.forall_mem_nil _) hw

end Words

section Lines

variable (newline : α → Bool)

/-- The lines of a text, of which `line` was read before.  The last one is a line of its own if
something follows the last line end. -/
def linesFrom (line : List α) : List α → List (List α)
  | [] => if line.isEmpty then [] else [line]
  | x :: rest =>
      if newline x then line :: linesFrom [] rest else linesFrom (line ++ [x]) rest

/-- The lines of a text. -/
def lines (text : List α) : List (List α) := linesFrom newline [] text

variable {newline} {sep : α → Bool}

/-- Where a line end is a separator, the words of the lines are those of the text. -/
theorem words_linesFrom (hsep : ∀ x, newline x = true → sep x = true) (line text : List α) :
    (linesFrom newline line text).flatMap (words sep) = words sep (line ++ text) := by
  induction text generalizing line with
  | nil =>
      rw [linesFrom, List.append_nil]
      split
      · next hempty => rw [List.isEmpty_iff.mp hempty]; rfl
      · rw [List.flatMap_cons, List.flatMap_nil, List.append_nil]
  | cons x text ih =>
      rw [linesFrom]
      split
      · next hx =>
          rw [List.flatMap_cons, ih, List.nil_append, words_append line (hsep x hx) text]
      · rw [ih, List.append_assoc, List.singleton_append]

theorem words_lines (hsep : ∀ x, newline x = true → sep x = true) (text : List α) :
    (lines newline text).flatMap (words sep) = words sep text :=
  words_linesFrom hsep [] text

end Lines

end Library
end Debase
