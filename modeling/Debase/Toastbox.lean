import Debase.Git.Object

/-!
# String helpers

The `Toastbox::String` helpers the program calls are a parameter, `Strings`: their
library is not in the tree.  What is known of them is what its callers rely on:
`Split` on a one-byte separator keeps empty pieces, `Join` puts the separator back
between the pieces, `StartsWith` is the prefix test and `EndsWith` the suffix test.
-/

namespace Debase
namespace Toastbox

/-- The byte `'\n'`. -/
def newline : UInt8 := 10

/-! ## The lines of a text -/

/-- The pieces of a text between its newlines. -/
def splitLines (s : Bytes) : List Bytes := s.splitOn newline

/-- The text of lines, with newlines between them. -/
def joinLines (lines : List Bytes) : Bytes := [newline].intercalate lines

/-- Whether a text begins with `pre`. -/
def startsWith (pre s : Bytes) : Bool := pre.isPrefixOf s

@[simp] theorem joinLines_splitLines (s : Bytes) : joinLines (splitLines s) = s :=
  List.intercalate_splitOn newline

/-- Lines without a newline inside survive joining and splitting. -/
theorem splitLines_joinLines {lines : List Bytes} (hne : lines ≠ [])
    (hline : ∀ line ∈ lines, newline ∉ line) : splitLines (joinLines lines) = lines :=
  List.splitOn_intercalate newline hline hne

/-- The pieces hold no separator. -/
theorem newline_notMem_splitLines {s l : Bytes} (h : l ∈ splitLines s) : newline ∉ l := by
  induction s generalizing l with
  | nil =>
      have hnil : l = [] := by simpa [splitLines] using h
      simp [hnil]
  | cons b s ih =>
      unfold splitLines at h ih
      rw [List.splitOn_cons_eq_if_modifyHead] at h
      split at h
      · rcases List.mem_cons.mp h with rfl | h
        · simp
        · exact ih h
      · next hb =>
          rcases hs : s.splitOn newline with _ | ⟨first, rest⟩
          · simp [hs] at h
          · rw [hs] at h ih
            rcases List.mem_cons.mp h with rfl | h
            · have hfirst : newline ∉ first := ih List.mem_cons_self
              have hne : newline ≠ b := fun heq => hb (by simp [heq])
              simp [hfirst, hne]
            · exact ih (List.mem_cons_of_mem _ h)

@[simp] theorem splitLines_nil : splitLines [] = [[]] := by
  rfl

/-! ## The helpers -/

/-- The functions of `Toastbox::String` that the program calls, and what they are
documented to do. -/
structure Strings where
  /-- `String::Split(str, "\n")`. -/
  split (s : Bytes) : List Bytes
  /-- `String::Join(lines, "\n")`. -/
  join (lines : List Bytes) : Bytes
  /-- `String::StartsWith(pre, s)`. -/
  startsWith (pre s : Bytes) : Bool
  /-- `String::EndsWith(suf, s)`. -/
  endsWith (suf s : Bytes) : Bool
  split_eq (s : Bytes) : split s = splitLines s
  join_eq (lines : List Bytes) : join lines = joinLines lines
  startsWith_iff (pre s : Bytes) : startsWith pre s = true ↔ pre <+: s
  endsWith_iff (suf s : Bytes) : endsWith suf s = true ↔ suf <:+ s

namespace Strings

attribute [simp] split_eq join_eq

@[simp] theorem startsWith_eq (strings : Strings) (pre s : Bytes) :
    strings.startsWith pre s = Toastbox.startsWith pre s := by
  rw [Bool.eq_iff_iff, strings.startsWith_iff]
  exact List.isPrefixOf_iff_prefix.symm

/-- Functions that do what is documented. -/
def plain : Strings where
  split := splitLines
  join := joinLines
  startsWith := Toastbox.startsWith
  endsWith suf s := suf.isSuffixOf s
  split_eq _ := rfl
  join_eq _ := rfl
  startsWith_iff _ _ := List.isPrefixOf_iff_prefix
  endsWith_iff _ _ := List.isSuffixOf_iff_suffix

end Strings

end Toastbox
end Debase
