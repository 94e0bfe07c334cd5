import Debase.Library.Pieces
import Debase.Library.Utf8
import Debase.Git.Object

/-!
# UTF8.h

Walking over code points and truncating texts; `CodepointStart` and `Len` are in the library on
UTF-8.  An iterator is the position of a byte, and a walk
gives nothing where it leaves the text: where it steps before the first byte, or past the NUL
that follows the last one.
-/

namespace Debase
namespace UTF8

open Library Library.Utf8

/-- The loop of `NextN` for a positive `n`, over the bytes from `it` on. -/
def nextForward (stop : Nat) : Bytes → Nat → Nat → Option Nat
  | _, it, 0 => some it
  | [], it, _ + 1 => if it = stop then some it else none
  | _ :: rest, it, n + 1 =>
      if it = stop then some it
      else
        -- the byte after the last one is the NUL
        nextForward stop rest (it + 1) (if codepointStart (rest.headD 0) then n else n + 1)

/-- The loop of `NextN` for a negative `n`, over the bytes before `it`, the nearest first. -/
def nextBackward (stop : Nat) : Bytes → Nat → Nat → Option Nat
  | _, it, 0 => some it
  | [], it, _ + 1 => if it = stop then some it else none
  | b :: rest, it, n + 1 =>
      if it = stop then some it
      else nextBackward stop rest (it - 1) (if codepointStart b then n else n + 1)

/-- `NextN(it, end, n)`, with `stop` for `end`. -/
def nextN (str : Bytes) (it stop : Nat) (n : Int) : Option Nat :=
  if 0 ≤ n then nextForward stop (str.drop it) it n.toNat
  else nextBackward stop (str.take it).reverse it (-n).toNat

/-- `Next`. -/
def next (str : Bytes) (it stop : Nat) : Option Nat := nextN str it stop 1

/-- `Prev`. -/
def prev (str : Bytes) (it stop : Nat) : Option Nat := nextN str it stop (-1)

/-- `Len(start, end)` over iterators.  It reads on behind an `end` that is before `start`. -/
def lenBetween (str : Bytes) (start stop : Nat) : Option Nat :=
  if start ≤ stop then some (len ((str.take stop).drop start)) else none

/-- `TruncateHead`. -/
def truncateHead (str : Bytes) (n : Nat) : Option Bytes :=
  if n = 0 then some []
  else if str.length ≤ n then some str
  else if len str ≤ n then some str
  else (nextN str 0 str.length (len str - n)).map str.drop

/-- `TruncateTail`. -/
def truncateTail (str : Bytes) (n : Nat) : Option Bytes :=
  if n = 0 then some []
  else if str.length ≤ n then some str
  else (nextN str 0 str.length n).map str.take

/-! ## Walks to the end and to the beginning -/

/-- A walk forward ends in front of a code point or at the end.  It does not ask whether its
first byte begins a code point. -/
theorem nextForward_end (b : UInt8) (t : Bytes) (it n : Nat) :
    ∃ u q, t = u ++ q ∧ nextForward (it + t.length + 1) (b :: t) it (n + 1) =
        some (it + 1 + u.length) ∧
      AtStart q ∧ len u ≤ n ∧ (q ≠ [] → len u = n) := by
  induction t generalizing b it n with
  | nil =>
      refine ⟨[], [], rfl, ?_, .nil, Nat.zero_le n, fun h => absurd rfl h⟩
      rw [nextForward, if_neg (by simp)]
      cases n with
      | zero => rfl
      | succ n => simp [nextForward, codepointStart]
  | cons x t ih =>
      rw [nextForward, if_neg (by omega), List.headD_cons]
      have hlength : it + (x :: t).length + 1 = it + 1 + t.length + 1 := by
        rw [List.length_cons]
        omega
      rw [hlength]
      by_cases hx : codepointStart x = true
      · rw [if_pos hx]
        cases n with
        | zero =>
            refine ⟨[], x :: t, rfl, ?_, .cons hx t, Nat.le_refl 0, fun _ => rfl⟩
            rw [nextForward]
            rfl
        | succ n =>
            obtain ⟨u, q, rfl, hwalk, hq, hle, heq⟩ := ih x (it + 1) n
            refine ⟨x :: u, q, rfl, ?_, hq, ?_, fun hne => ?_⟩
            · rw [hwalk, List.length_cons, Nat.add_comm u.length, Nat.add_assoc]
            · rw [len_cons_start hx]
              omega
            · rw [len_cons_start hx, heq hne]
      · rw [if_neg hx]
        obtain ⟨u, q, rfl, hwalk, hq, hle, heq⟩ := ih x (it + 1) n
        rw [Bool.not_eq_true] at hx
        refine ⟨x :: u, q, rfl, ?_, hq, ?_, fun hne => ?_⟩
        · rw [hwalk, List.length_cons, Nat.add_comm u.length, Nat.add_assoc]
        · rwa [len_cons_tail hx]
        · rw [len_cons_tail hx, heq hne]

/-- A walk backward ends at a code point, or at the beginning. -/
theorem nextBackward_begin (pre : Bytes) (n : Nat) :
    ∃ p v, pre = p ++ v ∧ nextBackward 0 pre.reverse pre.length n = some p.length ∧
      (len v = n ∧ AtStart v ∨ p = [] ∧ len v < n) := by
  induction pre using List.reverseRecOn generalizing n with
  | nil =>
      refine ⟨[], [], rfl, ?_, ?_⟩
      · cases n <;> rfl
      · cases n with
        | zero => exact Or.inl ⟨rfl, .nil⟩
        | succ n => exact Or.inr ⟨rfl, Nat.succ_pos n⟩
  | append_singleton pre b ih =>
      cases n with
      | zero =>
          exact ⟨pre ++ [b], [], (List.append_nil _).symm, by simp [nextBackward],
            Or.inl ⟨rfl, .nil⟩⟩
      | succ n =>
          rw [List.reverse_append, List.reverse_singleton, List.singleton_append, nextBackward,
            List.length_append, List.length_singleton, if_neg (by omega), Nat.add_sub_cancel]
          by_cases hb : codepointStart b = true
          · rw [if_pos hb]
            obtain ⟨p, v, rfl, hwalk, hend⟩ := ih n
            refine ⟨p, v ++ [b], List.append_assoc p v [b], hwalk, ?_⟩
            rw [len_append, len_cons_start hb, len_nil]
            refine hend.imp (fun ⟨hcount, hv⟩ => ⟨by omega, ?_⟩) fun ⟨hp, hlt⟩ => ⟨hp, by omega⟩
            rcases v with _ | ⟨y, v⟩
            · exact .cons hb []
            · exact hv
          · rw [if_neg hb]
            obtain ⟨p, v, rfl, hwalk, hend⟩ := ih (n + 1)
            rw [Bool.not_eq_true] at hb
            refine ⟨p, v ++ [b], List.append_assoc p v [b], hwalk, ?_⟩
            rw [len_append, len_cons_tail hb, len_nil, Nat.add_zero]
            refine hend.imp_left fun ⟨hcount, hv⟩ => ⟨hcount, ?_⟩
            rcases v with _ | ⟨y, v⟩
            · cases hcount
            · exact hv

/-- A walk forward stays in the text. -/
theorem nextForward_le (rest : Bytes) (it n : Nat) :
    ∃ r, nextForward (it + rest.length) rest it n = some r ∧ it ≤ r ∧ r ≤ it + rest.length := by
  induction rest generalizing it n with
  | nil =>
      refine ⟨it, ?_, Nat.le_refl it, Nat.le_refl it⟩
      cases n <;> simp [nextForward]
  | cons b rest ih =>
      cases n with
      | zero => exact ⟨it, rfl, Nat.le_refl it, Nat.le_add_right _ _⟩
      | succ n =>
          have hlength : it + (b :: rest).length = it + 1 + rest.length := by
            rw [List.length_cons]
            omega
          rw [nextForward, hlength, if_neg (by omega)]
          obtain ⟨r, hwalk, hge, hle⟩ :=
            ih (it + 1) (if codepointStart (rest.headD 0) then n else n + 1)
          exact ⟨r, hwalk, by omega, hle⟩

theorem nextN_forward {str : Bytes} {it : Nat} (h : it ≤ str.length) {n : Int} (hn : 0 ≤ n) :
    ∃ r, nextN str it str.length n = some r ∧ it ≤ r ∧ r ≤ str.length := by
  have hlength : it + (str.drop it).length = str.length := by
    rw [List.length_drop]
    omega
  obtain ⟨r, hwalk, hge, hle⟩ := nextForward_le (str.drop it) it n.toNat
  rw [hlength] at hwalk hle
  exact ⟨r, by rw [nextN, if_pos hn, hwalk], hge, hle⟩

theorem nextN_backward {str : Bytes} {it : Nat} (h : it ≤ str.length) {n : Int} (hn : n ≤ 0) :
    ∃ r, nextN str it 0 n = some r ∧ r ≤ it := by
  rw [nextN]
  split
  · have hzero : n.toNat = 0 := by omega
    rw [hzero]
    exact ⟨it, by cases str.drop it <;> rfl, Nat.le_refl it⟩
  · obtain ⟨p, v, hpre, hwalk, -⟩ := nextBackward_begin (str.take it) (-n).toNat
    have hlength : (str.take it).length = it := List.length_take_of_le h
    have hsplit := congrArg List.length hpre
    rw [hlength, List.length_append] at hsplit
    rw [hlength] at hwalk
    exact ⟨p.length, hwalk, by omega⟩

/-- Where the bound is behind, a walk backward stays in the text if enough code points begin
before it. -/
theorem nextBackward_isSome_iff {stop : Nat} (rest : Bytes) {it : Nat} (hlength : rest.length = it)
    (h : it < stop) (n : Nat) :
    (nextBackward stop rest it n).isSome ↔ n ≤ len rest := by
  induction rest generalizing it n with
  | nil =>
      cases n with
      | zero => simp [nextBackward]
      | succ n => simp [nextBackward, Nat.ne_of_lt h]
  | cons b rest ih =>
      rw [List.length_cons] at hlength
      cases n with
      | zero => simp [nextBackward]
      | succ n =>
          rw [nextBackward, if_neg (Nat.ne_of_lt h), ih (by omega) (by omega), len_cons]
          split <;> omega

theorem nextBackward_le {stop : Nat} (rest : Bytes) {it n r : Nat}
    (h : nextBackward stop rest it n = some r) : r ≤ it := by
  induction rest generalizing it n with
  | nil =>
      cases n with
      | zero =>
          cases h
          exact Nat.le_refl r
      | succ n =>
          rw [nextBackward] at h
          split at h <;> cases h
          exact Nat.le_refl r
  | cons b rest ih =>
      cases n with
      | zero =>
          cases h
          exact Nat.le_refl r
      | succ n =>
          rw [nextBackward] at h
          split at h
          · cases h
            exact Nat.le_refl r
          · exact Nat.le_trans (ih h) (Nat.sub_le it 1)

/-- A walk backward that is given the end for its bound. -/
theorem nextN_backward_end_isSome_iff {str : Bytes} {it : Nat} (h : it ≤ str.length) {n : Int}
    (hn : n < 0) :
    (nextN str it str.length n).isSome ↔ it = str.length ∨ -n ≤ len (str.take it) := by
  rw [nextN, if_neg (by omega)]
  by_cases hend : it = str.length
  · rw [eq_true hend, true_or, iff_true, ← hend]
    obtain ⟨k, hk⟩ : ∃ k, (-n).toNat = k + 1 := ⟨(-n).toNat - 1, by omega⟩
    rw [hk]
    cases (str.take it).reverse <;> simp [nextBackward]
  · have hlength : (str.take it).reverse.length = it := by
      rw [List.length_reverse, List.length_take_of_le h]
    rw [nextBackward_isSome_iff _ hlength (by omega), eq_false hend, false_or]
    have hcount : len (str.take it).reverse = len (str.take it) := List.countP_reverse
    rw [hcount]
    omega

/-! ## Walks over whole code points -/

/-- A walk forward from the first byte of a code point gets to the one after it. -/
theorem nextForward_codepoint {tail : Bytes} (htail : ∀ y ∈ tail, codepointStart y = false)
    {rest : Bytes} (hrest : AtStart rest) (b : UInt8) {stop it : Nat}
    (h : it + tail.length < stop) (n : Nat) :
    nextForward stop (b :: (tail ++ rest)) it (n + 1) =
      nextForward stop rest (it + tail.length + 1) n := by
  induction tail generalizing b it with
  | nil =>
      rw [nextForward, if_neg (by rw [List.length_nil] at h; omega), List.nil_append]
      have hnext : codepointStart (rest.headD 0) = true := by
        cases rest with
        | nil => rfl
        | cons y rest => exact hrest y rfl
      rw [if_pos hnext]
      rfl
  | cons y tail ih =>
      obtain ⟨hy, htail⟩ := List.forall_mem_cons.mp htail
      rw [List.length_cons] at h
      rw [nextForward, if_neg (by omega), List.cons_append, List.headD_cons, hy,
        if_neg Bool.false_ne_true, ih htail y (by omega), List.length_cons]
      congr 1
      omega

theorem nextForward_flatten {xs : List Bytes} (h : ∀ x ∈ xs, IsCodepoint x) (it n : Nat) :
    nextForward (it + xs.flatten.length) xs.flatten it n = some (it + offset xs n) := by
  induction xs generalizing it n with
  | nil => cases n <;> simp [nextForward, offset]
  | cons x xs ih =>
      obtain ⟨⟨b, tail, rfl, -, htail⟩, hrest⟩ := List.forall_mem_cons.mp h
      cases n with
      | zero => rfl
      | succ n =>
          have hlength : it + ((b :: tail) :: xs).flatten.length =
              it + tail.length + 1 + xs.flatten.length := by
            rw [List.flatten_cons, List.length_append, List.length_cons]
            omega
          rw [hlength, List.flatten_cons, List.cons_append,
            nextForward_codepoint htail (atStart_flatten hrest) b (by omega), ih hrest,
            offset_cons_succ, List.length_cons]
          congr 1
          omega

/-- A walk backward from the end of a code point gets to its first byte. -/
theorem nextBackward_codepoint {b : UInt8} (hb : codepointStart b = true) {tail : Bytes}
    (htail : ∀ y ∈ tail, codepointStart y = false) (rest : Bytes) (it n : Nat) :
    nextBackward 0 (tail.reverse ++ b :: rest) (it + 1 + tail.length) (n + 1) =
      nextBackward 0 rest it n := by
  induction tail using List.reverseRecOn with
  | nil =>
      rw [List.reverse_nil, List.nil_append, List.length_nil, nextBackward, if_neg (by omega),
        if_pos hb]
      rfl
  | append_singleton tail y ih =>
      have hy := htail y (List.mem_append_right _ List.mem_cons_self)
      rw [List.reverse_append, List.reverse_singleton, List.singleton_append, List.cons_append,
        List.length_append, List.length_singleton, nextBackward, if_neg (by omega), hy,
        if_neg Bool.false_ne_true]
      exact ih fun z hz => htail z (List.mem_append_left _ hz)

theorem nextBackward_flatten {xs : List Bytes} (h : ∀ x ∈ xs, IsCodepoint x) (n : Nat) :
    nextBackward 0 xs.flatten.reverse xs.flatten.length n = some (offset xs (xs.length - n)) := by
  induction xs using List.reverseRecOn generalizing n with
  | nil => cases n <;> simp [nextBackward]
  | append_singleton xs x ih =>
      obtain ⟨b, tail, rfl, hb, htail⟩ := h x (List.mem_append_right _ List.mem_cons_self)
      have hrest : ∀ x ∈ xs, IsCodepoint x := fun x hx => h x (List.mem_append_left _ hx)
      cases n with
      | zero =>
          rw [Nat.sub_zero, offset_of_length_le (Nat.le_refl _)]
          cases (xs ++ [b :: tail]).flatten.reverse <;> rfl
      | succ n =>
          have hflatten : (xs ++ [b :: tail]).flatten = xs.flatten ++ b :: tail := by simp
          have hreverse : (xs.flatten ++ b :: tail).reverse =
              tail.reverse ++ b :: xs.flatten.reverse := by simp
          have hlength : (xs.flatten ++ b :: tail).length =
              xs.flatten.length + 1 + tail.length := by
            rw [List.length_append, List.length_cons]
            omega
          rw [hflatten, hreverse, hlength, nextBackward_codepoint hb htail, ih hrest,
            List.length_append, List.length_singleton, Nat.add_sub_add_right,
            offset_append_left (Nat.sub_le _ _)]

/-- `NextN` forward from the beginning of code point `i`. -/
theorem nextN_offset {xs : List Bytes} (h : ∀ x ∈ xs, IsCodepoint x) {i : Nat}
    (hi : i ≤ xs.length) (n : Nat) :
    nextN xs.flatten (offset xs i) xs.flatten.length n = some (offset xs (i + n)) := by
  have hlength : offset xs i + (xs.drop i).flatten.length = xs.flatten.length := by
    rw [offset, ← List.length_append, flatten_take_append_drop]
  have hdrop : ∀ x ∈ xs.drop i, IsCodepoint x := fun x hx => h x (List.mem_of_mem_drop hx)
  have hwalk := nextForward_flatten hdrop (offset xs i) n
  rw [hlength] at hwalk
  rw [nextN, if_pos (Int.natCast_nonneg n), drop_offset, Int.toNat_natCast, hwalk,
    offset_add xs hi]

/-- `NextN` backward from the beginning of code point `i`. -/
theorem nextN_offset_neg {xs : List Bytes} (h : ∀ x ∈ xs, IsCodepoint x) {i : Nat}
    (hi : i ≤ xs.length) (n : Nat) :
    nextN xs.flatten (offset xs i) 0 (-n) = some (offset xs (i - n)) := by
  cases n with
  | zero =>
      rw [nextN, if_pos (by decide)]
      cases xs.flatten.drop (offset xs i) <;> rfl
  | succ n =>
      have htake : ∀ x ∈ xs.take i, IsCodepoint x := fun x hx => h x (List.mem_of_mem_take hx)
      have hwalk := nextBackward_flatten htake (n + 1)
      have hsteps : (- -((n + 1 : Nat) : Int)).toNat = n + 1 := by omega
      rw [nextN, if_neg (by omega), take_offset, hsteps, offset, hwalk,
        List.length_take_of_le hi]
      have hle : i - (n + 1) ≤ (xs.take i).length := by
        rw [List.length_take_of_le hi]
        exact Nat.sub_le i _
      rw [← offset_append_left hle (xs.drop i), List.take_append_drop]

/-! ## Truncating -/

/-- A walk from the first byte on. -/
theorem nextN_first (b : UInt8) (t : Bytes) (n : Nat) :
    ∃ u q, t = u ++ q ∧ nextN (b :: t) 0 (b :: t).length ((n + 1 : Nat) : Int) =
        some (b :: u).length ∧
      AtStart q ∧ len u ≤ n ∧ (q ≠ [] → len u = n) := by
  obtain ⟨u, q, ht, hwalk, hrest⟩ := nextForward_end b t 0 n
  refine ⟨u, q, ht, ?_, hrest⟩
  rw [Nat.zero_add] at hwalk
  rw [nextN, if_pos (Int.natCast_nonneg _), Int.toNat_natCast, List.drop_zero, List.length_cons,
    hwalk, List.length_cons, Nat.zero_add, Nat.add_comm]

theorem truncateTail_spec (str : Bytes) (n : Nat) :
    ∃ r q, truncateTail str n = some r ∧ str = r ++ q ∧ len r ≤ n ∧
      (AtStart str → AtStart q ∧ len r = min n (len str)) := by
  unfold truncateTail
  rcases n with _ | n
  · exact ⟨[], str, rfl, rfl, Nat.le_refl 0, fun h => ⟨h, (Nat.zero_min _).symm⟩⟩
  · rw [if_neg (Nat.succ_ne_zero n)]
    have hlen := len_le_length str
    by_cases hshort : str.length ≤ n + 1
    · rw [if_pos hshort]
      exact ⟨str, [], rfl, (List.append_nil _).symm, by omega, fun _ => ⟨.nil, by omega⟩⟩
    · rw [if_neg hshort]
      rcases str with _ | ⟨b, t⟩
      · exact absurd (Nat.zero_le _) hshort
      · obtain ⟨u, q, rfl, hwalk, hq, hle, heq⟩ := nextN_first b t n
        rw [hwalk]
        refine ⟨b :: u, q, ?_, rfl, ?_, fun hstart => ⟨hq, ?_⟩⟩
        · simp
        · rw [len_cons]
          split <;> omega
        · have hb := hstart b rfl
          rw [len_cons_start hb, len_cons_start hb, len_append]
          by_cases hend : q = []
          · subst hend
            rw [len_nil]
            omega
          · have hcount := heq hend
            omega

/-- The number of code points of the end that is kept: one more than asked for where the text
begins with a continuation byte. -/
theorem truncateHead_spec (str : Bytes) (n : Nat) :
    ∃ p r, truncateHead str n = some r ∧ str = p ++ r ∧ (AtStart str → AtStart r) ∧
      len r = if n = 0 then 0 else if len str ≤ n then len str
        else if AtStart str then n else n + 1 := by
  unfold truncateHead
  rcases n with _ | n
  · exact ⟨str, [], rfl, (List.append_nil _).symm, fun _ => .nil, rfl⟩
  · rw [if_neg (Nat.succ_ne_zero n), if_neg (Nat.succ_ne_zero n)]
    have hlen := len_le_length str
    by_cases hfits : len str ≤ n + 1
    · refine ⟨[], str, ?_, rfl, id, by rw [if_pos hfits]⟩
      rw [if_pos hfits, ite_self]
    · rw [if_neg (by omega), if_neg hfits, if_neg hfits]
      rcases str with _ | ⟨b, t⟩
      · exact absurd (Nat.zero_le _) hfits
      · obtain ⟨k, hk⟩ : ∃ k, len (b :: t) = n + 1 + (k + 1) := ⟨len (b :: t) - n - 2, by omega⟩
        have hsteps : (len (b :: t) : Int) - (n + 1 : Nat) = (k + 1 : Nat) := by omega
        obtain ⟨u, q, rfl, hwalk, hq, hle, heq⟩ := nextN_first b t k
        rw [hsteps, hwalk]
        refine ⟨b :: u, q, by simp, rfl, fun _ => hq, ?_⟩
        -- the walk passes the first byte without counting it
        rw [len_cons, len_append] at hk
        have hsome : q ≠ [] := by
          rintro rfl
          rw [len_nil] at hk
          split at hk <;> omega
        have hcount := heq hsome
        by_cases hb : codepointStart b = true
        · rw [if_pos hb] at hk
          rw [if_pos (.cons hb _)]
          omega
        · rw [if_neg hb] at hk
          rw [if_neg fun hstart => hb (hstart b rfl)]
          omega

/-- What truncating a text to `n` code points means. -/
structure Truncates (s : Bytes) (n : Nat) : Prop where
  tail : ∃ r, truncateTail s n = some r ∧ r <+: s ∧ len r ≤ n
  head : ∃ r, truncateHead s n = some r ∧ r <:+ s ∧ len r ≤ n
  tailWellFormed : WellFormed s →
    ∃ r, truncateTail s n = some r ∧ WellFormed r ∧ len r = min n (len s)
  headWellFormed : WellFormed s →
    ∃ r, truncateHead s n = some r ∧ WellFormed r ∧ len r = min n (len s)

/-- Texts are truncated right unless a text that is too long begins with a continuation byte. -/
theorem truncates_iff (s : Bytes) (n : Nat) :
    Truncates s n ↔ n = 0 ∨ len s ≤ n ∨ AtStart s := by
  obtain ⟨p, h, hhead, hsplit, hstart, hlen⟩ := truncateHead_spec s n
  obtain ⟨t, q, htail, hsplit', htaillen, hwell⟩ := truncateTail_spec s n
  constructor
  · intro htruncates
    obtain ⟨r, hr, -, hle⟩ := htruncates.head
    rw [hhead, Option.some.injEq] at hr
    subst hr
    rw [hlen] at hle
    split at hle
    · next hzero => exact Or.inl hzero
    · split at hle
      · next hfits => exact Or.inr (Or.inl hfits)
      · split at hle
        · next hs => exact Or.inr (Or.inr hs)
        · omega
  · intro hcond
    refine ⟨⟨t, htail, ⟨q, hsplit'.symm⟩, htaillen⟩, ⟨h, hhead, ⟨p, hsplit.symm⟩, ?_⟩, ?_, ?_⟩
    · rw [hlen]
      split
      · omega
      · split
        · next hfits => exact hfits
        · next hzero hfits =>
            rw [if_pos ((hcond.resolve_left hzero).resolve_left hfits)]
    · intro hs
      obtain ⟨hq, hmin⟩ := hwell hs.atStart
      rw [hsplit'] at hs
      exact ⟨t, htail, (hs.cut hq).1, hmin⟩
    · intro hs
      refine ⟨h, hhead, ?_, ?_⟩
      · have hrest := hstart hs.atStart
        rw [hsplit] at hs
        exact (hs.cut hrest).2
      · rw [hlen, if_pos hs.atStart]
        split
        · omega
        · split <;> omega

/-- The end of a text that begins with a continuation byte has two code points, not one. -/
theorem truncateHead_continuation :
    truncateHead [0x80, 97, 98] 1 = some [97, 98] ∧ len [97, 98] = 2 ∧
      ¬Truncates [0x80, 97, 98] 1 := by
  refine ⟨by decide, by decide, fun h => ?_⟩
  obtain ⟨r, hr, -, hle⟩ := h.head
  have hresult : truncateHead [0x80, 97, 98] 1 = some [97, 98] := by decide
  rw [hresult, Option.some.injEq] at hr
  rw [← hr] at hle
  exact absurd hle (by decide)

end UTF8
end Debase
