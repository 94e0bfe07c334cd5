import Debase.Git.Reflog

/-!
# Revisions of the command line

`_RevLookup` of `main.cpp` makes a `Rev` of an argument.  git gives a ref for a name
only; for a text with a suffix of `^` and `~` it gives a commit.  The text without the
suffix is looked up too, and where it names a ref with the commit on its first-parent
chain, the `Rev` is that ref with the number of commits to skip.
-/

namespace Debase
namespace App

open Library Git

/-! ## The lookup -/

/-- `'^'` and `'~'`. -/
def caret : UInt8 := 94

def tilde : UInt8 := 126

/-- The text before the first `c`, if there is one (`find` and `erase`). -/
def beforeByte (c : UInt8) (str : Bytes) : Option Bytes :=
  if c ∈ str then some (str.takeWhile fun b => b ≠ c) else none

/-- The loop that counts the steps down to a commit, on the chain of the head. -/
def skipLoop (target : Commit) : List Commit → Nat → Option Nat
  | [], _ => none
  | head :: rest, skip => if head = target then some skip else skipLoop target rest (skip + 1)

section Lookup

variable (objects : Objects) (names : RefNames) (repo : Repository) (reflog : List ReflogEntry)

/-- `skipRev = repo.revLookup(name)`, with `name` the text before the first `c`; it stays as
it is where there is none. -/
def skipRevLookup (c : UInt8) (str : Bytes) (skipRev : Option GitRev) :
    Except Exn (Option GitRev) :=
  match beforeByte c str with
  | some name => do
      let found ← Git.revLookup objects names repo reflog name
      pure (some found)
  | none => pure skipRev

/-- The rev without the suffix: first without `^`, then without `~`. -/
def skipRevOf (str : Bytes) : Except Exn (Option GitRev) := do
  let skipRev ← skipRevLookup objects names repo reflog caret str none
  if (skipRev.bind GitRev.ref).isSome then pure skipRev
  else skipRevLookup objects names repo reflog tilde str skipRev

/-- `_RevLookup`. -/
def revLookup (str : Bytes) : Except Exn Rev := do
  let rev ← Git.revLookup objects names repo reflog str
  if rev.ref.isSome then pure ⟨rev, 0, .allowed⟩
  else do
    let skipRev ← skipRevOf objects names repo reflog str
    match skipRev with
    | some skipRev =>
        if skipRev.ref.isSome then
          match skipLoop rev.commit skipRev.commit.chain 0 with
          | some skip => pure ⟨skipRev, skip, .allowed⟩
          | none => pure ⟨rev, 0, .allowed⟩
        else pure ⟨rev, 0, .allowed⟩
    | none => pure ⟨rev, 0, .allowed⟩

end Lookup

/-! ## The steps down -/

/-- The loop finds the first place of the commit. -/
theorem skipLoop_some {target : Commit} {chain : List Commit} {skip n : Nat}
    (h : skipLoop target chain skip = some n) :
    ∃ k, n = skip + k ∧ chain[k]? = some target ∧ ∀ m < k, chain[m]? ≠ some target := by
  induction chain generalizing skip with
  | nil => cases h
  | cons head rest ih =>
      unfold skipLoop at h
      split at h
      · next hhead =>
          cases h
          exact ⟨0, rfl, by rw [hhead]; rfl, fun m hm => absurd hm (Nat.not_lt_zero m)⟩
      · next hhead =>
          obtain ⟨k, hk, hget, hleast⟩ := ih h
          refine ⟨k + 1, by omega, hget, fun m hm => ?_⟩
          cases m with
          | zero =>
              intro heq
              exact hhead (Option.some.inj heq)
          | succ m => exact hleast m (by omega)

/-- It runs off the root only if the commit is not on the chain. -/
theorem skipLoop_none {target : Commit} {chain : List Commit} {skip : Nat} :
    skipLoop target chain skip = none ↔ target ∉ chain := by
  induction chain generalizing skip with
  | nil => simp [skipLoop]
  | cons head rest ih =>
      unfold skipLoop
      by_cases hhead : head = target
      · simp [hhead]
      · rw [if_neg hhead, ih, List.mem_cons]
        constructor
        · rintro hrest (heq | hmem)
          · exact hhead heq.symm
          · exact hrest hmem
        · exact fun hnot hmem => hnot (Or.inr hmem)

theorem beforeByte_eq_some {c : UInt8} {str name : Bytes} (h : beforeByte c str = some name) :
    c ∈ str ∧ name = str.takeWhile fun b => b ≠ c := by
  unfold beforeByte at h
  split at h
  · next hmem =>
      cases h
      exact ⟨hmem, rfl⟩
  · cases h

/-- Of the text before the first `^` and the one before the first `~`, the longer has the
other operator. -/
theorem operator_mem {str before before' : Bytes} (h : beforeByte caret str = some before)
    (h' : beforeByte tilde str = some before') : tilde ∈ before ∨ caret ∈ before' := by
  obtain ⟨hcaret, rfl⟩ := beforeByte_eq_some h
  obtain ⟨htilde, rfl⟩ := beforeByte_eq_some h'
  clear h h'
  induction str with
  | nil => cases hcaret
  | cons b rest ih =>
      by_cases hb : b = caret
      · right
        subst hb
        rw [List.takeWhile_cons_of_pos (by decide)]
        exact List.mem_cons_self
      · by_cases hb' : b = tilde
        · left
          subst hb'
          rw [List.takeWhile_cons_of_pos (by decide)]
          exact List.mem_cons_self
        · rw [List.takeWhile_cons_of_pos (by simpa using hb),
            List.takeWhile_cons_of_pos (by simpa using hb')]
          have hrest := ih ((List.mem_cons.mp hcaret).resolve_left (Ne.symm hb))
            ((List.mem_cons.mp htilde).resolve_left (Ne.symm hb'))
          exact hrest.imp (List.mem_cons_of_mem _) (List.mem_cons_of_mem _)

/-! ## What is returned -/

section Spec

variable {objects : Objects} {names : RefNames} {repo : Repository} {reflog : List ReflogEntry}

/-- git gives no ref for a text with an operator. -/
theorem notMem_of_ref
    (hexpression : ∀ spec ref, objects.expression repo reflog spec = .ok (.inl ref) →
      caret ∉ spec ∧ tilde ∉ spec) {str : Bytes} {rev : GitRev}
    (h : Git.revLookup objects names repo reflog str = .ok rev) {ref : Ref}
    (href : rev.ref = some ref) : caret ∉ str ∧ tilde ∉ str := by
  unfold Git.revLookup at h
  dsimp only at h
  split at h
  · next found hfound =>
      split at hfound
      · next hname =>
          unfold isNameSpec at hname
          simp only [Bool.and_eq_true] at hname
          have hbytes := List.all_eq_true.mp hname.1.2
          exact ⟨fun hmem => absurd (hbytes _ hmem) (by decide),
            fun hmem => absurd (hbytes _ hmem) (by decide)⟩
      · exact hexpression _ _ hfound
  · cases h
    cases href
  · cases h

/-- The text before the first `^` or the first `~`. -/
def Prefix (str name : Bytes) : Prop :=
  beforeByte caret str = some name ∨ beforeByte tilde str = some name

theorem skipRevLookup_ok {c : UInt8} {str : Bytes} {skipRev skipRev' : Option GitRev}
    (h : skipRevLookup objects names repo reflog c str skipRev = .ok skipRev') :
    (beforeByte c str = none ∧ skipRev' = skipRev) ∨
      ∃ name found, beforeByte c str = some name ∧
        Git.revLookup objects names repo reflog name = .ok found ∧ skipRev' = some found := by
  unfold skipRevLookup at h
  split at h
  · next name hname =>
      cases hfound : Git.revLookup objects names repo reflog name with
      | error e =>
          rw [hfound] at h
          cases h
      | ok found =>
          rw [hfound] at h
          cases h
          exact Or.inr ⟨name, found, hname, hfound, rfl⟩
  · next hname =>
      cases h
      exact Or.inl ⟨hname, rfl⟩

/-- A ref that the text without the suffix names. -/
theorem skipRevOf_ref {str : Bytes} {skipRev : GitRev} {ref : Ref}
    (h : skipRevOf objects names repo reflog str = .ok (some skipRev))
    (href : skipRev.ref = some ref) :
    skipRev = ref.toRev ∧ ∃ name, Prefix str name ∧
      Git.revLookup objects names repo reflog name = .ok ref.toRev := by
  have hnamed : ∀ name, Prefix str name →
      Git.revLookup objects names repo reflog name = .ok skipRev →
      skipRev = ref.toRev ∧ ∃ name, Prefix str name ∧
        Git.revLookup objects names repo reflog name = .ok ref.toRev := by
    intro name hname hfound
    have heq := toRev_of_revLookup hfound href
    exact ⟨heq, name, hname, heq ▸ hfound⟩
  unfold skipRevOf at h
  cases hfirst : skipRevLookup objects names repo reflog caret str none with
  | error e =>
      rw [hfirst] at h
      cases h
  | ok first =>
      rw [hfirst] at h
      change (if (first.bind GitRev.ref).isSome then pure first
        else skipRevLookup objects names repo reflog tilde str first) = .ok (some skipRev) at h
      have hofFirst : first = some skipRev → skipRev = ref.toRev ∧ ∃ name, Prefix str name ∧
          Git.revLookup objects names repo reflog name = .ok ref.toRev := by
        intro heq
        rcases skipRevLookup_ok hfirst with ⟨-, hnone⟩ | ⟨name, found, hname, hfound, hsome⟩
        · rw [heq] at hnone
          cases hnone
        · rw [heq, Option.some.injEq] at hsome
          exact hnamed name (Or.inl hname) (hsome ▸ hfound)
      split at h
      · cases h
        exact hofFirst rfl
      · rcases skipRevLookup_ok h with ⟨-, hsame⟩ | ⟨name, found, hname, hfound, hsome⟩
        · exact hofFirst hsame.symm
        · rw [Option.some.injEq] at hsome
          exact hnamed name (Or.inr hname) (hsome ▸ hfound)

/-- A ref that a prefix names is found: the other prefix, if it is looked up first, has an
operator. -/
theorem skipRevOf_named
    (hexpression : ∀ spec ref, objects.expression repo reflog spec = .ok (.inl ref) →
      caret ∉ spec ∧ tilde ∉ spec) {str name : Bytes} {ref : Ref} {skipRev : Option GitRev}
    (h : skipRevOf objects names repo reflog str = .ok skipRev) (hname : Prefix str name)
    (hfound : Git.revLookup objects names repo reflog name = .ok ref.toRev) :
    skipRev = some ref.toRev := by
  obtain ⟨hnoCaret, hnoTilde⟩ := notMem_of_ref hexpression hfound (rfl : ref.toRev.ref = some ref)
  unfold skipRevOf at h
  cases hfirst : skipRevLookup objects names repo reflog caret str none with
  | error e =>
      rw [hfirst] at h
      cases h
  | ok first =>
      rw [hfirst] at h
      change (if (first.bind GitRev.ref).isSome then pure first
        else skipRevLookup objects names repo reflog tilde str first) = .ok skipRev at h
      -- the prefix before `^` is looked up first
      rcases hname with hname | hname
      · rcases skipRevLookup_ok hfirst with ⟨hnone, -⟩ | ⟨name', found, hname', hfound', rfl⟩
        · rw [hname] at hnone
          cases hnone
        · rw [hname, Option.some.injEq] at hname'
          subst hname'
          rw [hfound, Except.ok.injEq] at hfound'
          subst hfound'
          cases h
          rfl
      · -- one of the two prefixes ends before the operator of the other, so only one is a name
        have hnotFirst : ¬(first.bind GitRev.ref).isSome = true := by
          rcases skipRevLookup_ok hfirst with ⟨-, rfl⟩ | ⟨name', found, hname', hfound', rfl⟩
          · simp
          · intro hsome
            obtain ⟨ref', href'⟩ := Option.isSome_iff_exists.mp hsome
            obtain ⟨-, hnoTilde'⟩ := notMem_of_ref hexpression hfound' href'
            rcases operator_mem hname' hname with hmem | hmem
            · exact hnoTilde' hmem
            · exact hnoCaret hmem
        rw [if_neg hnotFirst] at h
        rcases skipRevLookup_ok h with ⟨hnone, -⟩ | ⟨name', found, hname', hfound', rfl⟩
        · rw [hname] at hnone
          cases hnone
        · rw [hname, Option.some.injEq] at hname'
          subst hname'
          rw [hfound, Except.ok.injEq] at hfound'
          rw [hfound']

/-- What `_RevLookup` makes of the text without the suffix: the ref with the steps down to
the commit, or the commit by itself. -/
theorem revLookup_ok {str : Bytes} {rev : Rev}
    (h : revLookup objects names repo reflog str = .ok rev) :
    ∃ found, Git.revLookup objects names repo reflog str = .ok found ∧
      ((found.ref.isSome = true ∧ rev = ⟨found, 0, .allowed⟩) ∨
        (found.ref = none ∧ ∃ skipRev, skipRevOf objects names repo reflog str = .ok skipRev ∧
          ((∃ base ref skip, skipRev = some base ∧ base.ref = some ref ∧
              skipLoop found.commit base.commit.chain 0 = some skip ∧
              rev = ⟨base, skip, .allowed⟩) ∨
            ((∀ base ref, skipRev = some base → base.ref = some ref →
                found.commit ∉ base.commit.chain) ∧ rev = ⟨found, 0, .allowed⟩)))) := by
  unfold revLookup at h
  cases hfound : Git.revLookup objects names repo reflog str with
  | error e =>
      rw [hfound] at h
      cases h
  | ok found =>
      rw [hfound] at h
      refine ⟨found, rfl, ?_⟩
      dsimp only [bind, Except.bind] at h
      split at h
      · next hsome =>
          cases h
          exact Or.inl ⟨hsome, rfl⟩
      · next hnone =>
          have hnone : found.ref = none := by simpa using hnone
          cases hskip : skipRevOf objects names repo reflog str with
          | error e =>
              rw [hskip] at h
              cases h
          | ok skipRev =>
              rw [hskip] at h
              refine Or.inr ⟨hnone, skipRev, rfl, ?_⟩
              cases skipRev with
              | none =>
                  cases h
                  exact Or.inr ⟨fun base ref hbase => (nomatch hbase), rfl⟩
              | some base =>
                  dsimp only at h
                  split at h
                  · next hbase =>
                      obtain ⟨ref, href⟩ := Option.isSome_iff_exists.mp hbase
                      -- the steps are counted only if the prefix names a ref
                      cases hloop : skipLoop found.commit base.commit.chain 0 with
                      | some skip =>
                          rw [hloop] at h
                          cases h
                          exact Or.inl ⟨base, ref, skip, rfl, href, hloop, rfl⟩
                      | none =>
                          rw [hloop] at h
                          cases h
                          refine Or.inr ⟨fun base' ref' hbase' _ => ?_, rfl⟩
                          cases hbase'
                          exact skipLoop_none.mp hloop
                  · next hbase =>
                      cases h
                      refine Or.inr ⟨fun base' ref' hbase' href' => ?_, rfl⟩
                      cases hbase'
                      exact absurd (by rw [href']; rfl) hbase

/-- The `Rev` shows the commit that git resolves the text to; its ref is named by the text
or by its prefix, with the least number of steps from the ref to the commit; and a ref that
the prefix names and that has the commit on its chain is the ref of the `Rev`. -/
theorem revLookup_displays
    (hexpression : ∀ spec ref, objects.expression repo reflog spec = .ok (.inl ref) →
      caret ∉ spec ∧ tilde ∉ spec) {str : Bytes} {rev : Rev}
    (h : revLookup objects names repo reflog str = .ok rev) :
    ∃ found, Git.revLookup objects names repo reflog str = .ok found ∧
      rev.displayHead = some found.commit ∧
      (∀ ref, rev.ref = some ref →
        (∃ name, (name = str ∨ Prefix str name) ∧
          Git.revLookup objects names repo reflog name = .ok ref.toRev) ∧
        rev.commit = ref.commit ∧ ref.commit.chain[rev.skip]? = some found.commit ∧
        ∀ n < rev.skip, ref.commit.chain[n]? ≠ some found.commit) ∧
      ∀ name ref, Prefix str name →
        Git.revLookup objects names repo reflog name = .ok ref.toRev →
        found.commit ∈ ref.commit.chain → rev.ref = some ref := by
  have hzero : ∀ commit : Commit, commit.chain[0]? = some commit := by
    intro commit
    rw [← List.head?_eq_getElem?, Commit.head?_chain]
  obtain ⟨found, hfound, hcases⟩ := revLookup_ok h
  refine ⟨found, hfound, ?_⟩
  rcases hcases with ⟨hsome, rfl⟩ | ⟨hnone, skipRev, hskip, hcases⟩
  · -- the text itself names the ref, so it has no operator
    obtain ⟨ref, href⟩ := Option.isSome_iff_exists.mp hsome
    have htoRev := toRev_of_revLookup hfound href
    obtain ⟨hnoCaret, hnoTilde⟩ := notMem_of_ref hexpression hfound href
    subst htoRev
    refine ⟨hzero _, ?_, ?_⟩
    · intro ref' href'
      cases href'
      exact ⟨⟨str, Or.inl rfl, hfound⟩, rfl, hzero _, fun n hn => absurd hn (Nat.not_lt_zero n)⟩
    · intro name ref' hname
      rcases hname with hname | hname
      · exact absurd (beforeByte_eq_some hname).1 hnoCaret
      · exact absurd (beforeByte_eq_some hname).1 hnoTilde
  · rcases hcases with ⟨base, ref, skip, rfl, href, hloop, rfl⟩ | ⟨hoff, rfl⟩
    · -- the prefix names a ref with the commit on its chain
      obtain ⟨htoRev, name, hname, hnamed⟩ := skipRevOf_ref hskip href
      subst htoRev
      obtain ⟨k, hk, hget, hleast⟩ := skipLoop_some hloop
      rw [Nat.zero_add] at hk
      subst hk
      refine ⟨hget, ?_, ?_⟩
      · intro ref' href'
        cases href'
        exact ⟨⟨name, Or.inr hname, hnamed⟩, rfl, hget, hleast⟩
      · intro name' ref' hname' hnamed' _
        have heq := skipRevOf_named hexpression hskip hname' hnamed'
        rw [Option.some.injEq] at heq
        exact congrArg GitRev.ref heq
    · -- no prefix does
      refine ⟨hzero _, ?_, ?_⟩
      · intro ref href
        rw [show found.ref = some ref from href] at hnone
        cases hnone
      · intro name ref hname hnamed hmem
        exact absurd hmem
          (hoff ref.toRev ref (skipRevOf_named hexpression hskip hname hnamed) rfl)

end Spec

/-! ## The parent of a branch -/

namespace ParentOfMain

/-- A database where `main~1` is the root. -/
def objects : Objects :=
  { SameName.objects with
    expression := fun _ _ spec =>
      if spec = ascii "main~1" then .ok (.inr SameName.root) else .error .notFound }

def repository : Repository := SameName.repository [SameName.branch]

/-- `main~1` is the branch with one commit to skip. -/
theorem revLookup_parent :
    ∃ found, Git.revLookup objects plainNames repository [] (ascii "main~1") = .ok found ∧
      found.commit = SameName.root ∧
      (⟨SameName.branch.toRev, 1, .allowed⟩ : Rev).displayHead = some found.commit ∧
      ∀ n < 1, SameName.branch.commit.chain[n]? ≠ some found.commit := by
  have hexpression : ∀ spec ref, objects.expression repository [] spec = .ok (.inl ref) →
      caret ∉ spec ∧ tilde ∉ spec := by
    intro spec ref h
    change (if spec = ascii "main~1" then Except.ok (Sum.inr SameName.root)
      else Except.error ErrorCode.notFound) = Except.ok (Sum.inl ref) at h
    split at h
    · cases h
    · cases h
  have hlookup : revLookup objects plainNames repository [] (ascii "main~1") =
      .ok ⟨SameName.branch.toRev, 1, .allowed⟩ := rfl
  obtain ⟨found, hfound, hdisplay, href, -⟩ := revLookup_displays hexpression hlookup
  obtain ⟨-, -, -, hleast⟩ := href SameName.branch rfl
  refine ⟨found, hfound, ?_, hdisplay, hleast⟩
  cases hfound
  rfl

end ParentOfMain

end App
end Debase
