import Mathlib.Tactic.IntervalCases
import Debase.Git.Conflict
import Debase.Git.RefCalls

/-!
# Refs in the reflog

debase remembers a ref that it creates by two entries in the reflog of `HEAD`: a
checkout of the ref and one back to what `HEAD` was (`reflogRememberRef`).  An entry
is a line of text with the short names of refs, and `reflogRevForCheckoutEntry`
looks the last word of the line up as a revision.  What it finds there is a matter
of git's rules for short names.
-/

namespace Debase
namespace Git

open Library Toastbox

/-! ## The digits of an id -/

/-- A hex digit that is written is read. -/
theorem hexDigit_digit {d : Nat} (h : d < 16) :
    hexDigit (if d < 10 then UInt8.ofNat (48 + d) else UInt8.ofNat (87 + d)) = some d := by
  interval_cases d <;> decide

/-- The digits from the top down add up to the number. -/
theorem foldl_digits (n : Nat) {m : Nat} (hm : m ≤ 40) :
    ((List.range m).map fun i => n / 16 ^ (39 - i) % 16).foldl (fun n d => 16 * n + d) 0 =
      n / 16 ^ (40 - m) % 16 ^ m := by
  induction m with
  | zero => simp [Nat.mod_one]
  | succ m ih =>
      have hpow : 40 - m = 39 - m + 1 := by omega
      have hlow : 40 - (m + 1) = 39 - m := by omega
      rw [List.range_succ, List.map_append, List.foldl_append, ih (by omega), hpow, hlow,
        Nat.pow_succ, ← Nat.div_div_eq_div_mul, Nat.pow_succ, Nat.mul_comm (16 ^ m) 16,
        Nat.mod_mul]
      exact Nat.add_comm _ _

theorem length_stringFromId (id : Oid) : (stringFromId id).length = 40 := by
  unfold stringFromId
  rw [List.length_map, List.length_range]

/-- The text of an id is read as that id. -/
theorem idFromString_stringFromId (id : Oid) : idFromString (stringFromId id) = .ok id := by
  have hmap : ∀ l : List Nat, (l.map fun i =>
      let d := (id.toNat / 16 ^ (39 - i)) % 16
      if d < 10 then UInt8.ofNat (48 + d) else UInt8.ofNat (87 + d)).mapM hexDigit =
        some (l.map fun i => id.toNat / 16 ^ (39 - i) % 16) := by
    intro l
    induction l with
    | nil => rfl
    | cons i l ih =>
        rw [List.map_cons, List.mapM_cons, ih, hexDigit_digit (Nat.mod_lt _ (by omega))]
        rfl
  have hread : ((stringFromId id).take 40).mapM hexDigit =
      some ((List.range 40).map fun i => id.toNat / 16 ^ (39 - i) % 16) := by
    rw [List.take_of_length_le (length_stringFromId id).le]
    exact hmap _
  unfold idFromString
  rw [hread]
  dsimp only
  rw [if_pos (by simp), foldl_digits id.toNat (by omega)]
  have hlt : id.toNat < 16 ^ 40 := id.isLt
  rw [Nat.sub_self, Nat.pow_zero, Nat.div_one, Nat.mod_eq_of_lt hlt, BitVec.ofNat_toNat,
    BitVec.setWidth_eq]

/-- A digit of an id. -/
theorem mem_stringFromId {id : Oid} {b : UInt8} (h : b ∈ stringFromId id) :
    (48 ≤ b.toNat ∧ b.toNat ≤ 57) ∨ (97 ≤ b.toNat ∧ b.toNat ≤ 102) := by
  unfold stringFromId at h
  obtain ⟨i, -, rfl⟩ := List.mem_map.mp h
  have hd : (id.toNat / 16 ^ (39 - i)) % 16 < 16 := Nat.mod_lt _ (by omega)
  generalize (id.toNat / 16 ^ (39 - i)) % 16 = d at hd
  dsimp only
  interval_cases d <;> decide

/-! ## Names of revisions -/

/-- An entry of a reflog. -/
structure ReflogEntry where
  committer : Signature
  /-- The commit that the ref was moved to. -/
  commit : Commit
  message : Option Bytes

/-- What `git_revparse_ext` finds without looking at refs. -/
structure Objects where
  /-- The hash of a commit. -/
  id (commit : Commit) : Oid
  /-- The object with an id, peeled to a commit, if there is such an object. -/
  find (id : Oid) : Option (Except ErrorCode Commit)
  /-- `maybe_abbrev` and `maybe_describe`: an object by a part of its id. -/
  abbreviated (spec : Bytes) : Except ErrorCode Commit
  /-- What any other text is taken for: a ref, or else an object. -/
  expression (repo : Repository) (reflog : List ReflogEntry) (spec : Bytes) :
    Except ErrorCode (Ref ⊕ Commit)

/-- Bytes that cannot be in the name of a ref: control characters, blanks, and the
operators of revisions. -/
def isNameByte (b : UInt8) : Bool := 32 < b && b ≠ 126 && b ≠ 94 && b ≠ 58

/-- What git asks of the name of a ref, as far as it matters here. -/
structure ValidRefName (name : Bytes) : Prop where
  bytes : name.all isNameByte = true
  noReflog : ¬(ascii "@\x7b" <:+: name)
  last : ∃ b, name.getLast? = some b ∧ b ≠ 47

/-- The texts that `revparse` takes for a name and that can be one. -/
def isNameSpec (spec : Bytes) : Bool :=
  !spec.isEmpty && spec.all isNameByte && !decide (ascii "@\x7b" <:+: spec)

/-- The name that `revparse` looks up: a text that ends in `@` is replaced by `HEAD`
when the reader comes to its end. -/
def specName (spec : Bytes) : Bytes := if spec.getLast? = some 64 then headFile else spec

section Lookup

variable (strings : Strings) (objects : Objects) (names : RefNames) (repo : Repository)
  (reflog : List ReflogEntry)

/-- `maybe_sha`: 40 digits are the id of an object, if there is one. -/
def maybeSha (spec : Bytes) : Option (Except ErrorCode Commit) :=
  if spec.length = 40 then
    match idFromString spec with
    | .ok id => objects.find id
    | .error _ => none
  else none

/-- `revparse_lookup_object`. -/
def revparseLookupObject (spec : Bytes) : Except ErrorCode (Ref ⊕ Commit) :=
  match maybeSha objects spec with
  | some found => found.map Sum.inr
  | none =>
      match dwimLoop names repo (dwimNames spec) .notFound with
      | .ok ref => .ok (.inl ref)
      | .error .notFound => (objects.abbreviated spec).map Sum.inr
      | .error code => .error code

/-- The `Rev` of a ref. -/
def Ref.toRev (ref : Ref) : GitRev := ⟨ref.commit, some ref⟩

/-- `revLookup` (`git_revparse_ext`): the ref if there is one, or else the commit. -/
def revLookup (str : Bytes) : Except Exn GitRev :=
  let found :=
    if isNameSpec str then revparseLookupObject objects names repo (specName str)
    else objects.expression repo reflog str
  match found with
  | .ok (.inl ref) => .ok ref.toRev
  | .ok (.inr commit) => .ok ⟨commit, none⟩
  | .error code => .error (.gitError code)

/-- `"checkout: moving from "`. -/
def checkoutPrefix : Bytes := ascii "checkout: moving from "

/-- What follows the last blank. -/
def lastWord (s : Bytes) : Bytes := (s.reverse.takeWhile fun b => b ≠ 32).reverse

/-- The text up to the first `~` or `^`. -/
def withoutOperators (s : Bytes) : Bytes := s.takeWhile fun b => b ≠ 126 && b ≠ 94

/-- `_HEADSpecialPointer`. -/
def headSpecialPointer (name : Bytes) : Bool := strings.endsWith headFile name

@[simp] theorem headSpecialPointer_iff (name : Bytes) :
    headSpecialPointer strings name = true ↔ headFile <:+ name :=
  strings.endsWith_iff headFile name

/-- `reflogRevForCheckoutEntry`. -/
def reflogRevForCheckoutEntry (entry : ReflogEntry) : Except Exn GitRev :=
  match entry.message with
  | none => .error (.runtimeError "invalid message")
  | some msg =>
      if !strings.startsWith checkoutPrefix msg then .error (.runtimeError "not a checkout entry")
      else
        let revName := withoutOperators (lastWord msg)
        if headSpecialPointer strings revName then .error (.runtimeError "HEAD-based special pointer")
        else revLookup objects names repo reflog revName

/-- `headResolved`: any exception of the lookup in the reflog is caught. -/
def headResolved : Except Exn GitRev :=
  let reflogRev := (reflog.head?.map fun entry =>
    reflogRevForCheckoutEntry strings objects names repo reflog entry).bind Except.toOption
  match repo.headResolved reflogRev with
  | some rev => .ok rev
  | none => .error (.gitError .notFound)

end Lookup

/-! ## Writing entries -/

/-- The text that stands for a rev in an entry. -/
def revText (objects : Objects) (rev : GitRev) : Bytes :=
  match rev.ref with
  | some ref => ref.name
  | none => stringFromId (objects.id rev.commit)

/-- The entry that `Reflog::append` writes; libgit2 writes newlines as blanks. -/
def checkoutEntry (objects : Objects) (sig : Signature) (curr next : GitRev) : ReflogEntry where
  committer := sig
  commit := next.commit
  message := some ((checkoutPrefix ++ revText objects curr ++ ascii " to " ++
    revText objects next).map fun b => if b = newline then 32 else b)

/-- `Reflog::append`; the newest entry comes first. -/
def reflogAppend (objects : Objects) (reflog : List ReflogEntry) (sig : Signature)
    (curr next : GitRev) : List ReflogEntry :=
  checkoutEntry objects sig curr next :: reflog

/-- `reflogRememberRef`, with what `signatureCreateDefault` gives. -/
def rememberRef (strings : Strings) (objects : Objects) (names : RefNames)
    (repo : Repository) (reflog : List ReflogEntry) (sig : Except Exn Signature) (ref : Ref) :
    Except Exn (List ReflogEntry) := do
  let headRev ← headResolved strings objects names repo reflog
  let sig ← sig
  let reflog := reflogAppend objects reflog sig headRev ref.toRev
  pure (reflogAppend objects reflog sig ref.toRev headRev)

/-! ## The texts in an entry -/

theorem ne_of_isNameByte {b : UInt8} (h : isNameByte b = true) :
    b ≠ 10 ∧ b ≠ 32 ∧ b ≠ 126 ∧ b ≠ 94 := by
  unfold isNameByte at h
  simp only [Bool.and_eq_true, decide_eq_true_eq] at h
  obtain ⟨⟨⟨hlow, htilde⟩, hcaret⟩, -⟩ := h
  refine ⟨?_, ?_, htilde, hcaret⟩
  · rintro rfl
    exact absurd hlow (by decide)
  · rintro rfl
    exact absurd hlow (by decide)

theorem isNameByte_digit {b : UInt8}
    (h : (48 ≤ b.toNat ∧ b.toNat ≤ 57) ∨ (97 ≤ b.toNat ∧ b.toNat ≤ 102)) :
    isNameByte b = true := by
  have hne : ∀ c : UInt8, c.toNat = 126 ∨ c.toNat = 94 ∨ c.toNat = 58 → b ≠ c := by
    rintro c hc rfl
    omega
  unfold isNameByte
  simp only [Bool.and_eq_true, decide_eq_true_eq]
  refine ⟨⟨⟨?_, hne 126 (by decide)⟩, hne 94 (by decide)⟩, hne 58 (by decide)⟩
  rw [UInt8.lt_iff_toNat_lt]
  show 32 < b.toNat
  omega

theorem all_isNameByte_stringFromId (id : Oid) : (stringFromId id).all isNameByte = true := by
  rw [List.all_eq_true]
  exact fun b hb => isNameByte_digit (mem_stringFromId hb)

theorem lastWord_append (s : Bytes) {word : Bytes} (h : word.all isNameByte = true) :
    lastWord (s ++ 32 :: word) = word := by
  have hword : ∀ b ∈ word.reverse, decide (b ≠ (32 : UInt8)) = true := by
    intro b hb
    exact decide_eq_true (ne_of_isNameByte (List.all_eq_true.mp h b (List.mem_reverse.mp hb))).2.1
  unfold lastWord
  rw [List.reverse_append, List.reverse_cons, List.append_assoc,
    List.takeWhile_append_of_pos hword]
  simp

theorem withoutOperators_of_name {word : Bytes} (h : word.all isNameByte = true) :
    withoutOperators word = word := by
  unfold withoutOperators
  rw [List.takeWhile_eq_self_iff]
  intro b hb
  obtain ⟨-, -, htilde, hcaret⟩ := ne_of_isNameByte (List.all_eq_true.mp h b hb)
  simp [htilde, hcaret]

theorem map_newline_of_name {word : Bytes} (h : word.all isNameByte = true) :
    (word.map fun b => if b = newline then 32 else b) = word := by
  have hid : (word.map fun b => if b = newline then 32 else b) = word.map id := by
    apply List.map_congr_left
    intro b hb
    exact if_neg (ne_of_isNameByte (List.all_eq_true.mp h b hb)).1
  rw [hid, List.map_id]

namespace ValidRefName

/-- What follows a directory is a name. -/
theorem of_append {dir name : Bytes} (hdir : dir.getLast? = some 47)
    (h : ValidRefName (dir ++ name)) : ValidRefName name := by
  obtain ⟨b, hlast, hb⟩ := h.last
  have hne : name ≠ [] := by
    intro hnil
    rw [hnil, List.append_nil, hdir, Option.some.injEq] at hlast
    exact hb hlast.symm
  refine ⟨?_, fun hsub => h.noReflog (hsub.trans (List.suffix_append dir name).isInfix), b, ?_,
    hb⟩
  · have hall := h.bytes
    rw [List.all_append, Bool.and_eq_true] at hall
    exact hall.2
  · rwa [List.getLast?_append_of_ne_nil _ hne] at hlast

theorem shorthand {fullName : Bytes} (h : ValidRefName fullName) :
    ValidRefName (Ref.shorthand fullName) := by
  unfold Ref.shorthand
  split
  · next dir hfind =>
      have hprefix := List.find?_some hfind
      obtain ⟨name, rfl⟩ := List.isPrefixOf_iff_prefix.mp hprefix
      have hdir : dir.getLast? = some 47 := by
        have hmem := List.mem_of_find?_eq_some hfind
        simp only [List.mem_cons, List.not_mem_nil, or_false] at hmem
        rcases hmem with rfl | rfl | rfl | rfl <;> decide
      rw [List.drop_left]
      exact of_append hdir h
  · exact h

theorem isNameSpec {name : Bytes} (h : ValidRefName name) : Git.isNameSpec name = true := by
  obtain ⟨b, hlast, -⟩ := h.last
  have hne : name.isEmpty = false := by
    cases name with
    | nil => cases hlast
    | cons => rfl
  unfold Git.isNameSpec
  simp [hne, h.bytes, h.noReflog]

end ValidRefName

/-! ## What an entry decodes to -/

section Decode

variable {strings : Strings} {objects : Objects} {names : RefNames} {repo : Repository}
  {reflog : List ReflogEntry}

/-- An entry is decoded by the name it leads to. -/
theorem reflogRevForCheckoutEntry_eq (sig : Signature) (curr next : GitRev)
    (hname : (revText objects next).all isNameByte = true) :
    reflogRevForCheckoutEntry strings objects names repo reflog (checkoutEntry objects sig curr next) =
      if headSpecialPointer strings (revText objects next) then
        .error (.runtimeError "HEAD-based special pointer")
      else revLookup objects names repo reflog (revText objects next) := by
  -- the prefix and the last word are as they were before libgit2 replaced the newlines
  have hmsg : (checkoutPrefix ++ revText objects curr ++ ascii " to " ++
      revText objects next).map (fun b => if b = newline then 32 else b) =
        checkoutPrefix ++ ((revText objects curr).map (fun b => if b = newline then 32 else b) ++
          ascii " to") ++ 32 :: revText objects next := by
    rw [List.map_append, List.map_append, List.map_append, map_newline_of_name hname]
    have hfixed : checkoutPrefix.map (fun b => if b = newline then 32 else b) = checkoutPrefix := by
      decide +kernel
    have hto : (ascii " to ").map (fun b => if b = newline then 32 else b) =
        ascii " to" ++ [32] := by
      decide +kernel
    rw [hfixed, hto]
    simp
  have hstarts : ∀ rest : Bytes,
      strings.startsWith checkoutPrefix (checkoutPrefix ++ rest) = true :=
    fun rest => (strings.startsWith_iff _ _).mpr (List.prefix_append _ rest)
  unfold reflogRevForCheckoutEntry checkoutEntry
  rw [hmsg]
  dsimp only
  rw [lastWord_append _ hname, withoutOperators_of_name hname, List.append_assoc, hstarts]
  rfl

/-- What a name that git tries stands for. -/
def named (names : RefNames) (repo : Repository) (refname : Bytes) : Option Ref :=
  if names.isValid refname then (names.normalize refname).bind repo.lookupResolved else none

/-- The first of the names that stands for a ref stands for this one. -/
def FoundFirst (names : RefNames) (repo : Repository) (refnames : List Bytes) (ref : Ref) : Prop :=
  ∃ before refname after, refnames = before ++ refname :: after ∧
    (∀ f ∈ before, named names repo f = none) ∧ named names repo refname = some ref

theorem dwimLoop_cons (f : Bytes) (l : List Bytes) (code : ErrorCode) :
    (∃ ref, named names repo f = some ref ∧ dwimLoop names repo (f :: l) code = .ok ref) ∨
      (named names repo f = none ∧
        ∃ code', dwimLoop names repo (f :: l) code = dwimLoop names repo l code') := by
  have hloop : dwimLoop names repo (f :: l) code =
      if names.isValid f then
        match (names.normalize f).bind repo.lookupResolved with
        | some ref => .ok ref
        | none => dwimLoop names repo l .notFound
      else dwimLoop names repo l .invalidSpec := rfl
  rw [hloop]
  unfold named
  by_cases hvalid : names.isValid f = true
  · rw [if_pos hvalid, if_pos hvalid]
    cases (names.normalize f).bind repo.lookupResolved with
    | some ref => exact Or.inl ⟨ref, rfl, rfl⟩
    | none => exact Or.inr ⟨rfl, .notFound, rfl⟩
  · rw [if_neg hvalid, if_neg hvalid]
    exact Or.inr ⟨rfl, .invalidSpec, rfl⟩

/-- `git_reference_dwim` finds the first ref. -/
theorem dwimLoop_ok_iff {l : List Bytes} (code : ErrorCode) {ref : Ref} :
    dwimLoop names repo l code = .ok ref ↔ FoundFirst names repo l ref := by
  induction l generalizing code with
  | nil =>
      constructor
      · intro h
        cases h
      · rintro ⟨before, refname, after, h, -⟩
        simp at h
  | cons f l ih =>
      rcases dwimLoop_cons f l code with ⟨ref', hnamed, hloop⟩ | ⟨hnamed, code', hloop⟩
      · rw [hloop, Except.ok.injEq]
        constructor
        · rintro rfl
          exact ⟨[], f, l, rfl, by simp, hnamed⟩
        · rintro ⟨_ | ⟨g, before⟩, refname, after, heq, hnone, hsome⟩
          · rw [List.nil_append, List.cons.injEq] at heq
            rw [← heq.1, hnamed, Option.some.injEq] at hsome
            exact hsome
          · rw [List.cons_append, List.cons.injEq] at heq
            have hg := hnone g List.mem_cons_self
            rw [← heq.1, hnamed] at hg
            cases hg
      · rw [hloop, ih]
        constructor
        · rintro ⟨before, refname, after, heq, hnone, hsome⟩
          exact ⟨f :: before, refname, after, by rw [heq, List.cons_append],
            List.forall_mem_cons.mpr ⟨hnamed, hnone⟩, hsome⟩
        · rintro ⟨_ | ⟨g, before⟩, refname, after, heq, hnone, hsome⟩
          · rw [List.nil_append, List.cons.injEq] at heq
            rw [← heq.1, hnamed] at hsome
            cases hsome
          · rw [List.cons_append, List.cons.injEq] at heq
            exact ⟨before, refname, after, heq.2, fun f hf => hnone f (List.mem_cons_of_mem _ hf),
              hsome⟩

/-- git finds the ref by its short name: the name does not end in `HEAD`, is not the
id of an object, and no other ref is tried before. -/
structure FoundByName (objects : Objects) (names : RefNames) (repo : Repository) (ref : Ref) :
    Prop where
  notHead : ¬headFile <:+ ref.name
  notId : maybeSha objects (specName ref.name) = none
  first : FoundFirst names repo (dwimNames (specName ref.name)) ref

/-- A rev with a ref comes from the lookup of that ref. -/
theorem toRev_of_revLookup {str : Bytes} {rev : GitRev} {ref : Ref}
    (h : revLookup objects names repo reflog str = .ok rev) (href : rev.ref = some ref) :
    rev = ref.toRev := by
  unfold revLookup at h
  dsimp only at h
  split at h
  · cases h
    cases href
    rfl
  · cases h
    cases href
  · cases h

/-- A valid name is looked up as a ref exactly when the ref is the first that is tried
and the name is not an id. -/
theorem revLookup_iff {name : Bytes} (hname : ValidRefName name) {ref : Ref} :
    revLookup objects names repo reflog name = .ok ref.toRev ↔
      maybeSha objects (specName name) = none ∧
        FoundFirst names repo (dwimNames (specName name)) ref := by
  unfold revLookup
  rw [hname.isNameSpec, if_pos rfl]
  unfold revparseLookupObject
  cases hsha : maybeSha objects (specName name) with
  -- an id is looked up before the names, and it names no ref
  | some found =>
      constructor
      · intro h
        cases found with
        | ok commit => cases h
        | error code => cases h
      · rintro ⟨hnone, -⟩
        cases hnone
  | none =>
      rw [← dwimLoop_ok_iff .notFound]
      cases hdwim : dwimLoop names repo (dwimNames (specName name)) .notFound with
      | ok found =>
          dsimp only
          constructor
          · intro h
            have hrev : found.toRev = ref.toRev := Except.ok.inj h
            have href : some found = some ref := congrArg GitRev.ref hrev
            rw [Option.some.injEq] at href
            rw [href]
            exact ⟨rfl, rfl⟩
          · rintro ⟨-, h⟩
            cases h
            rfl
      | error code =>
          constructor
          · intro h
            cases code with
            | notFound =>
                -- what an abbreviated id finds is a commit, and no ref
                dsimp only at h
                cases hab : objects.abbreviated (specName name) with
                | ok commit =>
                    rw [hab] at h
                    cases h
                | error e =>
                    rw [hab] at h
                    cases h
            | _ => cases h
          · rintro ⟨-, h⟩
            cases h

/-- The entry of a ref decodes to the ref exactly when its short name finds it. -/
theorem decode_iff (sig : Signature) (curr : GitRev) {ref : Ref}
    (hvalid : ValidRefName ref.fullName) :
    reflogRevForCheckoutEntry strings objects names repo reflog
        (checkoutEntry objects sig curr ref.toRev) = .ok ref.toRev ↔
      FoundByName objects names repo ref := by
  have hname : ValidRefName ref.name := hvalid.shorthand
  rw [reflogRevForCheckoutEntry_eq sig curr ref.toRev hname.bytes]
  show (if headSpecialPointer strings ref.name then _ else revLookup objects names repo reflog ref.name) = _
    ↔ _
  by_cases hhead : headSpecialPointer strings ref.name = true
  · rw [if_pos hhead]
    constructor
    · intro h
      cases h
    · exact fun h => absurd ((headSpecialPointer_iff strings _).mp hhead) h.notHead
  · rw [if_neg hhead, revLookup_iff hname]
    constructor
    · rintro ⟨hid, hfirst⟩
      exact ⟨fun hsuffix => hhead ((headSpecialPointer_iff strings _).mpr hsuffix), hid, hfirst⟩
    · exact fun h => ⟨h.notId, h.first⟩

/-- What an entry decodes to was looked up. -/
theorem exists_revLookup {entry : ReflogEntry} {rev : GitRev}
    (h : reflogRevForCheckoutEntry strings objects names repo reflog entry = .ok rev) :
    ∃ str, revLookup objects names repo reflog str = .ok rev := by
  unfold reflogRevForCheckoutEntry at h
  split at h
  · cases h
  · split at h
    · cases h
    · dsimp only at h
      split at h
      · cases h
      · exact ⟨_, h⟩

/-- The text of an id. -/
theorem isNameSpec_stringFromId (id : Oid) : isNameSpec (stringFromId id) = true := by
  have hne : (stringFromId id).isEmpty = false := by
    rw [List.isEmpty_eq_false_iff, ← List.length_pos_iff, length_stringFromId]
    omega
  have hat : ¬(ascii "@\x7b" <:+: stringFromId id) := by
    intro hsub
    have hmem : (64 : UInt8) ∈ stringFromId id := hsub.subset (by decide)
    exact absurd (mem_stringFromId hmem) (by decide)
  unfold isNameSpec
  simp [hne, all_isNameByte_stringFromId, hat]

/-- The text of an id is looked up as its object. -/
theorem revLookup_stringFromId {id : Oid} {commit : Commit}
    (hfind : objects.find id = some (.ok commit)) :
    revLookup objects names repo reflog (stringFromId id) = .ok ⟨commit, none⟩ := by
  have hspec : specName (stringFromId id) = stringFromId id := by
    unfold specName
    rw [if_neg]
    intro hlast
    exact absurd (mem_stringFromId (List.mem_of_getLast? hlast)) (by decide)
  have hsha : maybeSha objects (stringFromId id) = some (.ok commit) := by
    unfold maybeSha
    rw [if_pos (length_stringFromId id), idFromString_stringFromId]
    exact hfind
  unfold revLookup
  rw [isNameSpec_stringFromId, if_pos rfl, hspec]
  unfold revparseLookupObject
  rw [hsha]
  rfl

/-- The entry of a commit without a ref decodes to that commit. -/
theorem decode_commit (sig : Signature) (curr : GitRev) {commit : Commit}
    (hfind : objects.find (objects.id commit) = some (.ok commit)) :
    reflogRevForCheckoutEntry strings objects names repo reflog
      (checkoutEntry objects sig curr ⟨commit, none⟩) = .ok ⟨commit, none⟩ := by
  have hhead : headSpecialPointer strings (stringFromId (objects.id commit)) = false := by
    cases h : headSpecialPointer strings (stringFromId (objects.id commit)) with
    | false => rfl
    | true =>
        have hmem : (72 : UInt8) ∈ stringFromId (objects.id commit) :=
          ((headSpecialPointer_iff strings _).mp h).subset (by decide)
        exact absurd (mem_stringFromId hmem) (by decide)
  rw [reflogRevForCheckoutEntry_eq sig curr ⟨commit, none⟩
    (all_isNameByte_stringFromId _)]
  show (if headSpecialPointer strings (stringFromId (objects.id commit)) then _ else
    revLookup objects names repo reflog (stringFromId (objects.id commit))) = _
  rw [hhead, if_neg (by simp), revLookup_stringFromId hfind]

/-! ## The names of refs that are found -/

theorem validRefName_headFile : ValidRefName headFile where
  bytes := by decide
  noReflog := by decide
  last := ⟨68, by decide, by decide⟩

/-- The names of the refs are names for git. -/
def Repository.ValidNames (repo : Repository) : Prop :=
  ∀ k, (repo.refs k).isSome → ValidRefName k

theorem Repository.ValidNames.lookupResolved (h : repo.ValidNames) {k : Bytes} {ref : Ref}
    (hlookup : repo.lookupResolved k = some ref) : ValidRefName ref.fullName := by
  have hrefs : ∀ b, (repo.refs b).map (fun t => t.handle b) = some ref →
      ValidRefName ref.fullName := by
    intro b hb
    obtain ⟨t, ht, rfl⟩ := Option.map_eq_some_iff.mp hb
    exact h b (by rw [ht]; rfl)
  unfold Repository.lookupResolved at hlookup
  split at hlookup
  · split at hlookup
    · exact hrefs _ hlookup
    · cases hlookup
      exact validRefName_headFile
  · exact hrefs _ hlookup

/-- A revision names refs of the repository only. -/
theorem validRefName_of_revLookup (hnames : repo.ValidNames)
    (hexpression : ∀ spec ref, objects.expression repo reflog spec = .ok (.inl ref) →
      ValidRefName ref.fullName) {str : Bytes} {rev : GitRev} {ref : Ref}
    (h : revLookup objects names repo reflog str = .ok rev) (href : rev.ref = some ref) :
    ValidRefName ref.fullName := by
  unfold revLookup at h
  dsimp only at h
  split at h
  · next found hfound =>
      cases h
      cases href
      split at hfound
      · unfold revparseLookupObject at hfound
        split at hfound
        · next found' _ =>
            cases found' with
            | ok commit => cases hfound
            | error code => cases hfound
        · split at hfound
          · next hdwim =>
              cases hfound
              -- only the names of refs find a ref
              obtain ⟨before, refname, after, -, -, hnamed⟩ := (dwimLoop_ok_iff .notFound).mp hdwim
              unfold named at hnamed
              split at hnamed
              · obtain ⟨m, -, hm⟩ := Option.bind_eq_some_iff.mp hnamed
                exact hnames.lookupResolved hm
              · cases hnamed
          · cases hab : objects.abbreviated (specName str) with
            | ok commit =>
                rw [hab] at hfound
                cases hfound
            | error e =>
                rw [hab] at hfound
                cases hfound
          · cases hfound
      · exact hexpression _ _ hfound
  · cases h
    cases href
  · cases h

/-! ## Remembering a ref -/

/-- `HEAD` is at a branch or a tag, and not detached. -/
def headAttached (repo : Repository) : Bool :=
  (repo.lookupResolved headFile).any fun head => head.isBranch || head.isTag

/-- The rev of `HEAD` where it is attached. -/
theorem headResolved_attached (h : headAttached repo = true)
    (reflog reflog' : List ReflogEntry) :
    headResolved strings objects names repo reflog' =
      headResolved strings objects names repo reflog := by
  unfold headAttached at h
  unfold headResolved Repository.headResolved
  cases hlookup : repo.lookupResolved headFile with
  | none => rfl
  | some head =>
      rw [hlookup, Option.any_some] at h
      simp only [Option.map_some, h, if_true]

/-- The rev of a detached `HEAD`: what the newest entry of the reflog decodes to, if that
is a ref with the commit of `HEAD`. -/
theorem headResolved_detached {head : Ref} (hlookup : repo.lookupResolved headFile = some head)
    (h : headAttached repo = false) :
    headResolved strings objects names repo reflog = .ok
      (match (reflog.head?.map fun entry =>
          reflogRevForCheckoutEntry strings objects names repo reflog entry).bind Except.toOption with
        | some rev => if rev.ref.isSome && rev.commit = head.commit then rev
            else ⟨head.commit, none⟩
        | none => ⟨head.commit, none⟩) := by
  unfold headAttached at h
  rw [hlookup, Option.any_some] at h
  unfold headResolved Repository.headResolved
  rw [hlookup]
  have hrev : ∀ a b : GitRev, (if head.isBranch || head.isTag then a else b) = b := by
    intro a b
    rw [h]
    rfl
  exact congrArg Except.ok (hrev _ _)

/-- What `headResolved` gives for a detached `HEAD`, from its newest entry. -/
theorem headResolved_cons {head : Ref} (hlookup : repo.lookupResolved headFile = some head)
    (h : headAttached repo = false) {entry : ReflogEntry} {rest : List ReflogEntry} {rev : GitRev}
    {ref : Ref} (href : rev.ref = some ref) :
    headResolved strings objects names repo (entry :: rest) = .ok rev ↔
      reflogRevForCheckoutEntry strings objects names repo (entry :: rest) entry = .ok rev ∧
        rev.commit = head.commit := by
  rw [headResolved_detached hlookup h, List.head?_cons, Option.map_some, Option.bind_some,
    Except.ok.injEq]
  have hplain : (⟨head.commit, none⟩ : GitRev) ≠ rev := by
    rintro rfl
    cases href
  cases hdecode : reflogRevForCheckoutEntry strings objects names repo (entry :: rest) entry with
  | error e =>
      constructor
      · exact fun heq => absurd heq hplain
      · rintro ⟨heq, -⟩
        cases heq
  | ok rev' =>
      show (if rev'.ref.isSome && decide (rev'.commit = head.commit) then rev'
        else ⟨head.commit, none⟩) = rev ↔ _
      rw [Except.ok.injEq]
      split
      · next htaken =>
          rw [Bool.and_eq_true, decide_eq_true_eq] at htaken
          exact ⟨fun heq => ⟨heq, heq ▸ htaken.2⟩, And.left⟩
      · next hnot =>
          constructor
          · exact fun heq => absurd heq hplain
          · rintro ⟨rfl, hcommit⟩
            exact absurd (by simp [href, hcommit]) hnot

/-- The rev of `HEAD` has the commit of `HEAD`. -/
theorem commit_headResolved {head : Ref} (hlookup : repo.lookupResolved headFile = some head)
    {rev : GitRev} (h : headResolved strings objects names repo reflog = .ok rev) :
    rev.commit = head.commit := by
  cases hattached : headAttached repo with
  | true =>
      unfold headAttached at hattached
      rw [hlookup, Option.any_some] at hattached
      unfold headResolved Repository.headResolved at h
      rw [hlookup] at h
      simp only [Option.map_some, hattached, if_true] at h
      cases h
      rfl
  | false =>
      rw [headResolved_detached hlookup hattached, Except.ok.injEq] at h
      split at h
      · split at h
        · next htaken =>
            rw [Bool.and_eq_true, decide_eq_true_eq] at htaken
            rw [← h]
            exact htaken.2
        · rw [← h]
      · rw [← h]

/-- The ref of a detached `HEAD` was looked up. -/
theorem toRev_headResolved {head : Ref} (hlookup : repo.lookupResolved headFile = some head)
    (h : headAttached repo = false) {rev : GitRev} {ref : Ref}
    (hrev : headResolved strings objects names repo reflog = .ok rev) (href : rev.ref = some ref) :
    rev = ref.toRev ∧ ∃ str, revLookup objects names repo reflog str = .ok rev := by
  cases reflog with
  | nil =>
      rw [headResolved_detached hlookup h, Except.ok.injEq] at hrev
      rw [← hrev] at href
      cases href
  | cons entry rest =>
      obtain ⟨hdecode, -⟩ := (headResolved_cons hlookup h href).mp hrev
      obtain ⟨str, hstr⟩ := exists_revLookup hdecode
      exact ⟨toRev_of_revLookup hstr href, str, hstr⟩

/-- Remembering a ref leaves the rev of `HEAD` as it is exactly when `HEAD` is attached,
has no ref, or has a ref that its short name finds. -/
theorem headResolved_remembered {head : Ref}
    (hlookup : repo.lookupResolved headFile = some head)
    (hid : objects.find (objects.id head.commit) = some (.ok head.commit))
    {headRev : GitRev} (hbefore : headResolved strings objects names repo reflog = .ok headRev)
    (hvalid : ∀ r, headRev.ref = some r → ValidRefName r.fullName) (sig : Signature)
    (curr : GitRev) (rest : List ReflogEntry) :
    headResolved strings objects names repo (checkoutEntry objects sig curr headRev :: rest) =
        .ok headRev ↔
      headAttached repo = true ∨ ∀ r, headRev.ref = some r → FoundByName objects names repo r := by
  cases hattached : headAttached repo with
  | true =>
      rw [headResolved_attached hattached reflog, hbefore]
      exact ⟨fun _ => Or.inl rfl, fun _ => rfl⟩
  | false =>
      have hcommit := commit_headResolved hlookup hbefore
      cases href : headRev.ref with
      | none =>
          obtain ⟨commit, ref⟩ := headRev
          dsimp only at href hcommit
          subst href
          subst hcommit
          rw [headResolved_detached hlookup hattached, List.head?_cons, Option.map_some,
            Option.bind_some, decode_commit sig curr hid]
          refine ⟨fun _ => Or.inr fun r hr => ?_, fun _ => rfl⟩
          cases hr
      | some r =>
          obtain ⟨htoRev, -⟩ := toRev_headResolved hlookup hattached hbefore href
          rw [headResolved_cons hlookup hattached href]
          rw [htoRev] at hcommit ⊢
          rw [decode_iff sig curr (hvalid r href)]
          constructor
          · rintro ⟨hfound, -⟩
            refine Or.inr fun r' hr' => ?_
            rw [Option.some.injEq] at hr'
            exact hr' ▸ hfound
          · intro h
            exact ⟨(h.resolve_left (by simp)) r rfl, hcommit⟩

/-- Remembering a ref with a signature fails where the calls of `reflogRememberRef` do. -/
theorem rememberRef_ok_iff (sig : Signature) (ref : Ref) :
    (∃ reflog', rememberRef strings objects names repo reflog (.ok sig) ref = .ok reflog') ↔
      reflogRememberRef none ref repo = (.ok (), repo) := by
  have hcommit : repo.headCommit = (repo.lookupResolved headFile).map Ref.commit := by
    unfold Repository.headCommit Repository.lookup Repository.lookupResolved
    rw [if_pos rfl, if_pos rfl]
    cases repo.head with
    | attached b =>
        dsimp only
        rw [Option.map_map, Option.map_map]
        rfl
    | detached commit => rfl
  have hcalls : ∀ commit : Option Commit, repo.headCommit = commit →
      (reflogRememberRef none ref repo = (.ok (), repo) ↔ commit.isSome = true) := by
    intro commit h
    unfold reflogRememberRef call
    rw [pure_bind, Program.bind_run_ok (Program.read_run repo), h]
    cases commit with
    | none =>
        constructor
        · intro hrun
          cases hrun
        · intro hsome
          cases hsome
    | some commit => exact ⟨fun _ => rfl, fun _ => rfl⟩
  rw [hcalls _ hcommit, Option.isSome_map]
  unfold rememberRef headResolved Repository.headResolved
  cases repo.lookupResolved headFile with
  | none =>
      constructor
      · intro h
        obtain ⟨reflog', h⟩ := h
        cases h
      · intro h
        cases h
  | some head => exact ⟨fun _ => rfl, fun _ => ⟨_, rfl⟩⟩

/-- The ref that `HEAD` resolves to has a valid name. -/
theorem validRefName_headResolved (hnames : repo.ValidNames)
    (hexpression : ∀ spec ref, objects.expression repo reflog spec = .ok (.inl ref) →
      ValidRefName ref.fullName) {head : Ref}
    (hlookup : repo.lookupResolved headFile = some head) {rev : GitRev} {ref : Ref}
    (h : headResolved strings objects names repo reflog = .ok rev) (href : rev.ref = some ref) :
    ValidRefName ref.fullName := by
  cases hattached : headAttached repo with
  | true =>
      unfold headAttached at hattached
      rw [hlookup, Option.any_some] at hattached
      unfold headResolved Repository.headResolved at h
      rw [hlookup] at h
      simp only [Option.map_some, hattached, if_true] at h
      cases h
      cases href
      exact hnames.lookupResolved hlookup
  | false =>
      obtain ⟨-, str, hstr⟩ := toRev_headResolved hlookup hattached h href
      exact validRefName_of_revLookup hnames hexpression hstr href

/-- A ref that is remembered is found again exactly when git finds it by its short name;
and the rev of `HEAD` stays what it is exactly when `HEAD` is attached, has no ref, or
has a ref that git finds by its short name. -/
theorem rememberRef_iff (hnames : repo.ValidNames)
    (hexpression : ∀ spec ref, objects.expression repo reflog spec = .ok (.inl ref) →
      ValidRefName ref.fullName)
    (hids : ∀ head, repo.lookupResolved headFile = some head →
      objects.find (objects.id head.commit) = some (.ok head.commit))
    {ref : Ref} (href : repo.refs ref.fullName = some ref.target) {sig : Except Exn Signature}
    {reflog' : List ReflogEntry}
    (h : rememberRef strings objects names repo reflog sig ref = .ok reflog') :
    ∃ headRev entry back, headResolved strings objects names repo reflog = .ok headRev ∧
      reflog' = back :: entry :: reflog ∧
      ((∃ rev, reflogRevForCheckoutEntry strings objects names repo reflog' entry = .ok rev ∧
          rev.ref = some ref) ↔ FoundByName objects names repo ref) ∧
      (headResolved strings objects names repo reflog' = .ok headRev ↔
        headAttached repo = true ∨
          ∀ r, headRev.ref = some r → FoundByName objects names repo r) := by
  have hvalid : ValidRefName ref.fullName := hnames ref.fullName (by rw [href]; rfl)
  unfold rememberRef at h
  cases hbefore : headResolved strings objects names repo reflog with
  | error e =>
      rw [hbefore] at h
      cases h
  | ok headRev =>
      rw [hbefore] at h
      cases sig with
      | error e => cases h
      | ok sig =>
          cases h
          obtain ⟨head, hlookup⟩ : ∃ head, repo.lookupResolved headFile = some head := by
            cases hlookup : repo.lookupResolved headFile with
            | some head => exact ⟨head, rfl⟩
            | none =>
                unfold headResolved Repository.headResolved at hbefore
                rw [hlookup] at hbefore
                cases hbefore
          refine ⟨headRev, checkoutEntry objects sig headRev ref.toRev,
            checkoutEntry objects sig ref.toRev headRev, rfl, rfl, ?_, ?_⟩
          · -- the entry that checks out the ref comes second
            rw [← decode_iff sig headRev hvalid]
            constructor
            · rintro ⟨rev, hdecode, hrev⟩
              obtain ⟨str, hstr⟩ := exists_revLookup hdecode
              rw [toRev_of_revLookup hstr hrev] at hdecode
              exact hdecode
            · exact fun hdecode => ⟨ref.toRev, hdecode, rfl⟩
          · -- the entry that goes back to the head comes first
            exact headResolved_remembered hlookup (hids head hlookup) hbefore
              (fun r hr => validRefName_headResolved hnames hexpression hlookup hbefore hr)
              sig ref.toRev _

end Decode

/-! ## A tag and a branch of one name -/

namespace SameName

def person : Signature := ⟨ascii "a", ascii "a@a", ⟨0, 0⟩⟩

def root : Commit := .mk ⟨1⟩ [] ⟨person, person, none, ascii "root", []⟩

def top : Commit := .mk ⟨1⟩ [root] ⟨person, person, none, ascii "top", []⟩

/-- A database with the two commits. -/
def objects : Objects where
  id commit := if commit = root then 1 else 2
  find id := if id = 1 then some (.ok root) else if id = 2 then some (.ok top) else none
  abbreviated _ := .error .notFound
  expression _ _ _ := .error .other

def branch : Ref := ⟨ascii "refs/heads/main", top, none⟩

def release : Ref := ⟨ascii "refs/tags/v1", top, none⟩

/-- A tag with the short name of the branch. -/
def tag : Ref := ⟨ascii "refs/tags/main", root, none⟩

/-- The refs of a list, with a detached `HEAD`. -/
def repository (refs : List Ref) : Repository where
  refs k := (refs.find? fun ref => ref.fullName = k).map Ref.target
  head := .detached top
  upstreams _ := none

/-- The newest entry of a reflog. -/
def moved (message : String) : List ReflogEntry :=
  [⟨person, top, some (ascii message)⟩]

theorem validNames_repository {refs : List Ref}
    (h : ∀ ref ∈ refs, ValidRefName ref.fullName) : (repository refs).ValidNames := by
  intro k hk
  unfold repository at hk
  rw [Option.isSome_map] at hk
  obtain ⟨ref, hfind⟩ := Option.isSome_iff_exists.mp hk
  have hname := List.find?_some hfind
  rw [decide_eq_true_eq] at hname
  exact hname ▸ h ref (List.mem_of_find?_eq_some hfind)

/-- With the tag `v1` checked out, the branch is remembered and `HEAD` stays at the tag. -/
theorem rememberRef_branch :
    ∃ headRev entry back,
      headResolved .plain objects plainNames (repository [branch, release])
          (moved "checkout: moving from main to v1") = .ok headRev ∧
        headRev.ref = some release ∧
        (∃ rev, reflogRevForCheckoutEntry .plain objects plainNames (repository [branch, release])
            (back :: entry :: moved "checkout: moving from main to v1") entry = .ok rev ∧
          rev.ref = some branch) ∧
        headResolved .plain objects plainNames (repository [branch, release])
          (back :: entry :: moved "checkout: moving from main to v1") = .ok headRev := by
  have hnames : (repository [branch, release]).ValidNames := by
    apply validNames_repository
    intro ref hmem
    rcases List.mem_cons.mp hmem with rfl | hmem
    · exact ⟨rfl, by decide, ⟨110, by decide, by decide⟩⟩
    · rw [List.mem_singleton.mp hmem]
      exact ⟨rfl, by decide, ⟨49, by decide, by decide⟩⟩
  have hbranch : FoundByName objects plainNames (repository [branch, release]) branch :=
    ⟨by decide, by decide, (dwimLoop_ok_iff .notFound).mp rfl⟩
  have hrelease : FoundByName objects plainNames (repository [branch, release]) release :=
    ⟨by decide, by decide, (dwimLoop_ok_iff .notFound).mp rfl⟩
  obtain ⟨headRev, entry, back, hbefore, hreflog, hdecode, hafter⟩ :=
    @rememberRef_iff .plain objects plainNames (repository [branch, release])
      (moved "checkout: moving from main to v1") hnames
      (fun _ _ h => nomatch h) (by intro head h; cases h; rfl) branch rfl (.ok person) _ rfl
  rw [hreflog] at hdecode hafter
  cases hbefore
  refine ⟨_, entry, back, rfl, rfl, hdecode.mpr hbranch, hafter.mpr (Or.inr fun r hr => ?_)⟩
  cases hr
  exact hrelease

/-- With a tag of its name, the entry of the branch decodes to the tag; and `HEAD`, which
was detached at the branch, is not seen at the branch any more. -/
theorem rememberRef_shadowed :
    ∃ entry back,
      rememberRef .plain objects plainNames (repository [branch, tag])
          (moved "checkout: moving from v1 to heads/main") (.ok person) branch =
        .ok (back :: entry :: moved "checkout: moving from v1 to heads/main") ∧
      reflogRevForCheckoutEntry .plain objects plainNames (repository [branch, tag])
          (back :: entry :: moved "checkout: moving from v1 to heads/main") entry =
        .ok ⟨root, some tag⟩ ∧
      headResolved .plain objects plainNames (repository [branch, tag])
          (moved "checkout: moving from v1 to heads/main") = .ok ⟨top, some branch⟩ ∧
      headResolved .plain objects plainNames (repository [branch, tag])
          (back :: entry :: moved "checkout: moving from v1 to heads/main") =
        .ok ⟨top, none⟩ :=
  ⟨_, _, rfl, rfl, rfl, rfl⟩

end SameName

end Git
end Debase
