import Debase.Library.Comparison
import Debase.State.NextSession

/-!
# Cleaning snapshots

`_CleanSnapshots` keeps the earliest snapshot of each state in a map that is ordered by
`RefState::operator <`, and sorts what is left by `Snapshot::operator <`.  Both are strict total
orders, so the result is known from the set of the snapshots.
-/

namespace Debase
namespace State

open Git Library

section Clean

variable {κ : Type} [DecidableEq κ] (ids : CommitIds κ)

/-- `earliestSnapshot`. -/
abbrev SnapshotMap : Type := Std.TreeMap (RefState κ) (Snapshot κ) (compareOf (RefState.less ids))

/-- The body of the first loop of `_CleanSnapshots`. -/
def putEarliest (earliestSnapshot : SnapshotMap ids) (snap : Snapshot κ) : SnapshotMap ids :=
  match earliestSnapshot[snap.refState]? with
  | none => earliestSnapshot.insert snap.refState snap
  | some found =>
      if snap.creationTime < found.creationTime then
        earliestSnapshot.insert snap.refState snap
      else earliestSnapshot

/-- `_CleanSnapshots`, with the map by its comparison. -/
def cleanSnapshotsByMap (snapshots : List (Snapshot κ)) : List (Snapshot κ) :=
  sortBy (Snapshot.less ids) ((snapshots.foldl (putEarliest ids) ∅).toList.map Prod.snd)

/-! ## The orders -/

variable {ids}

omit [DecidableEq κ] in
theorem orders_refState (hids : Orders ids.less) : Orders (RefState.less (κ := κ) ids) := by
  have hlex := orders_lexLess (orders_lt (α := Bytes)) hids
  refine (hlex.comap (f := fun x : RefState κ => (x.name, x.head)) ?_)
  rintro ⟨name, head⟩ ⟨name', head'⟩ h
  simpa using h

omit [DecidableEq κ] in
theorem orders_snapshot (hids : Orders ids.less) : Orders (Snapshot.less (κ := κ) ids) := by
  have hlex := orders_lexLess (orders_lt (α := Int)) (orders_refState hids)
  refine (hlex.comap (f := fun x : Snapshot κ => (x.creationTime, x.refState)) ?_)
  rintro ⟨time, refState⟩ ⟨time', refState'⟩ h
  simpa using h

/-! ## The earliest snapshots -/

/-- The snapshot is one of the snapshots, and none of its state is earlier. -/
structure IsEarliest (snapshots : List (Snapshot κ)) (s : Snapshot κ) : Prop where
  mem : s ∈ snapshots
  le : ∀ t ∈ snapshots, t.refState = s.refState → s.creationTime ≤ t.creationTime

section IsEarliest

omit [DecidableEq κ]

variable {snapshots snapshots' : List (Snapshot κ)} {s t snap : Snapshot κ}

theorem IsEarliest.unique (hs : IsEarliest snapshots s) (ht : IsEarliest snapshots t)
    (h : s.refState = t.refState) : s = t := by
  have htime : s.creationTime = t.creationTime :=
    Int.le_antisymm (hs.le t ht.mem h.symm) (ht.le s hs.mem h)
  cases s
  cases t
  simp_all

theorem isEarliest_congr (h : ∀ s, s ∈ snapshots ↔ s ∈ snapshots') :
    IsEarliest snapshots s ↔ IsEarliest snapshots' s :=
  ⟨fun ⟨hmem, hle⟩ => ⟨(h s).mp hmem, fun t ht => hle t ((h t).mpr ht)⟩,
    fun ⟨hmem, hle⟩ => ⟨(h s).mpr hmem, fun t ht => hle t ((h t).mp ht)⟩⟩

/-- The first snapshot of a state, or one that is earlier than the others. -/
theorem isEarliest_cons_of_lt
    (h : ∀ t ∈ snapshots, t.refState = snap.refState → snap.creationTime < t.creationTime) :
    IsEarliest (snap :: snapshots) s ↔
      s = snap ∨ IsEarliest snapshots s ∧ s.refState ≠ snap.refState := by
  constructor
  · rintro ⟨hmem, hle⟩
    rcases List.mem_cons.mp hmem with rfl | hmem
    · exact Or.inl rfl
    · refine Or.inr ⟨⟨hmem, fun t ht => hle t (List.mem_cons_of_mem _ ht)⟩, fun heq => ?_⟩
      have hlt := h s hmem heq
      have hge := hle snap List.mem_cons_self heq.symm
      omega
  · rintro (rfl | ⟨⟨hmem, hle⟩, hne⟩)
    · refine ⟨List.mem_cons_self, fun t ht heq => ?_⟩
      rcases List.mem_cons.mp ht with rfl | ht
      · exact Int.le_refl _
      · exact Int.le_of_lt (h t ht heq)
    · refine ⟨List.mem_cons_of_mem _ hmem, fun t ht heq => ?_⟩
      rcases List.mem_cons.mp ht with rfl | ht
      · exact absurd heq.symm hne
      · exact hle t ht heq

/-- A snapshot that is not earlier than another one of its state. -/
theorem isEarliest_cons_of_le {found : Snapshot κ} (hfound : IsEarliest snapshots found)
    (hsame : found.refState = snap.refState) (hle : found.creationTime ≤ snap.creationTime) :
    IsEarliest (snap :: snapshots) s ↔ IsEarliest snapshots s := by
  constructor
  · rintro ⟨hmem, hleast⟩
    refine ⟨?_, fun t ht => hleast t (List.mem_cons_of_mem _ ht)⟩
    rcases List.mem_cons.mp hmem with rfl | hmem
    · have hge := hleast found (List.mem_cons_of_mem _ hfound.mem) hsame
      have heq : s = found := by
        cases s
        cases found
        simp_all
        omega
      rw [heq]
      exact hfound.mem
    · exact hmem
  · rintro ⟨hmem, hleast⟩
    refine ⟨List.mem_cons_of_mem _ hmem, fun t ht heq => ?_⟩
    rcases List.mem_cons.mp ht with rfl | ht
    · exact Int.le_trans (hleast found hfound.mem (hsame.trans heq)) hle
    · exact hleast t ht heq

/-- Every state has an earliest snapshot. -/
theorem exists_isEarliest (h : t ∈ snapshots) :
    ∃ s, IsEarliest snapshots s ∧ s.refState = t.refState := by
  induction snapshots generalizing t with
  | nil => cases h
  | cons x rest ih =>
      by_cases hothers : ∃ u ∈ rest, u.refState = t.refState
      · obtain ⟨u, hu, hsame⟩ := hothers
        obtain ⟨found, hfound, hstate⟩ := ih hu
        rw [hsame] at hstate
        by_cases hx : x.refState = t.refState ∧ x.creationTime < found.creationTime
        · refine ⟨x, (isEarliest_cons_of_lt fun v hv heq => ?_).mpr (Or.inl rfl), hx.1⟩
          exact Int.lt_of_lt_of_le hx.2
            (hfound.le v hv (heq.trans (hx.1.trans hstate.symm)))
        · by_cases hstates : x.refState = t.refState
          · have hlater : found.creationTime ≤ x.creationTime :=
              Int.not_lt.mp fun hlt => hx ⟨hstates, hlt⟩
            exact ⟨found, (isEarliest_cons_of_le hfound (hstate.trans hstates.symm) hlater).mpr
              hfound, hstate⟩
          · refine ⟨found, ⟨List.mem_cons_of_mem _ hfound.mem, fun v hv heq => ?_⟩, hstate⟩
            rcases List.mem_cons.mp hv with rfl | hv
            · exact absurd (heq.trans hstate) hstates
            · exact hfound.le v hv heq
      · rcases List.mem_cons.mp h with rfl | h
        · exact ⟨t, (isEarliest_cons_of_lt fun v hv heq => absurd ⟨v, hv, heq⟩ hothers).mpr
            (Or.inl rfl), rfl⟩
        · exact absurd ⟨t, h, rfl⟩ hothers

end IsEarliest

/-! ## What the first loop collects -/

/-- The map has the earliest snapshot of each state. -/
def MapHolds (snapshots : List (Snapshot κ)) (earliestSnapshot : SnapshotMap ids) : Prop :=
  ∀ k s, earliestSnapshot[k]? = some s ↔ IsEarliest snapshots s ∧ s.refState = k

theorem MapHolds.putEarliest (hids : Orders ids.less) {snapshots : List (Snapshot κ)}
    {earliestSnapshot : SnapshotMap ids} (h : MapHolds snapshots earliestSnapshot)
    (snap : Snapshot κ) : MapHolds (snap :: snapshots) (putEarliest ids earliestSnapshot snap) := by
  have := transCmp_compareOf (orders_refState hids)
  -- both ways to assign put the snapshot in the place of those of its state
  have hinsert : (∀ t ∈ snapshots, t.refState = snap.refState →
      snap.creationTime < t.creationTime) →
      MapHolds (snap :: snapshots) (earliestSnapshot.insert snap.refState snap) := by
    intro hfirst k s
    rw [Std.TreeMap.getElem?_insert, isEarliest_cons_of_lt hfirst]
    simp only [compareOf_eq_eq (orders_refState hids)]
    split
    · next hk =>
        subst hk
        constructor
        · rintro ⟨⟩
          exact ⟨Or.inl rfl, rfl⟩
        · rintro ⟨rfl | ⟨-, hne⟩, hstate⟩
          · rfl
          · exact absurd hstate hne
    · next hk =>
        rw [h k s]
        constructor
        · rintro ⟨hs, rfl⟩
          exact ⟨Or.inr ⟨hs, fun heq => hk heq.symm⟩, rfl⟩
        · rintro ⟨rfl | ⟨hs, -⟩, hstate⟩
          · exact absurd hstate hk
          · exact ⟨hs, hstate⟩
  unfold State.putEarliest
  split
  · next hnone =>
      refine hinsert fun t ht heq => ?_
      obtain ⟨s, hs, hstate⟩ := exists_isEarliest ht
      have hsome := (h snap.refState s).mpr ⟨hs, hstate.trans heq⟩
      rw [hnone] at hsome
      cases hsome
  · next found hfound =>
      obtain ⟨hearliest, hsame⟩ := (h snap.refState found).mp hfound
      split
      · next hlt =>
          exact hinsert fun t ht heq =>
            Int.lt_of_lt_of_le hlt (hearliest.le t ht (heq.trans hsame.symm))
      · next hge =>
          intro k s
          rw [isEarliest_cons_of_le hearliest hsame (Int.not_lt.mp hge)]
          exact h k s

theorem mapHolds_foldl (hids : Orders ids.less) (snapshots : List (Snapshot κ)) :
    MapHolds snapshots (snapshots.foldl (putEarliest ids) ∅) := by
  have hfold : ∀ (rest done : List (Snapshot κ)) (m : SnapshotMap ids), MapHolds done m →
      MapHolds (rest.reverse ++ done) (rest.foldl (putEarliest ids) m) := by
    intro rest
    induction rest with
    | nil => exact fun done m h => h
    | cons snap rest ih =>
        intro done m h
        have hrest := ih (snap :: done) _ (h.putEarliest hids snap)
        rwa [List.reverse_cons, List.append_assoc, List.singleton_append]
  have hnone : MapHolds [] (∅ : SnapshotMap ids) := by
    have := transCmp_compareOf (orders_refState hids)
    intro k s
    rw [Std.TreeMap.getElem?_emptyc]
    constructor
    · rintro ⟨⟩
    · rintro ⟨⟨hno, -⟩, -⟩
      cases hno
  have hall := hfold snapshots [] ∅ hnone
  rw [List.append_nil] at hall
  intro k s
  rw [hall k s, isEarliest_congr fun s => List.mem_reverse]

/-- The list of the map's values has the earliest snapshot of each state. -/
def ListHolds (snapshots earliestSnapshot : List (Snapshot κ)) : Prop :=
  earliestSnapshot.Nodup ∧ ∀ s, s ∈ earliestSnapshot ↔ IsEarliest snapshots s

theorem ListHolds.keepEarliest {snapshots earliestSnapshot : List (Snapshot κ)}
    (h : ListHolds snapshots earliestSnapshot) (snap : Snapshot κ) :
    ListHolds (snap :: snapshots) (keepEarliest earliestSnapshot snap) := by
  obtain ⟨hnodup, hmem⟩ := h
  unfold State.keepEarliest
  split
  · next hnone =>
      have hnew : ∀ s, IsEarliest snapshots s → s.refState ≠ snap.refState := fun s hs => by
        simpa using List.find?_eq_none.mp hnone s ((hmem s).mpr hs)
      refine ⟨?_, fun s => ?_⟩
      · refine List.nodup_append.mpr ⟨hnodup, List.nodup_singleton snap, ?_⟩
        intro s hs t ht heq
        obtain rfl := List.mem_singleton.mp ht
        exact hnew s ((hmem s).mp hs) (congrArg Snapshot.refState heq)
      · rw [isEarliest_cons_of_lt fun t ht heq => ?_, List.mem_append, List.mem_singleton, hmem s]
        · constructor
          · rintro (hs | rfl)
            · exact Or.inr ⟨hs, hnew s hs⟩
            · exact Or.inl rfl
          · rintro (rfl | ⟨hs, -⟩)
            · exact Or.inr rfl
            · exact Or.inl hs
        · obtain ⟨s, hs, hstate⟩ := exists_isEarliest ht
          exact absurd (hstate.trans heq) (hnew s hs)
  · next found hfind =>
      have hfound := (hmem found).mp (List.mem_of_find?_eq_some hfind)
      have hsame : found.refState = snap.refState := by simpa using List.find?_some hfind
      split
      · next hlt =>
          refine ⟨hnodup.map_on ?_, fun s => ?_⟩
          · intro x hx y hy heq
            split at heq
            · next hxstate =>
                split at heq
                · next hystate =>
                    exact ((hmem x).mp hx).unique ((hmem y).mp hy) (hxstate.trans hystate.symm)
                · next hystate => exact absurd (congrArg Snapshot.refState heq).symm hystate
            · next hxstate =>
                split at heq
                · exact absurd (congrArg Snapshot.refState heq) hxstate
                · exact heq
          · rw [isEarliest_cons_of_lt fun t ht heq =>
              Int.lt_of_lt_of_le hlt (hfound.le t ht (heq.trans hsame.symm)), List.mem_map]
            constructor
            · rintro ⟨x, hx, rfl⟩
              split
              · exact Or.inl rfl
              · next hstate => exact Or.inr ⟨(hmem x).mp hx, hstate⟩
            · rintro (rfl | ⟨hs, hne⟩)
              · exact ⟨found, (hmem found).mpr hfound, if_pos hsame⟩
              · exact ⟨s, (hmem s).mpr hs, if_neg hne⟩
      · next hge =>
          refine ⟨hnodup, fun s => ?_⟩
          rw [isEarliest_cons_of_le hfound hsame (Int.not_lt.mp hge), hmem s]

theorem listHolds_foldl (snapshots : List (Snapshot κ)) :
    ListHolds snapshots (snapshots.foldl keepEarliest []) := by
  have hfold : ∀ rest done acc : List (Snapshot κ), ListHolds done acc →
      ListHolds (rest.reverse ++ done) (rest.foldl keepEarliest acc) := by
    intro rest
    induction rest with
    | nil => exact fun done acc h => h
    | cons snap rest ih =>
        intro done acc h
        have hrest := ih (snap :: done) _ (h.keepEarliest snap)
        rwa [List.reverse_cons, List.append_assoc, List.singleton_append]
  have hnone : ListHolds [] ([] : List (Snapshot κ)) :=
    ⟨List.nodup_nil, fun _ => ⟨fun hno => absurd hno List.not_mem_nil, fun h => h.mem⟩⟩
  obtain ⟨hnodup, hmem⟩ := hfold snapshots [] [] hnone
  refine ⟨hnodup, fun s => ?_⟩
  rw [hmem s, List.append_nil, isEarliest_congr fun s => List.mem_reverse]

/-! ## Cleaning -/

/-- The result is in the order of snapshots, and has the earliest snapshot of each state. -/
structure IsClean (ids : CommitIds κ) (snapshots cleaned : List (Snapshot κ)) : Prop where
  sorted : cleaned.Pairwise fun x y => x.less ids y = true
  mem : ∀ s, s ∈ cleaned ↔ IsEarliest snapshots s

theorem isClean_byMap (hids : Orders ids.less) (snapshots : List (Snapshot κ)) :
    IsClean ids snapshots (cleanSnapshotsByMap ids snapshots) := by
  have hmap := mapHolds_foldl hids snapshots
  have := transCmp_compareOf (orders_refState hids)
  have := lawfulEqCmp_compareOf (orders_refState hids)
  have hvalue : ∀ {x : RefState κ × Snapshot κ},
      x ∈ (snapshots.foldl (putEarliest ids) ∅).toList →
        IsEarliest snapshots x.2 ∧ x.2.refState = x.1 := fun {x} hx =>
    (hmap x.1 x.2).mp (Std.TreeMap.mem_toList_iff_getElem?_eq_some.mp hx)
  refine ⟨pairwise_sortBy (orders_snapshot hids) ?_, fun s => ?_⟩
  · refine (List.pairwise_map.mpr ?_)
    refine Std.TreeMap.distinct_keys_toList.imp_of_mem ?_
    intro x y hx hy hkeys heq
    have hsame : x.1 = y.1 := by
      rw [← (hvalue hx).2, ← (hvalue hy).2, heq]
    exact hkeys ((compareOf_eq_eq (orders_refState hids) _ _).mpr hsame)
  · rw [cleanSnapshotsByMap, mem_sortBy, List.mem_map]
    constructor
    · rintro ⟨x, hx, rfl⟩
      exact (hvalue hx).1
    · intro hs
      exact ⟨(s.refState, s),
        Std.TreeMap.mem_toList_iff_getElem?_eq_some.mpr ((hmap _ s).mpr ⟨hs, rfl⟩), rfl⟩

theorem isClean_cleanSnapshots (hids : Orders ids.less) (snapshots : List (Snapshot κ)) :
    IsClean ids snapshots (cleanSnapshots ids snapshots) := by
  obtain ⟨hnodup, hmem⟩ := listHolds_foldl snapshots
  refine ⟨pairwise_sortBy (orders_snapshot hids) hnodup, fun s => ?_⟩
  exact mem_sortBy.trans (hmem s)

/-- Both maps lead to the same result. -/
theorem cleanSnapshotsByMap_eq (hids : Orders ids.less) (snapshots : List (Snapshot κ)) :
    cleanSnapshotsByMap ids snapshots = cleanSnapshots ids snapshots := by
  have hmap := isClean_byMap hids snapshots
  have hlist := isClean_cleanSnapshots hids snapshots
  refine eq_of_pairwise_less (orders_snapshot hids) hmap.sorted hlist.sorted fun s => ?_
  rw [hmap.mem s, hlist.mem s]

/-- The result depends on the earliest snapshots only. -/
theorem cleanSnapshotsByMap_congr (hids : Orders ids.less)
    {snapshots snapshots' : List (Snapshot κ)}
    (h : ∀ s, IsEarliest snapshots s ↔ IsEarliest snapshots' s) :
    cleanSnapshotsByMap ids snapshots = cleanSnapshotsByMap ids snapshots' := by
  have hclean := isClean_byMap hids snapshots
  have hclean' := isClean_byMap hids snapshots'
  refine eq_of_pairwise_less (orders_snapshot hids) hclean.sorted hclean'.sorted fun s => ?_
  rw [hclean.mem s, hclean'.mem s, h s]

omit [DecidableEq κ] in
/-- The earliest snapshots of the result, with any snapshots of the input. -/
theorem isEarliest_of_between {snapshots snapshots' : List (Snapshot κ)}
    (hsub : ∀ s ∈ snapshots', s ∈ snapshots)
    (hall : ∀ s, IsEarliest snapshots s → s ∈ snapshots') (s : Snapshot κ) :
    IsEarliest snapshots' s ↔ IsEarliest snapshots s := by
  constructor
  · intro hs
    obtain ⟨t, ht, hstate⟩ := exists_isEarliest (hsub s hs.mem)
    have ht' : IsEarliest snapshots' t := ⟨hall t ht, fun u hu => ht.le u (hsub u hu)⟩
    rwa [hs.unique ht' hstate.symm]
  · exact fun hs => ⟨hall s hs, fun t ht => hs.le t (hsub t ht)⟩

/-- What it means to clean snapshots. -/
structure Cleans (clean : List (Snapshot κ) → List (Snapshot κ)) : Prop where
  sorted (snapshots) : (clean snapshots).Pairwise fun x y => x.creationTime ≤ y.creationTime
  once (snapshots) : ((clean snapshots).map Snapshot.refState).Nodup
  states (snapshots) (refState : RefState κ) :
    refState ∈ (clean snapshots).map Snapshot.refState ↔
      refState ∈ snapshots.map Snapshot.refState
  earliest (snapshots) : ∀ s ∈ clean snapshots,
    s ∈ snapshots ∧ ∀ t ∈ snapshots, t.refState = s.refState → s.creationTime ≤ t.creationTime
  perm (snapshots snapshots') : snapshots'.Perm snapshots → clean snapshots' = clean snapshots
  idempotent (snapshots) : clean (clean snapshots) = clean snapshots
  absorbs (snapshots) : ∀ s ∈ snapshots,
    clean (snapshots ++ [s]) = clean snapshots ∧ clean (clean snapshots ++ [s]) = clean snapshots

theorem cleanSnapshotsByMap_cleans (hids : Orders ids.less) :
    Cleans (cleanSnapshotsByMap (κ := κ) ids) := by
  have hclean := isClean_byMap (κ := κ) hids
  exact
    { sorted snapshots := by
        refine (hclean snapshots).sorted.imp ?_
        intro x y hless
        unfold Snapshot.less at hless
        split at hless
        · exact Int.le_of_lt (of_decide_eq_true hless)
        · next heq => exact Int.le_of_eq (not_not.mp heq)
      once snapshots := by
        refine List.pairwise_map.mpr ((hclean snapshots).sorted.imp_of_mem ?_)
        intro x y hx hy hless heq
        have hxy := (((hclean _).mem x).mp hx).unique (((hclean _).mem y).mp hy) heq
        rw [hxy, (orders_snapshot hids).irrefl] at hless
        cases hless
      states snapshots refState := by
        rw [List.mem_map, List.mem_map]
        constructor
        · rintro ⟨s, hs, rfl⟩
          exact ⟨s, (((hclean _).mem s).mp hs).mem, rfl⟩
        · rintro ⟨t, ht, rfl⟩
          obtain ⟨s, hs, hstate⟩ := exists_isEarliest ht
          exact ⟨s, ((hclean _).mem s).mpr hs, hstate⟩
      earliest snapshots s hs := by
        obtain ⟨hmem, hle⟩ := ((hclean snapshots).mem s).mp hs
        exact ⟨hmem, hle⟩
      perm snapshots snapshots' hperm :=
        cleanSnapshotsByMap_congr hids fun s => isEarliest_congr fun s => hperm.mem_iff
      idempotent snapshots :=
        cleanSnapshotsByMap_congr hids <| isEarliest_of_between
          (fun s hs => (((hclean _).mem s).mp hs).mem) fun s hs => ((hclean _).mem s).mpr hs
      absorbs snapshots s hs := by
        refine ⟨?_, ?_⟩
        · refine cleanSnapshotsByMap_congr hids <| isEarliest_of_between ?_ fun t ht =>
            List.mem_append_left _ ht.mem
          intro t ht
          rcases List.mem_append.mp ht with ht | ht
          · exact ht
          · rwa [List.mem_singleton.mp ht]
        · refine cleanSnapshotsByMap_congr hids <| isEarliest_of_between ?_ fun t ht =>
            List.mem_append_left _ (((hclean _).mem t).mpr ht)
          intro t ht
          rcases List.mem_append.mp ht with ht | ht
          · exact (((hclean _).mem t).mp ht).mem
          · rwa [List.mem_singleton.mp ht] }

end Clean

end State

namespace NextDay

open Git State Library

/-- Snapshots of two states, one of them taken three times. -/
def taken : List (Snapshot Bytes) :=
  [⟨9, ascii "main", ascii "0b"⟩, ⟨5, ascii "main", ascii "0c"⟩, ⟨5, ascii "main", ascii "0b"⟩,
    ⟨7, ascii "main", ascii "0b"⟩]

theorem taken_cleans :
    cleanSnapshotsByMap ids taken =
        [⟨5, ascii "main", ascii "0b"⟩, ⟨5, ascii "main", ascii "0c"⟩] ∧
      Cleans (cleanSnapshotsByMap (κ := Bytes) ids) :=
  ⟨by decide +kernel, cleanSnapshotsByMap_cleans orders_lt⟩

end NextDay

end Debase
