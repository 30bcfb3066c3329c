import Mathlib.Algebra.BigOperators.Group.List.Basic
import Mathlib.Algebra.GroupWithZero.Nat
import CacheVerdict.Proofs.Listing.Sketch
import CacheVerdict.Report.Statistics

/-!
# Interval statistics add up

Statistics are given for a range of addresses that lies between the lowest and the highest
classified instruction, and for intervals within it; every other request is refused as a whole.
Intervals that cover the range without overlapping split its rows among them, since each row has one
address: so their counts, in which a zero is left out, add up to those of the range
(`Table.statistics_tile`).
-/

namespace CacheVerdict

namespace AddressRange

variable {r s : AddressRange} {a : Address}

/-- A range contains the addresses between its bounds. -/
lemma contains_iff : r.contains a = true ↔ r.lo ≤ a ∧ a ≤ r.hi := by
  simp [contains]

/-- A range covers the ranges between its bounds. -/
lemma covers_iff : r.covers s = true ↔ r.lo ≤ s.lo ∧ s.hi ≤ r.hi := by
  simp [covers]

/-- The range is not empty and lies within another one. -/
structure Within (r s : AddressRange) : Prop where
  nonempty : r.lo ≤ r.hi
  lo : s.lo ≤ r.lo
  hi : r.hi ≤ s.hi

/-- Both places where a range is checked ask this. -/
lemma refused_iff : (decide (r.lo > r.hi) || !s.covers r) = true ↔ ¬ r.Within s := by
  rw [Bool.or_eq_true, decide_eq_true_eq, Bool.not_eq_true', ← Bool.not_eq_true, covers_iff]
  constructor
  · rintro (h | h) hwithin
    · exact UInt64.not_lt.2 hwithin.nonempty h
    · exact h ⟨hwithin.lo, hwithin.hi⟩
  · intro h
    by_cases hne : r.lo > r.hi
    · exact .inl hne
    · exact .inr fun hcovers => h ⟨UInt64.not_lt.1 hne, hcovers.1, hcovers.2⟩

/-- No address lies in both ranges. -/
def Disjoint (r s : AddressRange) : Prop :=
  ∀ a, r.contains a = true → ¬ s.contains a = true

/-- The intervals have no address in common, and together they are the target. -/
structure Tile (intervals : List AddressRange) (target : AddressRange) : Prop where
  disjoint : intervals.Pairwise Disjoint
  union : ∀ a, target.contains a = true ↔ ∃ i ∈ intervals, i.contains a = true

/-- Of intervals that do not overlap, an address lies in one or in none. -/
lemma sum_contains_of_disjoint {intervals : List AddressRange}
    (disjoint : intervals.Pairwise Disjoint) (a : Address) :
    (intervals.map fun i => if i.contains a = true then 1 else 0).sum =
      if ∃ i ∈ intervals, i.contains a = true then 1 else 0 := by
  induction intervals with
  | nil => simp
  | cons i intervals ih =>
    obtain ⟨hi, hdisjoint⟩ := List.pairwise_cons.1 disjoint
    rw [List.map_cons, List.sum_cons, ih hdisjoint]
    by_cases ha : i.contains a = true
    · have hothers : ¬ ∃ j ∈ intervals, j.contains a = true := by
        rintro ⟨j, hj, haj⟩
        exact hi j hj a ha haj
      have hsome : ∃ j ∈ i :: intervals, j.contains a = true := ⟨i, List.mem_cons_self, ha⟩
      rw [if_neg hothers, if_pos ha, if_pos hsome]
    · simp [ha]

/-- Each address of the target lies in one of the intervals that tile it, and no other does. -/
lemma Tile.sum_contains {intervals : List AddressRange} {target : AddressRange}
    (tile : Tile intervals target) (a : Address) :
    (intervals.map fun i => if i.contains a = true then 1 else 0).sum =
      if target.contains a = true then 1 else 0 := by
  rw [sum_contains_of_disjoint tile.disjoint, if_congr (tile.union a).symm rfl rfl]

end AddressRange

namespace Count

variable {rows : List Row} {level : Level} {classification : Classification}

/-- How many rows have a classification at a level. -/
def inRows (rows : List Row) (level : Level) (classification : Classification) : Nat :=
  rows.countP fun r => r.level = level && r.classification = classification

/-- The count that a list of counts holds for a classification at a level; zero if it holds none. -/
def held (counts : List Count) (level : Level) (classification : Classification) : Nat :=
  ((counts.find? fun c => c.level = level && c.classification = classification).map count).getD 0

/-- Every count that is not zero is held. -/
lemma mem_ofRows {c : Count} :
    c ∈ ofRows rows ↔ c.count ≠ 0 ∧ c.count = inRows rows c.level c.classification := by
  have hlevel : c.level ∈ Level.all := by cases c.level <;> decide
  have hclass : c.classification ∈ Classification.all := by cases c.classification <;> decide
  simp only [ofRows, List.mem_flatMap, List.mem_filterMap, Option.ite_none_left_eq_some,
    Option.some.injEq]
  constructor
  · rintro ⟨_, _, _, _, hne, rfl⟩
    exact ⟨hne, rfl⟩
  · rintro ⟨hne, hcount⟩
    refine ⟨_, hlevel, _, hclass, fun hzero => hne (hcount.trans hzero), ?_⟩
    cases c
    simp only at hcount
    simp only [hcount, inRows]

/-- What is held are the counts over the rows. -/
lemma held_ofRows : held (ofRows rows) level classification = inRows rows level classification := by
  rw [held]
  cases hfind : (ofRows rows).find? fun c =>
      c.level = level && c.classification = classification with
  | some c =>
    have hkey := List.find?_some hfind
    obtain ⟨rfl, rfl⟩ : c.level = level ∧ c.classification = classification := by simpa using hkey
    exact (mem_ofRows.1 (List.mem_of_find?_eq_some hfind)).2
  | none =>
    have hnone := List.find?_eq_none.1 hfind
    by_contra hne
    have hmem : (⟨level, classification, inRows rows level classification⟩ : Count) ∈ ofRows rows :=
      mem_ofRows.2 ⟨fun hzero => hne hzero.symm, rfl⟩
    exact hnone _ hmem (by simp)

end Count

/-- Intervals that tile a range split the rows of the range among them. -/
lemma AddressRange.Tile.sum_inRows {intervals : List AddressRange} {target : AddressRange}
    (tile : Tile intervals target) (rows : List Row) (level : Level)
    (classification : Classification) :
    (intervals.map fun i =>
        Count.inRows (rows.filter fun r => i.contains r.instruction) level classification).sum =
      Count.inRows (rows.filter fun r => target.contains r.instruction) level classification := by
  -- by induction over the rows: each adds to the count of the one interval that its address lies in
  unfold Count.inRows
  simp only [List.countP_filter]
  induction rows with
  | nil => simp
  | cons r rows ih =>
    simp only [List.countP_cons]
    rw [List.sum_map_add, ih]
    congr 1
    by_cases hkey : (decide (r.level = level) && decide (r.classification = classification)) = true
    · simp only [hkey, Bool.true_and]
      exact tile.sum_contains r.instruction
    · simp [hkey]

/-- Every refusal is worded as a request that is out of range. -/
lemma StatisticsFault.exists_message (fault : StatisticsFault) :
    ∃ detail, fault.message = "statistics request out of range: " ++ detail := by
  cases fault with
  | nothingClassified =>
    refine ⟨"no instruction was classified", ?_⟩
    unfold message
    simp only [String.reduceAppend]
  | target t span =>
    refine ⟨"target range " ++ t.render ++ " is outside the analyzed range " ++ span.render, ?_⟩
    unfold message
    simp only [← String.append_assoc, String.reduceAppend]
  | interval i t =>
    refine ⟨"interval " ++ i.render ++ " is empty or outside the target range " ++ t.render, ?_⟩
    unfold message
    simp only [← String.append_assoc, String.reduceAppend]

namespace Table

variable {t : Table} {target span : AddressRange} {intervals : List AddressRange}

/-- The range goes from the lowest to the highest classified instruction. -/
structure Spans (t : Table) (span : AddressRange) : Prop where
  lo_mem : ∃ r ∈ t.rows, r.instruction = span.lo
  lo_le : ∀ r ∈ t.rows, span.lo ≤ r.instruction
  hi_mem : ∃ r ∈ t.rows, r.instruction = span.hi
  le_hi : ∀ r ∈ t.rows, r.instruction ≤ span.hi

/-- A request that statistics answer. -/
structure Admits (t : Table) (target : AddressRange) (intervals : List AddressRange) : Prop where
  classified : t.rows ≠ []
  spanned : ∃ span, t.Spans span ∧ target.Within span
  within : ∀ i ∈ intervals, i.Within target

/-- The greater of two addresses is the least that neither exceeds. -/
lemma lawfulOrderMax_address : Std.LawfulOrderMax Address := by
  have hmax (a b : Address) : max a b = if a ≤ b then b else a := rfl
  apply Std.LawfulOrderMax.of_max_le_iff
  · intro a b c
    rw [hmax]
    simp only [UInt64.le_iff_toNat_le]
    split <;> omega
  · intro a b
    rw [hmax]
    split
    · exact .inr rfl
    · exact .inl rfl

/-- Without rows a table spans nothing. -/
lemma span?_of_nil (h : t.rows = []) : t.span? = none := by
  simp [span?, h]

/-- With rows a table spans them. -/
lemma exists_span? (h : t.rows ≠ []) : ∃ span, t.span? = some span ∧ t.Spans span := by
  have hne : t.rows.map Row.instruction ≠ [] := by simpa using h
  have := lawfulOrderMax_address
  obtain ⟨lo, hlo⟩ := Option.isSome_iff_exists.1 (List.isSome_min?_of_ne_nil hne)
  obtain ⟨hi, hhi⟩ := Option.isSome_iff_exists.1 (List.isSome_max?_of_ne_nil hne)
  obtain ⟨hlo_mem, hlo_le⟩ := List.min?_eq_some_iff.1 hlo
  obtain ⟨hhi_mem, hle_hi⟩ := List.max?_eq_some_iff.1 hhi
  refine ⟨⟨lo, hi⟩, by simp [span?, hlo, hhi], List.mem_map.1 hlo_mem, ?_,
    List.mem_map.1 hhi_mem, ?_⟩
  · exact fun r hr => hlo_le _ (List.mem_map_of_mem hr)
  · exact fun r hr => hle_hi _ (List.mem_map_of_mem hr)

/-- A table has one span. -/
lemma Spans.unique {span' : AddressRange} (h : t.Spans span) (h' : t.Spans span') :
    span = span' := by
  obtain ⟨low, hlow, hlo⟩ := h.lo_mem
  obtain ⟨low', hlow', hlo'⟩ := h'.lo_mem
  obtain ⟨high, hhigh, hhi⟩ := h.hi_mem
  obtain ⟨high', hhigh', hhi'⟩ := h'.hi_mem
  have heq : span.lo = span'.lo :=
    UInt64.le_antisymm (hlo' ▸ h.lo_le low' hlow') (hlo ▸ h'.lo_le low hlow)
  have heq' : span.hi = span'.hi :=
    UInt64.le_antisymm (hhi ▸ h'.le_hi high hhigh) (hhi' ▸ h.le_hi high' hhigh')
  cases span
  cases span'
  simp_all

/-- The counts of an interval, whatever it is asked within. -/
def countsIn (t : Table) (i : AddressRange) : IntervalCounts :=
  ⟨i, Count.ofRows (t.rows.filter fun r => i.contains r.instruction)⟩

/-- An interval within the range asked for is counted. -/
lemma intervalCounts_of_within {i : AddressRange} (h : i.Within target) :
    t.intervalCounts target i = .ok (t.countsIn i) := by
  rw [intervalCounts, if_neg fun hrefused => AddressRange.refused_iff.1 hrefused h]
  rfl

/-- An interval that leaves the range asked for is refused. -/
lemma intervalCounts_of_not_within {i : AddressRange} (h : ¬ i.Within target) :
    t.intervalCounts target i = .error (.interval i target) := by
  rw [intervalCounts, if_pos (AddressRange.refused_iff.2 h)]

/-- One interval that is refused is enough. -/
lemma exists_error_of_mapM (h : ¬ ∀ i ∈ intervals, i.Within target) :
    ∃ fault, intervals.mapM (t.intervalCounts target) = .error fault := by
  induction intervals with
  | nil => exact absurd (List.forall_mem_nil _) h
  | cons i intervals ih =>
    rw [List.mapM_cons]
    by_cases hi : i.Within target
    · have hrest : ¬ ∀ j ∈ intervals, j.Within target :=
        fun hrest => h (List.forall_mem_cons.2 ⟨hi, hrest⟩)
      obtain ⟨fault, hfault⟩ := ih hrest
      rw [intervalCounts_of_within hi, hfault]
      exact ⟨fault, rfl⟩
    · rw [intervalCounts_of_not_within hi]
      exact ⟨_, rfl⟩

/-- A request that is admitted is answered, interval by interval. -/
lemma statistics_of_admits (h : t.Admits target intervals) :
    t.statistics target intervals = .ok (intervals.map t.countsIn) := by
  obtain ⟨span, hspan, hspans⟩ := exists_span? h.classified
  obtain ⟨span', hspans', hwithin⟩ := h.spanned
  obtain rfl := hspans.unique hspans'
  simp only [statistics, hspan]
  rw [if_neg fun hrefused => AddressRange.refused_iff.1 hrefused hwithin]
  exact mapM_of_forall fun i hi => intervalCounts_of_within (h.within i hi)

/-- Every other request is refused. -/
lemma exists_error_of_not_admits (h : ¬ t.Admits target intervals) :
    ∃ fault, t.statistics target intervals = .error fault := by
  by_cases hrows : t.rows = []
  · exact ⟨.nothingClassified, by rw [statistics, span?_of_nil hrows]⟩
  · obtain ⟨span, hspan, hspans⟩ := exists_span? hrows
    simp only [statistics, hspan]
    by_cases hwithin : target.Within span
    · rw [if_neg fun hrefused => AddressRange.refused_iff.1 hrefused hwithin]
      apply exists_error_of_mapM
      exact fun hall => h ⟨hrows, ⟨span, hspans, hwithin⟩, hall⟩
    · rw [if_pos (AddressRange.refused_iff.2 hwithin)]
      exact ⟨_, rfl⟩

/-- Statistics are given exactly for requests within the classified instructions. There is one item
for each interval, in order, with the counts of the rows in it, and where the intervals tile the
target these add up to the counts of the target. -/
theorem statistics_tile (t : Table) (target : AddressRange) (intervals : List AddressRange) :
    ((∃ items, t.statistics target intervals = .ok items) ↔ t.Admits target intervals) ∧
    (¬ t.Admits target intervals → ∃ fault detail, t.statistics target intervals = .error fault ∧
      fault.message = "statistics request out of range: " ++ detail) ∧
    ∀ items, t.statistics target intervals = .ok items →
      items.map IntervalCounts.interval = intervals ∧
      (∀ item ∈ items, ∀ level classification, Count.held item.counts level classification =
        Count.inRows (t.rows.filter fun r => item.interval.contains r.instruction)
          level classification) ∧
      (AddressRange.Tile intervals target → ∀ level classification,
        (items.map fun item => Count.held item.counts level classification).sum =
          Count.inRows (t.rows.filter fun r => target.contains r.instruction)
            level classification) := by
  by_cases hadmits : t.Admits target intervals
  · have hanswer := statistics_of_admits hadmits
    refine ⟨⟨fun _ => hadmits, fun _ => ⟨_, hanswer⟩⟩, fun h => absurd hadmits h, ?_⟩
    intro items hitems
    obtain rfl : intervals.map t.countsIn = items := Except.ok.inj (hanswer.symm.trans hitems)
    refine ⟨?_, ?_, ?_⟩
    · rw [List.map_map]
      exact List.map_id _
    · intro item hitem level classification
      obtain ⟨i, _, rfl⟩ := List.mem_map.1 hitem
      exact Count.held_ofRows
    · intro tile level classification
      rw [List.map_map, ← tile.sum_inRows]
      congr 1
      exact List.map_congr_left fun i _ => Count.held_ofRows
  · obtain ⟨fault, hfault⟩ := exists_error_of_not_admits hadmits
    obtain ⟨detail, hdetail⟩ := fault.exists_message
    have hnone : ∀ items, t.statistics target intervals ≠ .ok items := by
      intro items hitems
      rw [hfault] at hitems
      cases hitems
    refine ⟨⟨?_, fun h => absurd h hadmits⟩, fun _ => ⟨fault, detail, hfault, hdetail⟩, ?_⟩
    · rintro ⟨items, hitems⟩
      exact absurd hitems (hnone items)
    · intro items hitems
      exact absurd hitems (hnone items)

/-- Three instructions, the first of which is classified at two levels. -/
def threeInstructions : Table where
  rows := [⟨"main", "n0", 0x100, .fetch, .l1i, .always, none, .alwaysMiss⟩,
    ⟨"main", "n0", 0x100, .fetch, .l2, .always, none, .notClassified⟩,
    ⟨"main", "n0", 0x104, .fetch, .l1i, .always, none, .alwaysHit⟩,
    ⟨"main", "n0", 0x108, .fetch, .l1i, .always, none, .alwaysHit⟩]

/-- Two intervals tile the addresses of all instructions, and one that is turned around is
refused. -/
theorem statistics_tile_threeInstructions :
    (∃ items,
      threeInstructions.statistics ⟨0x100, 0x108⟩ [⟨0x100, 0x104⟩, ⟨0x105, 0x108⟩] = .ok items ∧
      AddressRange.Tile [⟨0x100, 0x104⟩, ⟨0x105, 0x108⟩] ⟨0x100, 0x108⟩ ∧
      (items.map fun item => Count.held item.counts .l1i .alwaysHit).sum = 2) ∧
    ∃ fault detail, threeInstructions.statistics ⟨0x100, 0x108⟩ [⟨0x108, 0x104⟩] = .error fault ∧
      fault.message = "statistics request out of range: " ++ detail := by
  have hspans : threeInstructions.Spans ⟨0x100, 0x108⟩ := by
    refine ⟨?_, ?_, ?_, ?_⟩ <;> decide
  have hadmits : threeInstructions.Admits ⟨0x100, 0x108⟩ [⟨0x100, 0x104⟩, ⟨0x105, 0x108⟩] := by
    refine ⟨by decide, ⟨_, hspans, ?_⟩, ?_⟩
    · constructor <;> decide
    · rw [List.forall_mem_cons, List.forall_mem_singleton]
      constructor <;> constructor <;> decide
  have htile : AddressRange.Tile [⟨0x100, 0x104⟩, ⟨0x105, 0x108⟩] ⟨0x100, 0x108⟩ := by
    constructor
    · rw [List.pairwise_pair]
      intro a ha
      rw [AddressRange.contains_iff] at ha ⊢
      simp only [UInt64.le_iff_toNat_le, UInt64.reduceToNat] at ha ⊢
      omega
    · intro a
      simp only [AddressRange.contains_iff, List.mem_cons, List.not_mem_nil, or_false,
        exists_eq_or_imp, exists_eq_left, UInt64.le_iff_toNat_le, UInt64.reduceToNat]
      omega
  constructor
  · obtain ⟨haccepted, _, hanswer⟩ :=
      statistics_tile threeInstructions ⟨0x100, 0x108⟩ [⟨0x100, 0x104⟩, ⟨0x105, 0x108⟩]
    obtain ⟨items, hitems⟩ := haccepted.2 hadmits
    refine ⟨items, hitems, htile, ?_⟩
    rw [(hanswer items hitems).2.2 htile]
    decide
  · obtain ⟨_, hrefused, _⟩ := statistics_tile threeInstructions ⟨0x100, 0x108⟩ [⟨0x108, 0x104⟩]
    apply hrefused
    intro h
    have hwithin := (h.within ⟨0x108, 0x104⟩ List.mem_cons_self).nonempty
    revert hwithin
    decide

end Table

end CacheVerdict
