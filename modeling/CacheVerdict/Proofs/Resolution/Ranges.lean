import CacheVerdict.Proofs.Analysis.FootprintCovers
import CacheVerdict.Proofs.Hierarchy.Lines

/-!
# Ranges over segments

An access that may touch every line of its segment gets a block for each line, counted from the lower
bound of the segment. The blocks lie in the segment, each in a line of its own. They meet every line
of the segment just when the lower bound lies no further into its line than the last byte into its
own (`Resolution.range_covers_iff`): otherwise the count ends before the line of the last byte.
-/

namespace CacheVerdict

/-- A segment contains the addresses from its lower bound to below its upper one. -/
lemma Segment.contains_iff {segment : Segment} {x : Address} :
    segment.contains x = true ↔
      segment.lower.toNat ≤ x.toNat ∧ x.toNat < segment.upper.toNat := by
  simp [contains, UInt64.le_iff_toNat_le, UInt64.lt_iff_toNat_lt]

/-- At every level, every byte of the segment shares its line with some block. -/
def Segment.CoveredBy (segment : Segment) (h : Hierarchy) (blocks : List Block) : Prop :=
  ∀ cache ∈ h.caches.entries, ∀ x, segment.contains x = true →
    ∃ b ∈ blocks, cache.2.lineOf b.byte = cache.2.lineOf x

namespace Resolution

variable {segment : Segment} {lineSize : Nat}

/-! ### The starts of lines -/

/-- The starts of lines are found without overflow. -/
lemma toNat_start (k : Nat) (hk : segment.lower.toNat + k * lineSize < segment.upper.toNat) :
    (segment.lower + UInt64.ofNat (k * lineSize)).toNat = segment.lower.toNat + k * lineSize := by
  have hsize := segment.upper.toNat_lt
  have hbound : k * lineSize < 2 ^ 64 := by omega
  have hsum : segment.lower.toNat + k * lineSize < 2 ^ 64 := by omega
  rw [UInt64.toNat_add, UInt64.toNat_ofNat', Nat.mod_eq_of_lt hbound, Nat.mod_eq_of_lt hsum]

/-- The starts stop in front of the upper bound. -/
lemma lt_count_iff (hpos : 0 < lineSize) (k : Nat) :
    k < (segment.upper.toNat - segment.lower.toNat + lineSize - 1) / lineSize ↔
      segment.lower.toNat + k * lineSize < segment.upper.toNat := by
  rw [← Nat.succ_le_iff, Nat.le_div_iff_mul_le hpos, Nat.succ_mul]
  omega

/-- The blocks of a range start at whole lines above the lower bound. -/
lemma mem_lineStarts (hpos : 0 < lineSize) {a : Address} :
    a ∈ lineStarts lineSize segment ↔
      ∃ k, a.toNat = segment.lower.toNat + k * lineSize ∧ a.toNat < segment.upper.toNat := by
  unfold lineStarts
  simp only [List.mem_map, List.mem_range, lt_count_iff hpos]
  constructor
  · rintro ⟨k, hk, rfl⟩
    rw [toNat_start k hk]
    exact ⟨k, rfl, hk⟩
  · rintro ⟨k, ha, hlt⟩
    rw [ha] at hlt
    refine ⟨k, hlt, UInt64.toNat_inj.1 ?_⟩
    rw [toNat_start k hlt, ha]

/-- Every start lies in a line of its own. -/
lemma nodup_lineStarts (hpos : 0 < lineSize) :
    ((lineStarts lineSize segment).map fun a => a.toNat / lineSize).Nodup := by
  unfold lineStarts
  rw [List.map_map]
  refine List.Nodup.map_on (fun k hk l hl heq => ?_) List.nodup_range
  have hk := (lt_count_iff hpos k).1 (List.mem_range.1 hk)
  have hl := (lt_count_iff hpos l).1 (List.mem_range.1 hl)
  simp only [Function.comp_apply, toNat_start k hk, toNat_start l hl,
    Nat.add_mul_div_right _ _ hpos] at heq
  omega

/-- The starts meet the lines of all bytes of a segment, unless the lower bound lies further into its
line than the last byte into its own. -/
lemma lineStarts_meet_iff (hpos : 0 < lineSize) (hne : segment.lower.toNat < segment.upper.toNat) :
    (∀ x, segment.contains x = true →
        ∃ a ∈ lineStarts lineSize segment, a.toNat / lineSize = x.toNat / lineSize) ↔
      segment.lower.toNat % lineSize ≤ (segment.upper.toNat - 1) % lineSize := by
  have hlower := Nat.div_add_mod' segment.lower.toNat lineSize
  have hlast := Nat.div_add_mod' (segment.upper.toNat - 1) lineSize
  constructor
  · intro h
    -- the start in the line of the last byte lies as far into it as the lower bound into its own
    have hbyte : (UInt64.ofNat (segment.upper.toNat - 1)).toNat = segment.upper.toNat - 1 := by
      have hsize := segment.upper.toNat_lt
      rw [UInt64.toNat_ofNat', Nat.mod_eq_of_lt (by omega)]
    obtain ⟨a, ha, hline⟩ := h (UInt64.ofNat (segment.upper.toNat - 1))
      (Segment.contains_iff.2 (by omega))
    obtain ⟨k, hk, hlt⟩ := (mem_lineStarts hpos).1 ha
    have hmod : a.toNat % lineSize = segment.lower.toNat % lineSize := by
      rw [hk, Nat.add_mul_mod_self_right]
    have hsplit := Nat.div_add_mod' a.toNat lineSize
    rw [hline, hbyte, hmod] at hsplit
    omega
  · intro hle x hx
    obtain ⟨hlo, hhi⟩ := Segment.contains_iff.1 hx
    have hquotient : segment.lower.toNat / lineSize ≤ x.toNat / lineSize := Nat.div_le_div_right hlo
    have hlines : x.toNat / lineSize ≤ (segment.upper.toNat - 1) / lineSize :=
      Nat.div_le_div_right (by omega)
    obtain ⟨k, hk⟩ := Nat.exists_eq_add_of_le hquotient
    have hstart : segment.lower.toNat + k * lineSize =
        x.toNat / lineSize * lineSize + segment.lower.toNat % lineSize := by
      rw [hk, Nat.add_mul]
      omega
    have hlt : segment.lower.toNat + k * lineSize < segment.upper.toNat := by
      rcases Nat.lt_or_eq_of_le hlines with hbefore | heq
      · have hmul := Nat.mul_le_mul_right lineSize (Nat.succ_le_of_lt hbefore)
        have hmod := Nat.mod_lt segment.lower.toNat hpos
        rw [Nat.succ_mul] at hmul
        omega
      · rw [hstart, heq]
        omega
    refine ⟨segment.lower + UInt64.ofNat (k * lineSize), (mem_lineStarts hpos).2 ?_, ?_⟩
    · rw [toNat_start k hlt]
      exact ⟨k, rfl, hlt⟩
    · rw [toNat_start k hlt, Nat.add_mul_div_right _ _ hpos, hk]

/-! ### Blocks of a range -/

variable {h : Hierarchy}

/-- What the blocks meet at the finest line size, they meet at every level. -/
lemma coveredBy_iff {blocks : List Block} :
    segment.CoveredBy h blocks ↔ ∀ x, segment.contains x = true →
      ∃ b ∈ blocks, b.byte.toNat / h.finestLineSize = x.toNat / h.finestLineSize := by
  constructor
  · intro covered x hx
    obtain ⟨cache, hcache, hshift⟩ := h.exists_finest
    obtain ⟨b, hb, hline⟩ := covered cache hcache x hx
    have hline := congrArg UInt64.toNat hline
    rw [cache.2.toNat_lineOf, cache.2.toNat_lineOf, hshift] at hline
    exact ⟨b, hb, hline⟩
  · intro meets cache hcache x hx
    obtain ⟨b, hb, hline⟩ := meets x hx
    exact ⟨b, hb, Hierarchy.lineOf_eq hcache hline⟩

/-- The blocks of an access that may touch every line of its segment lie in the segment, no two of
them in one line of the finest size. They meet the lines of all bytes of the segment, at every level,
just when the lower bound lies no further into its line than the last byte into its own. -/
theorem range_covers_iff (s : Settings) (segments : Segments) (h : Hierarchy) (i : Instruction)
    (t : Tracker) (a : Address) (segment : Segment) (range : t.isRange = true)
    (apart : t.isStackRelative = false)
    (found : segmentAt? segments ((t.base.getD 0).toNat + t.offset.toInt) = some (a, segment)) :
    (segment.CoveredBy h (ofTracker s segments h.finestLineSize i t).blocks ↔
      segment.lower.toNat % h.finestLineSize ≤ (segment.upper.toNat - 1) % h.finestLineSize) ∧
    (∀ b ∈ (ofTracker s segments h.finestLineSize i t).blocks, segment.contains b.byte = true) ∧
    ((ofTracker s segments h.finestLineSize i t).blocks.map (·.line h.finestShift)).Nodup := by
  have hpos : 0 < h.finestLineSize := Nat.two_pow_pos h.finestShift
  have hblocks : (ofTracker s segments h.finestLineSize i t).blocks =
      (lineStarts h.finestLineSize segment).map fun a => ⟨i.address, a⟩ := by
    simp only [ofTracker, apart, found, ofSegment, range, Bool.false_eq_true, if_false, if_true]
  rw [hblocks]
  refine ⟨?_, ?_, ?_⟩
  · have hcontains := List.find?_some (find?_of_segmentAt? found).2
    obtain ⟨hlo, hhi⟩ := Segment.contains_iff.1 hcontains
    rw [coveredBy_iff, ← lineStarts_meet_iff hpos (hlo.trans_lt hhi)]
    simp only [List.mem_map, exists_exists_and_eq_and]
  · intro b hb
    obtain ⟨x, hx, rfl⟩ := List.mem_map.1 hb
    obtain ⟨k, hk, hlt⟩ := (mem_lineStarts hpos).1 hx
    exact Segment.contains_iff.2 ⟨hk ▸ Nat.le_add_right _ _, hlt⟩
  · rw [List.map_map]
    refine List.Nodup.of_map UInt64.toNat ?_
    rw [List.map_map]
    have hlines : (lineStarts h.finestLineSize segment).map _ =
        (lineStarts h.finestLineSize segment).map fun a => a.toNat / h.finestLineSize :=
      List.map_congr_left fun x _ => toNat_shiftRight_ofNat x h.finestShift_lt
    exact hlines ▸ nodup_lineStarts hpos

/-! ### A segment with its last line missed -/

/-- The range from one address up to another. -/
def dataRange (lower upper : Address) : Segment :=
  ⟨".data", "WA", lower, upper⟩

/-- A load from anywhere in its segment. -/
def rangeLoad : Instruction :=
  ⟨0x1000, .access ⟨[⟨"x1"⟩, ⟨"x2"⟩], none, true, false, none⟩, "ldr x0, [x1, x2]"⟩

/-- From `0x2010` up to `0x2060` two blocks meet both lines of 64 bytes. -/
theorem range_covers_iff_twoLines :
    (dataRange 0x2010 0x2060).CoveredBy (.split .oneWay)
      (ofTracker {} ⟨[], [dataRange 0x2010 0x2060]⟩ (Hierarchy.split .oneWay).finestLineSize
        rangeLoad (.start [] 0x2010 true)).blocks := by
  refine (range_covers_iff {} _ (.split .oneWay) rangeLoad (.start [] 0x2010 true) 0x2010
    (dataRange 0x2010 0x2060) ?_ ?_ ?_).1.2 ?_
  · rfl
  · rfl
  · decide
  · decide

/-- From `0x2020` up to `0x2050` there is one block, and none in the line of the bytes from `0x2040`
on. -/
theorem range_uncovered_twoLines :
    segmentAt? ⟨[], [dataRange 0x2020 0x2050]⟩ 0x2020 = some (0x2020, dataRange 0x2020 0x2050) ∧
    (ofTracker {} ⟨[], [dataRange 0x2020 0x2050]⟩ (Hierarchy.split .oneWay).finestLineSize
      rangeLoad (.start [] 0x2020 true)).blocks = [⟨0x1000, 0x2020⟩] ∧
    ¬ (dataRange 0x2020 0x2050).CoveredBy (.split .oneWay)
      (ofTracker {} ⟨[], [dataRange 0x2020 0x2050]⟩ (Hierarchy.split .oneWay).finestLineSize
        rangeLoad (.start [] 0x2020 true)).blocks := by
  have hblocks : (ofTracker {} ⟨[], [dataRange 0x2020 0x2050]⟩
      (Hierarchy.split .oneWay).finestLineSize rangeLoad (.start [] 0x2020 true)).blocks =
        [⟨0x1000, 0x2020⟩] := by decide
  refine ⟨by decide, hblocks, fun covered => ?_⟩
  rw [hblocks] at covered
  obtain ⟨b, hb, hline⟩ := covered (.l1d, .oneWay) (List.mem_cons_of_mem _ List.mem_cons_self) 0x2040
    (by decide)
  obtain rfl := List.mem_singleton.1 hb
  exact absurd hline (by decide)

end Resolution

end CacheVerdict
