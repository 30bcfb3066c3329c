import Mathlib.Order.Nat
import Mathlib.Tactic.Lemma
import CacheVerdict.Hierarchy.Basic

/-!
# Lines of different sizes

Line numbers as quotients of addresses, and the lines of a level against those of the finest size of
the hierarchy: bytes that share a line of the finest size share a line at every level
(`Hierarchy.lineOf_eq`).
-/

namespace CacheVerdict

/-- Shifting by less, back and then by more is shifting by more at once. -/
lemma shiftRight_shiftLeft_shiftRight (a : Nat) {s t : Nat} (h : s ≤ t) :
    a >>> s <<< s >>> t = a >>> t := by
  rw [← Nat.add_sub_cancel' h, Nat.shiftRight_add, Nat.shiftRight_add, Nat.shiftLeft_shiftRight]

/-- Shifts by less than the width are taken as they are. -/
lemma toNat_ofNat_mod {shift : Nat} (h : shift < 64) : (UInt64.ofNat shift).toNat % 64 = shift := by
  have hsize : shift < 2 ^ 64 := by omega
  rw [UInt64.toNat_ofNat', Nat.mod_eq_of_lt hsize, Nat.mod_eq_of_lt h]

/-- Such a shift drops the low bits. -/
lemma toNat_shiftRight_ofNat (a : UInt64) {shift : Nat} (h : shift < 64) :
    (a >>> UInt64.ofNat shift).toNat = a.toNat / Nat.pow 2 shift := by
  rw [UInt64.toNat_shiftRight, toNat_ofNat_mod h, Nat.shiftRight_eq_div_pow, Nat.pow_eq]

/-- Lines are not longer than the address space. -/
lemma Geometry.lineShift_lt (g : Geometry) : g.lineShift < 64 := by
  have hpos : g.lineSize.toNat ≠ 0 := by
    rw [g.valid.lineSize_eq]
    exact (Nat.two_pow_pos _).ne'
  exact (Nat.log2_lt hpos).2 g.lineSize.toNat_lt

/-- The line of a byte is its address by the line size. -/
lemma Geometry.toNat_lineOf (g : Geometry) (a : Address) :
    (g.lineOf a).toNat = a.toNat / Nat.pow 2 g.lineShift :=
  toNat_shiftRight_ofNat a g.lineShift_lt

/-- A byte lies in the line of the finer line that holds it. -/
lemma Geometry.lineOf_shift {g : Geometry} {shift : Nat} (hshift : shift ≤ g.lineShift)
    (a : Address) : g.lineOf ((a >>> UInt64.ofNat shift) <<< UInt64.ofNat shift) = g.lineOf a := by
  have hlt := g.lineShift_lt
  have hbound : a.toNat >>> shift <<< shift < 2 ^ 64 := by
    rw [Nat.shiftLeft_eq, Nat.shiftRight_eq_div_pow]
    exact (Nat.div_mul_le_self _ _).trans_lt a.toNat_lt
  unfold lineOf
  apply UInt64.toNat_inj.1
  rw [UInt64.toNat_shiftRight, UInt64.toNat_shiftRight, UInt64.toNat_shiftLeft,
    UInt64.toNat_shiftRight, toNat_ofNat_mod hlt, toNat_ofNat_mod (hshift.trans_lt hlt),
    Nat.mod_eq_of_lt hbound, shiftRight_shiftLeft_shiftRight _ hshift]

namespace Hierarchy

variable {h : Hierarchy}

/-- No level has shorter lines than the finest ones. -/
lemma finestShift_le {cache : Level × Geometry} (hcache : cache ∈ h.caches.entries) :
    h.finestShift ≤ cache.2.lineShift := by
  have hmem : cache.2.lineShift ∈ h.caches.values.map Geometry.lineShift :=
    List.mem_map_of_mem (List.mem_map_of_mem hcache)
  unfold finestShift
  cases hmin : (h.caches.values.map Geometry.lineShift).min? with
  | none => exact Nat.zero_le _
  | some least => exact (List.min?_eq_some_iff.1 hmin).2 _ hmem

/-- Some level has lines of the finest size. -/
lemma exists_finest (h : Hierarchy) :
    ∃ cache ∈ h.caches.entries, cache.2.lineShift = h.finestShift := by
  unfold finestShift
  cases hmin : (h.caches.values.map Geometry.lineShift).min? with
  | none =>
    obtain ⟨level, hlevel, -⟩ := h.served .data
    obtain ⟨cache, hcache, -⟩ := List.mem_map.1 hlevel
    have hnil : h.caches.entries = [] := by simpa [OrderedMap.values] using hmin
    rw [hnil] at hcache
    cases hcache
  | some least =>
    obtain ⟨g, hg, hleast⟩ := List.mem_map.1 (List.min?_eq_some_iff.1 hmin).1
    obtain ⟨cache, hcache, rfl⟩ := List.mem_map.1 hg
    exact ⟨cache, hcache, hleast⟩

/-- The finest lines are not longer than the address space. -/
lemma finestShift_lt (h : Hierarchy) : h.finestShift < 64 := by
  obtain ⟨cache, _, hshift⟩ := h.exists_finest
  exact hshift ▸ cache.2.lineShift_lt

/-- Bytes of one line of the finest size lie in one line at every level. -/
lemma lineOf_eq {cache : Level × Geometry} (hcache : cache ∈ h.caches.entries) {a b : Address}
    (hline : a.toNat / h.finestLineSize = b.toNat / h.finestLineSize) :
    cache.2.lineOf a = cache.2.lineOf b := by
  have hsplit : Nat.pow 2 cache.2.lineShift =
      h.finestLineSize * Nat.pow 2 (cache.2.lineShift - h.finestShift) := by
    rw [finestLineSize, Nat.pow_eq, Nat.pow_eq, Nat.pow_eq, ← Nat.pow_add,
      Nat.add_sub_cancel' (finestShift_le hcache)]
  apply UInt64.toNat_inj.1
  rw [cache.2.toNat_lineOf, cache.2.toNat_lineOf, hsplit, ← Nat.div_div_eq_div_mul,
    ← Nat.div_div_eq_div_mul, hline]

end Hierarchy

end CacheVerdict
