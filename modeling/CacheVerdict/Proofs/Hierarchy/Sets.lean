import CacheVerdict.Proofs.Hierarchy.Lines
import CacheVerdict.Proofs.Ordered.Map
import CacheVerdict.Reference

/-!
# Lines, sets and tags

The line arithmetic of a cache is that of quotients and remainders: the sets fill the capacity, the
line of a byte is its address by the line size, and set and tag, the remainder and the quotient of the
line by the number of sets, give the line back and tell lines apart (`Geometry.Exact`). A reference
keeps no more of an address than its line of the finest size, which is enough to find its line at
every level (`Hierarchy.lines_exact`).
-/

namespace CacheVerdict

/-- The geometry of given dimensions computes lines, sets and tags by division. -/
structure Geometry.Exact (g : Geometry) (d : Dimensions) : Prop where
  capacity : g.sets.toNat * d.ways.toNat * d.lineSize.toNat = d.capacity.toNat
  line (a : Address) : (g.lineOf a).toNat = a.toNat / d.lineSize.toNat
  set_lt (a : Address) : g.setOf (g.lineOf a) < g.sets
  /-- No line is too large to be put together again from its set and its tag. -/
  recombined (a : Address) :
    g.lineAt? (g.setOf (g.lineOf a)) (g.tagOf (g.lineOf a)) = some (g.lineOf a)
  same_line (a b : Address) :
    g.setOf (g.lineOf a) = g.setOf (g.lineOf b) ∧ g.tagOf (g.lineOf a) = g.tagOf (g.lineOf b) ↔
      a.toNat / d.lineSize.toNat = b.toNat / d.lineSize.toNat

/-- A geometry keeps the dimensions that it was made of. -/
lemma Dimensions.toDimensions_of_geometry {d : Dimensions} {g : Geometry} (h : d.geometry = .ok g) :
    g.toDimensions = d := by
  unfold geometry at h
  split at h
  · split at h
    · split at h
      · split at h
        · rw [← Except.ok.inj h]
        · cases h
      · cases h
    · cases h
  · cases h

/-! ### Sets and tags -/

namespace Geometry

variable (g : Geometry)

/-- The number of sets is the quotient, with no overflow. -/
lemma toNat_sets : g.sets.toNat = g.capacity.toNat / g.setBytes := by
  rw [sets, UInt64.toNat_div, UInt64.toNat_ofNat_of_lt' g.valid.setBytes_lt]

/-- All sets together are the whole cache. -/
lemma sets_mul : g.sets.toNat * g.ways.toNat * g.lineSize.toNat = g.capacity.toNat := by
  have hwhole : g.setBytes ∣ g.capacity.toNat := Nat.dvd_of_mod_eq_zero g.valid.capacity_mod
  calc g.sets.toNat * g.ways.toNat * g.lineSize.toNat
      = g.capacity.toNat / g.setBytes * g.setBytes := by
        rw [toNat_sets, Dimensions.setBytes, Nat.mul_assoc, Nat.mul_comm g.ways.toNat]
    _ = g.capacity.toNat := Nat.div_mul_cancel hwhole

/-- There is at least one set. -/
lemma sets_pos : 0 < g.sets.toNat := by
  refine Nat.pos_of_ne_zero fun hzero => g.valid.capacity_ne (UInt64.toNat_inj.1 ?_)
  rw [← g.sets_mul, hzero, Nat.zero_mul, Nat.zero_mul]
  rfl

/-- The line of a byte is its address by the line size. -/
lemma toNat_lineOf_eq (a : Address) : (g.lineOf a).toNat = a.toNat / g.lineSize.toNat := by
  rw [g.toNat_lineOf, g.valid.lineSize_eq]
  rfl

/-- The set of a line is one of the sets. -/
lemma setOf_lt (line : Line) : g.setOf line < g.sets := by
  rw [UInt64.lt_iff_toNat_lt, setOf, UInt64.toNat_mod]
  exact Nat.mod_lt _ g.sets_pos

/-- Set and tag of a line give it back. -/
lemma lineAt?_setOf_tagOf (line : Line) : g.lineAt? (g.setOf line) (g.tagOf line) = some line := by
  have hline : (g.tagOf line).toNat * g.sets.toNat + (g.setOf line).toNat = line.toNat := by
    rw [tagOf, setOf, UInt64.toNat_div, UInt64.toNat_mod, Nat.div_add_mod']
  unfold lineAt?
  rw [hline, if_pos line.toNat_lt_size, UInt64.ofNat_toNat]

/-- Set and tag tell lines apart. -/
lemma setOf_tagOf_eq_iff (line other : Line) :
    g.setOf line = g.setOf other ∧ g.tagOf line = g.tagOf other ↔ line = other := by
  refine ⟨fun ⟨hset, htag⟩ => ?_, fun h => h ▸ ⟨rfl, rfl⟩⟩
  have hline := g.lineAt?_setOf_tagOf line
  rw [hset, htag, g.lineAt?_setOf_tagOf] at hline
  exact (Option.some.inj hline).symm

/-- A geometry divides its capacity exactly. -/
lemma exact : g.Exact g.toDimensions where
  capacity := g.sets_mul
  line := g.toNat_lineOf_eq
  set_lt a := g.setOf_lt (g.lineOf a)
  recombined a := g.lineAt?_setOf_tagOf (g.lineOf a)
  same_line a b := by
    rw [g.setOf_tagOf_eq_iff, ← UInt64.toNat_inj, g.toNat_lineOf_eq, g.toNat_lineOf_eq]

end Geometry

/-! ### References -/

namespace Hierarchy

variable {caches : List (Level × Geometry)} {found result : OrderedMap Level Geometry}
  {h : Hierarchy} {cache : Level × Geometry}

/-- A cache at a new level joins those that are there. -/
lemma mem_entries_insert (hnew : found.contains cache.1 = false) (e : Level × Geometry) :
    e ∈ (found.insert cache.1 cache.2).entries ↔ e ∈ found.entries ∨ e = cache := by
  have hnone : found.get? cache.1 = none :=
    Option.not_isSome_iff_eq_none.1 (Bool.eq_false_iff.1 hnew)
  rw [OrderedMap.mem_entries, OrderedMap.mem_entries, OrderedMap.get?_insert]
  split
  · rename_i heq
    rw [heq, hnone]
    refine ⟨fun hvalue => .inr (Prod.ext heq (Option.some.inj hvalue).symm), ?_⟩
    rintro (hvalue | rfl)
    · cases hvalue
    · rfl
  · rename_i hne
    exact ⟨.inl, fun hor => hor.resolve_right fun heq => hne (heq ▸ rfl)⟩

/-- Collecting caches keeps those that were found and adds the new ones. -/
lemma mem_of_foldlM
    (hfold : caches.foldlM (fun found cache =>
      if found.contains cache.1 then .error (.repeated cache.1)
      else .ok (found.insert cache.1 cache.2)) found = (.ok result : Except HierarchyFault _))
    (e : Level × Geometry) : e ∈ result.entries ↔ e ∈ found.entries ∨ e ∈ caches := by
  induction caches generalizing found with
  | nil =>
    obtain rfl : found = result := Except.ok.inj hfold
    simp
  | cons cache caches ih =>
    rw [List.foldlM_cons] at hfold
    split at hfold
    · cases hfold
    · rename_i hnew
      rw [ih hfold, mem_entries_insert (Bool.eq_false_iff.2 hnew), List.mem_cons, or_assoc]

/-- A hierarchy has the caches that it was assembled from. -/
lemma mem_caches_of_assemble (hassemble : assemble caches = .ok h) (e : Level × Geometry) :
    e ∈ h.caches.entries ↔ e ∈ caches := by
  unfold assemble at hassemble
  cases hcollect : collect caches with
  | error fault =>
    rw [hcollect] at hassemble
    cases hassemble
  | ok found =>
    rw [hcollect] at hassemble
    have hfound : h.caches = found := by
      simp only [Except.bind] at hassemble
      split at hassemble
      · cases hassemble
      · split at hassemble
        · cases hassemble
        · split at hassemble
          · split at hassemble
            · rw [← Except.ok.inj hassemble]
            · cases hassemble
          · cases hassemble
    rw [hfound, mem_of_foldlM hcollect]
    simp

/-- A reference finds the line of its address at every level. -/
lemma lineAt_ofAddress (hcache : cache ∈ h.caches.entries) (kind : AccessKind) (a : Address) :
    (Reference.ofAddress h.finestShift kind a).lineAt h.finestShift cache.2 = cache.2.lineOf a :=
  Geometry.lineOf_shift (finestShift_le hcache) a

/-- Line, set and tag arithmetic is exact for all dimensions that are accepted and all addresses. In
every hierarchy that is assembled, the reference of an address lies in the line of the address at
every level; so references that compare equal lie in the same lines, and so do their addresses. -/
theorem lines_exact :
    (∀ (d : Dimensions) (g : Geometry), d.geometry = .ok g → g.Exact d) ∧
    ∀ (caches : List (Level × Geometry)) (h : Hierarchy), assemble caches = .ok h →
      (∀ cache, cache ∈ h.caches.entries ↔ cache ∈ caches) ∧
      ∀ cache ∈ h.caches.entries,
        (∀ kind a, (Reference.ofAddress h.finestShift kind a).lineAt h.finestShift cache.2 =
          cache.2.lineOf a) ∧
        (∀ r r' : Reference, compare r r' = .eq →
          r.lineAt h.finestShift cache.2 = r'.lineAt h.finestShift cache.2) ∧
        ∀ kind kind' a b,
          compare (Reference.ofAddress h.finestShift kind a)
            (Reference.ofAddress h.finestShift kind' b) = .eq →
          cache.2.lineOf a = cache.2.lineOf b := by
  refine ⟨fun d g hd => ?_, fun caches h hassemble => ?_⟩
  · rw [← Dimensions.toDimensions_of_geometry hd]
    exact g.exact
  · refine ⟨mem_caches_of_assemble hassemble, fun cache hcache => ⟨lineAt_ofAddress hcache, ?_, ?_⟩⟩
    · intro r r' heq
      rw [Std.LawfulEqCmp.eq_of_compare heq]
    · intro kind kind' a b heq
      rw [← lineAt_ofAddress hcache kind a, Std.LawfulEqCmp.eq_of_compare heq,
        lineAt_ofAddress hcache kind' b]

/-- Three sets of two ways, for lines of 64 bytes, behind a level with lines of 32 bytes. -/
theorem lines_exact_threeSets :
    ∃ (near far : Geometry) (h : Hierarchy), Dimensions.geometry ⟨64, 1, 32⟩ = .ok near ∧
      Dimensions.geometry ⟨384, 2, 64⟩ = .ok far ∧
      assemble [(.l1i, near), (.l1d, near), (.l2, far)] = .ok h ∧ far.Exact ⟨384, 2, 64⟩ ∧
      (Reference.ofAddress h.finestShift .data 0xffffffffffffffff).lineAt h.finestShift far =
        far.lineOf 0xffffffffffffffff := by
  obtain ⟨near, hnear⟩ : ∃ g, Dimensions.geometry ⟨64, 1, 32⟩ = .ok g := ⟨_, rfl⟩
  obtain ⟨far, hfar⟩ : ∃ g, Dimensions.geometry ⟨384, 2, 64⟩ = .ok g := ⟨_, rfl⟩
  obtain ⟨h, hh⟩ : ∃ h, assemble [(.l1i, near), (.l1d, near), (.l2, far)] = .ok h := ⟨_, rfl⟩
  obtain ⟨hmem, hlevels⟩ := lines_exact.2 _ h hh
  have hlast : (Level.l2, far) ∈ h.caches.entries := (hmem _).2 (by simp)
  exact ⟨near, far, h, hnear, hfar, hh, lines_exact.1 _ far hfar, (hlevels _ hlast).1 .data _⟩

end Hierarchy

end CacheVerdict
