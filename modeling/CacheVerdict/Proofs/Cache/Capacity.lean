import CacheVerdict.Proofs.Cache.Embedding
import CacheVerdict.Proofs.Cache.Order

/-!
# What must be cached fits in the cache

A cache holds `k` lines of a set that are younger than `k`, and a description of what must be cached
promises no more. A bound on the number of lines alone would not be kept: a touched line that was
held stays among them, and how many lines it leaves behind hangs on how many were younger. So the
invariant counts the lines below every age (`AgedLines.Packed`). Main statement: it holds of every
state that accesses, calls and joins lead to (`MustCache.promises_fit`).
-/

namespace CacheVerdict

namespace AgedLines

variable {g : Geometry} {a b : AgedLines} {set : UInt64} {line : Line} {k : Nat}

/-- The lines of a set whose age satisfies `p`. -/
def linesOf (g : Geometry) (a : AgedLines) (set : UInt64) (p : Nat → Bool) : List Line :=
  (a.entries.filter fun e => g.setOf e.1 = set && p e.2).map Prod.fst

/-- The lines of a set that are found are those of an age that is asked for. -/
lemma mem_linesOf {p : Nat → Bool} :
    line ∈ a.linesOf g set p ↔
      g.setOf line = set ∧ ∃ age, a.get? line = some age ∧ p age = true := by
  simp only [linesOf, List.mem_map, List.mem_filter, Bool.and_eq_true, decide_eq_true_eq]
  constructor
  · rintro ⟨e, ⟨he, hset, hp⟩, rfl⟩
    exact ⟨hset, e.2, OrderedMap.mem_entries.1 he, hp⟩
  · rintro ⟨hset, age, hage, hp⟩
    exact ⟨(line, age), ⟨OrderedMap.mem_entries.2 hage, hset, hp⟩, rfl⟩

/-- No line is found twice. -/
lemma nodup_linesOf (a : AgedLines) (set : UInt64) (p : Nat → Bool) :
    (a.linesOf g set p).Nodup := by
  have hkeys : (a.entries.map Prod.fst).Nodup := by
    refine List.Pairwise.map _ ?_ a.sorted
    intro e e' hlt heq
    simp [heq] at hlt
  exact hkeys.sublist (List.filter_sublist.map _)

/-- Lines are at most as many as those of a list that they all stand in. -/
lemma length_linesOf_le {p : Nat → Bool} (lines : List Line)
    (h : ∀ line age, g.setOf line = set → a.get? line = some age → p age = true → line ∈ lines) :
    (a.linesOf g set p).length ≤ lines.length := by
  apply (nodup_linesOf a set p).length_le_of_subset
  intro line hline
  obtain ⟨hset, age, hage, hp⟩ := mem_linesOf.1 hline
  exact h line age hset hage hp

/-- In each set, at most `k` lines are younger than `k`, and every age is below the number of
ways. -/
structure Packed (g : Geometry) (a : AgedLines) : Prop where
  younger : ∀ set k, (a.linesOf g set (· < k)).length ≤ k
  bounded : ∀ line age, a.get? line = some age → age < g.ways.toNat

namespace Packed

/-- An empty description is packed. -/
lemma empty : Packed g {} where
  younger _ k := Nat.zero_le k
  bounded := nofun

/-- Lines that get older, or are dropped, stay packed. -/
lemma of_older (h : a.Packed g)
    (older : ∀ line age, b.get? line = some age → ∃ old ≤ age, a.get? line = some old)
    (bounded : ∀ line age, b.get? line = some age → age < g.ways.toNat) : b.Packed g where
  younger set k := by
    refine (length_linesOf_le _ fun line age hset hage hlt => ?_).trans (h.younger set k)
    obtain ⟨old, hle, hold⟩ := older line age hage
    have hlt : age < k := of_decide_eq_true hlt
    exact mem_linesOf.2 ⟨hset, old, hold, decide_eq_true (hle.trans_lt hlt)⟩
  bounded := bounded

/-- Packed lines that only get older are packed. -/
lemma reage (h : a.Packed g) {f : Line → Nat → Nat} (hf : ∀ line age, age ≤ f line age) :
    (a.reage g f).Packed g := by
  have hget (line : Line) (age : Nat) (hage : (a.reage g f).get? line = some age) :
      ∃ old, a.get? line = some old ∧ f line old = age ∧ age < g.ways.toNat := by
    rw [AgedLines.reage, OrderedMap.get?_filterMap] at hage
    obtain ⟨old, hold, hnew⟩ := Option.bind_eq_some_iff.1 hage
    split at hnew
    · cases hnew
      exact ⟨old, hold, rfl, by assumption⟩
    · cases hnew
  apply h.of_older
  · intro line age hage
    obtain ⟨old, hold, rfl, _⟩ := hget line age hage
    exact ⟨old, hf line old, hold⟩
  · intro line age hage
    obtain ⟨_, _, _, hlt⟩ := hget line age hage
    exact hlt

/-- The lines that two packed descriptions have in common are packed. -/
lemma interWith (h : a.Packed g) (h' : b.Packed g) : Packed g (OrderedMap.interWith max a b) := by
  have hget (line : Line) (age : Nat) (hage : (OrderedMap.interWith max a b).get? line = some age) :
      ∃ v w, a.get? line = some v ∧ b.get? line = some w ∧ max v w = age := by
    rw [OrderedMap.get?_interWith] at hage
    obtain ⟨v, hv, hw⟩ := Option.bind_eq_some_iff.1 hage
    obtain ⟨w, hw, heq⟩ := Option.map_eq_some_iff.1 hw
    exact ⟨v, w, hv, hw, heq⟩
  apply h.of_older
  · intro line age hage
    obtain ⟨v, w, hv, _, rfl⟩ := hget line age hage
    exact ⟨v, Nat.le_max_left v w, hv⟩
  · intro line age hage
    obtain ⟨v, w, hv, hw, rfl⟩ := hget line age hage
    exact Nat.max_lt.2 ⟨h.bounded line v hv, h'.bounded line w hw⟩

/-- A line other than the touched one keeps its age or gets one older, and does get older if it is
in the set of the touched line and younger than that was. -/
lemma get?_touch_of_ne {other : Line} (hne : other ≠ line) {age : Nat}
    (h : (a.touch g false line).get? other = some age) :
    age < g.ways.toNat ∧ ∃ old ≤ age, a.get? other = some old ∧
      (g.setOf other = g.setOf line → (∀ own, a.get? line = some own → old < own) →
        old + 1 = age) := by
  rw [get?_touch, if_neg hne] at h
  obtain ⟨old, hold, hkeep⟩ := Option.bind_eq_some_iff.1 h
  obtain ⟨hlt, heq⟩ := keep_eq_some.1 hkeep
  by_cases hages : (a.standing g line).ages false (g.setOf other) old
  · rw [if_pos hages] at hlt heq
    exact ⟨heq ▸ hlt, old, by omega, hold, fun _ _ => heq⟩
  · rw [if_neg hages] at hlt heq
    refine ⟨heq ▸ hlt, old, heq.le, hold, fun hset hyounger => ?_⟩
    rcases not_ages.1 hages with hne | ⟨own, hown, hle⟩
    · exact absurd hset.symm hne
    · exact absurd (hyounger own hown) (Nat.not_lt.2 hle)

/-- A touched line that was younger than `k` is still one of those; any other comes in place of the
lines that reach `k`. -/
lemma touch (h : a.Packed g) (line : Line) : (a.touch g false line).Packed g where
  younger set k := by
    by_cases hset : g.setOf line = set
    · subst hset
      by_cases hheld : ∃ own, a.get? line = some own ∧ own < k
      · refine (length_linesOf_le _ fun other age hset hage hlt => ?_).trans
          (h.younger (g.setOf line) k)
        by_cases hne : other = line
        · obtain ⟨own, hown, hlt⟩ := hheld
          exact mem_linesOf.2 ⟨hset, own, hne ▸ hown, decide_eq_true hlt⟩
        · obtain ⟨_, old, hle, hold, _⟩ := get?_touch_of_ne hne hage
          exact mem_linesOf.2
            ⟨hset, old, hold, decide_eq_true (hle.trans_lt (of_decide_eq_true hlt))⟩
      · cases k with
        | zero =>
          refine length_linesOf_le [] fun _ age _ _ hlt => ?_
          exact absurd (of_decide_eq_true hlt) (Nat.not_lt_zero age)
        | succ k =>
          refine (length_linesOf_le (line :: a.linesOf g (g.setOf line) (· < k))
            fun other age hset hage hlt => ?_).trans (Nat.succ_le_succ (h.younger _ k))
          have hlt : age < k + 1 := of_decide_eq_true hlt
          by_cases hne : other = line
          · exact hne ▸ List.mem_cons_self
          · obtain ⟨_, old, hle, hold, holder⟩ := get?_touch_of_ne hne hage
            have hage : old + 1 = age := by
              apply holder hset
              intro own hown
              by_contra hnot
              exact hheld ⟨own, hown, by omega⟩
            apply List.mem_cons_of_mem
            exact mem_linesOf.2 ⟨hset, old, hold, decide_eq_true (by omega)⟩
    · refine (length_linesOf_le _ fun other age hset' hage hlt => ?_).trans (h.younger set k)
      have hne : other ≠ line := fun heq => hset (heq ▸ hset')
      obtain ⟨_, old, hle, hold, _⟩ := get?_touch_of_ne hne hage
      exact mem_linesOf.2
        ⟨hset', old, hold, decide_eq_true (hle.trans_lt (of_decide_eq_true hlt))⟩
  bounded other age hage := by
    by_cases hne : other = line
    · rw [get?_touch, if_pos hne] at hage
      cases hage
      exact g.ways_pos
    · exact (get?_touch_of_ne hne hage).1

end Packed

end AgedLines

namespace MustCache

/-- Every operation keeps what must be cached packed. -/
lemma embeds_packed (g : Geometry) :
    Abstraction.Embeds g (fun a : MustCache => a.lines.Packed g) (id : MustCache → MustCache) where
  start _ := ⟨.empty, rfl⟩
  merge ha hb := ⟨ha.interWith hb, rfl⟩
  touch line _ ha := ⟨ha.touch line, rfl⟩
  touchUnknown ha := ⟨ha.reage fun _ age => Nat.le_succ age, rfl⟩
  call c a ha := by
    refine ⟨?_, rfl⟩
    show (if c.effect.unknown then {} else ⟨_⟩ : MustCache).lines.Packed g
    split
    · exact .empty
    · exact ha.reage fun _ age => Nat.le_add_right age _
  injective _ _ h := h

/-- In every description of what must be cached that accesses, calls and joins lead to, a set has at
most `k + 1` lines of age `k` or below, and no more lines than ways. -/
theorem promises_fit (g : Geometry) (a : MustCache) (obtained : Domain.Obtained g (State.reached a))
    (set : UInt64) :
    (∀ k < g.ways.toNat, (a.lines.linesOf g set (· ≤ k)).length ≤ k + 1) ∧
      (a.lines.linesOf g set fun _ => true).length ≤ g.ways.toNat := by
  have hpacked : a.lines.Packed g := ((embeds_packed g).toDomain.of_obtained obtained).1
  constructor
  · intro k _
    refine (AgedLines.length_linesOf_le _ fun line age hset hage hle => ?_).trans
      (hpacked.younger set (k + 1))
    have hle : age ≤ k := of_decide_eq_true hle
    exact AgedLines.mem_linesOf.2 ⟨hset, age, hage, decide_eq_true (Nat.lt_succ_of_le hle)⟩
  · refine (AgedLines.length_linesOf_le _ fun line age hset hage _ => ?_).trans
      (hpacked.younger set g.ways.toNat)
    exact AgedLines.mem_linesOf.2
      ⟨hset, age, hage, decide_eq_true (hpacked.bounded line age hage)⟩

/-- Two lines of a set of two ways, touched in either order: both are promised at age 1, and none at
age 0. -/
theorem promises_fit_eitherOrder :
    ∃ a : MustCache,
      Domain.join
        (Domain.access .twoWays (.lines [0])
          (Domain.access .twoWays (.lines [2]) (Domain.start true)))
        (Domain.access .twoWays (.lines [2])
          (Domain.access .twoWays (.lines [0]) (Domain.start true))) = State.reached a ∧
      a.lines.get? 0 = some 1 ∧ a.lines.get? 2 = some 1 ∧
      (a.lines.linesOf .twoWays 0 (· ≤ 1)).length ≤ 2 ∧
      (a.lines.linesOf .twoWays 0 fun _ => true).length ≤ 2 := by
  refine ⟨_, rfl, by decide, by decide, ?_⟩
  have obtained (line line' : Line) : Domain.Obtained .twoWays
      (Domain.access .twoWays (.lines [line])
        (Domain.access .twoWays (.lines [line']) (Domain.start true)) : State MustCache) :=
    .access _ (.access _ (.start true))
  have hfit := promises_fit .twoWays _ (.join (obtained 0 2) (obtained 2 0)) 0
  exact ⟨hfit.1 1 (by decide), hfit.2⟩

end MustCache

end CacheVerdict
