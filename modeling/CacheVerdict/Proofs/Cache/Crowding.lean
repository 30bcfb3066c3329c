import CacheVerdict.Proofs.Cache.Order
import CacheVerdict.Proofs.Cache.Run

/-!
# Lines by two names

Two descriptions of one program may take its accesses to go to different lines, so that each line
goes by two names. Where the first names crowd some sets of a cache no less than the second ones
(`Crowds`), ages under the first names bound those under the second there: touching a line under both
names keeps the bound, and so does touching a line of another set under one of them
(`Crowds.below_touch`, `Crowds.below_touch_left`, `AgedLines.Below.touch_right`). A call that names
its lines in both has no fewer conflicts under the first names (`Crowds.rivals_size_le`).
-/

namespace CacheVerdict

/-- Lines by two names, where some sets are concerned: the first names crowd them no less. What has
different second names there has different first names, and where second names share a set, first
names do. -/
structure Crowds (g : Geometry) (S : UInt64 → Prop) (U : Line → Line → Prop) : Prop where
  line : ∀ {x y y'}, U x y → S (g.setOf y) → U x y' → y = y'
  set : ∀ {x y x' y'}, U x y → S (g.setOf y) → U x' y' → g.setOf y = g.setOf y' →
    y = y' ∨ g.setOf x = g.setOf x'

/-- A line of a set that is not concerned. -/
def Away (g : Geometry) (S : UInt64 → Prop) (y : Line) : Prop :=
  ¬S (g.setOf y)

/-- A line that is not concerned by its second name. -/
def AwayBy (g : Geometry) (S : UInt64 → Prop) (U : Line → Line → Prop) (x : Line) : Prop :=
  ∃ y, U x y ∧ Away g S y

/-- Every line crowds the sets as itself. -/
lemma crowds_of_eq (g : Geometry) (S : UInt64 → Prop) {U : Line → Line → Prop}
    (h : ∀ {x y}, U x y → x = y) : Crowds g S U where
  line hxy _ hxy' := (h hxy).symm.trans (h hxy')
  set hxy _ hxy' hset := by
    rw [h hxy, h hxy']
    exact .inr hset

namespace AgedLines

variable {g : Geometry} {a b : AgedLines} {line other : Line}

/-- A touch ages a line by one at most. -/
lemma bump_le_succ (ties : Bool) (own age : ℕ∞) : bump ties own age ≤ age + 1 := by
  cases ties with
  | true =>
    simp only [bump]
    split
    · exact le_rfl
    · exact le_self_add
  | false =>
    simp only [bump]
    split
    · exact le_rfl
    · exact le_self_add

/-- Other lines do not get younger by a touch. -/
lemma ageOf_le_ageOf_touch {ties : Bool} (hne : other ≠ line) :
    a.ageOf other ≤ (a.touch g ties line).ageOf other := by
  rw [ageOf_touch, if_neg hne]
  refine le_trans ?_ (le_cap g _)
  split
  · exact le_bump ties _ _
  · exact le_rfl

/-- No line is held at an age that the cache has no way for. -/
def Capped (g : Geometry) (a : AgedLines) : Prop :=
  ∀ line, cap g (a.ageOf line) = a.ageOf line

/-- No lines are capped. -/
lemma capped_empty (g : Geometry) : Capped g {} :=
  fun _ => if_neg not_top_lt

/-- New ages are kept only where there are ways for them. -/
lemma capped_reage (a : AgedLines) (f : Line → Nat → Nat) : Capped g (a.reage g f) := by
  intro line
  rw [ageOf_reage]
  cases a.get? line with
  | none => exact if_neg not_top_lt
  | some age => exact cap_cap (UInt32.le_refl _) _

/-- Touching a line leaves capped lines. -/
lemma capped_touch (a : AgedLines) (ties : Bool) (line : Line) : Capped g (a.touch g ties line) := by
  intro other
  rw [ageOf_touch]
  split
  · exact cap_zero
  · exact cap_cap (UInt32.le_refl _) _

/-- Lines common to capped ones are capped. -/
lemma Capped.interWith (ha : Capped g a) (hb : Capped g b) : Capped g (a.interWith max b) := by
  intro line
  rw [ageOf_interWith, (cap_mono g).map_max, ha line, hb line]

/-- Capped lines together are capped. -/
lemma Capped.unionWith (ha : Capped g a) (hb : Capped g b) : Capped g (a.unionWith min b) := by
  intro line
  rw [ageOf_unionWith, (cap_mono g).map_min, ha line, hb line]

/-- Adding lines at age zero leaves capped lines. -/
lemma Capped.unionWith_ofSet (ha : Capped g a) (lines : OrderedSet Line) :
    Capped g (a.unionWith (fun _ youngest => youngest) (.ofSet lines 0)) := by
  intro line
  rw [ageOf_unionWith_ofSet]
  split
  · exact cap_zero
  · exact ha line

/-- A touch leaves the other sets alone. -/
lemma ageOf_touch_of_set_ne {ties : Bool} (hset : g.setOf line ≠ g.setOf other) :
    (a.touch g ties line).ageOf other = cap g (a.ageOf other) := by
  have hne : other ≠ line := fun heq => hset (heq ▸ rfl)
  rw [ageOf_touch, if_neg hne, if_neg hset]

/-- In the sets concerned, ages under the second names that are at most those under the first. -/
def Below (g : Geometry) (S : UInt64 → Prop) (U : Line → Line → Prop) (b a : AgedLines) : Prop :=
  ∀ x y, U x y → S (g.setOf y) → b.ageOf y ≤ a.ageOf x

/-- Touching a line of another set leaves the ages below, if those of one side have ways. -/
lemma Below.touch_right {S : UInt64 → Prop} {U : Line → Line → Prop} {ties : Bool}
    (h : Below g S U b a) (capped : Capped g a ∨ Capped g b) (hs : Away g S line) :
    Below g S U (b.touch g ties line) a := by
  intro x y hxy hs'
  have hset : g.setOf line ≠ g.setOf y := fun heq => hs (heq ▸ hs')
  rw [ageOf_touch_of_set_ne hset]
  rcases capped with ha | hb
  · exact ha x ▸ cap_mono g (h x y hxy hs')
  · exact (hb y).symm ▸ h x y hxy hs'

end AgedLines

namespace Crowds

open AgedLines

variable {g : Geometry} {S : UInt64 → Prop} {U : Line → Line → Prop} {a b : AgedLines} {x y : Line}

/-- Touching a line under its two names keeps the ages below. -/
lemma below_touch (crowds : Crowds g S U) (ties : Bool) (h : Below g S U b a) (hxy : U x y) :
    Below g S U (b.touch g ties y) (a.touch g ties x) := by
  intro x' y' hxy' hs
  rw [ageOf_touch, ageOf_touch]
  by_cases hy : y' = y
  · rw [if_pos hy]
    exact zero_le
  · have hx : x' ≠ x := fun heq => hy (crowds.line hxy' hs (heq ▸ hxy))
    rw [if_neg hy, if_neg hx]
    apply cap_mono
    -- where the touch ages the second line, it ages the first, whose own age bounds it
    by_cases hset : g.setOf y = g.setOf y'
    · have hset' : g.setOf x = g.setOf x' :=
        ((crowds.set hxy' hs hxy hset.symm).resolve_left hy).symm
      rw [if_pos hset, if_pos hset']
      exact bump_mono (h x y hxy (hset ▸ hs)) (h x' y' hxy' hs)
    · rw [if_neg hset]
      refine (h x' y' hxy' hs).trans ?_
      split
      · exact le_bump ties _ _
      · exact le_rfl

/-- So does touching a line whose second name lies in another set, under its first name alone. -/
lemma below_touch_left (crowds : Crowds g S U) {ties : Bool} (h : Below g S U b a)
    (away : AwayBy g S U x) : Below g S U b (a.touch g ties x) := by
  obtain ⟨y, hxy, hs⟩ := away
  intro x' y' hxy' hs'
  have hx : x' ≠ x := by
    rintro rfl
    exact hs (crowds.line hxy' hs' hxy ▸ hs')
  exact (h x' y' hxy' hs').trans (ageOf_le_ageOf_touch hx)

/-- A call that touches the lines concerned under their first names has no fewer conflicts there. -/
lemma rivals_size_le (crowds : Crowds g S U) {c c' : Call}
    (h : ∀ y ∈ c.lines, S (g.setOf y) → ∃ x ∈ c'.lines, U x y) (hxy : U x y) (hs : S (g.setOf y)) :
    (c.rivals g y).size ≤ (c'.rivals g x).size := by
  -- each rival has a first name of its own, and it is a rival there
  have hnamed : ∀ z ∈ (c.rivals g y).toList,
      ∃ w ∈ (c'.rivals g x).toList, U w z ∧ S (g.setOf z) := by
    intro z hz
    obtain ⟨hmem, hrival⟩ := OrderedSet.mem_filter.1 hz
    simp only [Bool.and_eq_true, decide_eq_true_eq] at hrival
    have hsz : S (g.setOf z) := hrival.2 ▸ hs
    obtain ⟨w, hw, hwz⟩ := h z hmem hsz
    refine ⟨w, OrderedSet.mem_filter.2 ⟨hw, ?_⟩, hwz, hsz⟩
    have hne : w ≠ x := fun heq => hrival.1 (crowds.line hwz hsz (heq ▸ hxy))
    have hset : g.setOf w = g.setOf x := (crowds.set hwz hsz hxy hrival.2).resolve_left hrival.1
    simp [hne, hset]
  choose! name hname hu hsets using hnamed
  have hinj : ∀ z ∈ (c.rivals g y).toList, ∀ z' ∈ (c.rivals g y).toList,
      name z = name z' → z = z' := by
    intro z hz z' hz' heq
    exact crowds.line (hu z hz) (hsets z hz) (heq ▸ hu z' hz')
  have hnodup : ((c.rivals g y).toList.map name).Nodup :=
    List.Nodup.map_on hinj (c.rivals g y).nodup_toList
  have hsub : (c.rivals g y).toList.map name ⊆ (c'.rivals g x).toList := by
    intro w hw
    obtain ⟨z, hz, rfl⟩ := List.mem_map.1 hw
    exact hname z hz
  have hlength := hnodup.length_le_of_subset hsub
  rwa [List.length_map] at hlength

end Crowds

end CacheVerdict
