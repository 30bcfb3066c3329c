import Mathlib.Data.ENat.Lattice
import CacheVerdict.Proofs.Cache.Meet
import CacheVerdict.Proofs.Cache.Lru
import CacheVerdict.Proofs.Cache.Run
import CacheVerdict.Proofs.Flow.Ascent

/-!
# The order of descriptions

What it means for one description of a cache to say less than another. A line that is not held has
no finite age, so the ages of a description are a function into `ℕ∞`, and both orders are read off
it: lines that must be cached are fewer and older in what says less, lines that may be cached are
more and younger. Main statement: what two descriptions have in common is their least upper bound,
and accesses and calls are monotone, so that both analyses run over ordered domains.
-/

namespace CacheVerdict

namespace AgedLines

variable {g : Geometry} {ties : Bool} {a b : AgedLines} {line other : Line}

/-- An age is kept if there is a way for it. -/
lemma keep_eq_some {age kept : Nat} :
    keep g age = some kept ↔ age < g.ways.toNat ∧ age = kept := by
  unfold keep
  split <;> simp_all

/-- A touch leaves the lines of other sets alone, and those that are older than the touched line. -/
lemma not_ages {age : Nat} :
    ¬ (a.standing g line).ages ties (g.setOf other) age ↔ g.setOf line ≠ g.setOf other ∨
      ∃ own, a.get? line = some own ∧ if ties then own < age else own ≤ age := by
  unfold standing Standing.ages
  cases a.get? line <;> cases ties <;> simp [imp_iff_not_or]

/-- The age of a line; infinite if it is not held. -/
def ageOf (a : AgedLines) (line : Line) : ℕ∞ :=
  (a.get? line).elim ⊤ Nat.cast

/-- The age of a line that is held. -/
lemma ageOf_of_get? {age : Nat} (h : a.get? line = some age) : a.ageOf line = age := by
  rw [ageOf, h]
  rfl

/-- The age of a line that is not held is infinite. -/
lemma ageOf_eq_top (h : a.get? line = none) : a.ageOf line = ⊤ := by
  rw [ageOf, h]
  rfl

/-- Lines with ages are known by their ages. -/
lemma ageOf_injective : Function.Injective ageOf := by
  intro a b h
  refine OrderedMap.ext_get? fun line => ?_
  have hline := congrFun h line
  cases ha : a.get? line <;> cases hb : b.get? line <;> simp_all [ageOf]

/-- An age, unless the line is then no longer cached. -/
def cap (g : Geometry) (age : ℕ∞) : ℕ∞ :=
  if age < g.ways.toNat then age else ⊤

/-- Older lines are kept at older ages, if at all. -/
lemma cap_mono (g : Geometry) : Monotone (cap g) := by
  intro v w h
  unfold cap
  split
  · split
    · exact h
    · exact le_top
  · rename_i hv
    have hw : ¬ w < g.ways.toNat := fun hw => hv (h.trans_lt hw)
    rw [if_neg hw]

/-- A line that has just been touched is cached. -/
lemma cap_zero : cap g 0 = 0 :=
  if_pos (Nat.cast_lt.2 g.ways_pos)

/-- An age that reaches the number of ways is not kept. -/
lemma le_cap (g : Geometry) (age : ℕ∞) : age ≤ cap g age := by
  unfold cap
  split
  · exact le_rfl
  · exact le_top

/-- What the smaller cache holds does not hang on what the larger one evicts. -/
lemma cap_cap {g' : Geometry} (h : g.ways ≤ g'.ways) (age : ℕ∞) :
    cap g (cap g' age) = cap g age := by
  have hle : (g.ways.toNat : ℕ∞) ≤ g'.ways.toNat := Nat.cast_le.2 (UInt32.le_iff_toNat_le.1 h)
  by_cases hage : age < g'.ways.toNat
  · rw [cap.eq_def g' age, if_pos hage]
  · have hage' : ¬ age < g.ways.toNat := fun hlt => hage (hlt.trans_le hle)
    rw [cap.eq_def g' age, if_neg hage, cap, cap, if_neg hage', if_neg (not_lt.2 le_top)]

/-- Keeping an age is capping it. -/
lemma elim_keep (age : Nat) : (keep g age).elim ⊤ Nat.cast = cap g age := by
  unfold keep cap
  by_cases h : age < g.ways.toNat
  · have h' : (age : ℕ∞) < g.ways.toNat := Nat.cast_lt.2 h
    rw [if_pos h, if_pos h']
    rfl
  · have h' : ¬ (age : ℕ∞) < g.ways.toNat := fun h' => h (Nat.cast_lt.1 h')
    rw [if_neg h, if_neg h']
    rfl

/-- The age of a line once another one of its set is touched, which had the age `own`. -/
def bump : (ties : Bool) → (own age : ℕ∞) → ℕ∞
  | true, own, age => if age ≤ own then age + 1 else age
  | false, own, age => if age < own then age + 1 else age

/-- A line does not get younger when another one is touched. -/
lemma le_bump (ties : Bool) (own age : ℕ∞) : age ≤ bump ties own age := by
  cases ties with
  | true =>
    by_cases h : age ≤ own
    · simp only [bump, if_pos h]
      exact le_self_add
    · simp only [bump, if_neg h, le_rfl]
  | false =>
    by_cases h : age < own
    · simp only [bump, if_pos h]
      exact le_self_add
    · simp only [bump, if_neg h, le_rfl]

/-- A line that is not cached stays so. -/
lemma bump_top (ties : Bool) (own : ℕ∞) : bump ties own ⊤ = ⊤ :=
  top_le_iff.1 (le_bump ties own ⊤)

/-- The older two lines are, the older is the one when the other is touched. -/
lemma bump_mono {own own' age age' : ℕ∞} (hown : own ≤ own') (hage : age ≤ age') :
    bump ties own age ≤ bump ties own' age' := by
  -- where only the older of the two stays as it is, it stands strictly behind the younger
  cases ties with
  | true =>
    by_cases h : age ≤ own
    · by_cases h' : age' ≤ own'
      · simp only [bump, if_pos h, if_pos h']
        exact add_le_add_left hage 1
      · simp only [bump, if_pos h, if_neg h']
        exact Order.add_one_le_of_lt (h.trans_lt (hown.trans_lt (not_le.1 h')))
    · simp only [bump, if_neg h]
      exact hage.trans (le_bump true own' age')
  | false =>
    by_cases h : age < own
    · by_cases h' : age' < own'
      · simp only [bump, if_pos h, if_pos h']
        exact add_le_add_left hage 1
      · simp only [bump, if_pos h, if_neg h']
        exact Order.add_one_le_of_lt (h.trans_le (hown.trans (not_lt.1 h')))
    · simp only [bump, if_neg h]
      exact hage.trans (le_bump false own' age')

/-- Ages after a touch. -/
lemma ageOf_touch :
    (a.touch g ties line).ageOf other =
      if other = line then 0
      else cap g (if g.setOf line = g.setOf other then bump ties (a.ageOf line) (a.ageOf other)
        else a.ageOf other) := by
  rw [ageOf, get?_touch]
  split
  · rfl
  · cases hother : a.get? other with
    | none =>
      rw [ageOf_eq_top hother, bump_top]
      simp [cap]
    | some age =>
      rw [Option.bind_some, elim_keep, ageOf_of_get? hother]
      congr 1
      by_cases hset : g.setOf line = g.setOf other
      · rw [if_pos hset]
        cases hline : a.get? line with
        | none =>
          rw [ageOf_eq_top hline]
          cases ties <;> simp [Standing.ages, standing, hline, hset, bump]
        | some own =>
          rw [ageOf_of_get? hline]
          cases ties with
          | true => by_cases h : age ≤ own <;> simp [Standing.ages, standing, hline, hset, bump, h]
          | false => by_cases h : age < own <;> simp [Standing.ages, standing, hline, hset, bump, h]
      · simp [Standing.ages, standing, hset]

/-- Ages after new ages are given. -/
lemma ageOf_reage {f : Line → Nat → Nat} :
    (a.reage g f).ageOf line = (a.get? line).elim ⊤ fun age => cap g (f line age) := by
  rw [ageOf, reage, OrderedMap.get?_filterMap]
  cases a.get? line with
  | none => rfl
  | some age => exact elim_keep (f line age)

/-- Ages after an access to an unknown line. -/
lemma ageOf_reage_shifted : (a.reage g shiftedAge).ageOf line = cap g (a.ageOf line + 1) := by
  rw [ageOf_reage]
  cases h : a.get? line with
  | none =>
    rw [ageOf_eq_top h]
    simp [cap]
  | some age =>
    rw [ageOf_of_get? h]
    rfl

/-- Ages after a call. -/
lemma ageOf_reage_called {c : Call} :
    (a.reage g (calledAge g c)).ageOf line =
      cap g (a.ageOf line + c.conflicts g (g.setOf line) line) := by
  rw [ageOf_reage]
  cases h : a.get? line with
  | none =>
    rw [ageOf_eq_top h]
    simp [cap]
  | some age =>
    rw [ageOf_of_get? h]
    simp [calledAge]

/-- The age in both descriptions is the greater one. -/
lemma ageOf_interWith : ageOf (a.interWith max b) line = max (a.ageOf line) (b.ageOf line) := by
  rw [ageOf, OrderedMap.get?_interWith, ageOf, ageOf]
  cases a.get? line with
  | none => simp
  | some v =>
    cases b.get? line with
    | none => simp
    | some w => exact Nat.mono_cast.map_max

/-- The age in either description is the smaller one. -/
lemma ageOf_unionWith : ageOf (a.unionWith min b) line = min (a.ageOf line) (b.ageOf line) := by
  rw [ageOf, OrderedMap.get?_unionWith, ageOf, ageOf]
  cases a.get? line with
  | none => cases b.get? line <;> simp
  | some v =>
    cases b.get? line with
    | none => simp
    | some w => exact Nat.mono_cast.map_min

/-- A touch is monotone in the ages. -/
lemma ageOf_touch_mono (h : a.ageOf ≤ b.ageOf) :
    (a.touch g ties line).ageOf ≤ (b.touch g ties line).ageOf := by
  intro other
  rw [ageOf_touch, ageOf_touch]
  split
  · exact le_rfl
  · apply cap_mono
    split
    · exact bump_mono (h line) (h other)
    · exact h other

end AgedLines

/-! ### Ordered descriptions -/

/-- Descriptions with an order in which what two have in common is their least upper bound. -/
class OrderedAbstraction (σ : Type) [Abstraction σ] extends PartialOrder σ where
  le_merge_left : ∀ a b : σ, a ≤ Abstraction.merge a b
  le_merge_right : ∀ a b : σ, b ≤ Abstraction.merge a b
  merge_le : ∀ {a b c : σ}, a ≤ c → b ≤ c → Abstraction.merge a b ≤ c
  touch_mono : ∀ (g : Geometry) (line : Line), Monotone (Abstraction.touch g line : σ → σ)
  touchUnknown_mono : ∀ g : Geometry, Monotone (Abstraction.touchUnknown g : σ → σ)
  call_mono : ∀ (g : Geometry) (c : Call), Monotone (Abstraction.call g c : σ → σ)

instance : PartialOrder MustCache where
  le a b := ∀ line, a.lines.ageOf line ≤ b.lines.ageOf line
  le_refl _ _ := le_rfl
  le_trans _ _ _ h h' line := (h line).trans (h' line)
  le_antisymm _ _ h h' :=
    MustCache.ext (AgedLines.ageOf_injective (funext fun line => le_antisymm (h line) (h' line)))

open AgedLines in
instance : OrderedAbstraction MustCache where
  le_merge_left a b line := by
    show _ ≤ ageOf (a.lines.interWith max b.lines) line
    rw [ageOf_interWith]
    exact le_max_left _ _
  le_merge_right a b line := by
    show _ ≤ ageOf (a.lines.interWith max b.lines) line
    rw [ageOf_interWith]
    exact le_max_right _ _
  merge_le {a b c} ha hb line := by
    show ageOf (a.lines.interWith max b.lines) line ≤ _
    rw [ageOf_interWith]
    exact max_le (ha line) (hb line)
  touch_mono g line a b h := ageOf_touch_mono h
  touchUnknown_mono g a b h line := by
    show (a.lines.reage g shiftedAge).ageOf line ≤ (b.lines.reage g shiftedAge).ageOf line
    rw [ageOf_reage_shifted, ageOf_reage_shifted]
    exact cap_mono g (add_le_add_left (h line) 1)
  call_mono g c a b h := by
    show (if c.effect.unknown then {} else ⟨a.lines.reage g (calledAge g c)⟩ : MustCache) ≤
      if c.effect.unknown then {} else ⟨b.lines.reage g (calledAge g c)⟩
    split
    · exact le_rfl
    · intro line
      show (a.lines.reage g (calledAge g c)).ageOf line ≤
        (b.lines.reage g (calledAge g c)).ageOf line
      rw [ageOf_reage_called, ageOf_reage_called]
      exact cap_mono g (add_le_add_left (h line) _)

instance : PartialOrder MayCache where
  le a b := (∀ line, b.lines.ageOf line ≤ a.lines.ageOf line) ∧ a.saturated ≤ b.saturated
  le_refl _ := ⟨fun _ => le_rfl, le_rfl⟩
  le_trans _ _ _ h h' := ⟨fun line => (h'.1 line).trans (h.1 line), h.2.trans h'.2⟩
  le_antisymm _ _ h h' :=
    MayCache.ext
      (AgedLines.ageOf_injective (funext fun line => le_antisymm (h'.1 line) (h.1 line)))
      (le_antisymm h.2 h'.2)

/-- The description that says less has more and younger lines, and is saturated sooner. -/
lemma MayCache.le_def {a b : MayCache} :
    a ≤ b ↔ (∀ line, b.lines.ageOf line ≤ a.lines.ageOf line) ∧ a.saturated ≤ b.saturated :=
  Iff.rfl

namespace AgedLines

/-- The ages once the lines of a set are held at age 0. -/
lemma ageOf_unionWith_ofSet {a : AgedLines} {lines : OrderedSet Line} {line : Line} :
    ageOf (a.unionWith (fun _ youngest => youngest) (.ofSet lines 0)) line =
      if line ∈ lines then 0 else a.ageOf line := by
  rw [ageOf, OrderedMap.get?_unionWith, OrderedMap.get?_ofSet, ageOf]
  split <;> cases a.get? line <;> simp

end AgedLines

open AgedLines in
instance : OrderedAbstraction MayCache where
  le_merge_left a b := by
    refine MayCache.le_def.2 ⟨fun line => ?_, Bool.left_le_or _ _⟩
    show ageOf (a.lines.unionWith min b.lines) line ≤ _
    rw [ageOf_unionWith]
    exact min_le_left _ _
  le_merge_right a b := by
    refine MayCache.le_def.2 ⟨fun line => ?_, Bool.right_le_or _ _⟩
    show ageOf (a.lines.unionWith min b.lines) line ≤ _
    rw [ageOf_unionWith]
    exact min_le_right _ _
  merge_le {a b c} ha hb := by
    refine MayCache.le_def.2 ⟨fun line => ?_, Bool.or_le ha.2 hb.2⟩
    show _ ≤ ageOf (a.lines.unionWith min b.lines) line
    rw [ageOf_unionWith]
    exact le_min (ha.1 line) (hb.1 line)
  touch_mono g line a b h := MayCache.le_def.2 ⟨ageOf_touch_mono h.1, h.2⟩
  touchUnknown_mono g a b h := MayCache.le_def.2 ⟨h.1, le_rfl⟩
  call_mono g c a b h := by
    refine MayCache.le_def.2 ⟨fun line => ?_, ?_⟩
    · show ageOf (b.lines.unionWith _ _) line ≤ ageOf (a.lines.unionWith _ _) line
      rw [ageOf_unionWith_ofSet, ageOf_unionWith_ofSet]
      split
      · exact le_rfl
      · exact h.1 line
    · exact Bool.or_le ((h.2).trans (Bool.left_le_or _ _)) (Bool.right_le_or _ _)

/-! ### Ordered states -/

namespace State

variable {σ : Type} [Abstraction σ]

/-- A state as a description with one more element below. -/
def toWithBot : State σ → WithBot σ
  | .unreached => ⊥
  | .reached a => a

omit [Abstraction σ] in
/-- A state is known by its description, if it has one. -/
lemma toWithBot_injective : Function.Injective (toWithBot : State σ → WithBot σ) := by
  intro s t h
  cases s <;> cases t <;> simp_all [toWithBot]

variable [OrderedAbstraction σ]

instance : PartialOrder (State σ) := PartialOrder.lift toWithBot toWithBot_injective

/-- An unreached state says the most. -/
lemma unreached_le (s : State σ) : .unreached ≤ s := (bot_le : ⊥ ≤ s.toWithBot)

/-- Reached states are ordered by their descriptions. -/
lemma reached_le {a b : σ} : State.reached a ≤ .reached b ↔ a ≤ b := WithBot.coe_le_coe

/-- A reached state says less than the unreached one. -/
lemma not_reached_le_unreached {a : σ} : ¬ State.reached a ≤ .unreached := WithBot.not_coe_le_bot a

/-- What is done to the description of a state is monotone if it is so on descriptions. -/
lemma map_mono {f : σ → σ} (h : Monotone f) : Monotone (State.map f) := by
  intro s t hle
  cases s with
  | unreached => exact unreached_le _
  | reached a =>
    cases t with
    | unreached => exact absurd hle not_reached_le_unreached
    | reached b => exact reached_le.2 (h (reached_le.1 hle))

/-- Merging is monotone. -/
lemma merge_mono {a a' b b' : σ} (ha : a ≤ a') (hb : b ≤ b') :
    Abstraction.merge a b ≤ Abstraction.merge a' b' := by
  apply OrderedAbstraction.merge_le
  · exact ha.trans (OrderedAbstraction.le_merge_left a' b')
  · exact hb.trans (OrderedAbstraction.le_merge_right a' b')

variable [LawfulAbstraction σ]

/-- An access to one of several lines is monotone, because the accesses to each of them are. -/
lemma touchOneOf_mono (g : Geometry) {candidates : OrderedSet Line} (h : candidates.toList ≠ []) :
    Monotone (Abstraction.touchOneOf g candidates : σ → σ) := by
  intro a b hle
  cases hl : candidates.toList with
  | nil => exact absurd hl h
  | cons line rest =>
    rw [LawfulAbstraction.touchOneOf_eq_foldl hl, LawfulAbstraction.touchOneOf_eq_foldl hl]
    have hline := OrderedAbstraction.touch_mono g line hle
    revert hline
    generalize Abstraction.touch g line a = low
    generalize Abstraction.touch g line b = high
    clear hl
    intro hline
    induction rest generalizing low high with
    | nil => exact hline
    | cons other rest ih =>
      exact ih _ _ (merge_mono hline (OrderedAbstraction.touch_mono g other hle))

instance : OrderedDomain (State σ) where
  bottom_le := unreached_le
  le_join_left s t := by
    cases s with
    | unreached => exact unreached_le _
    | reached a =>
      cases t with
      | unreached => exact le_rfl
      | reached b => exact reached_le.2 (OrderedAbstraction.le_merge_left a b)
  le_join_right s t := by
    cases t with
    | unreached => exact unreached_le _
    | reached b =>
      cases s with
      | unreached => exact le_rfl
      | reached a => exact reached_le.2 (OrderedAbstraction.le_merge_right a b)
  join_le {s t u} hs ht := by
    cases t with
    | unreached =>
      cases s <;> exact hs
    | reached b =>
      cases s with
      | unreached => exact ht
      | reached a =>
        cases u with
        | unreached => exact absurd hs not_reached_le_unreached
        | reached c =>
          exact reached_le.2 (OrderedAbstraction.merge_le (reached_le.1 hs) (reached_le.1 ht))
  touch_mono g line := map_mono (OrderedAbstraction.touch_mono g line)
  touchOneOf_mono g lines h := by
    obtain ⟨line, hline⟩ := List.exists_mem_of_ne_nil lines h
    exact map_mono (touchOneOf_mono g (OrderedSet.toList_ofList_ne_nil hline))
  touchUnknown_mono g := map_mono (OrderedAbstraction.touchUnknown_mono g)
  call_mono g c := map_mono (OrderedAbstraction.call_mono g c)

end State

end CacheVerdict
