import CacheVerdict.Proofs.Cache.Bounded
import CacheVerdict.Proofs.Cache.Order

/-!
# The analyses end

A procedure names only finitely many lines, and an age is below the number of ways. So a
description of its cache that comes to say less and less has to stop doing so: the ages of the named
lines, taken together, can only rise or fall so far. Main statements: the analyses of what must and
of what may be cached end on every region (`MustCache.exists_solve?`, `MayCache.exists_solve?`).
-/

namespace CacheVerdict

/-- A rank of descriptions that falls whenever one comes to say less, for the descriptions that the
analysis of a procedure comes across. -/
structure AbstractRanking (σ : Type) [Abstraction σ] [OrderedAbstraction σ] (s : Summary) where
  Valid : σ → Prop
  closed : s.AbstractClosed Valid
  rank : σ → Nat
  bound : Nat
  rank_le : ∀ {a : σ}, Valid a → rank a ≤ bound
  rank_lt : ∀ {a b : σ}, Valid a → Valid b → a < b → rank b < rank a

namespace AbstractRanking

variable {σ : Type} [Abstraction σ] [OrderedAbstraction σ] [LawfulAbstraction σ] {s : Summary}

/-- The rank of a state; an unreached one has the greatest. -/
def rankState (ρ : AbstractRanking σ s) : State σ → Nat
  | .unreached => ρ.bound + 1
  | .reached a => ρ.rank a

/-- Ranked descriptions make ranked states. -/
def toRanking (ρ : AbstractRanking σ s) : Ranking (State σ) s where
  Valid := State.Satisfies ρ.Valid
  closed := ρ.closed.toClosed
  rank := ρ.rankState
  rank_lt {t u} ht hu hlt := by
    cases u with
    | unreached => exact absurd (lt_of_lt_of_le hlt (State.unreached_le t)) (lt_irrefl _)
    | reached b =>
      cases t with
      | unreached => exact Nat.lt_succ_of_le (ρ.rank_le hu)
      | reached a =>
        refine ρ.rank_lt ht hu (lt_of_le_of_ne (State.reached_le.1 hlt.le) ?_)
        rintro rfl
        exact lt_irrefl _ hlt

end AbstractRanking

/-! ### Ages of named lines together -/

namespace AgedLines

variable {g : Geometry} {named : List Line} {a b : AgedLines}

/-- The age of a line, or the number of ways if it is not held. -/
def weight (g : Geometry) (a : AgedLines) (line : Line) : Nat :=
  (a.get? line).getD g.ways.toNat

/-- A weight is at most the number of ways. -/
lemma Bounded.weight_le (h : Bounded g named a) (line : Line) :
    a.weight g line ≤ g.ways.toNat := by
  unfold weight
  cases hget : a.get? line with
  | none => exact le_rfl
  | some age => exact (h line age hget).2.le

/-- Older lines weigh more. -/
lemma Bounded.weight_mono (ha : Bounded g named a) {line : Line}
    (h : a.ageOf line ≤ b.ageOf line) : a.weight g line ≤ b.weight g line := by
  cases hb : b.get? line with
  | none =>
    have hweight : b.weight g line = g.ways.toNat := by rw [weight, hb]; rfl
    rw [hweight]
    exact ha.weight_le line
  | some v =>
    rw [ageOf_of_get? hb] at h
    cases hget : a.get? line with
    | none =>
      rw [ageOf_eq_top hget] at h
      exact absurd h (ENat.natCast_lt_top v).not_ge
    | some u =>
      rw [ageOf_of_get? hget] at h
      rw [weight, hget, weight, hb]
      exact Nat.cast_le.1 h

/-- Strictly older lines weigh strictly more, and are named. -/
lemma Bounded.weight_lt (ha : Bounded g named a) {line : Line}
    (h : a.ageOf line < b.ageOf line) : line ∈ named ∧ a.weight g line < b.weight g line := by
  cases hget : a.get? line with
  | none =>
    rw [ageOf_eq_top hget] at h
    exact absurd h not_top_lt
  | some u =>
    obtain ⟨hnamed, hlt⟩ := ha line u hget
    refine ⟨hnamed, ?_⟩
    rw [ageOf_of_get? hget] at h
    rw [weight, hget, weight]
    cases hb : b.get? line with
    | none => exact hlt
    | some v =>
      rw [ageOf_of_get? hb] at h
      exact Nat.cast_lt.1 h

/-- The weights of the named lines together. -/
def totalWeight (g : Geometry) (named : List Line) (a : AgedLines) : Nat :=
  (named.map (a.weight g)).sum

/-- The weights of the named lines are bounded together. -/
lemma Bounded.totalWeight_le (h : Bounded g named a) :
    a.totalWeight g named ≤ (named.map fun _ => g.ways.toNat).sum :=
  List.sum_le_sum fun line _ => h.weight_le line

/-- Lines that are older somewhere and younger nowhere weigh more together. -/
lemma Bounded.totalWeight_lt (ha : Bounded g named a) (hle : ∀ line, a.ageOf line ≤ b.ageOf line)
    (hne : a ≠ b) : a.totalWeight g named < b.totalWeight g named := by
  obtain ⟨line, hline⟩ : ∃ line, a.ageOf line ≠ b.ageOf line := by
    by_contra hall
    push Not at hall
    exact hne (ageOf_injective (funext hall))
  obtain ⟨hnamed, hlt⟩ := ha.weight_lt (lt_of_le_of_ne (hle line) hline)
  exact List.sum_lt_sum _ _ (fun other _ => ha.weight_mono (hle other)) ⟨line, hnamed, hlt⟩

end AgedLines

/-- Ranks of what must be cached: the younger the lines, the higher. -/
def MustCache.ranking (s : Summary) : AbstractRanking MustCache s where
  Valid a := a.lines.Bounded s.geometry s.named
  closed := MustCache.abstractClosed s
  rank a := (s.named.map fun _ => s.geometry.ways.toNat).sum - a.lines.totalWeight s.geometry s.named
  bound := (s.named.map fun _ => s.geometry.ways.toNat).sum
  rank_le _ := Nat.sub_le _ _
  rank_lt {a b} ha hb hlt := by
    have hne : a.lines ≠ b.lines := fun heq => hlt.ne (MustCache.ext heq)
    have htotal := ha.totalWeight_lt hlt.le hne
    have hbound := hb.totalWeight_le
    omega

/-- Ranks of what may be cached: the older the lines, the higher, and higher still while nothing else
may be cached. -/
def MayCache.ranking (s : Summary) : AbstractRanking MayCache s where
  Valid a := a.lines.Bounded s.geometry s.named
  closed := MayCache.abstractClosed s
  rank a := a.lines.totalWeight s.geometry s.named + if a.saturated then 0 else 1
  bound := (s.named.map fun _ => s.geometry.ways.toNat).sum + 1
  rank_le {a} ha := by
    have hbound := ha.totalWeight_le
    split <;> omega
  rank_lt {a b} ha hb hlt := by
    obtain ⟨hages, hsat⟩ := MayCache.le_def.1 hlt.le
    by_cases heq : b.lines = a.lines
    · have hne : a.saturated ≠ b.saturated := fun h => hlt.ne (MayCache.ext heq.symm h)
      have ha' : a.saturated = false := Bool.eq_false_of_not_eq_true fun h =>
        hne (h.trans (Bool.eq_true_of_true_le (h ▸ hsat)).symm)
      have hb' : b.saturated = true := Bool.eq_true_of_not_eq_false fun h => hne (ha'.trans h.symm)
      simp [heq, ha', hb']
    · have htotal := hb.totalWeight_lt hages heq
      cases ha' : a.saturated with
      | false => simp only [Bool.false_eq_true, if_false]; split <;> omega
      | true =>
        have hb' : b.saturated = true := Bool.eq_true_of_true_le (ha' ▸ hsat)
        simpa [hb'] using htotal

/-- The analysis of what must be cached ends. -/
theorem MustCache.exists_solve? (s : Summary) (r : Region) :
    ∃ (bound : Nat) (solution : Solution (State MustCache)),
      ∀ fuel ≥ bound, Solution.solve? fuel s r = some solution :=
  Solution.exists_solve? (MustCache.ranking s).toRanking r

/-- The analysis of what may be cached ends. -/
theorem MayCache.exists_solve? (s : Summary) (r : Region) :
    ∃ (bound : Nat) (solution : Solution (State MayCache)),
      ∀ fuel ≥ bound, Solution.solve? fuel s r = some solution :=
  Solution.exists_solve? (MayCache.ranking s).toRanking r

end CacheVerdict
