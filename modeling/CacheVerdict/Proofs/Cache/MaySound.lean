import CacheVerdict.Analysis.Verdict
import CacheVerdict.Proofs.Cache.Rank

/-!
# Lines that are not held cannot be cached

A description of what may be cached that is not saturated holds every cached line and bounds the
ages from below. A touch may raise the bound of another line only where that line gets older for
certain: the touched line was not in front of it, or it was and then both bounds have room. Once the
description is saturated nothing is said any more, and no operation takes that back.
-/

namespace CacheVerdict

namespace MayCache

variable {g : Geometry} {a b : MayCache} {c : LruCache g} {line : Line}

/-- Unless the description is saturated, it holds the cached lines, and they are no younger than it
says. -/
def Describes (a : MayCache) (c : LruCache g) : Prop :=
  a.saturated = false → ∀ line ∈ c, ∃ age, a.lines.get? line = some age ∧ age ≤ c.age line

/-- A saturated description holds of every cache. -/
lemma describes_of_saturated (h : a.saturated = true) : a.Describes c := by
  intro hsat
  rw [h] at hsat
  cases hsat

/-- At the start nothing is cached, or nothing is known. -/
lemma describes_start {coldStart : Bool} (h : coldStart = true → c = LruCache.empty g) :
    (Abstraction.start coldStart : MayCache).Describes c := by
  intro hsat line hline
  have hcold : coldStart = true := by simpa [Abstraction.start] using hsat
  rw [h hcold] at hline
  exact absurd hline LruCache.not_mem_empty

/-- What two descriptions have in common holds where one of them does. -/
lemma joins_describes : Joins fun (a : MayCache) (c : LruCache g) _ => a.Describes c := by
  constructor
  · intro a b c _ h hsat line hline
    obtain ⟨ha, _⟩ := Bool.or_eq_false_iff.1 hsat
    obtain ⟨age, hage, hle⟩ := h ha line hline
    have hmerge := OrderedMap.get?_unionWith min a.lines b.lines line
    rw [hage] at hmerge
    cases hb : b.lines.get? line with
    | none =>
      rw [hb] at hmerge
      exact ⟨age, hmerge, hle⟩
    | some w =>
      rw [hb] at hmerge
      exact ⟨min age w, hmerge, (min_le_left age w).trans hle⟩
  · intro a b c _ h hsat line hline
    obtain ⟨_, hb⟩ := Bool.or_eq_false_iff.1 hsat
    obtain ⟨age, hage, hle⟩ := h hb line hline
    have hmerge := OrderedMap.get?_unionWith min a.lines b.lines line
    rw [hage] at hmerge
    cases ha : a.lines.get? line with
    | none =>
      rw [ha] at hmerge
      exact ⟨age, hmerge, hle⟩
    | some v =>
      rw [ha] at hmerge
      exact ⟨min v age, hmerge, (min_le_right v age).trans hle⟩

/-- Where a touch raises the bound of another line, that line gets older. -/
lemma Describes.succ_le_age_touch (h : a.Describes c) (hsat : a.saturated = false) {other : Line}
    {old : Nat} (hne : other ≠ line) (hother : other ∈ c.touch line) (hle : old ≤ c.age other)
    (hages : (a.lines.standing g line).ages true (g.setOf other) old = true) :
    old + 1 ≤ (c.touch line).age other := by
  have hset : g.setOf other = g.setOf line := by
    by_contra hset
    exact AgedLines.not_ages.2 (.inl (Ne.symm hset)) hages
  rcases Decidable.em (line ∈ c.younger other) with hy | hy
  · -- the touched line is held, its bound is at least that of the other line, and it was younger
    have hmem : line ∈ c := by
      rw [LruCache.mem_def, ← hset]
      exact (List.takeWhile_sublist _).subset hy
    obtain ⟨own, hown, hownle⟩ := h hsat line hmem
    have holdown : old ≤ own := by
      by_contra hlt
      refine AgedLines.not_ages.2 (.inr ⟨own, hown, ?_⟩) hages
      exact Nat.lt_of_not_le hlt
    calc old + 1 ≤ c.age line + 1 := Nat.succ_le_succ (holdown.trans hownle)
      _ ≤ c.age other :=
        (LruCache.mem_younger_iff hne hset hmem (LruCache.mem_of_mem_touch hne hother)).1 hy
      _ ≤ (c.touch line).age other := LruCache.age_le_age_touch hne hother
  · rw [LruCache.age_touch_of_not_mem_younger hne hset hother hy]
    exact Nat.succ_le_succ hle

/-- Touching a line keeps the bounds of the others. -/
lemma Describes.touch (h : a.Describes c) :
    (Abstraction.touch g line a : MayCache).Describes (c.touch line) := by
  intro hsat other hother
  show ∃ age, (a.lines.touch g true line).get? other = some age ∧ _
  rw [AgedLines.get?_touch]
  rcases Decidable.em (other = line) with heq | hne
  · rw [if_pos heq]
    exact ⟨0, rfl, Nat.zero_le _⟩
  · obtain ⟨old, hold, hle⟩ := h hsat other (LruCache.mem_of_mem_touch hne hother)
    have hlt := LruCache.age_lt hother
    rw [if_neg hne, hold, Option.bind_some]
    split
    · rename_i hages
      have hsucc := h.succ_le_age_touch hsat hne hother hle hages
      exact ⟨old + 1, AgedLines.keep_eq_some.2 ⟨hsucc.trans_lt hlt, rfl⟩, hsucc⟩
    · have hle' := hle.trans (LruCache.age_le_age_touch hne hother)
      exact ⟨old, AgedLines.keep_eq_some.2 ⟨hle'.trans_lt hlt, rfl⟩, hle'⟩

/-- A call may bring in its lines, and makes no other line younger. -/
lemma Describes.call (h : a.Describes c) {call : Call} {lines : List Line}
    (hlines : ∀ line ∈ lines, call.effect.unknown = true ∨ line ∈ call.lines) :
    (Abstraction.call g call a : MayCache).Describes (c.touchAll lines) := by
  intro hsat other hother
  obtain ⟨ha, hknown⟩ := Bool.or_eq_false_iff.1 hsat
  have hcall := OrderedMap.get?_unionWith (fun _ youngest => youngest) a.lines
    (.ofSet call.lines 0) other
  rw [OrderedMap.get?_ofSet] at hcall
  rcases Decidable.em (other ∈ call.lines) with hmem | hmem
  · refine ⟨0, hcall.trans ?_, Nat.zero_le _⟩
    rw [if_pos hmem]
    cases a.lines.get? other <;> rfl
  · have hnot : other ∉ lines := by
      intro hin
      rcases hlines other hin with hunknown | hin
      · rw [hknown] at hunknown
        cases hunknown
      · exact hmem hin
    obtain ⟨hother', hage⟩ := LruCache.age_le_age_touchAll hnot hother
    obtain ⟨age, hget, hle⟩ := h ha other hother'
    refine ⟨age, hcall.trans ?_, hle.trans hage⟩
    rw [if_neg hmem, hget]
    rfl

/-- A miss that is announced happens. -/
lemma Describes.not_mem_of_misses (h : a.Describes c) {lines : List Line}
    (misses : MayCache.misses (.reached a) lines = true) (hline : line ∈ lines) : line ∉ c := by
  intro hmem
  simp only [MayCache.misses, Bool.and_eq_true, Bool.not_eq_true'] at misses
  obtain ⟨⟨hsat, _⟩, hall⟩ := misses
  obtain ⟨age, hget, _⟩ := h hsat line hmem
  have hnot : (!(a.lines.get? line).isSome) = true := List.all_eq_true.1 hall line hline
  rw [hget] at hnot
  cases hnot

/-- No line that an access touches is cached if the access is said to miss. -/
lemma Describes.not_mem_of_alwaysMiss (h : a.Describes c) {access : Access}
    {must : State MustCache} {lines : List Line}
    (hclass : access.classify must (.reached a) = .alwaysMiss)
    (performs : (Event.access access).Performs lines) : ∀ line ∈ lines, line ∉ c := by
  unfold Access.classify at hclass
  split at hclass
  case h_1 => cases hclass
  case h_2 candidates htarget =>
    split at hclass
    case isTrue => cases hclass
    case isFalse =>
      split at hclass
      case isFalse => cases hclass
      case isTrue misses =>
        intro line hline
        cases performs with
        | always _ admits | uncertain _ admits =>
          cases List.mem_singleton.1 hline
          rw [htarget] at admits
          exact h.not_mem_of_misses misses admits
        | skipped | never => cases hline

end MayCache

/-- Throughout a run, the cache is as the analysis of what may be cached says. -/
theorem Run.describes_may {s : Summary} {initial : LruCache s.geometry → Prop} {fuel : Nat}
    {solution : Solution (State MayCache)} {m : Moment s.geometry} (transposed : s.Transposed)
    (cold : ∀ c, initial c → s.coldStart = true → c = LruCache.empty s.geometry)
    (solved : Solution.solve? fuel s (.whole s) = some solution)
    (run : Run s (.whole s) initial m) :
    ∃ a, solution.stateAt s m.node m.index = .reached a ∧ a.Describes m.cache := by
  apply run.exists_reached MayCache.joins_describes transposed (fun _ => OrderedSet.mem_below.1) solved
  · intro c hc
    exact MayCache.describes_start (cold c hc)
  · intro m e lines a _ _ performs _ h
    apply MayCache.joins_describes.holds_transfer performs h
    · intro _ _ line _ _ _ _
      exact h.touch
    · intro _ line _ _ _
      exact MayCache.describes_of_saturated rfl
    · intro c he
      subst he
      cases performs with
      | call hlines => exact h.call hlines

/-- The analysis of what may be cached ends. Before every event of a run it is saturated or holds
the cached lines at ages that are no greater than theirs, and an access that is said to miss misses.
-/
theorem Solution.may_sound (s : Summary) (transposed : s.Transposed) :
    (∃ (bound : Nat) (solution : Solution (State MayCache)),
      ∀ fuel ≥ bound, Solution.solve? fuel s (.whole s) = some solution) ∧
    ∀ (fuel : Nat) (solution : Solution (State MayCache)),
      Solution.solve? fuel s (.whole s) = some solution →
      ∀ m : Moment s.geometry,
      Run s (.whole s) (fun c => s.coldStart = true → c = LruCache.empty s.geometry) m →
      ∀ e : Event, (s.eventsOf m.node)[m.index]? = some e →
      ∃ a : MayCache, (solution.beforeEvents s m.node)[m.index]? = some (.reached a) ∧
        (a.saturated = false → ∀ line ∈ m.cache,
          ∃ age, a.lines.get? line = some age ∧ age ≤ m.cache.age line) ∧
        ∀ (access : Access) (must : State MustCache), e = .access access →
          access.classify must (.reached a) = .alwaysMiss →
          ∀ lines, e.Performs lines → ∀ line ∈ lines, line ∉ m.cache := by
  refine ⟨MayCache.exists_solve? s (.whole s), ?_⟩
  intro fuel solution solved m run e hevent
  obtain ⟨a, hstate, h⟩ := run.describes_may transposed (fun _ hc => hc) solved
  refine ⟨a, ?_, h, ?_⟩
  · rw [Solution.getElem?_beforeEvents hevent, hstate]
  · intro access must he hclass lines performs
    subst he
    exact h.not_mem_of_alwaysMiss hclass performs

/-- A branch over an access to line 2, which takes the place of line 0 in a set of one way. -/
def Summary.branchOverAccess : Summary where
  geometry := .oneWay
  predecessors := [[], [0], [0, 1]]
  successors := [[1, 2], [2], []]
  entries := [0]
  events := [[.access ⟨⟨0, 0, .fetch⟩, .lines [0], .always, none⟩],
    [.access ⟨⟨1, 4, .data⟩, .lines [2], .uncertain, none⟩],
    [.access ⟨⟨2, 8, .data⟩, .lines [1, 4], .always, none⟩]]
  coldStart := true

/-- From an empty cache, the access behind the branch misses on every path. -/
theorem Solution.may_sound_branchOverAccess :
    Summary.branchOverAccess.Transposed ∧
      ∀ m, Run .branchOverAccess (.whole .branchOverAccess)
        (fun c => Summary.branchOverAccess.coldStart = true → c = LruCache.empty _) m →
        m.node = 2 → m.index = 0 → (1 : Line) ∉ m.cache ∧ (4 : Line) ∉ m.cache := by
  have transposed : Summary.branchOverAccess.Transposed := by
    unfold Summary.Transposed
    decide
  refine ⟨transposed, ?_⟩
  intro m run hnode hindex
  have hjoin : (Solution.solve? 5 .branchOverAccess (.whole .branchOverAccess)).map
      (fun solution : Solution (State MayCache) =>
        (solution.beforeEvents .branchOverAccess 2)[0]?) =
        some (some (.reached ⟨.ofList [(0, 0), (2, 0)], false⟩)) := by
    decide +kernel
  obtain ⟨solution, solved, hbefore⟩ := Option.map_eq_some_iff.1 hjoin
  obtain ⟨_, sound⟩ := Solution.may_sound .branchOverAccess transposed
  have hevent : (Summary.branchOverAccess.eventsOf m.node)[m.index]? =
      some (.access ⟨⟨2, 8, .data⟩, .lines [1, 4], .always, none⟩) := by
    rw [hnode, hindex]
    rfl
  obtain ⟨a, ha, _, misses⟩ := sound 5 solution solved m run _ hevent
  rw [hnode, hindex, hbefore] at ha
  cases ha
  have hmiss := misses _ .unreached rfl (by decide)
  constructor
  · exact hmiss [1] (.always rfl (by simp [Target.Admits])) 1 List.mem_cons_self
  · exact hmiss [4] (.always rfl (by simp [Target.Admits])) 4 List.mem_cons_self

end CacheVerdict
