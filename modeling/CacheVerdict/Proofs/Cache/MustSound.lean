import CacheVerdict.Analysis.Verdict
import CacheVerdict.Proofs.Cache.Rank

/-!
# Lines that must be cached are cached

A description of what must be cached bounds the ages of its lines from above. Every operation on
descriptions keeps the bounds: a touch ages the lines that may have been younger than the touched
one, a call ages a line by the number of lines that can get in front of it, and where paths meet the
older age stays. So the bounds hold in every run, whatever the cache held at its start, and a line
that is said to be cached is cached.
-/

namespace CacheVerdict

/-- The conflicts of every call fit in their counter. -/
def Summary.CallsFit (s : Summary) : Prop :=
  ∀ n c, .call c ∈ s.eventsOf n → c.lines.size < UInt32.size

/-- Whether the lines of an event, if it is a call, fit in the counter. -/
def Event.Fits : Event → Prop
  | .access _ => True
  | .call c => c.lines.size < UInt32.size

instance : DecidablePred Event.Fits
  | .access _ => isTrue trivial
  | .call c => inferInstanceAs (Decidable (c.lines.size < UInt32.size))

/-- Calls fit if all events do. -/
lemma Summary.callsFit_iff {s : Summary} :
    s.CallsFit ↔ ∀ events ∈ s.events, ∀ e ∈ events, e.Fits := by
  constructor
  · intro fits events hevents e he
    obtain ⟨n, hn⟩ := List.mem_iff_getElem?.1 hevents
    cases e with
    | access => trivial
    | call c =>
      apply fits n c
      rw [eventsOf, hn]
      exact he
  · intro h n c hc
    unfold eventsOf at hc
    cases hn : s.events[n]? with
    | none =>
      rw [hn] at hc
      cases hc
    | some events =>
      rw [hn] at hc
      exact h events (List.mem_of_getElem? hn) _ hc

instance (s : Summary) : Decidable s.CallsFit :=
  decidable_of_iff' _ Summary.callsFit_iff

namespace MustCache

variable {g : Geometry} {a b : MustCache} {c : LruCache g} {line : Line}

/-- The lines that the description holds are cached, and are no older than it says. -/
def Describes (a : MustCache) (c : LruCache g) : Prop :=
  ∀ line age, a.lines.get? line = some age → c.CachedWithin line age

/-- The empty description holds of every cache. -/
lemma describes_empty : (MustCache.mk {}).Describes c := nofun

/-- What two descriptions have in common holds where one of them does. -/
lemma joins_describes :
    Joins fun (a : MustCache) (c : LruCache g) _ => a.Describes c := by
  constructor
  · intro a b c _ h line age hget
    obtain ⟨v, hv, hage⟩ := Option.bind_eq_some_iff.1
      ((OrderedMap.get?_interWith max a.lines b.lines line).symm.trans hget)
    obtain ⟨w, _, rfl⟩ := Option.map_eq_some_iff.1 hage
    obtain ⟨hmem, hle⟩ := h line v hv
    exact ⟨hmem, hle.trans (le_max_left v w)⟩
  · intro a b c _ h line age hget
    obtain ⟨v, _, hage⟩ := Option.bind_eq_some_iff.1
      ((OrderedMap.get?_interWith max a.lines b.lines line).symm.trans hget)
    obtain ⟨w, hw, rfl⟩ := Option.map_eq_some_iff.1 hage
    obtain ⟨hmem, hle⟩ := h line w hw
    exact ⟨hmem, hle.trans (le_max_right v w)⟩

/-- Touching a line keeps the bounds of the others, one higher where the line may have been older. -/
lemma Describes.touch (h : a.Describes c) :
    (Abstraction.touch g line a : MustCache).Describes (c.touch line) := by
  intro other age hget
  have hget : (a.lines.touch g false line).get? other = some age := hget
  rw [AgedLines.get?_touch] at hget
  split at hget
  case isTrue heq =>
    cases hget
    exact heq ▸ LruCache.CachedWithin.touch_self
  case isFalse =>
    obtain ⟨old, hold, hkeep⟩ := Option.bind_eq_some_iff.1 hget
    have hother := h other old hold
    obtain ⟨hlt, rfl⟩ := AgedLines.keep_eq_some.1 hkeep
    split at hlt
    case isTrue hages =>
      rw [if_pos hages]
      exact hother.touch_succ hlt
    case isFalse hages =>
      rw [if_neg hages]
      rcases AgedLines.not_ages.1 hages with hset | ⟨own, hown, hle⟩
      · exact hother.touch_of_ne (Ne.symm hset)
      · exact hother.touch_of_le (h line own hown) hle

/-- An access to an unknown line raises every bound by one. -/
lemma Describes.touchUnknown (h : a.Describes c) :
    (Abstraction.touchUnknown g a : MustCache).Describes (c.touch line) := by
  intro other age hget
  have hget : (a.lines.reage g AgedLines.shiftedAge).get? other = some age := hget
  rw [AgedLines.reage, OrderedMap.get?_filterMap] at hget
  obtain ⟨old, hold, hnew⟩ := Option.bind_eq_some_iff.1 hget
  split at hnew
  · rename_i hlt
    cases hnew
    exact (h other old hold).touch_succ hlt
  · cases hnew

/-- A call raises the bound of a line by the number of lines that can get in front of it. -/
lemma Describes.call (h : a.Describes c) {call : Call} {lines : List Line}
    (fits : call.lines.size < UInt32.size)
    (hlines : ∀ line ∈ lines, call.effect.unknown = true ∨ line ∈ call.lines) :
    (Abstraction.call g call a : MustCache).Describes (c.touchAll lines) := by
  show (if call.effect.unknown then {} else
    ⟨a.lines.reage g (AgedLines.calledAge g call)⟩ : MustCache).Describes _
  split
  case isTrue => exact describes_empty
  case isFalse hknown =>
    intro other age hget
    have hget : (a.lines.reage g (AgedLines.calledAge g call)).get? other = some age := hget
    rw [AgedLines.reage, OrderedMap.get?_filterMap] at hget
    obtain ⟨old, hold, hnew⟩ := Option.bind_eq_some_iff.1 hget
    split at hnew
    case isFalse => cases hnew
    case isTrue hlt =>
      cases hnew
      unfold AgedLines.calledAge at hlt ⊢
      rw [Call.conflicts_eq fits] at hlt ⊢
      apply (h other old hold).touchAll_call hlt
      intro x hx
      exact (hlines x hx).resolve_left hknown

/-- A hit that is announced happens. -/
lemma Describes.mem_of_hits (h : a.Describes c) {lines : List Line}
    (hits : MustCache.hits (.reached a) lines = true) (hline : line ∈ lines) : line ∈ c := by
  obtain ⟨_, hall⟩ := Bool.and_eq_true_iff.1 hits
  have hcontains : (a.lines.get? line).isSome := List.all_eq_true.1 hall line hline
  obtain ⟨age, hget⟩ := Option.isSome_iff_exists.1 hcontains
  exact (h line age hget).1

/-- A line that an access touches is cached if the access is said to hit. -/
lemma Describes.mem_of_alwaysHit (h : a.Describes c) {access : Access} {may : State MayCache}
    {lines : List Line} (hclass : access.classify (.reached a) may = .alwaysHit)
    (performs : (Event.access access).Performs lines) : ∀ line ∈ lines, line ∈ c := by
  unfold Access.classify at hclass
  split at hclass
  case h_1 => cases hclass
  case h_2 candidates htarget =>
    split at hclass
    case isFalse => split at hclass <;> cases hclass
    case isTrue hits =>
      intro line hline
      cases performs with
      | always _ admits | uncertain _ admits =>
        cases List.mem_singleton.1 hline
        rw [htarget] at admits
        exact h.mem_of_hits hits admits
      | skipped | never => cases hline

end MustCache

/-- Throughout a run, the cache is as the analysis of what must be cached says. -/
theorem Run.describes_must {s : Summary} {initial : LruCache s.geometry → Prop} {fuel : Nat}
    {solution : Solution (State MustCache)} {m : Moment s.geometry}
    (transposed : s.Transposed) (fits : s.CallsFit)
    (solved : Solution.solve? fuel s (.whole s) = some solution)
    (run : Run s (.whole s) initial m) :
    ∃ a, solution.stateAt s m.node m.index = .reached a ∧ a.Describes m.cache := by
  apply run.exists_reached MustCache.joins_describes transposed (fun _ => OrderedSet.mem_below.1) solved
  · intro _ _
    exact MustCache.describes_empty
  · intro m e lines a _ hevent performs _ h
    apply MustCache.joins_describes.holds_transfer performs h
    · intro _ _ line _ _ _ _
      exact h.touch
    · intro _ line _ _ _
      exact h.touchUnknown
    · intro c he
      subst he
      cases performs with
      | call hlines => exact h.call (fits m.node c (List.mem_of_getElem? hevent)) hlines

/-- The analysis of what must be cached ends. Whenever a run from any cache comes to an event, the
lines that the analysis holds before it are cached and no older than it says, and an access that is
said to hit hits. -/
theorem Solution.must_sound (s : Summary) (transposed : s.Transposed) (fits : s.CallsFit) :
    (∃ (bound : Nat) (solution : Solution (State MustCache)),
      ∀ fuel ≥ bound, Solution.solve? fuel s (.whole s) = some solution) ∧
    ∀ (fuel : Nat) (solution : Solution (State MustCache)),
      Solution.solve? fuel s (.whole s) = some solution →
      ∀ m : Moment s.geometry, Run s (.whole s) (fun _ => True) m →
      ∀ e : Event, (s.eventsOf m.node)[m.index]? = some e →
      ∃ a : MustCache, (solution.beforeEvents s m.node)[m.index]? = some (.reached a) ∧
        (∀ line age, a.lines.get? line = some age → line ∈ m.cache ∧ m.cache.age line ≤ age) ∧
        ∀ (access : Access) (may : State MayCache), e = .access access →
          access.classify (.reached a) may = .alwaysHit →
          ∀ lines, e.Performs lines → ∀ line ∈ lines, line ∈ m.cache := by
  refine ⟨MustCache.exists_solve? s (.whole s), ?_⟩
  intro fuel solution solved m run e hevent
  obtain ⟨a, hstate, h⟩ := run.describes_must transposed fits solved
  refine ⟨a, ?_, h, ?_⟩
  · rw [Solution.getElem?_beforeEvents hevent, hstate]
  · intro access may he hclass lines performs
    subst he
    exact h.mem_of_alwaysHit hclass performs

/-- A loop over an access to line 0 and a call that touches line 2 of the same set of two ways. -/
def Summary.loopWithCall : Summary where
  geometry := .twoWays
  predecessors := [[], [0, 1]]
  successors := [[1], [1]]
  entries := [0]
  events := [[.access ⟨⟨0, 0, .fetch⟩, .lines [0], .always, none⟩],
    [.call ⟨⟨.ofList [2], {}, false⟩, .ofList [2]⟩,
      .access ⟨⟨1, 4, .fetch⟩, .lines [0], .always, none⟩]]
  coldStart := false

/-- The edges are listed from both ends. -/
lemma Summary.loopWithCall_transposed : loopWithCall.Transposed := by
  unfold Transposed
  decide

/-- The one call is small. -/
lemma Summary.loopWithCall_callsFit : loopWithCall.CallsFit := by
  decide

/-- In the loop, line 0 survives every call, whatever the cache held at the start. -/
theorem Solution.must_sound_loopWithCall :
    Summary.loopWithCall.Transposed ∧ Summary.loopWithCall.CallsFit ∧
      ∀ m, Run .loopWithCall (.whole .loopWithCall) (fun _ => True) m → m.node = 1 → m.index = 1 →
        (0 : Line) ∈ m.cache ∧ m.cache.age 0 ≤ 1 := by
  refine ⟨Summary.loopWithCall_transposed, Summary.loopWithCall_callsFit, ?_⟩
  intro m run hnode hindex
  have hafter : (Solution.solve? 5 .loopWithCall (.whole .loopWithCall)).map
      (fun solution : Solution (State MustCache) => (solution.beforeEvents .loopWithCall 1)[1]?) =
        some (some (.reached ⟨.ofList [(0, 1)]⟩)) := by
    decide +kernel
  obtain ⟨solution, solved, hbefore⟩ := Option.map_eq_some_iff.1 hafter
  obtain ⟨_, sound⟩ := Solution.must_sound .loopWithCall Summary.loopWithCall_transposed
    Summary.loopWithCall_callsFit
  have hevent : (Summary.loopWithCall.eventsOf m.node)[m.index]? =
      some (.access ⟨⟨1, 4, .fetch⟩, .lines [0], .always, none⟩) := by
    rw [hnode, hindex]
    rfl
  obtain ⟨a, ha, held, _⟩ := sound 5 solution solved m run _ hevent
  rw [hnode, hindex, hbefore] at ha
  cases ha
  exact held 0 1 (by decide)

end CacheVerdict
