import CacheVerdict.Proofs.Cache.Grouped
import CacheVerdict.Proofs.Cache.Semilattice

/-!
# Cache states with grouped lines

The three kinds of description with their lines grouped by set, and an access to one of several
lines played through for each of them. Every state that an analysis can come to is in the one form
that its ages allow, so that states can be compared as they are, and the analysis is the same as
with the lines of all sets in one map (`GroupedLines.states_canonical`). Joining them is a
semilattice (`GroupedLines.joins_semilattice`).
-/

namespace CacheVerdict

namespace GroupedLines

/-- Ages every line by the other lines that the call touches in its set. -/
def called (g : Geometry) (c : Call) : UInt64 → Line → UInt32 :=
  fun set line => UInt32.ofNat (c.conflicts g set line)

/-- Touches each of several lines, and keeps what the cases have in common. -/
def touchEach {σ : Type} (merge : σ → σ → σ) (touch : Line → σ → σ) (candidates : OrderedSet Line)
    (a : σ) : σ :=
  match candidates.toList with
  | [] => a
  | line :: rest => rest.foldl (fun s other => merge s (touch other a)) (touch line a)

end GroupedLines

/-! ### Lines that must be cached -/

/-- Lines that are certainly cached, grouped by set. -/
@[ext]
structure GroupedMust where
  lines : GroupedLines := {}
deriving DecidableEq, Inhabited

namespace GroupedMust

/-- Lines that both descriptions hold, at the greater age. -/
def merge (a b : GroupedMust) : GroupedMust :=
  ⟨a.lines.intersect b.lines⟩

/-- Touches a line; lines of the same age stay. -/
def touch (g : Geometry) (line : Line) (a : GroupedMust) : GroupedMust :=
  ⟨a.lines.touch g false line⟩

instance : Abstraction GroupedMust where
  start _ := {}
  merge := merge
  touch := touch
  touchOneOf g := GroupedLines.touchEach merge (touch g)
  touchUnknown g a := ⟨a.lines.ageAll g fun _ _ => 1⟩
  call g c a := if c.effect.unknown then {} else ⟨a.lines.ageAll g (GroupedLines.called g c)⟩

/-- The same lines in one map. -/
def flatten (a : GroupedMust) : MustCache :=
  ⟨a.lines.flatten⟩

end GroupedMust

/-! ### Lines that may be cached -/

/-- Lines that are possibly cached, grouped by set. -/
@[ext]
structure GroupedMay where
  lines : GroupedLines := {}
  /-- Other lines may be cached as well. -/
  saturated : Bool := false
deriving DecidableEq, Inhabited

namespace GroupedMay

/-- Lines that either description holds, at the smaller age. -/
def merge (a b : GroupedMay) : GroupedMay :=
  ⟨a.lines.union min b.lines, a.saturated || b.saturated⟩

/-- Touches a line; lines of the same age get older as well. -/
def touch (g : Geometry) (line : Line) (a : GroupedMay) : GroupedMay :=
  { a with lines := a.lines.touch g true line }

instance : Abstraction GroupedMay where
  start coldStart := ⟨{}, !coldStart⟩
  merge := merge
  touch := touch
  touchOneOf g := GroupedLines.touchEach merge (touch g)
  touchUnknown _ a := { a with saturated := true }
  call g c a := ⟨a.lines.insertAll g c.lines, a.saturated || c.effect.unknown⟩

/-- The same lines in one map. -/
def flatten (a : GroupedMay) : MayCache :=
  ⟨a.lines.flatten, a.saturated⟩

end GroupedMay

/-! ### Lines that persist in a loop -/

/-- Lines loaded in a loop, grouped by set, and lines that may have been evicted again. -/
@[ext]
structure GroupedPersistence where
  lines : GroupedLines := {}
  evicted : OrderedSet Line := {}
deriving DecidableEq, Inhabited

namespace GroupedPersistence

/-- Lines that either description holds, at the greater age, and what either has seen evicted. -/
def merge (a b : GroupedPersistence) : GroupedPersistence :=
  ⟨a.lines.union max b.lines, a.evicted.union b.evicted⟩

/-- Touches a line, and keeps the lines that this evicts. -/
def touch (g : Geometry) (line : Line) (a : GroupedPersistence) : GroupedPersistence :=
  ⟨a.lines.touch g false line, a.evicted.insertAll (a.lines.evictedByTouch g false line)⟩

/-- Ages all lines, and remembers those that this drops. -/
def ageAll (g : Geometry) (more : UInt64 → Line → UInt32) (a : GroupedPersistence) :
    GroupedPersistence :=
  ⟨a.lines.ageAll g more, a.evicted.insertAll (a.lines.evictedByAging g more)⟩

instance : Abstraction GroupedPersistence where
  start _ := {}
  merge := merge
  touch := touch
  touchOneOf g := GroupedLines.touchEach merge (touch g)
  touchUnknown g := ageAll g fun _ _ => 1
  call g c a :=
    if c.effect.unknown then ⟨{}, a.evicted.insertAll a.lines.toLines⟩
    else a.ageAll g (GroupedLines.called g c)

/-- The same lines in one map. -/
def flatten (a : GroupedPersistence) : PersistenceCache :=
  ⟨a.lines.flatten, a.evicted⟩

end GroupedPersistence

/-! ### The lines in one map -/

namespace GroupedLines

variable {g : Geometry} {n m : GroupedLines} {line : Line}

/-- Touching each candidate in turn and merging is a fold that starts at the first one. -/
lemma touchEach_eq_foldl {σ : Type} {merge : σ → σ → σ} {touch : Line → σ → σ}
    {candidates : OrderedSet Line} {rest : List Line} (h : candidates.toList = line :: rest)
    (a : σ) : touchEach merge touch candidates a =
      rest.foldl (fun s other => merge s (touch other a)) (touch line a) := by
  rw [touchEach, h]

/-- The conflicts of a call are counted in machine words. -/
lemma toNat_called {c : Call} {set : UInt64} :
    (called g c set line).toNat = c.conflicts g set line :=
  UInt32.toNat_ofNat_of_lt' (Nat.mod_lt _ (by decide))

/-- Ageing by the conflicts of a call is ageing as the call does. -/
lemma add_called (c : Call) :
    (fun line age => age + (called g c (g.setOf line) line).toNat) = AgedLines.calledAge g c := by
  funext line age
  rw [toNat_called, AgedLines.calledAge]

end GroupedLines

instance : LawfulAbstraction GroupedMust := ⟨GroupedLines.touchEach_eq_foldl⟩

instance : LawfulAbstraction GroupedMay := ⟨GroupedLines.touchEach_eq_foldl⟩

instance : LawfulAbstraction GroupedPersistence := ⟨GroupedLines.touchEach_eq_foldl⟩

open GroupedLines in
/-- Grouped lines that must be cached are embedded into flat ones. -/
lemma GroupedMust.embeds (g : Geometry) :
    Abstraction.Embeds g (fun a : GroupedMust => a.lines.Proper g) flatten where
  start _ := ⟨.empty, rfl⟩
  merge h h' := ⟨h.intersect h', congrArg MustCache.mk (flatten_intersect h h')⟩
  touch _ _ h := ⟨h.touch, congrArg MustCache.mk (flatten_touch h)⟩
  touchUnknown h := ⟨h.ageAll, congrArg MustCache.mk (flatten_ageAll h)⟩
  call c a h := by
    simp only [Abstraction.call]
    split
    · exact ⟨.empty, rfl⟩
    · refine ⟨h.ageAll, congrArg MustCache.mk ?_⟩
      rw [← add_called]
      exact flatten_ageAll h
  injective h h' heq := GroupedMust.ext (h.flatten_inj h' (congrArg MustCache.lines heq))

open GroupedLines in
/-- Grouped lines that may be cached are embedded into flat ones. -/
lemma GroupedMay.embeds (g : Geometry) :
    Abstraction.Embeds g (fun a : GroupedMay => a.lines.Proper g) flatten where
  start _ := ⟨.empty, rfl⟩
  merge {a b} h h' := by
    have hunion : (a.lines.union min b.lines).Proper g := by
      refine h.union (fun v w hv _ => ?_) h'
      rw [UInt32.lt_iff_toNat_lt, UInt32.toNat_min]
      exact Nat.lt_of_le_of_lt (Nat.min_le_left _ _) (UInt32.lt_iff_toNat_lt.1 hv)
    exact ⟨hunion, MayCache.ext (flatten_union UInt32.toNat_min h h' hunion) rfl⟩
  touch _ _ h := ⟨h.touch, MayCache.ext (flatten_touch h) rfl⟩
  touchUnknown h := ⟨h, rfl⟩
  call c _ h := ⟨h.insertAll c.lines, MayCache.ext (flatten_insertAll h) rfl⟩
  injective h h' heq :=
    GroupedMay.ext (h.flatten_inj h' (congrArg MayCache.lines heq))
      (congrArg MayCache.saturated heq)

namespace GroupedPersistence

open GroupedLines

/-- Flattening commutes with ageing, and with what is seen evicted. -/
lemma flatten_ageAll {g : Geometry} {more : UInt64 → Line → UInt32} {a : GroupedPersistence}
    (h : a.lines.Proper g) :
    (a.ageAll g more).flatten =
      ⟨a.lines.flatten.reage g fun line age => age + (more (g.setOf line) line).toNat,
        a.evicted.insertAll
          (a.lines.flatten.evictedBy g fun line age =>
            age + (more (g.setOf line) line).toNat)⟩ := by
  refine PersistenceCache.ext (GroupedLines.flatten_ageAll h) (OrderedSet.ext_mem fun line => ?_)
  simp only [flatten, ageAll, OrderedSet.mem_insertAll, mem_evictedByAging h]

/-- Grouped lines that may persist are embedded into flat ones. -/
lemma embeds (g : Geometry) :
    Abstraction.Embeds g (fun a : GroupedPersistence => a.lines.Proper g) flatten where
  start _ := ⟨.empty, rfl⟩
  merge {a b} h h' := by
    have hunion : (a.lines.union max b.lines).Proper g := by
      refine h.union (fun v w hv hw => ?_) h'
      rw [UInt32.lt_iff_toNat_lt, UInt32.toNat_max]
      exact Nat.max_lt.2 ⟨UInt32.lt_iff_toNat_lt.1 hv, UInt32.lt_iff_toNat_lt.1 hw⟩
    exact ⟨hunion, PersistenceCache.ext (flatten_union UInt32.toNat_max h h' hunion) rfl⟩
  touch line a h := by
    refine ⟨h.touch, PersistenceCache.ext (flatten_touch h) (OrderedSet.ext_mem fun other => ?_)⟩
    simp only [flatten, Abstraction.touch, touch, OrderedSet.mem_insertAll, mem_evictedByTouch h]
  touchUnknown h := ⟨h.ageAll, flatten_ageAll h⟩
  call c a h := by
    simp only [Abstraction.call]
    split
    · refine ⟨.empty, PersistenceCache.ext rfl (OrderedSet.ext_mem fun line => ?_)⟩
      simp only [flatten, OrderedSet.mem_insertAll, mem_toLines h]
    · refine ⟨h.ageAll, ?_⟩
      rw [flatten_ageAll h, add_called]
      rfl
  injective h h' heq :=
    GroupedPersistence.ext (h.flatten_inj h' (congrArg PersistenceCache.lines heq))
      (congrArg PersistenceCache.evicted heq)

end GroupedPersistence

/-! ### The analysis with grouped lines -/

/-- Whatever accesses, calls and joins lead to is kept in the one form that its ages allow. `lines`
and `rest` are the parts of a description, and `flatten` puts the lines of all sets in one map. -/
structure GroupedLines.Canonical {σ τ ρ : Type} [Abstraction σ] [Abstraction τ] [DecidableEq σ]
    [DecidableEq τ] (g : Geometry) (lines : σ → GroupedLines) (rest : σ → ρ) (flatten : σ → τ) :
    Prop where
  proper : ∀ {a : σ}, Domain.Obtained g (State.reached a) → (lines a).Proper g
  /-- The counter of a stored line can be raised. -/
  no_overflow : ∀ {a : σ} {set : UInt64} {line : Line} {age : UInt32},
    Domain.Obtained g (State.reached a) → ((lines a).linesAt set).get? line = some age →
    (age + 1).toNat = age.toNat + 1
  /-- States that say the same are the same. -/
  eq_iff : ∀ {a b : σ}, Domain.Obtained g (State.reached a) → Domain.Obtained g (State.reached b) →
    (State.reached a = State.reached b ↔
      (∀ line, (lines a).age? g line = (lines b).age? g line) ∧ rest a = rest b)
  /-- So the queue sees the same changes as with the lines of all sets in one map. -/
  solve? : ∀ (fuel : Nat) {s : Summary} (r : Region), s.geometry = g →
    (Solution.solve? fuel s r : Option (Solution (State τ))) =
      (Solution.solve? fuel s r).map (Solution.image (State.image flatten))

/-- Descriptions that embed in others, and that are made of nothing else than their parts. -/
lemma Abstraction.Embeds.canonical {σ τ ρ : Type} [Abstraction σ] [Abstraction τ]
    [LawfulAbstraction σ] [LawfulAbstraction τ] [DecidableEq σ] [DecidableEq τ] {g : Geometry}
    {lines : σ → GroupedLines} {rest : σ → ρ} {flatten : σ → τ}
    (embeds : Abstraction.Embeds g (fun a => (lines a).Proper g) flatten)
    (ext : ∀ {a b : σ}, lines a = lines b → rest a = rest b → a = b) :
    GroupedLines.Canonical g lines rest flatten := by
  have hproper {a : σ} (h : Domain.Obtained g (State.reached a)) : (lines a).Proper g :=
    (embeds.toDomain.of_obtained h).1
  exact {
    proper := hproper
    no_overflow := fun h hage => (hproper h).toNat_succ ((hproper h).age?_eq hage)
    eq_iff := fun {a b} ha hb => by
      constructor
      · intro heq
        cases heq
        exact ⟨fun _ => rfl, rfl⟩
      · rintro ⟨hages, hrest⟩
        exact congrArg State.reached (ext ((hproper ha).ext (hproper hb) hages) hrest)
    solve? := fun fuel s r hg => by
      subst hg
      exact embeds.toDomain.solve?_image fuel }

namespace GroupedLines

/-- Whatever accesses, calls and joins lead to: no stored set is empty, every line is stored under
its own set, every age is below the number of ways, and no counter overflows. So states are equal
just if they say the same, and the analysis runs as with the lines of all sets in one map. -/
theorem states_canonical (g : Geometry) :
    Canonical g GroupedMust.lines (fun _ => ()) GroupedMust.flatten ∧
      Canonical g GroupedMay.lines GroupedMay.saturated GroupedMay.flatten ∧
      Canonical g GroupedPersistence.lines GroupedPersistence.evicted GroupedPersistence.flatten :=
  ⟨(GroupedMust.embeds g).canonical fun h _ => GroupedMust.ext h,
    (GroupedMay.embeds g).canonical GroupedMay.ext,
    (GroupedPersistence.embeds g).canonical GroupedPersistence.ext⟩

/-- Where a path on which lines 0 and 1 are touched meets one with line 1 only, the set of line 0 is
not stored any more. -/
theorem states_canonical_droppedSet :
    ∃ a : GroupedMust,
      Domain.join
        (Domain.access .twoWays (.lines [0])
          (Domain.access .twoWays (.lines [1]) (Domain.start true)))
        (Domain.access .twoWays (.lines [1]) (Domain.start true)) = State.reached a ∧
      a.lines.Proper .twoWays ∧ a.lines.sets.get? 0 = none ∧
      a.lines.age? .twoWays 1 = some 0 := by
  refine ⟨_, rfl, ?_, by decide, by decide⟩
  have obtained : Domain.Obtained .twoWays
      (Domain.access .twoWays (.lines [1]) (Domain.start true) : State GroupedMust) :=
    .access _ (.start true)
  exact (states_canonical .twoWays).1.proper (.join (.access (.lines [0]) obtained) obtained)

/-- For each kind of description, joining states is a semilattice, with their lines grouped by set
as well as with all of them in one map. -/
theorem joins_semilattice (g : Geometry) :
    (Domain.Semilattice g (State.Satisfies fun a : GroupedMust => a.lines.Proper g) ∧
        Domain.Semilattice g (State.Satisfies fun a : GroupedMay => a.lines.Proper g) ∧
        Domain.Semilattice g (State.Satisfies fun a : GroupedPersistence => a.lines.Proper g)) ∧
      Domain.Semilattice g (fun _ : State MustCache => True) ∧
      Domain.Semilattice g (fun _ : State MayCache => True) ∧
      Domain.Semilattice g (fun _ : State PersistenceCache => True) :=
  ⟨⟨(GroupedMust.embeds g).toDomain.semilattice (State.semilattice g),
      (GroupedMay.embeds g).toDomain.semilattice (State.semilattice g),
      (GroupedPersistence.embeds g).toDomain.semilattice (State.semilattice g)⟩,
    State.semilattice g, State.semilattice g, State.semilattice g⟩

/-- An access to one of the lines 0 and 2 is the same when they are listed the other way round, and
one of them twice. -/
theorem joins_semilattice_listedTwice :
    Domain.access .twoWays (.lines [0, 2]) (Domain.start true : State GroupedMay) =
      Domain.access .twoWays (.lines [2, 0, 2]) (Domain.start true) := by
  refine (joins_semilattice .twoWays).1.2.1.access_congr Proper.empty fun line => ?_
  simp only [List.mem_cons, List.not_mem_nil, or_false]
  tauto

end GroupedLines

end CacheVerdict
