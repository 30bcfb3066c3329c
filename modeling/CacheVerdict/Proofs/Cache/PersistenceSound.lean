import CacheVerdict.Proofs.Cache.Bounded
import CacheVerdict.Proofs.Cache.Order

/-!
# When persistent lines stay cached

A description of a loop records for each line that was loaded in it how old it may be by now, or
that it may have been evicted. Where paths meet it holds the lines of both, so it may hold a line
that the run at hand has not loaded. The touch of such a line makes every other line of the set
older, but the description ages only those that it takes to be younger than the touched one. So a
line may be evicted without being recorded, and the loop `Summary.rejoiningLoop` shows that this
happens. `Event.Recorded` says what the state behind an event has to record for the event to keep
the description, no more and no less (`Event.recorded_iff`); where all events of a loop do, lines
that are persistent stay cached (`Solution.persistence_sound`).
-/

namespace CacheVerdict

namespace PersistenceCache

/-- The line may have been evicted, or is recorded to be this old at least. -/
def Allows (a : PersistenceCache) (line : Line) (age : Nat) : Prop :=
  line ∈ a.evicted ∨ ∃ bound, a.lines.get? line = some bound ∧ age ≤ bound

/-- Every line that an access of a counted event touched may have been evicted, or is cached and no
older than recorded. -/
def Describes {g : Geometry} (counted : Nat → Nat → Prop) (a : PersistenceCache) (c : LruCache g)
    (past : List Touched) : Prop :=
  ∀ t ∈ past, counted t.node t.index → t.line ∈ a.evicted ∨
    ∃ bound, a.lines.get? t.line = some bound ∧ c.CachedWithin t.line bound

/-- What a state records is carried over to a later one, but for the age of the exempt lines. -/
structure Carries (exempt : List Line) (a b : PersistenceCache) : Prop where
  evicted : ∀ line ∈ a.evicted, line ∈ b.evicted
  held : ∀ line age, a.lines.get? line = some age → b.Allows line (if line ∈ exempt then 0 else age)

variable {g : Geometry} {a b : PersistenceCache} {line : Line}

/-- A recorded age allows smaller ones as well. -/
lemma Allows.mono {m n : Nat} (h : a.Allows line n) (hle : m ≤ n) : a.Allows line m := by
  refine h.imp id ?_
  rintro ⟨bound, hget, hbound⟩
  exact ⟨bound, hget, hle.trans hbound⟩

/-- What the left description allows, the merged one allows. -/
lemma Allows.merge_left {n : Nat} (h : a.Allows line n) :
    (Abstraction.merge a b : PersistenceCache).Allows line n := by
  rcases h with h | ⟨bound, hget, hle⟩
  · exact .inl (OrderedSet.mem_union.2 (.inl h))
  · have hmerge := OrderedMap.get?_unionWith max a.lines b.lines line
    rw [hget] at hmerge
    cases hb : b.lines.get? line with
    | none =>
      rw [hb] at hmerge
      exact .inr ⟨bound, hmerge, hle⟩
    | some w =>
      rw [hb] at hmerge
      exact .inr ⟨max bound w, hmerge, hle.trans (le_max_left bound w)⟩

/-- What the right description allows, the merged one allows. -/
lemma Allows.merge_right {n : Nat} (h : b.Allows line n) :
    (Abstraction.merge a b : PersistenceCache).Allows line n := by
  rcases h with h | ⟨bound, hget, hle⟩
  · exact .inl (OrderedSet.mem_union.2 (.inr h))
  · have hmerge := OrderedMap.get?_unionWith max a.lines b.lines line
    rw [hget] at hmerge
    cases ha : a.lines.get? line with
    | none =>
      rw [ha] at hmerge
      exact .inr ⟨bound, hmerge, hle⟩
    | some v =>
      rw [ha] at hmerge
      exact .inr ⟨max v bound, hmerge, hle.trans (le_max_right v bound)⟩

/-- A described line that is allowed its age in a later state is described by that. -/
lemma Allows.cachedWithin {c : LruCache g} {n : Nat} (h : a.Allows line n)
    (hc : c.CachedWithin line n) :
    line ∈ a.evicted ∨ ∃ bound, a.lines.get? line = some bound ∧ c.CachedWithin line bound := by
  refine h.imp id ?_
  rintro ⟨bound, hget, hle⟩
  exact ⟨bound, hget, hc.1, hc.2.trans hle⟩

/-- What one of two descriptions records of a cache, the merged one records. -/
lemma joins_describes {counted : Nat → Nat → Prop} :
    Joins fun (a : PersistenceCache) (c : LruCache g) past => a.Describes counted c past := by
  constructor
  · intro a b c past h t ht hcounted
    rcases h t ht hcounted with hev | ⟨bound, hget, hc⟩
    · exact .inl (OrderedSet.mem_union.2 (.inl hev))
    · exact (Allows.merge_left (.inr ⟨bound, hget, le_rfl⟩)).cachedWithin hc
  · intro a b c past h t ht hcounted
    rcases h t ht hcounted with hev | ⟨bound, hget, hc⟩
    · exact .inl (OrderedSet.mem_union.2 (.inr hev))
    · exact (Allows.merge_right (.inr ⟨bound, hget, le_rfl⟩)).cachedWithin hc

/-! ### What is carried over -/

/-- New ages are recorded, or the eviction is. -/
lemma allows_reage {f : Line → Nat → Nat} {evicted : OrderedSet Line} {age : Nat}
    (hget : a.lines.get? line = some age)
    (hev : ∀ other ∈ a.lines.evictedBy g f, other ∈ evicted) :
    (PersistenceCache.mk (a.lines.reage g f) evicted).Allows line (f line age) := by
  rcases Nat.lt_or_ge (f line age) g.ways.toNat with hlt | hge
  · refine .inr ⟨f line age, ?_, le_rfl⟩
    show (a.lines.reage g f).get? line = _
    rw [AgedLines.reage, OrderedMap.get?_filterMap, hget, Option.bind_some, if_pos hlt]
  · exact .inl (hev line (AgedLines.mem_evictedBy.2 ⟨age, hget, hge⟩))

/-- The touch of another line makes no line younger. -/
lemma allows_touch {other : Line} {age : Nat} (hne : other ≠ line)
    (hget : a.lines.get? other = some age) :
    (Abstraction.touch g line a : PersistenceCache).Allows other
      (AgedLines.touchedAge g false line (a.lines.standing g line) other age) := by
  have hev : ∀ x ∈ a.lines.evictedByTouch g false line,
      x ∈ a.evicted.insertAll (a.lines.evictedByTouch g false line) :=
    fun _ hx => OrderedSet.mem_insertAll.2 (.inr hx)
  refine (allows_reage hget hev).imp id ?_
  rintro ⟨bound, hbound, hle⟩
  refine ⟨bound, ?_, hle⟩
  show (OrderedMap.insert _ line 0).get? other = _
  rw [OrderedMap.get?_insert, if_neg hne]
  exact hbound

/-- A state carries its own records over. -/
lemma carries_refl (exempt : List Line) : Carries exempt a a where
  evicted _ h := h
  held line age hget := by
    refine .inr ⟨age, hget, ?_⟩
    split
    · exact Nat.zero_le _
    · exact le_rfl

/-- States that carry over what a third one records meet in one that does. -/
lemma joins_carries {exempt : List Line} :
    Joins fun (b : PersistenceCache) (_ : LruCache g) _ => Carries exempt a b where
  left h :=
    ⟨fun line hline => OrderedSet.mem_union.2 (.inl (h.evicted line hline)),
      fun line age hget => (h.held line age hget).merge_left⟩
  right h :=
    ⟨fun line hline => OrderedSet.mem_union.2 (.inr (h.evicted line hline)),
      fun line age hget => (h.held line age hget).merge_right⟩

/-- A touch carries over all records but that of the touched line. -/
lemma carries_touch : Carries [line] a (Abstraction.touch g line a) where
  evicted _ h := OrderedSet.mem_insertAll.2 (.inl h)
  held other age hget := by
    split
    case isTrue hmem =>
      obtain rfl := List.mem_singleton.1 hmem
      refine .inr ⟨0, ?_, le_rfl⟩
      show (OrderedMap.insert _ other 0).get? other = _
      rw [OrderedMap.get?_insert, if_pos rfl]
    case isFalse hmem =>
      apply (allows_touch (fun heq => hmem (List.mem_singleton.2 heq)) hget).mono
      unfold AgedLines.touchedAge
      split
      · exact Nat.le_succ age
      · exact le_rfl

/-- After an access to an unknown line a line may be older by one. -/
lemma allows_touchUnknown {age : Nat} (hget : a.lines.get? line = some age) :
    (Abstraction.touchUnknown g a : PersistenceCache).Allows line (age + 1) :=
  allows_reage hget fun _ hother => OrderedSet.mem_insertAll.2 (.inr hother)

/-- An access to an unknown line carries all records over. -/
lemma carries_touchUnknown (exempt : List Line) :
    Carries exempt a (Abstraction.touchUnknown g a) where
  evicted _ h := OrderedSet.mem_insertAll.2 (.inl h)
  held line age hget := by
    apply (allows_touchUnknown hget).mono
    split
    · exact Nat.zero_le _
    · exact Nat.le_succ age

/-- A call that may touch anything evicts every line. -/
lemma mem_evicted_call {c : Call} {age : Nat} (hunknown : c.effect.unknown = true)
    (hget : a.lines.get? line = some age) :
    line ∈ (Abstraction.call g c a : PersistenceCache).evicted := by
  show line ∈ (if c.effect.unknown then ⟨{}, a.evicted.insertAll a.lines.keys⟩ else _ :
    PersistenceCache).evicted
  rw [if_pos hunknown]
  exact OrderedSet.mem_insertAll.2 (.inr (OrderedMap.mem_keys.2 ⟨age, hget⟩))

/-- A call leaves a line recorded as older by its conflicts, or as evicted. -/
lemma allows_call {c : Call} {age : Nat} (hget : a.lines.get? line = some age) :
    (Abstraction.call g c a : PersistenceCache).Allows line
      (age + c.conflicts g (g.setOf line) line) := by
  rcases Decidable.em (c.effect.unknown = true) with hunknown | hknown
  · exact .inl (mem_evicted_call hunknown hget)
  · show Allows (if c.effect.unknown then _ else
      ⟨a.lines.reage g (AgedLines.calledAge g c),
        a.evicted.insertAll (a.lines.evictedBy g (AgedLines.calledAge g c))⟩ : PersistenceCache) _ _
    rw [if_neg hknown]
    exact allows_reage hget fun _ hother => OrderedSet.mem_insertAll.2 (.inr hother)

/-- A call carries all records over. -/
lemma carries_call (c : Call) (exempt : List Line) : Carries exempt a (Abstraction.call g c a) where
  evicted line h := by
    show line ∈ (if c.effect.unknown then ⟨{}, a.evicted.insertAll a.lines.keys⟩ else
      ⟨a.lines.reage g (AgedLines.calledAge g c), a.evicted.insertAll
        (a.lines.evictedBy g (AgedLines.calledAge g c))⟩ : PersistenceCache).evicted
    split <;> exact OrderedSet.mem_insertAll.2 (.inl h)
  held line age hget := by
    apply (allows_call hget).mono
    split
    · exact Nat.zero_le _
    · exact Nat.le_add_right age _

/-- An event carries over what is recorded. -/
lemma carries_transfer (m : Moment g) {e : Event} {lines : List Line}
    (performs : e.Performs lines) :
    ∃ b, Domain.transfer g (State.reached a) e = .reached b ∧ Carries lines a b := by
  have holds : (Domain.transfer g (State.reached a) e).Holds
      (fun b (_ : LruCache g) _ => Carries lines a b) (m.after e lines).cache
      (m.after e lines).past := by
    apply joins_carries.holds_transfer performs
    · exact carries_refl lines
    · intro _ _ line _ _ _ hl
      exact hl ▸ carries_touch
    · intro _ _ _ _ _
      exact carries_touchUnknown lines
    · intro c _
      exact carries_call c lines
  exact holds.exists_reached

end PersistenceCache

/-! ### What has to be recorded -/

/-- So many other lines of its set can stand in front of a line while `absent` is not cached. -/
def Geometry.Fronted (g : Geometry) (absent line : Line) (n : Nat) : Prop :=
  n < g.ways.toNat ∧ ∃ front : List Line, front.Nodup ∧ front.length = n ∧
    ∀ y ∈ front, g.setOf y = g.setOf line ∧ y ≠ line ∧ y ≠ absent

/-- What the state behind the touch of a line has to record: the line, if it counts, and that every
other line of the set may have become older. -/
structure PersistenceCache.Records (g : Geometry) (counts : Prop) (a b : PersistenceCache)
    (line : Line) : Prop where
  touched : counts → b.Allows line 0
  aged : ∀ other age, other ≠ line → g.setOf other = g.setOf line →
    a.lines.get? other = some age → g.Fronted line other age → b.Allows other (age + 1)

/-- What the state behind an event has to record: for an access that may be made, what the touch of
each of its lines asks for; for a call, the eviction of the lines that do not survive it. -/
def Event.Recorded (g : Geometry) (counts : Prop) (a b : PersistenceCache) : Event → Prop
  | .access made => made.reach ≠ .never →
    ∀ line, made.target.Admits line → a.Records g counts b line
  | .call c => ∀ line age, a.lines.get? line = some age →
    line ∈ b.evicted ∨ age + (c.rivals g line).size < g.ways.toNat

namespace PersistenceCache

variable {g : Geometry} {named : List Line} {counted : Nat → Nat → Prop} {a b : PersistenceCache}
  {c : LruCache g} {past : List Touched} {line other : Line}

/-- Nothing else stands in front of a line than other lines of its set. -/
lemma fronted_younger (hother : other ∈ c) (hy : line ∉ c.younger other) :
    g.Fronted line other (c.age other) := by
  refine ⟨LruCache.age_lt hother, c.younger other, LruCache.nodup_younger, rfl, ?_⟩
  intro y hmem
  refine ⟨c.setOf_mem _ y ((List.takeWhile_sublist _).subset hmem), ?_, fun heq => hy (heq ▸ hmem)⟩
  exact of_decide_eq_true (List.all_eq_true.1 (List.all_takeWhile) y hmem)

/-- The touch of a line keeps what is described of another one. -/
lemma Records.touch_other {counts : Prop} (records : Records g counts a b line)
    (ha : a.lines.Bounded g named) (hb : b.lines.Bounded g named) (carries : Carries [line] a b)
    {bound : Nat} (hne : other ≠ line) (hget : a.lines.get? other = some bound)
    (hc : c.CachedWithin other bound) :
    other ∈ b.evicted ∨
      ∃ bound', b.lines.get? other = some bound' ∧ (c.touch line).CachedWithin other bound' := by
  have hlt := (ha other bound hget).2
  have hallows : b.Allows other bound := by
    have hheld := carries.held other bound hget
    rwa [if_neg (fun hmem => hne (List.mem_singleton.1 hmem))] at hheld
  rcases Decidable.em (g.setOf other = g.setOf line) with hset | hset
  · rcases Nat.lt_or_ge (c.age other) bound with hyoung | hold
    · -- the bound has room for one more line
      have hsucc : (c.touch line).CachedWithin other (c.age other + 1) :=
        LruCache.CachedWithin.touch_succ ⟨hc.1, le_rfl⟩ (Nat.lt_of_le_of_lt hyoung hlt)
      exact hallows.cachedWithin ⟨hsucc.1, hsucc.2.trans hyoung⟩
    · have hage : c.age other = bound := le_antisymm hc.2 hold
      rcases Decidable.em (line ∈ c.younger other) with hy | hy
      · -- the line stood in front already
        have hmem : line ∈ c := by
          rw [LruCache.mem_def, ← hset]
          exact (List.takeWhile_sublist _).subset hy
        have hyounger := (LruCache.mem_younger_iff hne hset hmem hc.1).1 hy
        exact hallows.cachedWithin
          (hc.touch_of_le ⟨hmem, le_rfl⟩ (hyounger.le.trans hc.2))
      · have haged : b.Allows other (bound + 1) :=
          records.aged other bound hne hset hget (hage ▸ fronted_younger hc.1 hy)
        refine haged.imp id ?_
        rintro ⟨bound', hget', hle⟩
        have hsucc : (c.touch line).CachedWithin other (bound + 1) :=
          hc.touch_succ (hle.trans_lt (hb other bound' hget').2)
        exact ⟨bound', hget', hsucc.1, hsucc.2.trans hle⟩
  · exact hallows.cachedWithin (hc.touch_of_ne hset)

/-- The touch of a line keeps the description, if what it asks for is recorded. -/
lemma Records.describes_touch (made : Touched)
    (records : Records g (counted made.node made.index) a b made.line)
    (ha : a.lines.Bounded g named) (hb : b.lines.Bounded g named)
    (carries : Carries [made.line] a b) (h : a.Describes counted c past) :
    b.Describes counted (c.touch made.line) (made :: past) := by
  intro t ht hcounted
  rcases List.mem_cons.1 ht with rfl | ht
  · exact (records.touched hcounted).cachedWithin LruCache.CachedWithin.touch_self
  · rcases h t ht hcounted with hev | ⟨bound, hget, hc⟩
    · exact .inl (carries.evicted _ hev)
    · rcases Decidable.em (t.line = made.line) with heq | hne
      · have hheld := carries.held t.line bound hget
        rw [if_pos (List.mem_singleton.2 heq)] at hheld
        exact hheld.cachedWithin (heq ▸ LruCache.CachedWithin.touch_self)
      · exact records.touch_other ha hb carries hne hget hc

/-- A state that carries over everything describes what the earlier one does. -/
lemma Carries.describes (carries : Carries [] a b) (h : a.Describes counted c past) :
    b.Describes counted c past := by
  intro t ht hcounted
  rcases h t ht hcounted with hev | ⟨bound, hget, hc⟩
  · exact .inl (carries.evicted _ hev)
  · have hheld := carries.held t.line bound hget
    rw [if_neg List.not_mem_nil] at hheld
    exact hheld.cachedWithin hc

/-- A call keeps the description, if the lines that do not survive it are recorded. -/
lemma describes_call {call : Call} {lines : List Line}
    (recorded : (Event.call call).Recorded g True a (Abstraction.call g call a))
    (hlines : ∀ line ∈ lines, call.effect.unknown = true ∨ line ∈ call.lines)
    (h : a.Describes counted c past) :
    (Abstraction.call g call a : PersistenceCache).Describes counted (c.touchAll lines) past := by
  intro t ht hcounted
  rcases h t ht hcounted with hev | ⟨bound, hget, hc⟩
  · exact .inl ((carries_call call lines).evicted _ hev)
  · rcases recorded t.line bound hget with hev | hlt
    · exact .inl hev
    · rcases Decidable.em (call.effect.unknown = true) with hunknown | hknown
      · exact .inl (mem_evicted_call hunknown hget)
      · have hfits : (call.rivals g t.line).size < UInt32.size :=
          (Nat.le_add_left _ bound).trans_lt (hlt.trans g.ways.toNat_lt)
        have hconflicts : call.conflicts g (g.setOf t.line) t.line = (call.rivals g t.line).size :=
          Nat.mod_eq_of_lt hfits
        have hallows := allows_call (g := g) (c := call) hget
        rw [hconflicts] at hallows
        apply hallows.cachedWithin
        apply hc.touchAll_call hlt
        intro x hx
        exact (hlines x hx).resolve_left hknown

end PersistenceCache

/-- Lines that outnumber the ways evict a line, if they all are touched. -/
lemma Call.not_mem_touchAll_rivals {g : Geometry} {call : Call} {c : LruCache g} {line : Line}
    (hlt : g.ways.toNat ≤ (call.rivals g line).size) :
    line ∉ c.touchAll (call.rivals g line).toList := by
  intro hmem
  have hrival : ∀ x ∈ (call.rivals g line).toList, x ≠ line ∧ g.setOf x = g.setOf line := by
    intro x hx
    obtain ⟨_, hx⟩ := OrderedSet.mem_filter.1 hx
    simpa using hx
  have hsub := LruCache.subset_younger_touchAll (fun h => (hrival line h).1 rfl)
    (fun x hx => (hrival x hx).2) hmem
  have hle : (call.rivals g line).size ≤ (c.touchAll (call.rivals g line).toList).age line :=
    ((call.rivals g line).nodup_toList).length_le_of_subset
      fun x hx => hsub (List.mem_append_right _ hx)
  exact absurd (LruCache.age_lt hmem) (hlt.trans hle).not_gt

namespace Event

variable {g : Geometry} {named : List Line} {counted : Nat → Nat → Prop} {a b : PersistenceCache}
  {e : Event} {n i : Nat}

/-- The event keeps the description, whatever lines it touches and whatever cache it meets. -/
def Keeps (g : Geometry) (counted : Nat → Nat → Prop) (n i : Nat) (a b : PersistenceCache)
    (e : Event) : Prop :=
  ∀ (m : Moment g) (lines : List Line), m.node = n → m.index = i → e.Performs lines →
    a.Describes counted m.cache m.past →
    b.Describes counted (m.after e lines).cache (m.after e lines).past

/-- An event keeps the description, if what it asks for is recorded. -/
lemma Recorded.keeps (ha : a.lines.Bounded g named) (hb : b.lines.Bounded g named)
    (htransfer : Domain.transfer g (State.reached a) e = .reached b)
    (recorded : e.Recorded g (counted n i) a b) : e.Keeps g counted n i a b := by
  intro m lines hn hi performs h
  subst hn hi
  obtain ⟨_, hreached, carries⟩ := PersistenceCache.carries_transfer (a := a) m performs
  cases htransfer.symm.trans hreached
  cases performs with
  | @always made line hreach admits | @uncertain made line hreach admits =>
    have records : a.Records g (counted m.node m.index) b line :=
      recorded (by rw [hreach]; decide) line admits
    exact PersistenceCache.Records.describes_touch
      ⟨m.node, m.index, line, decide (line ∈ m.cache)⟩ records ha hb carries h
  | skipped | never => exact carries.describes h
  | call hlines =>
    cases htransfer
    exact PersistenceCache.describes_call recorded hlines h

/-- An access that keeps the description records what its lines ask for. -/
lemma Keeps.records {made : Access} (keeps : (Event.access made).Keeps g counted n i a b)
    (hcounts : ∃ n' i', counted n' i') (hreach : made.reach ≠ .never) {line : Line}
    (admits : made.target.Admits line) : a.Records g (counted n i) b line := by
  have performs : (Event.access made).Performs [line] := .of_reach hreach admits
  constructor
  · intro hcounted
    have hafter := keeps ⟨n, i, LruCache.empty g, []⟩ [line] rfl rfl performs nofun
    refine (hafter _ List.mem_cons_self hcounted).imp id ?_
    rintro ⟨bound, hget, _⟩
    exact ⟨bound, hget, Nat.zero_le _⟩
  · -- the cache in which the other line is as old as it can be, and the touched one is missing
    intro other age hne hset hget hfront
    obtain ⟨hlt, front, hnodup, rfl, hmem⟩ := hfront
    obtain ⟨c, hother, hyounger⟩ : ∃ c : LruCache g, other ∈ c ∧ c.younger other = front :=
      LruCache.exists_younger_eq hnodup (fun y hy => (hmem y hy).1)
        (fun h => (hmem other h).2.1 rfl) hlt
    have hage : c.age other = front.length := by rw [LruCache.age, hyounger]
    have hy : line ∉ c.younger other := by
      rw [hyounger]
      exact fun h => (hmem line h).2.2 rfl
    obtain ⟨n', i', hcounted⟩ := hcounts
    have hbefore : a.Describes counted c [⟨n', i', other, true⟩] := by
      intro t ht _
      obtain rfl := List.mem_singleton.1 ht
      exact .inr ⟨front.length, hget, hother, hage.le⟩
    have hafter := keeps ⟨n, i, c, _⟩ [line] rfl rfl performs hbefore
    refine (hafter ⟨n', i', other, true⟩ (by simp [Moment.after]) hcounted).imp id ?_
    rintro ⟨bound, hget', hwithin⟩
    have hstays : other ∈ c.touch line := hwithin.1
    have hle : (c.touch line).age other ≤ bound := hwithin.2
    rw [LruCache.age_touch_of_not_mem_younger hne hset hstays hy, hage] at hle
    exact ⟨bound, hget', hle⟩

/-- A call that keeps the description records the lines that do not survive it. -/
lemma Keeps.call {call : Call} (hb : b.lines.Bounded g named)
    (htransfer : Domain.transfer g (State.reached a) (.call call) = .reached b)
    (keeps : (Event.call call).Keeps g counted n i a b) (hcounts : ∃ n' i', counted n' i')
    {line : Line} {age : Nat} (hget : a.lines.get? line = some age) :
    line ∈ b.evicted ∨ age + (call.rivals g line).size < g.ways.toNat := by
  cases htransfer
  rcases PersistenceCache.allows_call (g := g) (c := call) hget with hev | ⟨bound, hbound, hle⟩
  · exact .inl hev
  have hlt := hle.trans_lt (hb line bound hbound).2
  have hconflicts : call.conflicts g (g.setOf line) line =
      (call.rivals g line).size % UInt32.size := rfl
  rcases Nat.lt_or_ge (call.rivals g line).size UInt32.size with hfits | hwraps
  · rw [hconflicts, Nat.mod_eq_of_lt hfits] at hlt
    exact .inr hlt
  · -- the counter has wrapped around, and the call may well evict the line
    refine .inl ?_
    obtain ⟨c, hmem, hyounger⟩ : ∃ c : LruCache g, line ∈ c ∧ c.younger line = [] :=
      LruCache.exists_younger_eq List.nodup_nil (fun _ h => absurd h List.not_mem_nil)
        List.not_mem_nil g.ways_pos
    obtain ⟨n', i', hcounted⟩ := hcounts
    have hbefore : a.Describes counted c [⟨n', i', line, true⟩] := by
      intro t ht _
      obtain rfl := List.mem_singleton.1 ht
      refine .inr ⟨age, hget, hmem, ?_⟩
      rw [LruCache.age, hyounger]
      exact Nat.zero_le _
    have performs : (Event.call call).Performs (call.rivals g line).toList :=
      .call fun x hx => .inr (OrderedSet.mem_filter.1 hx).1
    have hafter := keeps ⟨n, i, c, _⟩ _ rfl rfl performs hbefore
    refine (hafter ⟨n', i', line, true⟩ List.mem_cons_self hcounted).resolve_right ?_
    rintro ⟨_, _, hwithin⟩
    exact Call.not_mem_touchAll_rivals (g.ways.toNat_lt.le.trans hwraps) hwithin.1

/-- What an event asks for is exactly what it takes to keep the description. -/
theorem recorded_iff (ha : a.lines.Bounded g named) (hb : b.lines.Bounded g named)
    (htransfer : Domain.transfer g (State.reached a) e = .reached b)
    (hcounts : ∃ n' i', counted n' i') :
    e.Recorded g (counted n i) a b ↔ e.Keeps g counted n i a b := by
  constructor
  · exact Recorded.keeps ha hb htransfer
  · intro keeps
    cases e with
    | access made => exact fun hreach _ admits => keeps.records hcounts hreach admits
    | call c => exact fun _ _ hget => keeps.call hb htransfer hcounts hget

end Event

/-! ### Runs through a loop -/

/-- How often an event has missed a line. -/
def Moment.misses {g : Geometry} (m : Moment g) (n i : Nat) (line : Line) : Nat :=
  m.past.countP fun t => t.node = n && t.index = i && t.line = line && !t.hit

/-- Every event of a region records what it has to. -/
def Solution.RecordsAll (solution : Solution (State PersistenceCache)) (s : Summary) (r : Region)
    (counted : Nat → Nat → Prop) : Prop :=
  ∀ n ∈ r.nodes, ∀ (i : Nat) (e : Event) (a b : PersistenceCache),
    (s.eventsOf n)[i]? = some e → solution.stateAt s n i = .reached a →
    solution.stateAt s n (i + 1) = .reached b → e.Recorded s.geometry (counted n i) a b

section

variable {s : Summary} {r : Region} {initial : LruCache s.geometry → Prop} {fuel : Nat}
  {solution : Solution (State PersistenceCache)} {counted : Nat → Nat → Prop}
  {m : Moment s.geometry} {n i : Nat}

/-- A line that stays cached once the event has touched it is missed by the event at most once. -/
lemma Run.misses_le_one {line : Line}
    (stays : ∀ m, Run s r initial m → m.node = n → m.index = i →
      (∃ t ∈ m.past, t.node = n ∧ t.index = i ∧ t.line = line) → line ∈ m.cache)
    (run : Run s r initial m) : m.misses n i line ≤ 1 := by
  induction run with
  | enter => exact Nat.zero_le 1
  | edge _ _ _ _ ih => exact ih
  | @event m e lines run hevent performs ih =>
    -- only an access of the event itself can add a miss, and it does so only if there was none
    have made (x : Line) :
        (⟨m.node, m.index, x, decide (x ∈ m.cache)⟩ :: m.past : List Touched).countP
          (fun t => t.node = n && t.index = i && t.line = line && !t.hit) ≤ 1 := by
      rw [List.countP_cons]
      split
      case isFalse => exact ih
      case isTrue hmiss =>
        simp only [Bool.and_eq_true, decide_eq_true_eq, Bool.not_eq_true', decide_eq_false_iff_not]
          at hmiss
        obtain ⟨⟨⟨hn, hi⟩, rfl⟩, hnot⟩ := hmiss
        have hnone : m.misses n i x = 0 := by
          refine List.countP_eq_zero.2 fun t ht hmissed => hnot (stays m run hn hi ⟨t, ht, ?_⟩)
          simp only [Bool.and_eq_true, decide_eq_true_eq] at hmissed
          exact ⟨hmissed.1.1.1, hmissed.1.1.2, hmissed.1.2⟩
        exact (congrArg (· + 1) hnone).le
    cases performs with
    | @always _ x | @uncertain _ x => exact made x
    | skipped | never => exact ih
    | call => exact ih

/-- The states of a loop are bounded. -/
lemma Solution.bounded_of_reached (solved : Solution.solve? fuel s r = some solution)
    {a : PersistenceCache} (h : solution.stateAt s n i = .reached a) :
    a.lines.Bounded s.geometry s.named := by
  have satisfies := Solution.satisfies_stateAt (PersistenceCache.abstractClosed s) solved n i
  rw [h] at satisfies
  exact satisfies

/-- Where everything is recorded, the description holds throughout a run. -/
lemma Run.describes_persistence (transposed : s.Transposed)
    (within : ∀ n ∈ r.nodes, n < s.events.length)
    (solved : Solution.solve? fuel s r = some solution)
    (records : solution.RecordsAll s r counted) (run : Run s r initial m) :
    ∃ a, solution.stateAt s m.node m.index = .reached a ∧
      a.Describes counted m.cache m.past := by
  apply run.exists_reached PersistenceCache.joins_describes transposed within solved
  · exact fun _ _ => nofun
  · intro m e lines a hn hevent performs hstate h
    obtain ⟨b, htransfer, _⟩ := PersistenceCache.carries_transfer (a := a) m performs
    have hnext : solution.stateAt s m.node (m.index + 1) = .reached b := by
      rw [Solution.stateAt_succ hevent, hstate, htransfer]
    have ha := Solution.bounded_of_reached solved hstate
    have hb := Solution.bounded_of_reached solved hnext
    have recorded := records m.node hn m.index e a b hevent hstate hnext
    rw [htransfer]
    exact recorded.keeps ha hb htransfer m lines rfl rfl performs h

/-- A persistent line that a counted event has touched is cached. -/
lemma Run.mem_of_persists (transposed : s.Transposed)
    (within : ∀ n ∈ r.nodes, n < s.events.length)
    (solved : Solution.solve? fuel s r = some solution)
    (records : solution.RecordsAll s r counted) (run : Run s r initial m) {lines : List Line}
    (persists : PersistenceCache.persists (solution.stateAt s m.node m.index) lines = true)
    {line : Line} (hline : line ∈ lines)
    (touched : ∃ t ∈ m.past, counted t.node t.index ∧ t.line = line) : line ∈ m.cache := by
  obtain ⟨a, hstate, h⟩ := run.describes_persistence transposed within solved records
  obtain ⟨t, ht, hcounted, rfl⟩ := touched
  rw [hstate] at persists
  obtain ⟨_, hall⟩ := Bool.and_eq_true_iff.1 persists
  have hnot : t.line ∉ a.evicted := by
    simpa [OrderedSet.contains] using List.all_eq_true.1 hall t.line hline
  obtain ⟨_, _, hc⟩ := (h t ht hcounted).resolve_left hnot
  exact hc.1

end

/-- What an event of a loop asks to be recorded is exactly what it takes to keep the description.
Where all events have it recorded, an access that is said to be persistent misses each of its lines
at most once in a run through the loop. -/
theorem Solution.persistence_sound (s : Summary) (transposed : s.Transposed) (header : Nat)
    (body : OrderedSet Nat) (within : ∀ n ∈ body, n < s.events.length) (fuel : Nat)
    (solution : Solution (State PersistenceCache))
    (solved : Solution.solve? fuel s ⟨body, [header]⟩ = some solution)
    (counted : Nat → Nat → Prop) (hcounts : ∃ n i, counted n i) :
    (∀ (n i : Nat) (e : Event) (a b : PersistenceCache), (s.eventsOf n)[i]? = some e →
      solution.stateAt s n i = .reached a → solution.stateAt s n (i + 1) = .reached b →
      (e.Recorded s.geometry (counted n i) a b ↔ e.Keeps s.geometry counted n i a b)) ∧
    (solution.RecordsAll s ⟨body, [header]⟩ counted →
      ∀ (n i : Nat) (made : Access) (before : State PersistenceCache),
        (s.eventsOf n)[i]? = some (.access made) → (solution.beforeEvents s n)[i]? = some before →
        PersistenceCache.persists before made.target.toList = true →
        ∀ line ∈ made.target.toList,
          (∀ m, Run s ⟨body, [header]⟩ (fun _ => True) m → m.node = n → m.index = i →
            (∃ t ∈ m.past, counted t.node t.index ∧ t.line = line) → line ∈ m.cache) ∧
          (counted n i → ∀ m, Run s ⟨body, [header]⟩ (fun _ => True) m →
            m.misses n i line ≤ 1)) := by
  constructor
  · intro n i e a b hevent hbefore hafter
    have htransfer : Domain.transfer s.geometry (State.reached a) e = .reached b := by
      rw [← hbefore, ← Solution.stateAt_succ hevent, hafter]
    exact Event.recorded_iff (Solution.bounded_of_reached solved hbefore)
      (Solution.bounded_of_reached solved hafter) htransfer hcounts
  · intro records n i made before hevent hbefore persists line hline
    rw [Solution.getElem?_beforeEvents hevent] at hbefore
    cases hbefore
    have stays : ∀ m, Run s ⟨body, [header]⟩ (fun _ => True) m → m.node = n → m.index = i →
        (∃ t ∈ m.past, counted t.node t.index ∧ t.line = line) → line ∈ m.cache := by
      intro m run hn hi touched
      subst hn hi
      exact run.mem_of_persists transposed within solved records persists hline touched
    refine ⟨stays, ?_⟩
    intro hcounted m run
    apply Run.misses_le_one _ run
    rintro m run hn hi ⟨t, ht, htn, hti, htl⟩
    exact stays m run hn hi ⟨t, ht, by rw [htn, hti]; exact hcounted, htl⟩

/-- A loop over accesses to lines 0 and 2 of a set of two ways. -/
def Summary.steadyLoop : Summary where
  geometry := .twoWays
  predecessors := [[1], [0]]
  successors := [[1], [0]]
  entries := [0]
  events := [[.access ⟨⟨0, 0, .data⟩, .lines [0], .always, none⟩],
    [.access ⟨⟨1, 4, .data⟩, .lines [2], .always, none⟩]]
  coldStart := false

/-- In the loop everything is recorded, and line 0 is missed at most once. -/
theorem Solution.persistence_sound_steadyLoop :
    ∃ solution, Solution.solve? 10 .steadyLoop ⟨.below 2, [0]⟩ = some solution ∧
      solution.RecordsAll .steadyLoop ⟨.below 2, [0]⟩ (fun _ _ => True) ∧
      ∀ m, Run .steadyLoop ⟨.below 2, [0]⟩ (fun _ => True) m → m.misses 0 0 0 ≤ 1 := by
  have hstates : (Solution.solve? 10 .steadyLoop ⟨.below 2, [0]⟩).map
      (fun solution : Solution (State PersistenceCache) =>
        [solution.stateAt .steadyLoop 0 0, solution.stateAt .steadyLoop 0 1,
          solution.stateAt .steadyLoop 1 0, solution.stateAt .steadyLoop 1 1]) =
      some [.reached ⟨.ofList [(0, 1), (2, 0)], {}⟩, .reached ⟨.ofList [(0, 0), (2, 1)], {}⟩,
        .reached ⟨.ofList [(0, 0), (2, 1)], {}⟩, .reached ⟨.ofList [(0, 1), (2, 0)], {}⟩] := by
    decide +kernel
  obtain ⟨solution, solved, hsolution⟩ := Option.map_eq_some_iff.1 hstates
  simp only [List.cons.injEq, and_true] at hsolution
  obtain ⟨h00, h01, h10, h11⟩ := hsolution
  have held {u v age : Nat} {other : Line}
      (hget : (OrderedMap.ofList [((0 : Line), u), (2, v)]).get? other = some age) :
      (other = 0 ∧ age = u) ∨ (other = 2 ∧ age = v) := by
    have hmem : (other, age) ∈ (OrderedMap.ofList [((0 : Line), u), (2, v)]).entries :=
      OrderedMap.mem_entries.2 hget
    have hentries : (OrderedMap.ofList [((0 : Line), u), (2, v)]).entries = [(0, u), (2, v)] := rfl
    simpa [hentries] using hmem
  -- each access touches the older of the two lines and makes the other one older
  have records : solution.RecordsAll .steadyLoop ⟨.below 2, [0]⟩ (fun _ _ => True) := by
    rintro (_ | _ | n) hn i e a b hevent ha hb
    · obtain ⟨rfl, rfl⟩ : i = 0 ∧ e = .access ⟨⟨0, 0, .data⟩, .lines [0], .always, none⟩ := by
        cases i <;> simp_all [Summary.eventsOf, Summary.steadyLoop]
      cases h00.symm.trans ha
      cases h01.symm.trans hb
      rintro _ line hline
      obtain rfl := List.mem_singleton.1 hline
      refine ⟨fun _ => .inr ⟨0, by decide, le_rfl⟩, ?_⟩
      intro other age hne _ hget _
      obtain ⟨rfl, rfl⟩ := (held hget).resolve_left fun h => hne h.1
      exact .inr ⟨1, by decide, le_rfl⟩
    · obtain ⟨rfl, rfl⟩ : i = 0 ∧ e = .access ⟨⟨1, 4, .data⟩, .lines [2], .always, none⟩ := by
        cases i <;> simp_all [Summary.eventsOf, Summary.steadyLoop]
      cases h10.symm.trans ha
      cases h11.symm.trans hb
      rintro _ line hline
      obtain rfl := List.mem_singleton.1 hline
      refine ⟨fun _ => .inr ⟨0, by decide, le_rfl⟩, ?_⟩
      intro other age hne _ hget _
      obtain ⟨rfl, rfl⟩ := (held hget).resolve_right fun h => hne h.1
      exact .inr ⟨1, by decide, le_rfl⟩
    · exact absurd (OrderedSet.mem_below.1 hn) (by omega)
  have transposed : Summary.steadyLoop.Transposed := by
    unfold Summary.Transposed
    decide
  have within : ∀ n ∈ OrderedSet.below 2, n < Summary.steadyLoop.events.length := by
    decide
  obtain ⟨_, sound⟩ := Solution.persistence_sound .steadyLoop transposed 0 (.below 2) within 10
    solution solved (fun _ _ => True) ⟨0, 0, trivial⟩
  obtain ⟨_, misses⟩ := sound records 0 0 ⟨⟨0, 0, .data⟩, .lines [0], .always, none⟩
    (.reached ⟨.ofList [(0, 1), (2, 0)], {}⟩) rfl
    (by rw [Solution.getElem?_beforeEvents rfl, h00]) (by decide) 0 List.mem_cons_self
  exact ⟨solution, solved, records, misses trivial⟩

/-! ### A persistent line that is evicted -/

/-- A run goes through a node of one access and along an edge. -/
lemma Run.through {s : Summary} {r : Region} {initial : LruCache s.geometry → Prop} {n : Nat}
    {c : LruCache s.geometry} {past : List Touched} {made : Access}
    (run : Run s r initial ⟨n, 0, c, past⟩) (line : Line) (n' : Nat) (hevents : s.eventsOf n = [.access made])
    (performs : (Event.access made).Performs [line]) (hsucc : n' ∈ s.successorsOf n)
    (hn : n' ∈ r.nodes) :
    Run s r initial ⟨n', 0, c.touch line, ⟨n, 0, line, decide (line ∈ c)⟩ :: past⟩ := by
  have hevent : (s.eventsOf n)[0]? = some (.access made) := by rw [hevents]; rfl
  have hlength : (s.eventsOf n).length = 1 := by rw [hevents]; rfl
  exact (run.event hevent performs).edge hlength.symm hsucc hn

/-- A loop of one way for each of two sets, over lines 64 and 66 of one of them. Of two branches one
loads line 64 and the other line 66; behind the first, and optionally behind the second, line 64 is
accessed; last is line 66. -/
def Summary.rejoiningLoop : Summary where
  geometry := .oneWay
  predecessors := [[4], [0], [0], [1, 2], [2, 3]]
  successors := [[1, 2], [3], [3, 4], [4], [0]]
  entries := [0]
  events := [[.access ⟨⟨0, 0x1040, .fetch⟩, .lines [65], .always, none⟩],
    [.access ⟨⟨1, 0x1000, .fetch⟩, .lines [64], .always, none⟩],
    [.access ⟨⟨2, 0x1080, .fetch⟩, .lines [66], .always, none⟩],
    [.access ⟨⟨3, 0x1004, .fetch⟩, .lines [64], .always, none⟩],
    [.access ⟨⟨4, 0x1084, .fetch⟩, .lines [66], .always, none⟩]]
  coldStart := true

/-- Line 66 is said to be persistent at the end of the loop. Yet a run that has loaded it comes there
with the line evicted, and so misses it in every iteration. -/
theorem Solution.persistence_unsound_rejoiningLoop :
    Summary.rejoiningLoop.Transposed ∧
    ((Solution.solve? 30 .rejoiningLoop ⟨.below 5, [0]⟩).bind
      fun solution => (solution.beforeEvents .rejoiningLoop 4)[0]?).map
        (PersistenceCache.persists · [66]) = some true ∧
    (∃ m, Run .rejoiningLoop ⟨.below 5, [0]⟩ (fun _ => True) m ∧ m.node = 4 ∧ m.index = 0 ∧
      (∃ t ∈ m.past, t.line = 66) ∧ (66 : Line) ∉ m.cache) ∧
    ∃ m, Run .rejoiningLoop ⟨.below 5, [0]⟩ (fun _ => True) m ∧ m.misses 4 0 66 = 2 := by
  have head : Run .rejoiningLoop ⟨.below 5, [0]⟩ (fun _ => True) ⟨0, 0, LruCache.empty _, []⟩ :=
    .enter (by decide) (by decide) trivial
  -- through the branch that loads line 66, and past the access to line 64
  have around {c : LruCache Summary.rejoiningLoop.geometry} {past : List Touched}
      (run : Run .rejoiningLoop ⟨.below 5, [0]⟩ (fun _ => True) ⟨0, 0, c, past⟩) :=
    have right := run.through 65 2 rfl (.always rfl List.mem_cons_self) (by decide) (by decide)
    have mid := right.through 66 3 rfl (.always rfl List.mem_cons_self) (by decide) (by decide)
    mid.through 64 4 rfl (.always rfl List.mem_cons_self) (by decide) (by decide)
  have tail := around head
  have again := tail.through 66 0 rfl (.always rfl List.mem_cons_self) (by decide) (by decide)
  have final := (around again).through 66 0 rfl (.always rfl List.mem_cons_self) (by decide)
    (by decide)
  refine ⟨?_, ?_, ⟨_, tail, rfl, rfl, ?_, ?_⟩, ⟨_, final, ?_⟩⟩
  · unfold Summary.Transposed
    decide
  · decide +kernel
  · exact ⟨_, List.mem_cons_of_mem _ List.mem_cons_self, rfl⟩
  · decide +kernel
  · decide +kernel

end CacheVerdict
