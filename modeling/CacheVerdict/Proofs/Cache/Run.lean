import CacheVerdict.Proofs.Cache.Meet
import CacheVerdict.Proofs.Cache.Lru
import CacheVerdict.Proofs.Flow.Equations

/-!
# Concrete runs of a procedure

A run follows the edges of a region from one of its entries and executes the events of each node on
a cache. An event leaves open which line it touches, or whether it touches one at all, so that a
procedure has many runs. Main statement: a description that is kept by the events, and by the meet
with any other description, holds in every run of the solution that the analysis finds
(`Run.holds_stateAt`).
-/

namespace CacheVerdict

/-- The lines that an access to the target may touch. -/
def Target.Admits : Target → Line → Prop
  | .lines candidates, line => line ∈ candidates
  | .unknown, _ => True

/-- The lines that an event may touch, one after the other. -/
inductive Event.Performs : Event → List Line → Prop where
  | always {a : Access} {line : Line} :
    a.reach = .always → a.target.Admits line → Performs (.access a) [line]
  | uncertain {a : Access} {line : Line} :
    a.reach = .uncertain → a.target.Admits line → Performs (.access a) [line]
  | skipped {a : Access} : a.reach = .uncertain → Performs (.access a) []
  | never {a : Access} : a.reach = .never → Performs (.access a) []
  | call {c : Call} {lines : List Line} :
    (∀ line ∈ lines, c.effect.unknown = true ∨ line ∈ c.lines) → Performs (.call c) lines

/-- An access that may reach the cache may touch any line of its target. -/
lemma Event.Performs.of_reach {a : Access} {line : Line} (hreach : a.reach ≠ .never)
    (admits : a.target.Admits line) : (Event.access a).Performs [line] := by
  cases h : a.reach with
  | always => exact .always h admits
  | uncertain => exact .uncertain h admits
  | never => exact absurd h hreach

/-- The lines that a call may touch in the set of a line, other than the line itself. -/
def Call.rivals (c : Call) (g : Geometry) (line : Line) : OrderedSet Line :=
  c.lines.filter fun other => other ≠ line && g.setOf other = g.setOf line

/-- The conflicts of a call that fits in the counter are counted right. -/
lemma Call.conflicts_eq {c : Call} {g : Geometry} {line : Line}
    (fits : c.lines.size < UInt32.size) :
    c.conflicts g (g.setOf line) line = (c.rivals g line).size := by
  apply Nat.mod_eq_of_lt
  have hle : (c.rivals g line).size ≤ c.lines.size := List.length_filter_le _ _
  exact Nat.lt_of_le_of_lt hle fits

/-- A call raises the bound of a line by the number of lines that can get in front of it. -/
lemma LruCache.CachedWithin.touchAll_call {g : Geometry} {c : LruCache g} {line : Line}
    {bound : Nat} (h : c.CachedWithin line bound) {call : Call} {lines : List Line}
    (hlt : bound + (call.rivals g line).size < g.ways.toNat)
    (hlines : ∀ x ∈ lines, x ∈ call.lines) :
    (c.touchAll lines).CachedWithin line (bound + (call.rivals g line).size) := by
  obtain ⟨hmem, hage⟩ := h
  -- in front of the line stand those that stood there and those that the call touches
  have hlength : (c.younger line ++ (call.rivals g line).toList).length ≤
      bound + (call.rivals g line).size := by
    rw [List.length_append]
    exact Nat.add_le_add_right hage _
  have htouched : ∀ x ∈ lines, x ≠ line → g.setOf x = g.setOf line →
      x ∈ c.younger line ++ (call.rivals g line).toList := by
    intro x hx hne hset
    apply List.mem_append_right
    refine OrderedSet.mem_filter.2 ⟨hlines x hx, ?_⟩
    simp [hne, hset]
  obtain ⟨hmem', hsub⟩ := touchAll_younger hmem (List.subset_append_left _ _)
    (Nat.lt_of_le_of_lt hlength hlt) htouched
  exact ⟨hmem', Nat.le_trans (nodup_younger.length_le_of_subset hsub) hlength⟩

/-- An access made in a run: its event, the line it touched, and whether that line was cached. -/
structure Touched where
  node : Nat
  index : Nat
  line : Line
  hit : Bool
deriving DecidableEq

/-- A moment of a run: the node, how many of its events lie behind, the cache, and the accesses made
so far, the last one first. -/
structure Moment (g : Geometry) where
  node : Nat
  index : Nat
  cache : LruCache g
  past : List Touched

namespace Moment

variable {g : Geometry}

/-- The accesses that an event makes when it touches the given lines. Those of a call are made by
the callee. -/
def accesses (m : Moment g) (e : Event) (lines : List Line) : List Touched :=
  match e with
  | .access _ => lines.map fun line => ⟨m.node, m.index, line, decide (line ∈ m.cache)⟩
  | .call _ => []

/-- The moment after an event that touches the given lines. -/
def after (m : Moment g) (e : Event) (lines : List Line) : Moment g where
  node := m.node
  index := m.index + 1
  cache := m.cache.touchAll lines
  past := m.accesses e lines ++ m.past

end Moment

/-- The moments of the runs over a region, from a cache that satisfies `initial`. -/
inductive Run (s : Summary) (r : Region) (initial : LruCache s.geometry → Prop) :
    Moment s.geometry → Prop where
  | enter {n : Nat} {c : LruCache s.geometry} :
    n ∈ r.entries → n ∈ r.nodes → initial c → Run s r initial ⟨n, 0, c, []⟩
  | event {m : Moment s.geometry} {e : Event} {lines : List Line} :
    Run s r initial m → (s.eventsOf m.node)[m.index]? = some e → e.Performs lines →
    Run s r initial (m.after e lines)
  | edge {m : Moment s.geometry} {n : Nat} :
    Run s r initial m → m.index = (s.eventsOf m.node).length → n ∈ s.successorsOf m.node →
    n ∈ r.nodes → Run s r initial ⟨n, 0, m.cache, m.past⟩

/-! ### States along the events of a node -/

section

variable {S : Type} [Domain S]

/-- The state of a solution once the first `i` events of a node lie behind. -/
def Solution.stateAt (solution : Solution S) (s : Summary) (n i : Nat) : S :=
  Domain.transferAll s.geometry ((solution.ins.get? n).getD Domain.bottom) ((s.eventsOf n).take i)

/-- One more event takes the state on. -/
lemma Solution.stateAt_succ {solution : Solution S} {s : Summary} {n i : Nat} {e : Event}
    (h : (s.eventsOf n)[i]? = some e) :
    solution.stateAt s n (i + 1) = Domain.transfer s.geometry (solution.stateAt s n i) e := by
  unfold stateAt Domain.transferAll
  rw [List.take_add_one, h, Option.toList_some, List.foldl_append]
  rfl

/-- The states before the events of a node, read by position. -/
lemma Domain.getElem?_beforeEach {g : Geometry} {state : S} {events : List Event} {i : Nat}
    {e : Event} (h : events[i]? = some e) :
    (Domain.beforeEach g state events)[i]? = some (Domain.transferAll g state (events.take i)) := by
  induction events generalizing state i with
  | nil => simp at h
  | cons first rest ih =>
    cases i with
    | zero => rfl
    | succ i =>
      rw [List.getElem?_cons_succ] at h
      rw [Domain.beforeEach, List.getElem?_cons_succ, ih h]
      rfl

/-- Before each event the state there holds. -/
lemma Solution.getElem?_beforeEvents {solution : Solution S} {s : Summary} {n i : Nat} {e : Event}
    (h : (s.eventsOf n)[i]? = some e) :
    (solution.beforeEvents s n)[i]? = some (solution.stateAt s n i) :=
  Domain.getElem?_beforeEach h

end

/-! ### Descriptions -/

/-- An access to one of several lines is described as what the accesses to each of them have in
common. -/
class LawfulAbstraction (σ : Type) [Abstraction σ] : Prop where
  touchOneOf_eq_foldl {g : Geometry} {candidates : OrderedSet Line} {line : Line}
    {rest : List Line} : candidates.toList = line :: rest → ∀ a : σ,
      Abstraction.touchOneOf g candidates a =
        rest.foldl (fun s other => Abstraction.merge s (Abstraction.touch g other a))
          (Abstraction.touch g line a)

instance : LawfulAbstraction MustCache := ⟨MustCache.touchOneOf_eq_foldl⟩

instance : LawfulAbstraction MayCache := ⟨MayCache.touchOneOf_eq_foldl⟩

instance : LawfulAbstraction PersistenceCache := ⟨PersistenceCache.touchOneOf_eq_foldl⟩

/-- A set of some lines has elements. -/
lemma OrderedSet.toList_ofList_ne_nil {line : Line} {lines : List Line} (h : line ∈ lines) :
    (OrderedSet.ofList lines).toList ≠ [] :=
  List.ne_nil_of_mem (OrderedSet.mem_ofList.2 h)

/-- No access makes an unreached state reached. -/
lemma State.access_unreached {σ : Type} [Abstraction σ] (g : Geometry) (target : Target) :
    Domain.access g target (State.unreached : State σ) = .unreached := by
  match target with
  | .unknown | .lines [] | .lines [_] | .lines (_ :: _ :: _) => rfl

/-- An access to lines, however many they are, is what the accesses to each of them have in
common. -/
lemma State.access_reached {σ : Type} [Abstraction σ] [LawfulAbstraction σ] {g : Geometry}
    {lines : List Line} {line : Line} {rest : List Line}
    (h : (OrderedSet.ofList lines).toList = line :: rest) (a : σ) :
    Domain.access g (.lines lines) (State.reached a) =
      .reached (rest.foldl (fun s other => Abstraction.merge s (Abstraction.touch g other a))
        (Abstraction.touch g line a)) := by
  match lines with
  | [] => cases h
  | [_] =>
    cases h
    rfl
  | _ :: _ :: _ => exact congrArg State.reached (LawfulAbstraction.touchOneOf_eq_foldl h a)

section

variable {σ : Type} [Abstraction σ] {g : Geometry} {D : σ → LruCache g → List Touched → Prop}

/-- What a description says of a cache and of the accesses made so far, lifted to states. Nothing
is said by a state that no path reaches. -/
def State.Holds (D : σ → LruCache g → List Touched → Prop) :
    State σ → LruCache g → List Touched → Prop
  | .unreached, _, _ => False
  | .reached a, c, past => D a c past

omit [Abstraction σ] in
/-- A state that holds of a cache is reached. -/
lemma State.Holds.exists_reached {t : State σ} {c : LruCache g} {past : List Touched}
    (h : t.Holds D c past) : ∃ a, t = .reached a ∧ D a c past := by
  cases t with
  | unreached => cases h
  | reached a => exact ⟨a, rfl, h⟩

/-- What one of two descriptions says, both have in common. -/
structure Joins (D : σ → LruCache g → List Touched → Prop) : Prop where
  left : ∀ {a b : σ} {c : LruCache g} {past : List Touched},
    D a c past → D (Abstraction.merge a b) c past
  right : ∀ {a b : σ} {c : LruCache g} {past : List Touched},
    D b c past → D (Abstraction.merge a b) c past

namespace Joins

variable {c : LruCache g} {past : List Touched}

/-- What holds of the left state holds where both meet. -/
lemma join_left (joins : Joins D) {s t : State σ} (h : s.Holds D c past) :
    (Domain.join s t).Holds D c past := by
  cases s with
  | unreached => cases h
  | reached a =>
    cases t with
    | unreached => exact h
    | reached b => exact joins.left h

/-- What holds of the right state holds where both meet. -/
lemma join_right (joins : Joins D) {s t : State σ} (h : t.Holds D c past) :
    (Domain.join s t).Holds D c past := by
  cases t with
  | unreached => cases h
  | reached b =>
    cases s with
    | unreached => exact h
    | reached a => exact joins.right h

/-- What holds at the start of a fold of merges holds at its end. -/
lemma foldl_merge_left (joins : Joins D) {f : Line → σ} {a : σ} (l : List Line)
    (h : D a c past) : D (l.foldl (fun s other => Abstraction.merge s (f other)) a) c past := by
  induction l generalizing a with
  | nil => exact h
  | cons other l ih => exact ih (joins.left h)

/-- What holds of one of the merged descriptions holds at the end. -/
lemma foldl_merge_mem (joins : Joins D) {f : Line → σ} {a : σ} {line : Line} {l : List Line}
    (hmem : line ∈ l) (h : D (f line) c past) :
    D (l.foldl (fun s other => Abstraction.merge s (f other)) a) c past := by
  induction l generalizing a with
  | nil => cases hmem
  | cons other l ih =>
    rcases List.mem_cons.1 hmem with rfl | hmem
    · exact joins.foldl_merge_left l (joins.right h)
    · exact ih hmem

/-- What holds after an access to one of the candidates holds after the access to all of them. -/
lemma holds_access [LawfulAbstraction σ] (joins : Joins D) {a : σ} {candidates : List Line}
    {line : Line} (hmem : line ∈ candidates) (h : D (Abstraction.touch g line a) c past) :
    (Domain.access g (.lines candidates) (State.reached a)).Holds D c past := by
  have hset : line ∈ (OrderedSet.ofList candidates).toList := OrderedSet.mem_ofList.2 hmem
  obtain ⟨first, rest, hl⟩ := List.exists_cons_of_ne_nil (List.ne_nil_of_mem hset)
  rw [State.access_reached hl]
  rw [hl] at hset
  rcases List.mem_cons.1 hset with rfl | hset
  · exact joins.foldl_merge_left rest h
  · exact joins.foldl_merge_mem hset h

/-- An event keeps a description that its touches keep. -/
lemma holds_transfer [LawfulAbstraction σ] (joins : Joins D) {m : Moment g} {a : σ} {e : Event}
    {lines : List Line} (performs : e.Performs lines) (h : D a m.cache m.past)
    (touch : ∀ {access : Access} {candidates : List Line} {line : Line}, e = .access access →
      access.target = .lines candidates → line ∈ candidates → lines = [line] →
      D (Abstraction.touch g line a) (m.cache.touch line) (m.after e lines).past)
    (unknown : ∀ {access : Access} {line : Line}, e = .access access → access.target = .unknown →
      lines = [line] →
      D (Abstraction.touchUnknown g a) (m.cache.touch line) (m.after e lines).past)
    (call : ∀ {c : Call}, e = .call c →
      D (Abstraction.call g c a) (m.cache.touchAll lines) m.past) :
    (Domain.transfer g (State.reached a) e).Holds D (m.after e lines).cache
      (m.after e lines).past := by
  -- an access that is made, whichever target it has
  have made {access : Access} {line : Line} (he : e = .access access) (hl : lines = [line])
      (admits : access.target.Admits line) :
      (Domain.access g access.target (State.reached a)).Holds D (m.cache.touch line)
        (m.after e lines).past := by
    cases ht : access.target with
    | lines candidates =>
      rw [ht] at admits
      exact joins.holds_access admits (touch he ht admits hl)
    | unknown => exact unknown he ht hl
  cases performs with
  | always hreach admits =>
    simp only [Domain.transfer, hreach]
    exact made rfl rfl admits
  | uncertain hreach admits =>
    simp only [Domain.transfer, hreach]
    exact joins.join_right (made rfl rfl admits)
  | skipped hreach =>
    simp only [Domain.transfer, hreach]
    exact joins.join_left (s := .reached a) h
  | never hreach =>
    simp only [Domain.transfer, hreach]
    exact h
  | call => exact call rfl

variable {s : Summary} {r : Region} {outs : OrderedMap Nat (State σ)}

/-- What holds before the predecessors are looked at holds at the entry of a node. -/
lemma holds_foldl (joins : Joins D) {joined : State σ} (ps : List Nat)
    (h : joined.Holds D c past) :
    (ps.foldl (fun joined p => (outs.get? p).elim joined (Domain.join joined)) joined).Holds
      D c past := by
  induction ps generalizing joined with
  | nil => exact h
  | cons p ps ih =>
    refine ih ?_
    show ((outs.get? p).elim joined (Domain.join joined)).Holds D c past
    cases outs.get? p with
    | none => exact h
    | some out => exact joins.join_left h

/-- What holds at the start of the region holds at its entries. -/
lemma holds_meet_entry (joins : Joins D) {n : Nat} (hn : n ∈ r.entries)
    (h : D (Abstraction.start s.coldStart) c past) :
    (Iteration.meet s r outs n).Holds D c past := by
  unfold Iteration.meet
  rw [if_pos hn]
  have hstart : (State.reached (Abstraction.start s.coldStart)).Holds D c past := h
  exact joins.holds_foldl _ hstart

/-- What holds behind a predecessor holds at the entry of a node. -/
lemma holds_meet_of_mem (joins : Joins D) {n p : Nat} {out : State σ}
    (hp : p ∈ s.predecessorsOf n) (hout : outs.get? p = some out) (h : out.Holds D c past) :
    (Iteration.meet s r outs n).Holds D c past := by
  unfold Iteration.meet
  generalize s.predecessorsOf n = ps at hp
  generalize (if n ∈ r.entries then
    Domain.join Domain.bottom (Domain.start s.coldStart) else (Domain.bottom : State σ)) = joined
  induction ps generalizing joined with
  | nil => cases hp
  | cons q ps ih =>
    rcases List.mem_cons.1 hp with rfl | hp
    · refine joins.holds_foldl ps ?_
      show ((outs.get? p).elim joined (Domain.join joined)).Holds D c past
      rw [hout]
      exact joins.join_right h
    · exact ih hp _

end Joins

end

/-! ### Runs -/

/-- A description that every event of a run keeps holds throughout the run. -/
theorem Run.holds_stateAt {σ : Type} [Abstraction σ] {s : Summary} {r : Region}
    {initial : LruCache s.geometry → Prop} {solution : Solution (State σ)}
    {D : σ → LruCache s.geometry → List Touched → Prop} (joins : Joins D)
    (settled : solution.Settled s r)
    (edges : ∀ p ∈ r.nodes, ∀ n ∈ r.nodes, n ∈ s.successorsOf p → p ∈ s.predecessorsOf n)
    (start : ∀ c, initial c → D (Abstraction.start s.coldStart) c [])
    (step : ∀ {m : Moment s.geometry} {e : Event} {lines : List Line} {a : σ},
      m.node ∈ r.nodes → (s.eventsOf m.node)[m.index]? = some e → e.Performs lines →
      solution.stateAt s m.node m.index = .reached a → D a m.cache m.past →
      (Domain.transfer s.geometry (State.reached a) e).Holds D (m.after e lines).cache
        (m.after e lines).past)
    {m : Moment s.geometry} (run : Run s r initial m) :
    m.node ∈ r.nodes ∧ (solution.stateAt s m.node m.index).Holds D m.cache m.past := by
  induction run with
  | @enter n c hentry hn hinitial =>
    refine ⟨hn, ?_⟩
    simp only [Solution.stateAt, List.take_zero, settled.ins n hn, Option.getD_some]
    exact joins.holds_meet_entry hentry (start c hinitial)
  | @event m e lines _ hevent performs ih =>
    obtain ⟨hn, holds⟩ := ih
    refine ⟨hn, ?_⟩
    show (solution.stateAt s m.node (m.index + 1)).Holds D _ _
    rw [Solution.stateAt_succ hevent]
    obtain ⟨a, hstate, h⟩ := holds.exists_reached
    rw [hstate]
    exact step hn hevent performs hstate h
  | @edge m n _ hindex hsucc hn ih =>
    obtain ⟨hm, holds⟩ := ih
    refine ⟨hn, ?_⟩
    -- with all events behind, the state is the one behind the node
    have hout : solution.outs.get? m.node = some (solution.stateAt s m.node m.index) := by
      rw [settled.outs m.node hm, Solution.stateAt, settled.ins m.node hm, hindex,
        List.take_length]
      rfl
    simp only [Solution.stateAt, List.take_zero, settled.ins n hn, Option.getD_some]
    exact joins.holds_meet_of_mem (edges m.node hm n hn hsucc) hout holds

/-- Where edges are known at both ends, a run over nodes of the procedure finds the analysis that
has ended to reach its every moment. -/
theorem Run.exists_reached {σ : Type} [Abstraction σ] [DecidableEq σ] {s : Summary} {r : Region}
    {initial : LruCache s.geometry → Prop} {fuel : Nat} {solution : Solution (State σ)}
    {D : σ → LruCache s.geometry → List Touched → Prop} (joins : Joins D)
    (transposed : s.Transposed) (within : ∀ n ∈ r.nodes, n < s.events.length)
    (solved : Solution.solve? fuel s r = some solution)
    (start : ∀ c, initial c → D (Abstraction.start s.coldStart) c [])
    (step : ∀ {m : Moment s.geometry} {e : Event} {lines : List Line} {a : σ},
      m.node ∈ r.nodes → (s.eventsOf m.node)[m.index]? = some e → e.Performs lines →
      solution.stateAt s m.node m.index = .reached a → D a m.cache m.past →
      (Domain.transfer s.geometry (State.reached a) e).Holds D (m.after e lines).cache
        (m.after e lines).past)
    {m : Moment s.geometry} (run : Run s r initial m) :
    ∃ a, solution.stateAt s m.node m.index = .reached a ∧ D a m.cache m.past := by
  have edges : ∀ p ∈ r.nodes, ∀ n ∈ r.nodes, n ∈ s.successorsOf p → p ∈ s.predecessorsOf n :=
    fun p hp n hn => (transposed p (within p hp) n (within n hn)).1
  have settled := Solution.settled_of_solve? (transposed.linked within) solved
  obtain ⟨_, holds⟩ := run.holds_stateAt joins settled edges start step
  exact holds.exists_reached

end CacheVerdict
