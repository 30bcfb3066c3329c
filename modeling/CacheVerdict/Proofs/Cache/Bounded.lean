import Mathlib.Order.Nat
import CacheVerdict.Proofs.Cache.Meet
import CacheVerdict.Proofs.Cache.Run

/-!
# Ages are below the number of ways

Whatever order the nodes are visited in, a description of a cache holds only lines that the
procedure names, at ages below the number of ways. Main statement: this holds of every state of a
solution (`Solution.satisfies_stateAt`), for each of the three kinds of description.
-/

namespace CacheVerdict

/-- The lines that an event names. -/
def Event.named : Event → List Line
  | .access a => a.target.toList
  | .call c => c.lines.toList

/-- The lines that the events of a procedure name. -/
def Summary.named (s : Summary) : List Line :=
  s.events.flatten.flatMap Event.named

/-- A line that an event of a node names is named by the procedure. -/
lemma Summary.mem_named {s : Summary} {n : Nat} {e : Event} {line : Line} (he : e ∈ s.eventsOf n)
    (hline : line ∈ e.named) : line ∈ s.named := by
  refine List.mem_flatMap.2 ⟨e, List.mem_flatten.2 ?_, hline⟩
  unfold eventsOf at he
  cases h : s.events[n]? with
  | none =>
    rw [h] at he
    cases he
  | some events =>
    rw [h] at he
    exact ⟨events, List.mem_of_getElem? h, he⟩

/-- A property of descriptions that the analysis of a procedure keeps. -/
structure Summary.AbstractClosed {σ : Type} [Abstraction σ] (s : Summary) (Valid : σ → Prop) :
    Prop where
  start : Valid (Abstraction.start s.coldStart)
  merge : ∀ {a b : σ}, Valid a → Valid b → Valid (Abstraction.merge a b)
  touch : ∀ {line : Line} {a : σ}, line ∈ s.named → Valid a →
    Valid (Abstraction.touch s.geometry line a)
  touchUnknown : ∀ {a : σ}, Valid a → Valid (Abstraction.touchUnknown s.geometry a)
  call : ∀ {c : Call} {a : σ}, (∀ line ∈ c.lines, line ∈ s.named) → Valid a →
    Valid (Abstraction.call s.geometry c a)

/-- A property of descriptions as one of states. -/
def State.Satisfies {σ : Type} (Valid : σ → Prop) : State σ → Prop
  | .unreached => True
  | .reached a => Valid a

namespace Summary.AbstractClosed

variable {σ : Type} [Abstraction σ] [LawfulAbstraction σ] {s : Summary} {Valid : σ → Prop}

omit [LawfulAbstraction σ] in
/-- Merging valid descriptions keeps validity. -/
lemma foldl (closed : s.AbstractClosed Valid) {f : Line → σ} {l : List Line}
    (hf : ∀ line ∈ l, Valid (f line)) {a : σ} (ha : Valid a) :
    Valid (l.foldl (fun s other => Abstraction.merge s (f other)) a) := by
  induction l generalizing a with
  | nil => exact ha
  | cons line l ih =>
    apply ih
    · intro other hother
      exact hf other (List.mem_cons_of_mem _ hother)
    · exact closed.merge ha (hf line List.mem_cons_self)

omit [LawfulAbstraction σ] in
/-- What holds of two states holds where they meet. -/
lemma join (closed : s.AbstractClosed Valid) {t u : State σ} (ht : State.Satisfies Valid t)
    (hu : State.Satisfies Valid u) : State.Satisfies Valid (Domain.join t u) := by
  cases u with
  | unreached => cases t <;> exact ht
  | reached b =>
    cases t with
    | unreached => exact hu
    | reached a => exact closed.merge ht hu

/-- An access to named lines keeps what holds of a state. -/
lemma access (closed : s.AbstractClosed Valid) {target : Target}
    (hnamed : ∀ line ∈ target.toList, line ∈ s.named) {t : State σ} (ht : State.Satisfies Valid t) :
    State.Satisfies Valid (Domain.access s.geometry target t) := by
  cases t with
  | unreached =>
    rw [State.access_unreached]
    trivial
  | reached a =>
    match target with
    | .unknown => exact closed.touchUnknown ht
    | .lines [] => exact ht
    | .lines (line :: lines) =>
      have hset : ∀ x ∈ (OrderedSet.ofList (line :: lines)).toList, x ∈ s.named := by
        intro x hx
        exact hnamed x (OrderedSet.mem_ofList.1 hx)
      obtain ⟨first, rest, hl⟩ := List.exists_cons_of_ne_nil
        (OrderedSet.toList_ofList_ne_nil (List.mem_cons_self (a := line) (l := lines)))
      rw [hl] at hset
      rw [State.access_reached hl]
      apply closed.foldl
      · intro x hx
        exact closed.touch (hset x (List.mem_cons_of_mem _ hx)) ht
      · exact closed.touch (hset first List.mem_cons_self) ht

/-- An event of the summary keeps what holds of a state. -/
lemma transfer (closed : s.AbstractClosed Valid) {n : Nat} {e : Event}
    (he : e ∈ s.eventsOf n) {t : State σ} (ht : State.Satisfies Valid t) :
    State.Satisfies Valid (Domain.transfer s.geometry t e) := by
  have hnamed : ∀ line ∈ e.named, line ∈ s.named := fun line hline => Summary.mem_named he hline
  cases e with
  | call c =>
    cases t with
    | unreached => trivial
    | reached a => exact closed.call hnamed ht
  | access a =>
    have haccess : State.Satisfies Valid (Domain.access s.geometry a.target t) :=
      closed.access hnamed ht
    unfold Domain.transfer
    simp only
    split
    · exact haccess
    · exact closed.join ht haccess
    · exact ht

/-- A property that is kept on descriptions is kept on states. -/
lemma toClosed (closed : s.AbstractClosed Valid) : s.Closed (State.Satisfies Valid) where
  bottom := trivial
  start := closed.start
  join := closed.join
  transfer he ht := closed.transfer he ht

end Summary.AbstractClosed

/-! ### Ages of named lines -/

namespace AgedLines

variable {g : Geometry} {named : List Line} {a b : AgedLines}

/-- Only the given lines are held, and their ages are below the number of ways. -/
def Bounded (g : Geometry) (named : List Line) (a : AgedLines) : Prop :=
  ∀ line age, a.get? line = some age → line ∈ named ∧ age < g.ways.toNat

/-- No lines are bounded. -/
lemma bounded_empty : Bounded g named {} := nofun

/-- New ages of bounded lines are bounded. -/
lemma Bounded.reage (h : Bounded g named a) (f : Line → Nat → Nat) :
    Bounded g named (a.reage g f) := by
  intro line age hget
  rw [AgedLines.reage, OrderedMap.get?_filterMap] at hget
  obtain ⟨old, hold, hnew⟩ := Option.bind_eq_some_iff.1 hget
  split at hnew
  · cases hnew
    exact ⟨(h line old hold).1, by assumption⟩
  · cases hnew

/-- Touching a named line leaves bounded lines. -/
lemma Bounded.touch {ties : Bool} {line : Line} (h : Bounded g named a) (hline : line ∈ named) :
    Bounded g named (a.touch g ties line) := by
  intro other age hget
  rw [AgedLines.touch, OrderedMap.get?_insert] at hget
  split at hget
  · rename_i heq
    cases hget
    exact ⟨heq ▸ hline, g.ways_pos⟩
  · exact h.reage _ other age hget

/-- Merging bounded lines leaves bounded lines, if the ages picked are. -/
lemma Bounded.unionWith {pick : Nat → Nat → Nat} (ha : Bounded g named a) (hb : Bounded g named b)
    (hpick : ∀ v w, v < g.ways.toNat → w < g.ways.toNat → pick v w < g.ways.toNat) :
    Bounded g named (OrderedMap.unionWith pick a b) := by
  intro line age hget
  rw [OrderedMap.get?_unionWith] at hget
  cases hv : a.get? line with
  | none =>
    rw [hv, Option.merge_none_left] at hget
    exact hb line age hget
  | some v =>
    obtain ⟨hnamed, hlt⟩ := ha line v hv
    cases hw : b.get? line with
    | none =>
      rw [hv, hw, Option.merge_none_right] at hget
      cases hget
      exact ⟨hnamed, hlt⟩
    | some w =>
      rw [hv, hw] at hget
      cases hget
      exact ⟨hnamed, hpick v w hlt (hb line w hw).2⟩

/-- Named lines at age zero are bounded. -/
lemma bounded_ofSet {lines : OrderedSet Line} (h : ∀ line ∈ lines, line ∈ named) :
    Bounded g named (.ofSet lines 0) := by
  intro line age hget
  rw [OrderedMap.get?_ofSet] at hget
  split at hget
  · rename_i hmem
    cases hget
    exact ⟨h line hmem, g.ways_pos⟩
  · cases hget

end AgedLines

/-- What must be cached is bounded. -/
lemma MustCache.abstractClosed (s : Summary) :
    s.AbstractClosed fun a : MustCache => a.lines.Bounded s.geometry s.named where
  start := AgedLines.bounded_empty
  merge {a b} ha hb line age hget := by
    obtain ⟨v, hv, hage⟩ := Option.bind_eq_some_iff.1
      ((OrderedMap.get?_interWith max a.lines b.lines line).symm.trans hget)
    obtain ⟨w, hw, rfl⟩ := Option.map_eq_some_iff.1 hage
    exact ⟨(ha line v hv).1, max_lt (ha line v hv).2 (hb line w hw).2⟩
  touch hline ha := ha.touch hline
  touchUnknown ha := ha.reage _
  call {c a} _ ha := by
    show AgedLines.Bounded _ _ (if c.effect.unknown then {} else ⟨_⟩ : MustCache).lines
    split
    · exact AgedLines.bounded_empty
    · exact ha.reage _

/-- What may be cached is bounded. -/
lemma MayCache.abstractClosed (s : Summary) :
    s.AbstractClosed fun a : MayCache => a.lines.Bounded s.geometry s.named where
  start := AgedLines.bounded_empty
  merge ha hb := ha.unionWith hb fun _ _ h _ => (min_le_left _ _).trans_lt h
  touch hline ha := ha.touch hline
  touchUnknown ha := ha
  call hc ha := by
    apply ha.unionWith
    · exact AgedLines.bounded_ofSet hc
    · exact fun _ _ _ h => h

/-- What is persistent is bounded. -/
lemma PersistenceCache.abstractClosed (s : Summary) :
    s.AbstractClosed fun a : PersistenceCache => a.lines.Bounded s.geometry s.named where
  start := AgedLines.bounded_empty
  merge ha hb := ha.unionWith hb fun _ _ h h' => max_lt h h'
  touch hline ha := ha.touch hline
  touchUnknown ha := ha.reage _
  call {c a} _ ha := by
    show AgedLines.Bounded _ _ (if c.effect.unknown then ⟨{}, _⟩ else ⟨_, _⟩ : PersistenceCache).lines
    split
    · exact AgedLines.bounded_empty
    · exact ha.reage _

/-- A property that the analysis keeps holds before and behind every event. -/
theorem Solution.satisfies_stateAt {σ : Type} [Abstraction σ] [LawfulAbstraction σ] [DecidableEq σ]
    {s : Summary} {r : Region} {fuel : Nat} {solution : Solution (State σ)} {Valid : σ → Prop}
    (closed : s.AbstractClosed Valid) (solved : Solution.solve? fuel s r = some solution)
    (n i : Nat) : (solution.stateAt s n i).Satisfies Valid := by
  apply closed.toClosed.transferAll
  · exact fun e he => List.mem_of_mem_take he
  · exact Solution.valid_of_solve? closed.toClosed solved n

end CacheVerdict
