import CacheVerdict.Proofs.Cache.Agreement
import CacheVerdict.Proofs.Cache.Crowding

/-!
# Coarser descriptions of the same events

Two procedures whose events match place by place, the events of the second saying less: an access
may touch more lines, or any line, it may be open whether it arrives, and lines may go by other
names. What is asked of the names is asked only in the sets concerned, and an access to other sets
need not arrive alike. As long as the names that the second uses crowd those sets no less (`Crowds`),
its states bound those of the first there. So what the second finds to hit hits by the first
(`Summary.Coarsens.alwaysHit`); and with the names the other way round, what it finds to miss misses
(`Summary.Coarsens.alwaysMiss`).
-/

namespace CacheVerdict

/-! ### Events -/

/-- The second target says less: it names, for each line of the first one, the line itself under its
other name, or it says nothing. -/
inductive Target.Coarsens (U : Line → Line → Prop) : Target → Target → Prop where
  | unknown {target : Target} : Coarsens U target .unknown
  | lines {fine rough : List Line} : (fine = [] → rough = []) →
    (∀ y ∈ fine, ∃ x ∈ rough, U x y) → Coarsens U (.lines fine) (.lines rough)

/-- An access to the target may go to one of the given sets. -/
def Target.Meets (g : Geometry) (S : UInt64 → Prop) : Target → Prop
  | .unknown => True
  | .lines candidates => ∃ line ∈ candidates, S (g.setOf line)

/-- Otherwise its lines are known, and lie away from those sets. -/
lemma Target.away_of_not_meets {g : Geometry} {S : UInt64 → Prop} {target : Target}
    (h : ¬target.Meets g S) : target ≠ .unknown ∧ ∀ y ∈ target.toList, Away g S y := by
  cases target with
  | unknown => exact absurd trivial h
  | lines candidates => exact ⟨nofun, fun y hy hs => h ⟨y, hy, hs⟩⟩

/-- The lines of both targets are aside: those of the first are `A`, those of the second `B`. -/
structure Target.Aside (A B : Line → Prop) (target target' : Target) : Prop where
  known : target ≠ .unknown
  fine : ∀ y ∈ target.toList, A y
  rough : ∀ x ∈ target'.toList, B x

/-- The second event says less, where calls match as `K` says. Whether it arrives may be said
otherwise of an access to lines that are aside. -/
inductive Event.Coarsens (U : Line → Line → Prop) (A B : Line → Prop) (K : Call → Call → Prop) :
    Event → Event → Prop where
  | access {a a' : Access} : a.target.Coarsens U a'.target →
    (a'.reach = a.reach ∨ a'.reach = .uncertain ∨ a.target.Aside A B a'.target) →
    Coarsens U A B K (.access a) (.access a')
  | call {c c' : Call} : K c c' → Coarsens U A B K (.call c) (.call c')

/-- The same control flow in the same cache, where the events of the second procedure say less. -/
structure Summary.Coarsens (U : Line → Line → Prop) (A B : Line → Prop) (K : Call → Call → Prop)
    (s t : Summary) : Prop where
  geometry : t.geometry = s.geometry
  predecessors : t.predecessors = s.predecessors
  successors : t.successors = s.successors
  entries : t.entries = s.entries
  events : List.Forall₂ (List.Forall₂ (Event.Coarsens U A B K)) s.events t.events
  coldStart : t.coldStart = true → s.coldStart = true

namespace Summary.Coarsens

variable {U : Line → Line → Prop} {A B : Line → Prop} {K : Call → Call → Prop} {s t : Summary}

/-- The events of a node coarsen one another in order. -/
lemma eventsOf (coarsens : s.Coarsens U A B K t) (n : Nat) :
    List.Forall₂ (Event.Coarsens U A B K) (s.eventsOf n) (t.eventsOf n) := by
  have nth {events events' : List (List Event)}
      (h : List.Forall₂ (List.Forall₂ (Event.Coarsens U A B K)) events events') (n : Nat) :
      List.Forall₂ (Event.Coarsens U A B K) (events[n]?.getD []) (events'[n]?.getD []) := by
    induction h generalizing n with
    | nil => simp
    | cons h _ ih =>
      cases n with
      | zero => simpa using h
      | succ n => simpa using ih n
  exact nth coarsens.events n

/-- Both summaries have the same nodes. -/
lemma whole (coarsens : s.Coarsens U A B K t) : Region.whole t = Region.whole s := by
  rw [Region.whole, Region.whole, coarsens.entries, coarsens.events.length_eq]

/-- Both summaries have the same edges. -/
lemma linked (coarsens : s.Coarsens U A B K t) {r : Region} (linked : s.Linked r) : t.Linked r := by
  intro p hp n hn
  rw [Summary.predecessorsOf, Summary.successorsOf, coarsens.predecessors, coarsens.successors]
  exact linked p hp n hn

end Summary.Coarsens

/-! ### States -/

/-- A relation between descriptions, as one between states. What no path reaches is related to
everything. -/
def State.Related {σ : Type} (ρ : σ → σ → Prop) : State σ → State σ → Prop
  | .unreached, _ => True
  | .reached _, .unreached => False
  | .reached a, .reached b => ρ a b

/-- A relation between what two analyses say, kept where paths meet and by the accesses to lines
under their two names. -/
structure Dominates {σ : Type} [Abstraction σ] (g : Geometry) (U : Line → Line → Prop)
    (A B : Line → Prop) (K : Call → Call → Prop) (ρ : σ → σ → Prop) : Prop where
  merge : ∀ {a b c : σ}, ρ a c → ρ b c → ρ (Abstraction.merge a b) c
  left : ∀ {a b c : σ}, ρ a b → ρ a (Abstraction.merge b c)
  right : ∀ {a b c : σ}, ρ a c → ρ a (Abstraction.merge b c)
  touch : ∀ {a b : σ} {x y : Line}, ρ a b → U x y →
    ρ (Abstraction.touch g y a) (Abstraction.touch g x b)
  asideLeft : ∀ {a b : σ} {y : Line}, ρ a b → A y → ρ (Abstraction.touch g y a) b
  asideRight : ∀ {a b : σ} {x : Line}, ρ a b → B x → ρ a (Abstraction.touch g x b)
  idle : ∀ {a b : σ}, ρ a b → ρ a (Abstraction.touchUnknown g b)
  blur : ∀ {a b : σ} (y : Line), ρ a b → ρ (Abstraction.touch g y a) (Abstraction.touchUnknown g b)
  unknown : ∀ {a b : σ}, ρ a b → ρ (Abstraction.touchUnknown g a) (Abstraction.touchUnknown g b)
  call : ∀ {a b : σ} {c c' : Call}, ρ a b → K c c' →
    ρ (Abstraction.call g c a) (Abstraction.call g c' b)

namespace Dominates

variable {σ : Type} [Abstraction σ] {g : Geometry} {U : Line → Line → Prop} {A B : Line → Prop}
  {K : Call → Call → Prop} {ρ : σ → σ → Prop}

section

variable (dominates : Dominates g U A B K ρ) {t u v : State σ}

include dominates

/-- What both states are related to, their meet is related to. -/
lemma join (ht : t.Related ρ v) (hu : u.Related ρ v) : (Domain.join t u).Related ρ v := by
  cases t with
  | unreached =>
    cases u with
    | unreached => trivial
    | reached => exact hu
  | reached a =>
    cases u with
    | unreached => exact ht
    | reached b =>
      cases v with
      | unreached => cases ht
      | reached c => exact dominates.merge ht hu

/-- A state stays related to a meet on whose left it was. -/
lemma join_left (h : t.Related ρ u) : t.Related ρ (Domain.join u v) := by
  cases t with
  | unreached => trivial
  | reached a =>
    cases u with
    | unreached => cases h
    | reached b =>
      cases v with
      | unreached => exact h
      | reached c => exact dominates.left h

/-- A state stays related to a meet on whose right it was. -/
lemma join_right (h : t.Related ρ v) : t.Related ρ (Domain.join u v) := by
  cases t with
  | unreached => trivial
  | reached a =>
    cases v with
    | unreached => cases h
    | reached c =>
      cases u with
      | unreached => exact h
      | reached b => exact dominates.right h

/-- What is related after each of several accesses is so after an access to one of the lines. -/
lemma related_access_of_forall [LawfulAbstraction σ] {a : σ} {candidates : List Line}
    (hne : candidates ≠ [])
    (h : ∀ y ∈ candidates, (State.reached (Abstraction.touch g y a)).Related ρ v) :
    (Domain.access g (.lines candidates) (State.reached a)).Related ρ v := by
  have hmem : ∀ y ∈ (OrderedSet.ofList candidates).toList,
      (State.reached (Abstraction.touch g y a)).Related ρ v :=
    fun y hy => h y (OrderedSet.mem_ofList.1 hy)
  have fold {first : σ} (rest : List Line) (hfirst : (State.reached first).Related ρ v)
      (hrest : ∀ y ∈ rest, (State.reached (Abstraction.touch g y a)).Related ρ v) :
      (State.reached (rest.foldl (fun s other => Abstraction.merge s (Abstraction.touch g other a))
        first)).Related ρ v := by
    induction rest generalizing first with
    | nil => exact hfirst
    | cons other rest ih =>
      refine ih ?_ fun y hy => hrest y (List.mem_cons_of_mem _ hy)
      exact dominates.join hfirst (hrest other List.mem_cons_self)
  obtain ⟨y, hy⟩ := List.exists_mem_of_ne_nil _ hne
  obtain ⟨line, rest, hl⟩ := List.exists_cons_of_ne_nil (OrderedSet.toList_ofList_ne_nil hy)
  rw [hl] at hmem
  rw [State.access_reached hl]
  exact fold _ (hmem line List.mem_cons_self) fun y hy => hmem y (List.mem_cons_of_mem _ hy)

/-- What is related after one of several accesses is so after an access to one of the lines. -/
lemma related_access_of_mem [LawfulAbstraction σ] {a b : σ} {candidates : List Line} {x : Line}
    (hx : x ∈ candidates) (h : ρ a (Abstraction.touch g x b)) :
    (State.reached a).Related ρ (Domain.access g (.lines candidates) (State.reached b)) := by
  have joins : Joins fun b (_ : LruCache g) _ => ρ a b := ⟨dominates.left, dominates.right⟩
  have held : (Domain.access g (.lines candidates) (State.reached b)).Holds
      (fun b (_ : LruCache g) _ => ρ a b) (LruCache.empty g) [] := joins.holds_access hx h
  obtain ⟨c, hc, hac⟩ := held.exists_reached
  rw [hc]
  exact hac

/-- Accesses to targets of which the second says less keep the relation. -/
lemma related_access [LawfulAbstraction σ] {a b : σ} (h : ρ a b) {target target' : Target}
    (coarsens : target.Coarsens U target') :
    (Domain.access g target (State.reached a)).Related ρ
      (Domain.access g target' (State.reached b)) := by
  cases coarsens with
  | unknown =>
    -- whichever line is touched, the second analysis forgets as much
    cases target with
    | unknown => exact dominates.unknown h
    | lines candidates =>
      cases candidates with
      | nil => exact dominates.idle h
      | cons y candidates =>
        exact dominates.related_access_of_forall (List.cons_ne_nil _ _) fun y _ => dominates.blur y h
  | @lines fine rough hempty hnamed =>
    by_cases hfine : fine = []
    · rw [hfine, hempty hfine]
      exact h
    · refine dominates.related_access_of_forall hfine fun y hy => ?_
      obtain ⟨x, hx, hxy⟩ := hnamed y hy
      exact dominates.related_access_of_mem hx (dominates.touch h hxy)

/-- So does an access to lines that are not concerned, if it is made by the first analysis alone. -/
lemma related_access_left [LawfulAbstraction σ] {a b : σ} (h : ρ a b) {target target' : Target}
    (aside : target.Aside A B target') :
    (Domain.access g target (State.reached a)).Related ρ (State.reached b) := by
  cases target with
  | unknown => exact absurd rfl aside.known
  | lines fine =>
    by_cases hfine : fine = []
    · rw [hfine]
      exact h
    · exact dominates.related_access_of_forall hfine fun y hy =>
        dominates.asideLeft h (aside.fine y hy)

/-- And if it is made by the second alone. -/
lemma related_access_right [LawfulAbstraction σ] {a b : σ} (h : ρ a b) {target target' : Target}
    (aside : target.Aside A B target') :
    (State.reached a).Related ρ (Domain.access g target' (State.reached b)) := by
  cases target' with
  | unknown => exact dominates.idle h
  | lines rough =>
    cases rough with
    | nil => exact h
    | cons x rough =>
      exact dominates.related_access_of_mem List.mem_cons_self
        (dominates.asideRight h (aside.rough x List.mem_cons_self))

/-- Events of which the second says less keep the relation. -/
lemma related_transfer [LawfulAbstraction σ] {e e' : Event} (coarsens : e.Coarsens U A B K e')
    (h : t.Related ρ u) : (Domain.transfer g t e).Related ρ (Domain.transfer g u e') := by
  cases t with
  | unreached =>
    have hnot : ¬ (Domain.transfer g (State.unreached : State σ) e).IsReached :=
      fun h => State.isReached_transfer.1 h
    cases htransfer : Domain.transfer g (State.unreached : State σ) e with
    | unreached => trivial
    | reached c => exact absurd (htransfer ▸ trivial) hnot
  | reached a =>
    cases u with
    | unreached => cases h
    | reached b =>
      cases coarsens with
      | call hcall => exact dominates.call h hcall
      | @access access access' htarget hreach =>
        have made := dominates.related_access h htarget
        have both : (Domain.join (State.reached a)
            (Domain.access g access.target (State.reached a))).Related ρ
              (Domain.join (State.reached b) (Domain.access g access'.target (State.reached b))) :=
          dominates.join (dominates.join_left h) (dominates.join_right made)
        simp only [Domain.transfer]
        rcases hreach with hreach | hreach | aside
        · rw [hreach]
          cases access.reach with
          | always => exact made
          | uncertain => exact both
          | never => exact h
        · rw [hreach]
          cases access.reach with
          | always => exact dominates.join_right made
          | uncertain => exact both
          | never => exact dominates.join_left h
        · -- each state may be the one before the access or the one after it
          have left := dominates.related_access_left h aside
          have right := dominates.related_access_right h aside
          cases access.reach with
          | always =>
            cases access'.reach with
            | always => exact made
            | uncertain => exact dominates.join_left left
            | never => exact left
          | uncertain =>
            cases access'.reach with
            | always => exact dominates.join right made
            | uncertain => exact both
            | never => exact dominates.join h left
          | never =>
            cases access'.reach with
            | always => exact right
            | uncertain => exact dominates.join_left h
            | never => exact h

/-- So the two analyses are related throughout. -/
lemma simulates [LawfulAbstraction σ] {s t : Summary} (hg : s.geometry = g)
    (coarsens : s.Coarsens U A B K t) (r : Region)
    (start : ρ (Abstraction.start s.coldStart) (Abstraction.start t.coldStart)) :
    Simulates s t r (State.Related ρ) where
  bottom _ := trivial
  start := start
  join := dominates.join
  left := dominates.join_left
  right := dominates.join_right
  predecessors n _ := by rw [Summary.predecessorsOf, Summary.predecessorsOf, coarsens.predecessors]
  events n _ := (coarsens.eventsOf n).imp fun e e' he a b h => by
    rw [coarsens.geometry, hg]
    exact dominates.related_transfer he h

end

end Dominates

/-! ### What must and what may be cached -/

section

open AgedLines

variable {g : Geometry} {S : UInt64 → Prop} {U : Line → Line → Prop} {K : Call → Call → Prop}

/-- A line goes by one of the given names, or it is aside. -/
def Named (U : Line → Line → Prop) (A : Line → Prop) (names : OrderedSet Line) (y : Line) : Prop :=
  (∃ x ∈ names, U x y) ∨ A y

/-- The calls that match leave lines of the sets concerned no younger under the first names. -/
def Call.Counts (g : Geometry) (S : UInt64 → Prop) (U : Line → Line → Prop) (c c' : Call) : Prop :=
  c'.effect.unknown = true ∨ c.effect.unknown = false ∧ ∀ x y, U x y → S (g.setOf y) →
    c.conflicts g (g.setOf y) y ≤ c'.conflicts g (g.setOf x) x

/-- The second call touches the lines of the first that are not aside, under their first names. -/
def Call.Names (U : Line → Line → Prop) (A : Line → Prop) (c c' : Call) : Prop :=
  c'.effect.unknown = true ∨ c.effect.unknown = false ∧ ∀ y ∈ c.lines, Named U A c'.lines y

/-- Where the first names crowd the sets, calls that fit in the counter are counted high enough. -/
lemma Call.Names.counts (crowds : Crowds g S U) {c c' : Call}
    (names : c.Names U (Away g S) c') (fits : c'.lines.size < UInt32.size) :
    c.Counts g S U c' := by
  refine names.imp id fun ⟨hknown, hnames⟩ => ⟨hknown, fun x y hxy hs => ?_⟩
  have hconcerned : ∀ z ∈ c.lines, S (g.setOf z) → ∃ w ∈ c'.lines, U w z := by
    intro z hz hsz
    exact (hnames z hz).resolve_right fun away => away hsz
  calc c.conflicts g (g.setOf y) y ≤ (c.rivals g y).size := Nat.mod_le _ _
    _ ≤ (c'.rivals g x).size := crowds.rivals_size_le hconcerned hxy hs
    _ = c'.conflicts g (g.setOf x) x := (Call.conflicts_eq fits).symm

/-- What must be cached by the second analysis must be so by the first, and is no older there. -/
lemma MustCache.dominates (crowds : Crowds g S U) (counts : ∀ c c', K c c' → c.Counts g S U c') :
    Dominates g U (Away g S) (AwayBy g S U) K fun a b : MustCache =>
      a.lines.Capped g ∧ Below g S U a.lines b.lines where
  merge {a b c} ha hb := by
    refine ⟨ha.1.interWith hb.1, fun x y hxy hs => ?_⟩
    show ageOf (a.lines.interWith max b.lines) y ≤ _
    rw [ageOf_interWith]
    exact max_le (ha.2 x y hxy hs) (hb.2 x y hxy hs)
  left {a b c} h := by
    refine ⟨h.1, fun x y hxy hs => ?_⟩
    show _ ≤ ageOf (b.lines.interWith max c.lines) x
    rw [ageOf_interWith]
    exact (h.2 x y hxy hs).trans (le_max_left _ _)
  right {a b c} h := by
    refine ⟨h.1, fun x y hxy hs => ?_⟩
    show _ ≤ ageOf (b.lines.interWith max c.lines) x
    rw [ageOf_interWith]
    exact (h.2 x y hxy hs).trans (le_max_right _ _)
  touch h hxy := ⟨capped_touch _ _ _, crowds.below_touch false h.2 hxy⟩
  asideLeft h away := ⟨capped_touch _ _ _, h.2.touch_right (.inr h.1) away⟩
  asideRight h away := ⟨h.1, crowds.below_touch_left h.2 away⟩
  idle {a b} h := by
    refine ⟨h.1, fun x y hxy hs => ?_⟩
    show _ ≤ (b.lines.reage g shiftedAge).ageOf x
    rw [ageOf_reage_shifted]
    exact (h.2 x y hxy hs).trans (le_self_add.trans (le_cap g _))
  blur {a b} z h := by
    refine ⟨capped_touch _ _ _, fun x y hxy hs => ?_⟩
    show (a.lines.touch g false z).ageOf y ≤ (b.lines.reage g shiftedAge).ageOf x
    rw [AgedLines.ageOf_touch, ageOf_reage_shifted]
    split
    · exact zero_le
    · apply cap_mono
      split
      · exact (bump_le_succ _ _ _).trans (add_le_add_left (h.2 x y hxy hs) 1)
      · exact (h.2 x y hxy hs).trans le_self_add
  unknown {a b} h := by
    refine ⟨capped_reage _ _, fun x y hxy hs => ?_⟩
    show (a.lines.reage g shiftedAge).ageOf y ≤ (b.lines.reage g shiftedAge).ageOf x
    rw [ageOf_reage_shifted, ageOf_reage_shifted]
    exact cap_mono g (add_le_add_left (h.2 x y hxy hs) 1)
  call {a b c c'} h hcall := by
    show Capped g (if c.effect.unknown then {} else
        ⟨a.lines.reage g (calledAge g c)⟩ : MustCache).lines ∧ Below g S U
      (if c.effect.unknown then {} else ⟨a.lines.reage g (calledAge g c)⟩ : MustCache).lines
      (if c'.effect.unknown then {} else ⟨b.lines.reage g (calledAge g c')⟩ : MustCache).lines
    constructor
    · split
      · exact capped_empty g
      · exact capped_reage _ _
    · intro x y hxy hs
      rcases counts c c' hcall with hunknown | ⟨hknown, hcounts⟩
      · rw [hunknown, if_pos rfl]
        exact le_top
      · rw [hknown, if_neg Bool.false_ne_true]
        split
        · exact le_top
        · rw [ageOf_reage_called, ageOf_reage_called]
          exact cap_mono g (add_le_add (h.2 x y hxy hs) (Nat.cast_le.2 (hcounts x y hxy hs)))

/-- What may be cached by the first analysis may be so by the second, and is no younger in the first;
or the second says nothing. -/
lemma MayCache.dominates (crowds : Crowds g S (flip U))
    (names : ∀ c c', K c c' → c.Names U (AwayBy g S (flip U)) c') :
    Dominates g U (AwayBy g S (flip U)) (Away g S) K fun a b : MayCache => b.saturated = true ∨
      a.saturated = false ∧ a.lines.Capped g ∧ Below g S (flip U) b.lines a.lines where
  merge {a b c} ha hb := by
    rcases ha with hsat | ⟨hsat, hcapped, ha⟩
    · exact .inl hsat
    · rcases hb with hsat' | ⟨hsat', hcapped', hb⟩
      · exact .inl hsat'
      · refine .inr ⟨Bool.or_eq_false_iff.2 ⟨hsat, hsat'⟩, hcapped.unionWith hcapped',
          fun y x hxy hs => ?_⟩
        show _ ≤ ageOf (a.lines.unionWith min b.lines) y
        rw [ageOf_unionWith]
        exact le_min (ha y x hxy hs) (hb y x hxy hs)
  left {a b c} h := by
    rcases h with hsat | ⟨hsat, hcapped, h⟩
    · exact .inl (Bool.or_eq_true_iff.2 (.inl hsat))
    · refine .inr ⟨hsat, hcapped, fun y x hxy hs => ?_⟩
      show ageOf (b.lines.unionWith min c.lines) x ≤ _
      rw [ageOf_unionWith]
      exact (min_le_left _ _).trans (h y x hxy hs)
  right {a b c} h := by
    rcases h with hsat | ⟨hsat, hcapped, h⟩
    · exact .inl (Bool.or_eq_true_iff.2 (.inr hsat))
    · refine .inr ⟨hsat, hcapped, fun y x hxy hs => ?_⟩
      show ageOf (b.lines.unionWith min c.lines) x ≤ _
      rw [ageOf_unionWith]
      exact (min_le_right _ _).trans (h y x hxy hs)
  touch h hxy := h.imp id fun ⟨hsat, _, h⟩ =>
    ⟨hsat, capped_touch _ _ _, crowds.below_touch true h hxy⟩
  asideLeft h away := h.imp id fun ⟨hsat, _, h⟩ =>
    ⟨hsat, capped_touch _ _ _, crowds.below_touch_left h away⟩
  asideRight h away := h.imp id fun ⟨hsat, hcapped, h⟩ =>
    ⟨hsat, hcapped, h.touch_right (.inl hcapped) away⟩
  idle _ := .inl rfl
  blur _ _ := .inl rfl
  unknown _ := .inl rfl
  call {a b c c'} h hcall := by
    rcases h with hsat | ⟨hsat, hcapped, h⟩
    · exact .inl (Bool.or_eq_true_iff.2 (.inl hsat))
    · rcases names c c' hcall with hunknown | ⟨hknown, hnames⟩
      · exact .inl (Bool.or_eq_true_iff.2 (.inr hunknown))
      · refine .inr ⟨Bool.or_eq_false_iff.2 ⟨hsat, hknown⟩, hcapped.unionWith_ofSet _,
          fun y x hxy hs => ?_⟩
        show ageOf (b.lines.unionWith _ (.ofSet c'.lines 0)) x ≤
          ageOf (a.lines.unionWith _ (.ofSet c.lines 0)) y
        rw [ageOf_unionWith_ofSet, ageOf_unionWith_ofSet]
        -- a line that the first call leaves young is named by the second, or lies elsewhere
        by_cases hy : y ∈ c.lines
        · have hx : x ∈ c'.lines := by
            rcases hnames y hy with ⟨x', hx', hxy'⟩ | ⟨x', hxy', hnot⟩
            · exact crowds.line hxy hs hxy' ▸ hx'
            · exact absurd (crowds.line hxy hs hxy' ▸ hs) hnot
          rw [if_pos hx]
          exact zero_le
        · rw [if_neg hy]
          split
          · exact zero_le
          · exact h y x hxy hs

end

/-! ### Verdicts -/

/-- A state that holds a line at a finite age contains it. -/
lemma AgedLines.contains_iff {a : AgedLines} {line : Line} :
    a.contains line = true ↔ a.ageOf line ≠ ⊤ := by
  show (a.get? line).isSome = true ↔ _
  cases h : a.get? line with
  | none => simp [ageOf_eq_top h]
  | some age => simp [ageOf_of_get? h]

namespace Summary.Coarsens

variable {U : Line → Line → Prop} {A B : Line → Prop} {K : Call → Call → Prop} {s t : Summary}
  {must must' : Solution (State MustCache)} {may may' : Solution (State MayCache)} {n i : Nat}

/-- Accesses match, and where the second names lines, the first does. -/
lemma exists_access (coarsens : s.Coarsens U A B K t) {a' : Access} {rough : List Line}
    (h : (t.eventsOf n)[i]? = some (.access a')) (htarget : a'.target = .lines rough) :
    ∃ a fine, (s.eventsOf n)[i]? = some (.access a) ∧ a.target = .lines fine ∧
      (fine = [] → rough = []) ∧ ∀ y ∈ fine, ∃ x ∈ rough, U x y := by
  obtain ⟨e, he, hcoarsens⟩ := exists_getElem?_of_forall₂ (coarsens.eventsOf n).flip h
  cases hcoarsens with
  | @access a _ hcoarsens _ =>
    rw [htarget] at hcoarsens
    cases htarget' : a.target with
    | unknown =>
      rw [htarget'] at hcoarsens
      cases hcoarsens
    | lines fine =>
      rw [htarget'] at hcoarsens
      cases hcoarsens with
      | lines hempty hnamed => exact ⟨a, fine, he, htarget', hempty, hnamed⟩

/-- Nodes with events lie in the procedure. -/
lemma mem_nodes {e : Event} (h : (s.eventsOf n)[i]? = some e) : n ∈ (Region.whole s).nodes := by
  by_contra hn
  rw [Summary.eventsOf_eq_nil hn] at h
  cases h

/-- What the coarser summary reaches, the finer one reaches. -/
lemma reaches (coarsens : s.Coarsens U A B K t) {r : Region} (h : t.Reaches r n) : s.Reaches r n := by
  induction h with
  | entry hentry hn => exact .entry hentry hn
  | edge _ hpred hn ih =>
    rw [Summary.predecessorsOf, coarsens.predecessors] at hpred
    exact .edge ih hpred hn

section

variable {σ : Type} [Abstraction σ] [LawfulAbstraction σ] [DecidableEq σ] {ρ : σ → σ → Prop}
  {fuel fuel' : Nat} {solution solution' : Solution (State σ)}

/-- Where the coarser analysis finds a state, the finer one finds one too, and the two are related. -/
lemma exists_stateAt (coarsens : s.Coarsens U A B K t) (linked : s.Linked (.whole s))
    (dominates : Dominates s.geometry U A B K ρ)
    (start : ρ (Abstraction.start s.coldStart) (Abstraction.start t.coldStart))
    (solved : Solution.solve? fuel s (.whole s) = some solution)
    (solved' : Solution.solve? fuel' t (.whole t) = some solution') (hn : n ∈ (Region.whole s).nodes)
    {b : σ} (h : solution'.stateAt t n i = .reached b) :
    ∃ a, solution.stateAt s n i = .reached a ∧ ρ a b := by
  rw [coarsens.whole] at solved'
  have linked' := coarsens.linked linked
  have hreaches : t.Reaches (.whole s) n :=
    (Solution.isReached_stateAt_iff linked' solved').1 (State.isReached_iff.2 ⟨b, h⟩)
  have hreached : (solution.stateAt s n i).IsReached :=
    (Solution.isReached_stateAt_iff linked solved).2 (coarsens.reaches hreaches)
  obtain ⟨a, ha⟩ := State.isReached_iff.1 hreached
  have hrelated := (dominates.simulates rfl coarsens (.whole s) start).stateAt solved
    (Solution.settled_of_solve? linked' solved') hn i
  rw [ha, h] at hrelated
  exact ⟨a, ha, hrelated⟩

end

/-- Where the first names crowd the sets that the access goes to, what the coarser analysis finds to hit
hits by the finer one. -/
theorem alwaysHit {S : UInt64 → Prop}
    (coarsens : s.Coarsens U (Away s.geometry S) (AwayBy s.geometry S U) K t)
    (linked : s.Linked (.whole s)) (crowds : Crowds s.geometry S U)
    (counts : ∀ c c', K c c' → c.Counts s.geometry S U c')
    (concerned : ∀ a, (s.eventsOf n)[i]? = some (.access a) →
      ∀ y ∈ a.target.toList, S (s.geometry.setOf y))
    (ends : s.Ends must may) (ends' : t.Ends must' may')
    (h : t.classAt? must' may' n i = some .alwaysHit) :
    s.classAt? must may n i = some .alwaysHit := by
  obtain ⟨a', hevent', hclass⟩ := Summary.exists_access_of_classAt? h
  obtain ⟨rough, htarget', hits⟩ := Access.classify_eq_alwaysHit.1 hclass
  obtain ⟨a, fine, hevent, htarget, hempty, hnamed⟩ := coarsens.exists_access hevent' htarget'
  obtain ⟨fuel, solved⟩ := ends.must
  obtain ⟨fuel', solved'⟩ := ends'.must
  cases hstate' : must'.stateAt t n i with
  | unreached =>
    rw [hstate'] at hits
    cases hits
  | reached b =>
    obtain ⟨c, hstate, -, hbelow⟩ := coarsens.exists_stateAt linked
      (MustCache.dominates crowds counts) ⟨AgedLines.capped_empty _, fun _ _ _ _ => le_top⟩ solved
      solved' (mem_nodes hevent) hstate'
    rw [hstate'] at hits
    obtain ⟨hne, hall⟩ := Bool.and_eq_true_iff.1 hits
    have hne : rough ≠ [] := by simpa using hne
    have hits : MustCache.hits (.reached c) fine = true := by
      refine Bool.and_eq_true_iff.2 ⟨?_, List.all_eq_true.2 fun y hy => ?_⟩
      · simpa using fun hfine => hne (hempty hfine)
      · obtain ⟨x, hx, hxy⟩ := hnamed y hy
        have hheld := AgedLines.contains_iff.1 (List.all_eq_true.1 hall x hx)
        have hs := concerned a hevent y (htarget ▸ hy)
        exact AgedLines.contains_iff.2 fun htop =>
          hheld (top_le_iff.1 (htop ▸ hbelow x y hxy hs))
    rw [Summary.classAt?_eq hevent, hstate]
    exact congrArg some (Access.classify_eq_alwaysHit.2 ⟨fine, htarget, hits⟩)

/-- Where the second names crowd the sets that the coarser access goes to, what the coarser analysis
finds to miss misses by the finer one. -/
theorem alwaysMiss {S : UInt64 → Prop}
    (coarsens : s.Coarsens U (AwayBy s.geometry S (flip U)) (Away s.geometry S) K t)
    (linked : s.Linked (.whole s)) (crowds : Crowds s.geometry S (flip U))
    (names : ∀ c c', K c c' → c.Names U (AwayBy s.geometry S (flip U)) c')
    (concerned : ∀ a, (t.eventsOf n)[i]? = some (.access a) →
      ∀ x ∈ a.target.toList, S (s.geometry.setOf x))
    (ends : s.Ends must may) (ends' : t.Ends must' may')
    (h : t.classAt? must' may' n i = some .alwaysMiss) :
    s.classAt? must may n i = some .alwaysMiss := by
  obtain ⟨a', hevent', hclass⟩ := Summary.exists_access_of_classAt? h
  obtain ⟨rough, htarget', _, misses⟩ := Access.classify_eq_alwaysMiss.1 hclass
  obtain ⟨a, fine, hevent, htarget, hempty, hnamed⟩ := coarsens.exists_access hevent' htarget'
  obtain ⟨fuel, solved⟩ := ends.may
  obtain ⟨fuel', solved'⟩ := ends'.may
  have hstart : (Abstraction.start t.coldStart : MayCache).saturated = true ∨
      (Abstraction.start s.coldStart : MayCache).saturated = false ∧
        AgedLines.Capped s.geometry (Abstraction.start s.coldStart : MayCache).lines ∧
        AgedLines.Below s.geometry S (flip U) (Abstraction.start t.coldStart : MayCache).lines
          (Abstraction.start s.coldStart : MayCache).lines := by
    cases hcold : t.coldStart with
    | false => exact .inl rfl
    | true =>
      rw [coarsens.coldStart hcold]
      exact .inr ⟨rfl, AgedLines.capped_empty _, fun _ _ _ _ => le_top⟩
  cases hstate' : may'.stateAt t n i with
  | unreached =>
    rw [hstate'] at misses
    cases misses
  | reached b =>
    obtain ⟨c, hstate, hrelated⟩ := coarsens.exists_stateAt linked
      (MayCache.dominates crowds names) hstart solved solved' (mem_nodes hevent) hstate'
    rw [hstate'] at misses
    simp only [MayCache.misses, Bool.and_eq_true, Bool.not_eq_true'] at misses
    obtain ⟨⟨hsat, hne⟩, hall⟩ := misses
    have hne : rough ≠ [] := by simpa using hne
    obtain ⟨hsat', -, hbelow⟩ := hrelated.resolve_left (by simp [hsat])
    have misses : MayCache.misses (.reached c) fine = true := by
      simp only [MayCache.misses, Bool.and_eq_true, Bool.not_eq_true']
      refine ⟨⟨hsat', by simpa using fun hfine => hne (hempty hfine)⟩, ?_⟩
      refine List.all_eq_true.2 fun y hy => ?_
      obtain ⟨x, hx, hxy⟩ := hnamed y hy
      have habsent : b.lines.ageOf x = ⊤ := by
        by_contra hheld
        have hnot : (!b.lines.contains x) = true := List.all_eq_true.1 hall x hx
        rw [AgedLines.contains_iff.2 hheld] at hnot
        cases hnot
      have hs := concerned a' hevent' x (htarget' ▸ hx)
      have htop : c.lines.ageOf y = ⊤ := top_le_iff.1 (habsent ▸ hbelow y x hxy hs)
      rw [Bool.not_eq_true']
      exact Bool.eq_false_iff.2 fun hcontains => AgedLines.contains_iff.1 hcontains htop
    have misses : MayCache.misses (may.stateAt s n i) fine = true := hstate ▸ misses
    rw [Summary.classAt?_eq hevent]
    exact congrArg some (Access.classify_eq_alwaysMiss.2
      ⟨fine, htarget, ends.not_hits_of_misses linked misses, misses⟩)

end Summary.Coarsens

end CacheVerdict
