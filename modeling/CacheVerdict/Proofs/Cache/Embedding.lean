import CacheVerdict.Proofs.Cache.Bounded
import CacheVerdict.Proofs.Flow.Ascent

/-!
# States in another form

One and the same analysis can keep its states in different forms. A map from the one form to the
other that takes every operation along, and that tells valid states apart, takes the whole analysis
along (`Domain.Embeds.solve?_image`): the queue only ever asks whether two states are equal, so both
forms visit the same nodes in the same order. For descriptions of caches it is enough to look at
the single operations (`Abstraction.Embeds.toDomain`).
-/

namespace CacheVerdict

/-- Takes the description of a state that is reached to another one. -/
def State.image {σ τ : Type} (f : σ → τ) : State σ → State τ
  | .unreached => .unreached
  | .reached a => .reached (f a)

namespace Domain

variable {S T : Type} [Domain S] [Domain T] {g : Geometry} {Valid : S → Prop} {f : S → T}

/-- The states that come about, from those that an analysis starts with, by accesses, calls and
joins in any order. -/
inductive Obtained (g : Geometry) : S → Prop where
  | bottom : Obtained g Domain.bottom
  | start (coldStart : Bool) : Obtained g (Domain.start coldStart)
  | join {a b : S} : Obtained g a → Obtained g b → Obtained g (Domain.join a b)
  | access (target : Target) {a : S} : Obtained g a → Obtained g (Domain.access g target a)
  | touchUnknown {a : S} : Obtained g a → Obtained g (Domain.touchUnknown g a)
  | call (c : Call) {a : S} : Obtained g a → Obtained g (Domain.call g c a)
  | transfer (e : Event) {a : S} : Obtained g a → Obtained g (Domain.transfer g a e)

/-- A map that takes the operations on valid states, which keep them valid, to those on other
states, and that tells valid states apart. -/
structure Embeds (g : Geometry) (Valid : S → Prop) (f : S → T) : Prop where
  bottom : Valid Domain.bottom ∧ f Domain.bottom = Domain.bottom
  start : ∀ coldStart, Valid (Domain.start coldStart) ∧
    f (Domain.start coldStart) = Domain.start coldStart
  join : ∀ {a b : S}, Valid a → Valid b →
    Valid (Domain.join a b) ∧ f (Domain.join a b) = Domain.join (f a) (f b)
  access : ∀ (target : Target) {a : S}, Valid a →
    Valid (Domain.access g target a) ∧ f (Domain.access g target a) = Domain.access g target (f a)
  touchUnknown : ∀ {a : S}, Valid a →
    Valid (Domain.touchUnknown g a) ∧ f (Domain.touchUnknown g a) = Domain.touchUnknown g (f a)
  call : ∀ (c : Call) {a : S}, Valid a →
    Valid (Domain.call g c a) ∧ f (Domain.call g c a) = Domain.call g c (f a)
  injective : ∀ {a b : S}, Valid a → Valid b → f a = f b → a = b

namespace Embeds

/-- An event keeps valid states valid, and embedding commutes with it. -/
lemma transfer (embeds : Embeds g Valid f) (e : Event) {a : S} (ha : Valid a) :
    Valid (Domain.transfer g a e) ∧ f (Domain.transfer g a e) = Domain.transfer g (f a) e := by
  cases e with
  | call c => exact embeds.call c ha
  | access access =>
    obtain ⟨haccess, heq⟩ := embeds.access access.target ha
    unfold Domain.transfer
    simp only
    split
    · exact ⟨haccess, heq⟩
    · rw [← heq]
      exact embeds.join ha haccess
    · exact ⟨ha, rfl⟩

/-- States that come about are valid, and so do their images in the other form. -/
theorem of_obtained (embeds : Embeds g Valid f) {a : S} (h : Obtained g a) :
    Valid a ∧ Obtained g (f a) := by
  induction h with
  | bottom =>
    obtain ⟨hvalid, heq⟩ := embeds.bottom
    exact ⟨hvalid, heq ▸ .bottom⟩
  | start coldStart =>
    obtain ⟨hvalid, heq⟩ := embeds.start coldStart
    exact ⟨hvalid, heq ▸ .start coldStart⟩
  | join _ _ iha ihb =>
    obtain ⟨hvalid, heq⟩ := embeds.join iha.1 ihb.1
    exact ⟨hvalid, heq ▸ .join iha.2 ihb.2⟩
  | access target _ ih =>
    obtain ⟨hvalid, heq⟩ := embeds.access target ih.1
    exact ⟨hvalid, heq ▸ .access target ih.2⟩
  | touchUnknown _ ih =>
    obtain ⟨hvalid, heq⟩ := embeds.touchUnknown ih.1
    exact ⟨hvalid, heq ▸ .touchUnknown ih.2⟩
  | call c _ ih =>
    obtain ⟨hvalid, heq⟩ := embeds.call c ih.1
    exact ⟨hvalid, heq ▸ .call c ih.2⟩
  | transfer e _ ih =>
    obtain ⟨hvalid, heq⟩ := embeds.transfer e ih.1
    exact ⟨hvalid, heq ▸ .transfer e ih.2⟩

/-- So do several events in order. -/
lemma transferAll (embeds : Embeds g Valid f) (events : List Event) {a : S} (ha : Valid a) :
    Valid (Domain.transferAll g a events) ∧
      f (Domain.transferAll g a events) = Domain.transferAll g (f a) events := by
  induction events generalizing a with
  | nil => exact ⟨ha, rfl⟩
  | cons e events ih =>
    obtain ⟨hvalid, heq⟩ := embeds.transfer e ha
    obtain ⟨hvalid', heq'⟩ := ih hvalid
    exact ⟨hvalid', heq'.trans (heq ▸ rfl)⟩

/-- Joining states one after the other. -/
lemma foldl_join (embeds : Embeds g Valid f) {states : List S} (hstates : ∀ a ∈ states, Valid a)
    {joined : S} (hjoined : Valid joined) :
    Valid (states.foldl Domain.join joined) ∧
      f (states.foldl Domain.join joined) = (states.map f).foldl Domain.join (f joined) := by
  induction states generalizing joined with
  | nil => exact ⟨hjoined, rfl⟩
  | cons a states ih =>
    obtain ⟨ha, hrest⟩ := List.forall_mem_cons.1 hstates
    obtain ⟨hvalid, heq⟩ := embeds.join hjoined ha
    rw [List.map_cons, List.foldl_cons, List.foldl_cons, ← heq]
    exact ih hrest hvalid

end Embeds

end Domain

/-! ### The analysis -/

/-- Mapping the values of a map commutes with an insertion. -/
lemma OrderedMap.mapValues_insert {S T : Type} (states : OrderedMap Nat S) (f : S → T) (n : Nat)
    (a : S) : (states.insert n a).mapValues f = (states.mapValues f).insert n (f a) := by
  refine OrderedMap.ext_get? fun k => ?_
  rw [OrderedMap.get?_mapValues, OrderedMap.get?_insert, OrderedMap.get?_insert,
    OrderedMap.get?_mapValues]
  split <;> rfl

/-- The states of a solution in another form. -/
def Solution.image {S T : Type} (f : S → T) (solution : Solution S) : Solution T where
  ins := solution.ins.mapValues f
  outs := solution.outs.mapValues f
  visits := solution.visits

/-- The states of an iteration in another form, with the same nodes waiting. -/
def Iteration.image {S T : Type} (f : S → T) (it : Iteration S) : Iteration T where
  toSolution := it.toSolution.image f
  queue := it.queue

namespace Domain.Embeds

variable {S T : Type} [Domain S] [Domain T] {s : Summary} {r : Region} {Valid : S → Prop}
  {f : S → T}

/-- The meet of valid states is taken along. -/
lemma meet {g : Geometry} (embeds : Embeds g Valid f) {outs : OrderedMap Nat S}
    (houts : ∀ p state, outs.get? p = some state → Valid state) (n : Nat) :
    Valid (Iteration.meet s r outs n) ∧
      f (Iteration.meet s r outs n) = Iteration.meet s r (outs.mapValues f) n := by
  have hinitial : Valid (if n ∈ r.entries then
        Domain.join Domain.bottom (Domain.start s.coldStart) else Domain.bottom) ∧
      f (if n ∈ r.entries then
        Domain.join Domain.bottom (Domain.start s.coldStart) else Domain.bottom) =
      if n ∈ r.entries then
        Domain.join Domain.bottom (Domain.start s.coldStart) else Domain.bottom := by
    obtain ⟨hbottom, hbottom'⟩ := embeds.bottom
    obtain ⟨hstart, hstart'⟩ := embeds.start s.coldStart
    split
    · rw [← hbottom', ← hstart']
      exact embeds.join hbottom hstart
    · exact ⟨hbottom, hbottom'⟩
  unfold Iteration.meet
  simp only
  rw [← hinitial.2]
  have hjoined := hinitial.1
  revert hjoined
  generalize (if n ∈ r.entries then
    Domain.join Domain.bottom (Domain.start s.coldStart) else (Domain.bottom : S)) = joined
  intro hjoined
  induction s.predecessorsOf n generalizing joined with
  | nil => exact ⟨hjoined, rfl⟩
  | cons p ps ih =>
    rw [List.foldl_cons, List.foldl_cons, OrderedMap.get?_mapValues]
    cases hp : outs.get? p with
    | none => exact ih joined hjoined
    | some state =>
      obtain ⟨hvalid, heq⟩ := embeds.join hjoined (houts p state hp)
      simp only [Option.map_some, Option.elim_some, ← heq]
      exact ih _ hvalid

variable [DecidableEq S] [DecidableEq T]

/-- Both forms make the same visit, because they agree on whether the state behind the node
changes. -/
lemma visit (embeds : Embeds s.geometry Valid f) {it : Iteration S}
    (houts : ∀ p state, it.outs.get? p = some state → Valid state) (n : Nat) (rest : List Nat) :
    (∀ p state, (Iteration.visit s r { it with queue := rest } n).outs.get? p = some state →
        Valid state) ∧
      Iteration.visit s r { it.image f with queue := rest } n =
        (Iteration.visit s r { it with queue := rest } n).image f := by
  obtain ⟨hmeet, hmeet'⟩ := embeds.meet (s := s) (r := r) houts n
  obtain ⟨hout, hout'⟩ := embeds.transferAll (s.eventsOf n) hmeet
  rw [hmeet'] at hout'
  have hget : (it.image f).outs.get? n = (it.outs.get? n).map f := OrderedMap.get?_mapValues ..
  by_cases h : it.outs.get? n =
      some (Domain.transferAll s.geometry (Iteration.meet s r it.outs n) (s.eventsOf n))
  · have h' : (it.image f).outs.get? n =
        some (Domain.transferAll s.geometry (Iteration.meet s r (it.image f).outs n)
          (s.eventsOf n)) := by
      rw [hget, h]
      exact congrArg some hout'
    rw [Iteration.visit_of_eq h, Iteration.visit_of_eq h']
    refine ⟨houts, ?_⟩
    show Iteration.mk ⟨(it.ins.mapValues f).insert n _, _, _⟩ _ =
      ⟨⟨(it.ins.insert n _).mapValues f, _, _⟩, _⟩
    rw [OrderedMap.mapValues_insert, hmeet']
    rfl
  · have h' : (it.image f).outs.get? n ≠
        some (Domain.transferAll s.geometry (Iteration.meet s r (it.image f).outs n)
          (s.eventsOf n)) := by
      intro heq
      rw [hget] at heq
      obtain ⟨state, hstate, heq⟩ := Option.map_eq_some_iff.1 heq
      apply h
      rw [hstate, embeds.injective (houts n state hstate) hout (heq.trans hout'.symm)]
    rw [Iteration.visit_of_ne h, Iteration.visit_of_ne h']
    refine ⟨OrderedMap.forall_insert houts hout, ?_⟩
    show Iteration.mk ⟨(it.ins.mapValues f).insert n _, (it.outs.mapValues f).insert n _, _⟩ _ =
      ⟨⟨(it.ins.insert n _).mapValues f, (it.outs.insert n _).mapValues f, _⟩, _⟩
    rw [OrderedMap.mapValues_insert, OrderedMap.mapValues_insert, hmeet', hout']
    rfl

/-- Embedding commutes with a whole run. -/
lemma run (embeds : Embeds s.geometry Valid f) (fuel : Nat) {it : Iteration S}
    (houts : ∀ p state, it.outs.get? p = some state → Valid state) :
    Iteration.run s r fuel (it.image f) = (Iteration.run s r fuel it).map (Solution.image f) := by
  induction fuel generalizing it with
  | zero =>
    unfold Iteration.run
    cases hq : it.queue <;> simp [Iteration.image, hq]
  | succ fuel ih =>
    unfold Iteration.run
    have himage : (it.image f).queue = it.queue := rfl
    rw [himage]
    cases hq : it.queue with
    | nil => rfl
    | cons n rest =>
      obtain ⟨hvalid, heq⟩ := embeds.visit (r := r) houts n rest
      simp only
      rw [heq]
      exact ih hvalid

/-- The analysis in the other form ends when the one ends, after as many visits, with its states in
that form. -/
theorem solve?_image (embeds : Embeds s.geometry Valid f) (fuel : Nat) :
    (Solution.solve? fuel s r : Option (Solution T)) =
      (Solution.solve? fuel s r).map (Solution.image f) := by
  have hstart : (Iteration.start r : Iteration T) = (Iteration.start r : Iteration S).image f := by
    have hstates : OrderedMap.ofList (r.nodes.toList.map fun n => (n, (Domain.bottom : T))) =
        (OrderedMap.ofList (r.nodes.toList.map fun n => (n, (Domain.bottom : S)))).mapValues f := by
      refine OrderedMap.ext_get? fun n => ?_
      rw [OrderedMap.get?_mapValues, Iteration.get?_ofList_map, Iteration.get?_ofList_map]
      split
      · exact congrArg some embeds.bottom.2.symm
      · rfl
    unfold Iteration.start Iteration.image Solution.image
    simp only [hstates]
  unfold Solution.solve?
  rw [hstart]
  apply embeds.run
  intro p state hstate
  rw [Iteration.get?_outs_start] at hstate
  split at hstate
  · cases hstate
    exact embeds.bottom.1
  · cases hstate

end Domain.Embeds

/-! ### Descriptions -/

section

variable {σ τ : Type} [Abstraction σ] [Abstraction τ] {g : Geometry} {Valid : σ → Prop} {f : σ → τ}

/-- A map that takes the operations on valid descriptions, which keep them valid, to those on other
descriptions, and that tells valid descriptions apart. -/
structure Abstraction.Embeds (g : Geometry) (Valid : σ → Prop) (f : σ → τ) : Prop where
  start : ∀ coldStart, Valid (Abstraction.start coldStart) ∧
    f (Abstraction.start coldStart) = Abstraction.start coldStart
  merge : ∀ {a b : σ}, Valid a → Valid b →
    Valid (Abstraction.merge a b) ∧ f (Abstraction.merge a b) = Abstraction.merge (f a) (f b)
  touch : ∀ (line : Line) {a : σ}, Valid a →
    Valid (Abstraction.touch g line a) ∧
      f (Abstraction.touch g line a) = Abstraction.touch g line (f a)
  touchUnknown : ∀ {a : σ}, Valid a →
    Valid (Abstraction.touchUnknown g a) ∧
      f (Abstraction.touchUnknown g a) = Abstraction.touchUnknown g (f a)
  call : ∀ (c : Call) {a : σ}, Valid a →
    Valid (Abstraction.call g c a) ∧ f (Abstraction.call g c a) = Abstraction.call g c (f a)
  injective : ∀ {a b : σ}, Valid a → Valid b → f a = f b → a = b

namespace Abstraction.Embeds

/-- Merging the cases of several lines keeps valid states valid, and embedding commutes with it. -/
lemma foldl (embeds : Embeds g Valid f) {u : Line → σ} (hu : ∀ line, Valid (u line))
    (lines : List Line) {a : σ} (ha : Valid a) :
    Valid (lines.foldl (fun s other => Abstraction.merge s (u other)) a) ∧
      f (lines.foldl (fun s other => Abstraction.merge s (u other)) a) =
        lines.foldl (fun s other => Abstraction.merge s (f (u other))) (f a) := by
  induction lines generalizing a with
  | nil => exact ⟨ha, rfl⟩
  | cons line lines ih =>
    obtain ⟨hvalid, heq⟩ := embeds.merge ha (hu line)
    rw [List.foldl_cons, List.foldl_cons, ← heq]
    exact ih hvalid

/-- So does the meet of two states. -/
lemma join (embeds : Embeds g Valid f) {t u : State σ} (ht : t.Satisfies Valid)
    (hu : u.Satisfies Valid) :
    (Domain.join t u).Satisfies Valid ∧
      (Domain.join t u).image f = Domain.join (t.image f) (u.image f) := by
  cases u with
  | unreached => cases t <;> exact ⟨ht, rfl⟩
  | reached b =>
    cases t with
    | unreached => exact ⟨hu, rfl⟩
    | reached a =>
      obtain ⟨hvalid, heq⟩ := embeds.merge ht hu
      exact ⟨hvalid, congrArg State.reached heq⟩

variable [LawfulAbstraction σ] [LawfulAbstraction τ]

/-- So does an access. -/
lemma access (embeds : Embeds g Valid f) (target : Target) {t : State σ} (ht : t.Satisfies Valid) :
    (Domain.access g target t).Satisfies Valid ∧
      (Domain.access g target t).image f = Domain.access g target (t.image f) := by
  cases t with
  | unreached =>
    rw [State.access_unreached]
    exact ⟨trivial, (State.access_unreached g target).symm⟩
  | reached a =>
    match target with
    | .unknown =>
      obtain ⟨hvalid, heq⟩ := embeds.touchUnknown ht
      exact ⟨hvalid, congrArg State.reached heq⟩
    | .lines [] => exact ⟨ht, rfl⟩
    | .lines (line :: lines) =>
      obtain ⟨first, rest, hl⟩ := List.exists_cons_of_ne_nil
        (OrderedSet.toList_ofList_ne_nil (List.mem_cons_self (a := line) (l := lines)))
      obtain ⟨hfirst, hfirst'⟩ := embeds.touch first ht
      obtain ⟨hvalid, heq⟩ := embeds.foldl (fun other => (embeds.touch other ht).1) rest hfirst
      simp only [(embeds.touch _ ht).2] at heq
      rw [State.access_reached hl]
      refine ⟨hvalid, ?_⟩
      show State.reached (f _) = Domain.access g _ (State.reached (f a))
      rw [State.access_reached hl, heq]

/-- A map between descriptions takes the analysis of states along. -/
theorem toDomain (embeds : Embeds g Valid f) :
    Domain.Embeds g (State.Satisfies Valid) (State.image f) where
  bottom := ⟨trivial, rfl⟩
  start coldStart := by
    obtain ⟨hvalid, heq⟩ := embeds.start coldStart
    exact ⟨hvalid, congrArg State.reached heq⟩
  join := embeds.join
  access := embeds.access
  touchUnknown {t} ht := by
    cases t with
    | unreached => exact ⟨trivial, rfl⟩
    | reached a =>
      obtain ⟨hvalid, heq⟩ := embeds.touchUnknown ht
      exact ⟨hvalid, congrArg State.reached heq⟩
  call c t ht := by
    cases t with
    | unreached => exact ⟨trivial, rfl⟩
    | reached a =>
      obtain ⟨hvalid, heq⟩ := embeds.call c ht
      exact ⟨hvalid, congrArg State.reached heq⟩
  injective {t u} ht hu heq := by
    cases t with
    | unreached =>
      cases u with
      | unreached => rfl
      | reached b => cases heq
    | reached a =>
      cases u with
      | unreached => cases heq
      | reached b => rw [embeds.injective ht hu (State.reached.inj heq)]

end Abstraction.Embeds

end

end CacheVerdict
