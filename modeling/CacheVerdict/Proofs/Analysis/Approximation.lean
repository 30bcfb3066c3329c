import CacheVerdict.Proofs.Analysis.Offered
import CacheVerdict.Proofs.Cache.Coarser

/-!
# Actions and effects that approximate others

Two descriptions of one program may take some of its accesses to go to different lines. Here the
accesses, the effects of calls and the events of levels are compared under two names for each line,
those of the second description first. Whatever an event touches by the first description, it touches
by the second (`Event.Approximates.touchedBy`), and so does a procedure as a whole
(`Summary.coarsens_footprint`).
-/

namespace CacheVerdict

/-! ### Accesses -/

namespace Request

/-- The second request is one from the same site, and goes to the same references, or to another one
instead of a single one. -/
structure Approximates (r r' : Request) : Prop where
  site : r'.site = r.site
  references : r'.references = r.references ∨
    r.site.kind = .data ∧ ∃ fine rough : Reference, r.references = [fine] ∧
      r'.references = [rough] ∧ (fine.isUnknown = true → rough.isUnknown = true)

/-- The lines of a cache that two requests go to, paired. -/
def names (shift : Nat) (g : Geometry) (r r' : Request) : List (Line × Line) :=
  (r'.targetAt shift g).toList.zip (r.targetAt shift g).toList

/-- Requests from one site to the same references go to the same lines. -/
lemma targetAt_congr {r r' : Request} (hsite : r'.site = r.site) (hsame : r'.references = r.references)
    (shift : Nat) (g : Geometry) : r'.targetAt shift g = r.targetAt shift g := by
  rw [targetAt, targetAt, hsame, hsite]

/-- Where an access to data with one reference goes. -/
lemma targetAt_of_one {r : Request} {reference : Reference} (hkind : r.site.kind = .data)
    (hr : r.references = [reference]) {shift : Nat} {g : Geometry} : r.targetAt shift g =
      if reference.isUnknown then .unknown else .lines [reference.lineAt shift g] := by
  rw [targetAt, hr]
  cases hunknown : reference.isUnknown with
  | true => simp [hkind, hunknown]
  | false =>
    simp only [List.any_cons, hunknown, List.any_nil, Bool.or_self, Bool.false_eq_true,
      and_false, if_false]
    rfl

/-- Under the paired names, the second request names less. -/
lemma Approximates.target {r r' : Request} (approximates : r.Approximates r') {shift : Nat}
    {g : Geometry} {U : Line → Line → Prop} (h : ∀ x y, (x, y) ∈ names shift g r r' → U x y) :
    (r.targetAt shift g).Coarsens U (r'.targetAt shift g) := by
  unfold names at h
  rcases approximates.references with hsame | ⟨hkind, fine, rough, hfine, hrough, hunknown⟩
  · rw [targetAt_congr approximates.site hsame] at h ⊢
    cases hr : r.targetAt shift g with
    | unknown => exact .unknown
    | lines candidates =>
      rw [hr] at h
      refine .lines id fun y hy => ⟨y, hy, h y y ?_⟩
      obtain ⟨i, hi⟩ := List.mem_iff_getElem?.1 hy
      exact List.mem_iff_getElem?.2 ⟨i, List.getElem?_zip_eq_some.2 ⟨hi, hi⟩⟩
  · have hkind' : r'.site.kind = .data := approximates.site ▸ hkind
    rw [targetAt_of_one hkind hfine, targetAt_of_one hkind' hrough] at h ⊢
    cases hx : rough.isUnknown with
    | true => exact .unknown
    | false =>
      have hy : fine.isUnknown = false := by
        by_contra hne
        rw [hunknown (Bool.not_eq_false _ ▸ hne)] at hx
        cases hx
      simp only [hx, hy, Bool.false_eq_true, if_false] at h ⊢
      refine .lines (fun hnil => absurd hnil (List.cons_ne_nil _ _)) fun y hmem => ?_
      rw [List.mem_singleton.1 hmem]
      exact ⟨_, List.mem_singleton_self _, h _ _ List.mem_cons_self⟩

/-- Where the first request may go anywhere, the second may. -/
lemma Approximates.unknown {r r' : Request} (approximates : r.Approximates r') {shift : Nat}
    {g : Geometry} (h : r.targetAt shift g = .unknown) : r'.targetAt shift g = .unknown := by
  have coarsens : (r.targetAt shift g).Coarsens (fun _ _ => True) (r'.targetAt shift g) :=
    approximates.target fun _ _ _ => trivial
  rw [h] at coarsens
  generalize r'.targetAt shift g = target' at coarsens
  cases coarsens
  rfl

/-- A line that the second request names is the name of one that the first goes to. -/
lemma Approximates.exists_fine {r r' : Request} (approximates : r.Approximates r') {shift : Nat}
    {g : Geometry} (known : r.targetAt shift g ≠ .unknown) {x : Line}
    (hx : x ∈ (r'.targetAt shift g).toList) :
    ∃ y ∈ (r.targetAt shift g).toList, (x, y) ∈ names shift g r r' := by
  unfold names
  rcases approximates.references with hsame | ⟨hkind, fine, rough, hfine, hrough, hunknown⟩
  · rw [targetAt_congr approximates.site hsame] at hx ⊢
    obtain ⟨i, hi⟩ := List.mem_iff_getElem?.1 hx
    exact ⟨x, hx, List.mem_iff_getElem?.2 ⟨i, List.getElem?_zip_eq_some.2 ⟨hi, hi⟩⟩⟩
  · have hkind' : r'.site.kind = .data := approximates.site ▸ hkind
    rw [targetAt_of_one hkind hfine] at known ⊢
    rw [targetAt_of_one hkind' hrough] at hx ⊢
    cases hy : fine.isUnknown with
    | true =>
      rw [hy] at known
      exact absurd rfl known
    | false =>
      cases hrough : rough.isUnknown with
      | true =>
        rw [hrough] at hx
        cases hx
      | false =>
        rw [hrough] at hx
        cases List.mem_singleton.1 hx
        exact ⟨_, List.mem_singleton_self _, List.mem_singleton_self _⟩

/-- Both targets are aside if the lines of the first lie away from the sets concerned. -/
lemma Approximates.aside_of_fine {r r' : Request} (approximates : r.Approximates r') {shift : Nat}
    {g : Geometry} {S : UInt64 → Prop} {U : Line → Line → Prop}
    (away : ¬(r.targetAt shift g).Meets g S) (h : ∀ x y, (x, y) ∈ names shift g r r' → U x y) :
    (r.targetAt shift g).Aside (Away g S) (AwayBy g S U) (r'.targetAt shift g) := by
  have away' := Target.away_of_not_meets away
  refine ⟨away'.1, away'.2, fun x hx => ?_⟩
  obtain ⟨y, hy, hxy⟩ := approximates.exists_fine away'.1 hx
  exact ⟨y, h x y hxy, away'.2 y hy⟩

/-- So they are if the lines of the second do. -/
lemma Approximates.aside_of_rough {r r' : Request} (approximates : r.Approximates r') {shift : Nat}
    {g : Geometry} {S : UInt64 → Prop} {U : Line → Line → Prop}
    (away : ¬(r'.targetAt shift g).Meets g S) (h : ∀ x y, (x, y) ∈ names shift g r r' → U x y) :
    (r.targetAt shift g).Aside (AwayBy g S (flip U)) (Away g S) (r'.targetAt shift g) := by
  have away' := Target.away_of_not_meets away
  have coarsens := approximates.target h
  generalize r.targetAt shift g = target, r'.targetAt shift g = target' at away' coarsens
  cases coarsens with
  | unknown => exact absurd rfl away'.1
  | lines _ hnamed =>
    refine ⟨nofun, fun y hy => ?_, away'.2⟩
    obtain ⟨x, hx, hxy⟩ := hnamed y hy
    exact ⟨x, hxy, away'.2 x hx⟩

end Request

/-- Actions that match. -/
inductive NodeAction.Approximates : NodeAction → NodeAction → Prop where
  | access {r r' : Request} : r.Approximates r' → Approximates (.access r) (.access r')
  | call (callee : String) : Approximates (.call callee) (.call callee)

/-! ### Effects -/

namespace Effect

variable {U : Line → Line → Prop} {A : Line → Prop} {e e' e'' : Effect}

/-- The second effect touches whatever the first one does and is not aside, lines outside frames under
their other name. -/
def Coarsens (U : Line → Line → Prop) (A : Line → Prop) (e e' : Effect) : Prop :=
  e'.unknown = true ∨ e.unknown = false ∧
    (∀ y ∈ e.lines, Named U A e'.lines y) ∧ ∀ offset ∈ e.frame, offset ∈ e'.frame

/-- No effect at all coarsens every effect. -/
lemma coarsens_empty (U : Line → Line → Prop) (A : Line → Prop) (e : Effect) : Coarsens U A {} e :=
  .inr ⟨rfl, fun y hy => absurd hy (OrderedSet.not_mem_empty y),
    fun offset h => absurd h (OrderedSet.not_mem_empty offset)⟩

/-- An effect on lines that are aside. -/
lemma coarsens_of_aside (h : ∀ y ∈ e.lines, A y) (hframe : e.frame = {})
    (hknown : e.unknown = false) (e' : Effect) : e.Coarsens U A e' := by
  refine .inr ⟨hknown, fun y hy => .inr (h y hy), fun offset hoffset => ?_⟩
  rw [hframe] at hoffset
  exact absurd hoffset (OrderedSet.not_mem_empty offset)

/-- What touches more than a coarser effect is coarser, too. -/
lemma Coarsens.within (h : e.Coarsens U A e') (within : e'.Within e'') : e.Coarsens U A e'' := by
  refine h.imp within.unknown fun ⟨hknown, hlines, hframe⟩ => ⟨hknown, fun y hy => ?_, fun o ho => ?_⟩
  · refine (hlines y hy).imp_left ?_
    rintro ⟨x, hx, hxy⟩
    exact ⟨x, within.lines x hx, hxy⟩
  · exact within.frame o (hframe o ho)

/-- And what touches less than an effect is coarsened by what coarsens it. -/
lemma Within.coarsens (within : e.Within e') (h : e'.Coarsens U A e'') : e.Coarsens U A e'' := by
  refine h.imp id fun ⟨hknown, hlines, hframe⟩ => ⟨?_, fun y hy => ?_, fun o ho => ?_⟩
  · exact Bool.eq_false_iff.2 fun hunknown => Bool.eq_false_iff.1 hknown (within.unknown hunknown)
  · exact hlines y (within.lines y hy)
  · exact hframe o (within.frame o ho)

/-- Two effects that an effect coarsens are coarsened together. -/
lemma Coarsens.union (h : e.Coarsens U A e'') (h' : e'.Coarsens U A e'') :
    (e.union e').Coarsens U A e'' := by
  rcases h with hunknown | ⟨hknown, hlines, hframe⟩
  · exact .inl hunknown
  · refine h'.imp id fun ⟨hknown', hlines', hframe'⟩ => ⟨?_, fun y hy => ?_, fun o ho => ?_⟩
    · exact Bool.or_eq_false_iff.2 ⟨hknown, hknown'⟩
    · exact (OrderedSet.mem_union.1 hy).elim (hlines y) (hlines' y)
    · exact (OrderedSet.mem_union.1 ho).elim (hframe o) (hframe' o)

/-- Calls of unknown procedures are taken alike. -/
lemma coarsens_unknownCallee (unknown : Bool) :
    Coarsens U A { unknown := unknown } { unknown := unknown } := by
  cases unknown with
  | true => exact .inl rfl
  | false => exact coarsens_empty U A _

/-- Where a callee's frame lies does not hang on the names of other lines. -/
lemma Coarsens.calledAt (h : e.Coarsens U A e') (height : StackHeight) :
    (e.calledAt height).Coarsens U A (e'.calledAt height) := by
  unfold Effect.calledAt
  cases height.known? with
  | some distance =>
    refine h.imp id fun ⟨hknown, hlines, hframe⟩ => ⟨hknown, hlines, fun o ho => ?_⟩
    obtain ⟨offset, hoffset, rfl⟩ := OrderedSet.mem_map.1 ho
    exact OrderedSet.mem_map.2 ⟨offset, hframe offset hoffset, rfl⟩
  | none =>
    simp only
    rcases h with hunknown | ⟨hknown, hlines, hframe⟩
    · left
      split
      · exact hunknown
      · rfl
    · by_cases hempty : e'.frame.isEmpty = true
      · have hempty' : e.frame.isEmpty = true := by
          have hnil : e'.frame.toList = [] := List.isEmpty_iff.1 hempty
          refine List.isEmpty_iff.2 (List.eq_nil_iff_forall_not_mem.2 fun o ho => ?_)
          have ho' : o ∈ e'.frame.toList := hframe o ho
          rw [hnil] at ho'
          cases ho'
        rw [if_pos hempty, if_pos hempty']
        exact .inr ⟨hknown, hlines, hframe⟩
      · rw [if_neg hempty]
        exact .inl rfl

/-- So the second call names the lines of the first, if bytes of frames have one name. -/
lemma Coarsens.names (h : e.Coarsens U A e') {g : Geometry} {base : Address}
    (hframe : ∀ offset ∈ e'.frame,
      U (g.lineOf (base + offset.toUInt64)) (g.lineOf (base + offset.toUInt64))) :
    (Call.ofEffect g base e).Names U A (Call.ofEffect g base e') := by
  refine h.imp id fun ⟨hknown, hlines, hoffsets⟩ => ⟨hknown, fun y hy => ?_⟩
  rcases OrderedSet.mem_union.1 hy with hy | hy
  · refine (hlines y hy).imp_left ?_
    rintro ⟨x, hx, hxy⟩
    exact ⟨x, OrderedSet.mem_union.2 (.inl hx), hxy⟩
  · obtain ⟨offset, hoffset, rfl⟩ := OrderedSet.mem_map.1 hy
    have hoffset' := hoffsets offset hoffset
    exact .inl ⟨_, OrderedSet.mem_union.2 (.inr (OrderedSet.mem_map.2 ⟨offset, hoffset', rfl⟩)),
      hframe offset hoffset'⟩

end Effect

/-! ### Events -/

/-- Events of matching actions, the second of which says less. Whether it arrives may be said otherwise
of an access to lines that are aside. Which lines a frame has is left open unless it is the
procedure's own, because callers have it elsewhere. -/
inductive Event.Approximates (U : Line → Line → Prop) (A B : Line → Prop) (own : Prop) (g : Geometry)
    (base : Address) : Event → Event → Prop where
  | access {a a' : Access} : a.target.Coarsens U a'.target → a'.frameOffset = a.frameOffset →
    (a'.reach = a.reach ∨ a'.reach = .uncertain ∨
      a.frameOffset = none ∧ a.target.Aside A B a'.target) →
    Approximates U A B own g base (.access a) (.access a')
  | frame {a a' : Access} {offset : Int64} : ¬own → (a.target = .unknown → a'.target = .unknown) →
    a.frameOffset = some offset → a'.frameOffset = some offset →
    (a'.reach = a.reach ∨ a'.reach = .uncertain) →
    Approximates U A B own g base (.access a) (.access a')
  | call {e e' : Effect} : e.Coarsens U A e' →
    Approximates U A B own g base (.call (.ofEffect g base e)) (.call (.ofEffect g base e'))

/-- What is known to reach a level may reach it. -/
lemma Event.arrives_of_reach {a a' : Access} (hreach : a'.reach = a.reach ∨ a'.reach = .uncertain)
    (ha : (Event.access a).arrives = true) : (Event.access a').arrives = true := by
  rcases hreach with hreach | hreach
  · rw [Event.arrives, hreach]
    exact ha
  · rw [Event.arrives, hreach]
    rfl

namespace Event.Approximates

variable {U : Line → Line → Prop} {A B : Line → Prop} {own : Prop} {g : Geometry} {base : Address}
  {event event' : Event}

/-- Where the first event may happen, the second may, or the first is aside. -/
lemma arrives_or (h : event.Approximates U A B own g base event') (ha : event.arrives = true) :
    event'.arrives = true ∨ ∀ e : Effect, (Summary.touchedBy {} event).Coarsens U A e := by
  cases h with
  | call => exact .inl rfl
  | frame _ _ _ _ hreach => exact .inl (arrives_of_reach hreach ha)
  | @access a a' _ _ hreach =>
    rcases or_assoc.2 hreach with hreach | ⟨hframe, aside⟩
    · exact .inl (arrives_of_reach hreach ha)
    · right
      unfold Summary.touchedBy
      simp only [hframe]
      generalize a.target = target at aside
      cases target with
      | unknown => exact absurd rfl aside.known
      | lines fine =>
        refine Effect.coarsens_of_aside (fun y hy => ?_) rfl rfl
        rcases OrderedSet.mem_insertAll.1 hy with hy | hy
        · exact absurd hy (OrderedSet.not_mem_empty y)
        · exact aside.fine y hy

end Event.Approximates

/-- A byte of a frame is touched by an effect that has it. -/
lemma Effect.coarsens_frame {U : Line → Line → Prop} {A : Line → Prop} {e : Effect} (offset : Int64) :
    Effect.Coarsens U A { frame := OrderedSet.insert {} offset }
      { e with frame := e.frame.insert offset } := by
  refine .inr ⟨rfl, fun y hy => absurd hy (OrderedSet.not_mem_empty y), fun o ho => ?_⟩
  rcases OrderedSet.mem_insert.1 ho with rfl | ho
  · exact OrderedSet.mem_insert.2 (.inl rfl)
  · exact absurd ho (OrderedSet.not_mem_empty o)

/-- The second event touches what the first does. -/
lemma Event.Approximates.touchedBy {U : Line → Line → Prop} {A B : Line → Prop} {own : Prop}
    {g : Geometry} {base : Address} {event event' : Event}
    (h : event.Approximates U A B own g base event') (e : Effect) :
    (Summary.touchedBy {} event).Coarsens U A (Summary.touchedBy e event') := by
  cases h with
  | @call c c' hcall =>
    exact ((Effect.coarsens_empty U A _).union hcall).within (Effect.within_union_right e c')
  | @frame a a' offset _ hunknown hoffset hoffset' _ =>
    unfold Summary.touchedBy
    simp only
    rw [hoffset, hoffset']
    cases htarget' : a'.target with
    | unknown => exact .inl rfl
    | lines rough =>
      cases htarget : a.target with
      | unknown =>
        rw [hunknown htarget] at htarget'
        cases htarget'
      | lines fine => exact Effect.coarsens_frame offset
  | @access a a' htarget hoffset _ =>
    unfold Summary.touchedBy
    simp only
    rw [hoffset]
    generalize a.target = target, a'.target = target' at htarget
    cases htarget with
    | unknown => exact .inl rfl
    | lines _ hnamed =>
      cases a.frameOffset with
      | some offset => exact Effect.coarsens_frame offset
      | none =>
        refine .inr ⟨rfl, fun y hy => .inl ?_, fun o ho => absurd ho (OrderedSet.not_mem_empty o)⟩
        rcases OrderedSet.mem_insertAll.1 hy with hy | hy
        · exact absurd hy (OrderedSet.not_mem_empty y)
        · obtain ⟨x, hx, hxy⟩ := hnamed y hy
          exact ⟨x, OrderedSet.mem_insertAll.2 (.inr hx), hxy⟩

/-- What an event adds to an effect is what it touches by itself. -/
lemma Summary.within_touchedBy_union (e : Effect) (event : Event) :
    (touchedBy e event).Within (e.union (touchedBy {} event)) := by
  cases event with
  | call c =>
    refine ⟨fun line hline => ?_, fun offset hoffset => ?_, fun hunknown => ?_⟩
    · exact OrderedSet.mem_union.2 ((OrderedSet.mem_union.1 hline).imp id fun h =>
        OrderedSet.mem_union.2 (.inr h))
    · exact OrderedSet.mem_union.2 ((OrderedSet.mem_union.1 hoffset).imp id fun h =>
        OrderedSet.mem_union.2 (.inr h))
    · exact hunknown
  | access a =>
    unfold touchedBy
    simp only
    split
    · exact ⟨fun line h => OrderedSet.mem_union.2 (.inl h),
        fun offset h => OrderedSet.mem_union.2 (.inl h), fun _ => Bool.or_true _⟩
    · rename_i offset _ _
      refine ⟨fun line h => OrderedSet.mem_union.2 (.inl h), fun o ho => ?_,
        fun h => Bool.or_eq_true_iff.2 (.inl h)⟩
      refine OrderedSet.mem_union.2 ?_
      rw [OrderedSet.mem_insert] at ho ⊢
      exact ho.elim (fun h => .inr (.inl h)) .inl
    · rename_i candidates _ _
      refine ⟨fun line h => ?_, fun o ho => OrderedSet.mem_union.2 (.inl ho),
        fun h => Bool.or_eq_true_iff.2 (.inl h)⟩
      refine OrderedSet.mem_union.2 ?_
      rw [OrderedSet.mem_insertAll] at h ⊢
      exact h.imp id .inr

/-- An effect that touches what each event of a procedure does touches what the procedure does. -/
lemma Summary.coarsens_footprint {U : Line → Line → Prop} {A : Line → Prop} {s : Summary} {e' : Effect}
    (h : ∀ n, ∀ event ∈ s.eventsOf n, (touchedBy {} event).Coarsens U A e') :
    s.footprint.Coarsens U A e' := by
  have hflat : ∀ event ∈ s.events.flatten, (touchedBy {} event).Coarsens U A e' := by
    intro event hevent
    obtain ⟨n, hevent⟩ := mem_events_iff.1 hevent
    exact h n event hevent
  -- the fold starts at no effect and adds what one event touches at a time
  have hfold (events : List Event) (hevents : ∀ event ∈ events, (touchedBy {} event).Coarsens U A e')
      {e : Effect} (he : e.Coarsens U A e') : (events.foldl touchedBy e).Coarsens U A e' := by
    induction events generalizing e with
    | nil => exact he
    | cons event events ih =>
      rw [List.forall_mem_cons] at hevents
      exact ih hevents.2 ((within_touchedBy_union e event).coarsens (he.union hevents.1))
  exact hfold _ hflat (Effect.coarsens_empty U A e')

end CacheVerdict
