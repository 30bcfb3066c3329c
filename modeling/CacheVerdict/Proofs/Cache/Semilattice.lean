import CacheVerdict.Proofs.Cache.Embedding

/-!
# Joins in any order

Where paths meet, the states that arrive are joined one after the other, and so are the cases of an
access to one of several lines. Joining is associative, commutative and idempotent for each of the
three kinds of description, so neither hangs on an order or on how often a state comes in
(`State.semilattice`). A form of the states that embeds in another one takes these laws over from
it (`Domain.Embeds.semilattice`).
-/

namespace CacheVerdict

/-- On valid states joining is a semilattice with the state that no path reaches below all others.
So the state at the entry of a node is the same for all lists of the edges into it, and an access
to one of several lines joins the accesses to each of them in whatever order they are listed. -/
structure Domain.Semilattice {S : Type} [Domain S] (g : Geometry) (Valid : S → Prop) : Prop where
  join_comm : ∀ {a b : S}, Valid a → Valid b → Domain.join a b = Domain.join b a
  join_assoc : ∀ {a b c : S}, Valid a → Valid b → Valid c →
    Domain.join (Domain.join a b) c = Domain.join a (Domain.join b c)
  join_self : ∀ {a : S}, Valid a → Domain.join a a = a
  bottom_join : ∀ {a : S}, Valid a → Domain.join Domain.bottom a = a
  join_bottom : ∀ {a : S}, Valid a → Domain.join a Domain.bottom = a
  meet_congr : ∀ {s s' : Summary} {r : Region} {outs : OrderedMap Nat S} {n : Nat},
    (∀ p state, outs.get? p = some state → Valid state) → s.coldStart = s'.coldStart →
    (∀ p, p ∈ s.predecessorsOf n ↔ p ∈ s'.predecessorsOf n) →
    Iteration.meet s r outs n = Iteration.meet s' r outs n
  access_eq_foldl : ∀ {a : S} {lines : List Line}, Valid a → lines ≠ [] →
    Domain.access g (.lines lines) a =
      lines.foldl (fun joined line => Domain.join joined (Domain.touch g line a)) Domain.bottom
  access_congr : ∀ {a : S} {lines lines' : List Line}, Valid a →
    (∀ line, line ∈ lines ↔ line ∈ lines') →
    Domain.access g (.lines lines) a = Domain.access g (.lines lines') a

/-! ### Merging descriptions -/

/-- Merging descriptions hangs neither on their order nor on how often each is merged. -/
class SemilatticeAbstraction (σ : Type) [Abstraction σ] : Prop where
  merge_comm : ∀ a b : σ, Abstraction.merge a b = Abstraction.merge b a
  merge_assoc : ∀ a b c : σ,
    Abstraction.merge (Abstraction.merge a b) c = Abstraction.merge a (Abstraction.merge b c)
  merge_self : ∀ a : σ, Abstraction.merge a a = a

namespace OrderedMap

variable {κ ν : Type} [Ord κ] [Std.TransOrd κ] [Std.LawfulEqOrd κ] [DecidableEq κ]
  {pick : ν → ν → ν}

/-- Merging maps does not hang on their order, if picking values does not. -/
lemma unionWith_comm [Std.Commutative pick] (m n : OrderedMap κ ν) :
    m.unionWith pick n = n.unionWith pick m := by
  refine ext_get? fun k => ?_
  rw [get?_unionWith, get?_unionWith]
  exact Std.Commutative.comm (m.get? k) (n.get? k)

/-- Merging maps is associative if picking values is. -/
lemma unionWith_assoc [Std.Associative pick] (m n o : OrderedMap κ ν) :
    (m.unionWith pick n).unionWith pick o = m.unionWith pick (n.unionWith pick o) := by
  refine ext_get? fun k => ?_
  simp only [get?_unionWith]
  exact Std.Associative.assoc (m.get? k) (n.get? k) (o.get? k)

/-- A map merged with itself stays as it is, if a value picked against itself does. -/
lemma unionWith_self [Std.IdempotentOp pick] (m : OrderedMap κ ν) : m.unionWith pick m = m := by
  refine ext_get? fun k => ?_
  rw [get?_unionWith]
  exact Std.IdempotentOp.idempotent (m.get? k)

end OrderedMap

/-- The age of a line that both hold is the greater one. -/
lemma AgedLines.get?_interWith (a b : AgedLines) (line : Line) :
    (OrderedMap.interWith max a b).get? line = olderOfBoth (a.get? line) (b.get? line) :=
  OrderedMap.get?_interWith max a b line

instance : SemilatticeAbstraction MustCache where
  merge_comm a b := by
    refine MustCache.ext (OrderedMap.ext_get? fun line => ?_)
    simp only [Abstraction.merge, AgedLines.get?_interWith]
    exact Std.Commutative.comm (a.lines.get? line) (b.lines.get? line)
  merge_assoc a b c := by
    refine MustCache.ext (OrderedMap.ext_get? fun line => ?_)
    simp only [Abstraction.merge, AgedLines.get?_interWith]
    exact Std.Associative.assoc (a.lines.get? line) (b.lines.get? line) (c.lines.get? line)
  merge_self a := by
    refine MustCache.ext (OrderedMap.ext_get? fun line => ?_)
    simp only [Abstraction.merge, AgedLines.get?_interWith]
    exact Std.IdempotentOp.idempotent (a.lines.get? line)

instance : SemilatticeAbstraction MayCache where
  merge_comm _ _ := MayCache.ext (OrderedMap.unionWith_comm _ _) (Bool.or_comm _ _)
  merge_assoc _ _ _ := MayCache.ext (OrderedMap.unionWith_assoc _ _ _) (Bool.or_assoc _ _ _)
  merge_self _ := MayCache.ext (OrderedMap.unionWith_self _) (Bool.or_self _)

instance : SemilatticeAbstraction PersistenceCache where
  merge_comm a b := by
    refine PersistenceCache.ext (OrderedMap.unionWith_comm _ _) (OrderedSet.ext_mem fun line => ?_)
    simp only [Abstraction.merge, OrderedSet.mem_union, or_comm]
  merge_assoc a b c := by
    refine PersistenceCache.ext (OrderedMap.unionWith_assoc _ _ _)
      (OrderedSet.ext_mem fun line => ?_)
    simp only [Abstraction.merge, OrderedSet.mem_union, or_assoc]
  merge_self a := by
    refine PersistenceCache.ext (OrderedMap.unionWith_self _) (OrderedSet.ext_mem fun line => ?_)
    simp only [Abstraction.merge, OrderedSet.mem_union, or_self]

/-! ### Joining states -/

namespace State

variable {σ : Type} [Abstraction σ]

/-- The unreached state is neutral on the left. -/
lemma bottom_join (t : State σ) : Domain.join Domain.bottom t = t := by
  cases t <;> rfl

/-- The unreached state is neutral on the right. -/
lemma join_bottom (t : State σ) : Domain.join t Domain.bottom = t := by
  cases t <;> rfl

instance [SemilatticeAbstraction σ] :
    Std.Commutative (Domain.join : State σ → State σ → State σ) where
  comm t u := by
    cases t with
    | unreached => exact (bottom_join u).trans (join_bottom u).symm
    | reached a =>
      cases u with
      | unreached => rfl
      | reached b => exact congrArg State.reached (SemilatticeAbstraction.merge_comm a b)

instance [SemilatticeAbstraction σ] :
    Std.Associative (Domain.join : State σ → State σ → State σ) where
  assoc t u v := by
    cases v with
    | unreached => exact (join_bottom _).trans (congrArg _ (join_bottom u).symm)
    | reached c =>
      cases u with
      | unreached => exact congrArg (Domain.join · (State.reached c)) (join_bottom t)
      | reached b =>
        cases t with
        | unreached => rfl
        | reached a => exact congrArg State.reached (SemilatticeAbstraction.merge_assoc a b c)

instance [SemilatticeAbstraction σ] :
    Std.IdempotentOp (Domain.join : State σ → State σ → State σ) where
  idempotent t := by
    cases t with
    | unreached => rfl
    | reached a => exact congrArg State.reached (SemilatticeAbstraction.merge_self a)

end State

/-- The meet folds over the states that are there. -/
lemma Iteration.foldl_elim_eq_filterMap {S : Type} [Domain S] (outs : OrderedMap Nat S)
    (ps : List Nat) (joined : S) :
    ps.foldl (fun joined p => (outs.get? p).elim joined (Domain.join joined)) joined =
      (ps.filterMap outs.get?).foldl Domain.join joined := by
  induction ps generalizing joined with
  | nil => rfl
  | cons p ps ih =>
    rw [List.foldl_cons, ih]
    cases hp : outs.get? p with
    | none => rw [List.filterMap_cons_none hp, Option.elim_none]
    | some state => rw [List.filterMap_cons_some hp, Option.elim_some, List.foldl_cons]

namespace State

variable {σ : Type} [Abstraction σ] [SemilatticeAbstraction σ]

/-- A meet hangs only on which nodes come before. -/
lemma meet_congr {s s' : Summary} {r : Region} {outs : OrderedMap Nat (State σ)} {n : Nat}
    (hstart : s.coldStart = s'.coldStart)
    (hpreds : ∀ p, p ∈ s.predecessorsOf n ↔ p ∈ s'.predecessorsOf n) :
    Iteration.meet s r outs n = Iteration.meet s' r outs n := by
  unfold Iteration.meet
  rw [Iteration.foldl_elim_eq_filterMap, Iteration.foldl_elim_eq_filterMap, hstart]
  apply Fold.foldl_congr_mem
  intro state
  simp only [List.mem_filterMap, hpreds]

/-- Joining the accesses to each of several lines hangs only on which lines they are. -/
lemma foldl_touch_congr {g : Geometry} {lines lines' : List Line}
    (h : ∀ line, line ∈ lines ↔ line ∈ lines') (t : State σ) :
    lines.foldl (fun joined line => Domain.join joined (Domain.touch g line t)) Domain.bottom =
      lines'.foldl (fun joined line => Domain.join joined (Domain.touch g line t))
        Domain.bottom := by
  have hfold (l : List Line) :
      l.foldl (fun joined line => Domain.join joined (Domain.touch g line t)) Domain.bottom =
        (l.map (Domain.touch g · t)).foldl Domain.join Domain.bottom := List.foldl_map.symm
  rw [hfold, hfold]
  apply Fold.foldl_congr_mem
  intro u
  simp only [List.mem_map, h]

variable [LawfulAbstraction σ]

/-- An access to one of several lines joins the accesses to each of them, in the order in which they
are listed. -/
lemma access_eq_foldl {g : Geometry} {lines : List Line} (hne : lines ≠ []) (t : State σ) :
    Domain.access g (.lines lines) t =
      lines.foldl (fun joined line => Domain.join joined (Domain.touch g line t))
        Domain.bottom := by
  cases t with
  | unreached =>
    rw [access_unreached]
    induction lines with
    | nil => rfl
    | cons line lines ih =>
      cases lines with
      | nil => rfl
      | cons line' lines => exact ih (List.cons_ne_nil line' lines)
  | reached a =>
    obtain ⟨line, hline⟩ := List.exists_mem_of_ne_nil lines hne
    obtain ⟨first, rest, hl⟩ :=
      List.exists_cons_of_ne_nil (OrderedSet.toList_ofList_ne_nil hline)
    have hmem (x : Line) : x ∈ first :: rest ↔ x ∈ lines := by
      rw [← hl]
      exact OrderedSet.mem_ofList
    rw [access_reached hl, ← foldl_touch_congr hmem, List.foldl_cons]
    show _ = rest.foldl _ (State.reached (Abstraction.touch g first a))
    generalize Abstraction.touch g first a = b
    clear hl hmem
    induction rest generalizing b with
    | nil => rfl
    | cons other rest ih => exact ih _

/-- The states of an analysis form a semilattice. -/
theorem semilattice (g : Geometry) : Domain.Semilattice g fun _ : State σ => True where
  join_comm _ _ := Std.Commutative.comm _ _
  join_assoc _ _ _ := Std.Associative.assoc _ _ _
  join_self _ := Std.IdempotentOp.idempotent _
  bottom_join _ := bottom_join _
  join_bottom _ := join_bottom _
  meet_congr _ := meet_congr
  access_eq_foldl _ hne := access_eq_foldl hne _
  access_congr {t lines lines'} _ h := by
    cases lines with
    | nil =>
      have hnil : lines' = [] := List.eq_nil_iff_forall_not_mem.2 fun line hline =>
        absurd ((h line).2 hline) List.not_mem_nil
      rw [hnil]
    | cons line lines =>
      have hne : lines' ≠ [] := List.ne_nil_of_mem ((h line).1 List.mem_cons_self)
      rw [access_eq_foldl (List.cons_ne_nil line lines), access_eq_foldl hne]
      exact foldl_touch_congr h t

end State

/-- A semilattice in one form of the states is one in every form that embeds in it. -/
theorem Domain.Embeds.semilattice {S T : Type} [Domain S] [Domain T] {g : Geometry}
    {Valid : S → Prop} {f : S → T} (embeds : Domain.Embeds g Valid f)
    (h : Domain.Semilattice g fun _ : T => True) : Domain.Semilattice g Valid where
  join_comm {a b} ha hb := by
    obtain ⟨hab, heq⟩ := embeds.join ha hb
    obtain ⟨hba, heq'⟩ := embeds.join hb ha
    apply embeds.injective hab hba
    rw [heq, heq', h.join_comm trivial trivial]
  join_assoc {a b c} ha hb hc := by
    obtain ⟨hab, heq⟩ := embeds.join ha hb
    obtain ⟨hbc, heq'⟩ := embeds.join hb hc
    apply embeds.injective (embeds.join hab hc).1 (embeds.join ha hbc).1
    rw [(embeds.join hab hc).2, (embeds.join ha hbc).2, heq, heq',
      h.join_assoc trivial trivial trivial]
  join_self {a} ha := by
    obtain ⟨haa, heq⟩ := embeds.join ha ha
    apply embeds.injective haa ha
    rw [heq, h.join_self trivial]
  bottom_join {a} ha := by
    obtain ⟨hjoin, heq⟩ := embeds.join embeds.bottom.1 ha
    apply embeds.injective hjoin ha
    rw [heq, embeds.bottom.2, h.bottom_join trivial]
  join_bottom {a} ha := by
    obtain ⟨hjoin, heq⟩ := embeds.join ha embeds.bottom.1
    apply embeds.injective hjoin ha
    rw [heq, embeds.bottom.2, h.join_bottom trivial]
  meet_congr {s s' r outs n} houts hstart hpreds := by
    obtain ⟨hmeet, heq⟩ := embeds.meet (s := s) (r := r) houts n
    obtain ⟨hmeet', heq'⟩ := embeds.meet (s := s') (r := r) houts n
    apply embeds.injective hmeet hmeet'
    rw [heq, heq']
    exact h.meet_congr (fun _ _ _ => trivial) hstart hpreds
  access_eq_foldl {a lines} ha hne := by
    have htouch (line : Line) : Valid (Domain.touch g line a) ∧
        f (Domain.touch g line a) = Domain.touch g line (f a) := embeds.access (.lines [line]) ha
    have hstates : ∀ b ∈ lines.map (Domain.touch g · a), Valid b := by
      intro b hb
      obtain ⟨line, _, rfl⟩ := List.mem_map.1 hb
      exact (htouch line).1
    obtain ⟨hfold, heq⟩ := embeds.foldl_join hstates embeds.bottom.1
    obtain ⟨haccess, heq'⟩ := embeds.access (.lines lines) ha
    rw [← List.foldl_map (f := (Domain.touch g · a))]
    apply embeds.injective haccess hfold
    rw [heq', heq, embeds.bottom.2, h.access_eq_foldl trivial hne, List.map_map, List.foldl_map]
    simp only [Function.comp_apply, htouch]
  access_congr {a lines lines'} ha hlines := by
    obtain ⟨haccess, heq⟩ := embeds.access (.lines lines) ha
    obtain ⟨haccess', heq'⟩ := embeds.access (.lines lines') ha
    apply embeds.injective haccess haccess'
    rw [heq, heq', h.access_congr trivial hlines]

end CacheVerdict
