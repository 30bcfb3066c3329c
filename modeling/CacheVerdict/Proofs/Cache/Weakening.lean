import CacheVerdict.Proofs.Cache.Coarser

/-!
# Losing information

What a procedure is known to do may be known less well: an access may touch more lines or any line,
it may be open whether it arrives, a call may touch more lines, and the cache may hold anything at
the start. Main statement: less knowledge leads to no verdict that more knowledge does not lead to
(`verdicts_of_weakens`). The descriptions are bounds of each other under the same names, so this is
the case of `Summary.Coarsens` in which every line keeps its name.
-/

namespace CacheVerdict

/-- A target about which less is known. An access that names no line has no effect, so that it may
not come to name one. -/
inductive Target.Weakens : Target → Target → Prop where
  | same {target : Target} : Weakens target target
  | more {candidates candidates' : List Line} : candidates ≠ [] → candidates ⊆ candidates' →
    Weakens (.lines candidates) (.lines candidates')
  | unknown {target : Target} : Weakens target .unknown

/-- A reach about which less is known. -/
inductive Reach.Weakens : Reach → Reach → Prop where
  | same {reach : Reach} : Weakens reach reach
  | uncertain : Weakens .always .uncertain

/-- A call about which less is known. Where it comes to touch more lines, they fit in the counter of
conflicts. -/
structure Call.Weakens (c c' : Call) : Prop where
  lines : c'.lines = c.lines ∨ (∀ line ∈ c.lines, line ∈ c'.lines) ∧ c'.lines.size < UInt32.size
  unknown : c.effect.unknown = true → c'.effect.unknown = true

/-- An event about which less is known. -/
inductive Event.Weakens : Event → Event → Prop where
  | access {a a' : Access} : a.target.Weakens a'.target → a.reach.Weakens a'.reach →
    Weakens (.access a) (.access a')
  | call {c c' : Call} : c.Weakens c' → Weakens (.call c) (.call c')

/-- The same control flow in the same cache, where less is known about the events and the start. -/
structure Summary.Weakens (s t : Summary) : Prop where
  geometry : t.geometry = s.geometry
  predecessors : t.predecessors = s.predecessors
  successors : t.successors = s.successors
  entries : t.entries = s.entries
  events : List.Forall₂ (List.Forall₂ Event.Weakens) s.events t.events
  coldStart : t.coldStart = true → s.coldStart = true

/-- A weaker target coarsens the target, each line under its own name. -/
lemma Target.Weakens.coarsens {target target' : Target} (h : target.Weakens target') :
    target.Coarsens Eq target' := by
  cases h with
  | same =>
    cases target with
    | unknown => exact .unknown
    | lines candidates => exact .lines id fun line hline => ⟨line, hline, rfl⟩
  | more hne hsub => exact .lines (fun heq => absurd heq hne) fun line hline => ⟨line, hsub hline, rfl⟩
  | unknown => exact .unknown

/-- A weaker arrival is the same one, or it is open. -/
lemma Reach.Weakens.eq_or {reach reach' : Reach} (h : reach.Weakens reach') :
    reach' = reach ∨ reach' = .uncertain := by
  cases h with
  | same => exact .inl rfl
  | uncertain => exact .inr rfl

/-- A weaker event coarsens the event, each line under its own name. -/
lemma Event.Weakens.coarsens {A B : Line → Prop} {e e' : Event} (h : e.Weakens e') :
    e.Coarsens Eq A B Call.Weakens e' := by
  cases h with
  | access htarget hreach => exact .access htarget.coarsens (hreach.eq_or.imp id .inl)
  | call hcall => exact .call hcall

/-- A weaker summary coarsens the summary, each line under its own name. -/
lemma Summary.Weakens.coarsens {A B : Line → Prop} {s t : Summary} (h : s.Weakens t) :
    s.Coarsens Eq A B Call.Weakens t where
  geometry := h.geometry
  predecessors := h.predecessors
  successors := h.successors
  entries := h.entries
  events := h.events.imp fun _ _ hnode => hnode.imp fun _ _ => Event.Weakens.coarsens
  coldStart := h.coldStart

namespace Call.Weakens

variable {c c' : Call}

/-- A weaker call touches what the call touches. -/
lemma names {A : Line → Prop} (h : c.Weakens c') : c.Names Eq A c' := by
  by_cases hunknown : c'.effect.unknown = true
  · exact .inl hunknown
  · refine .inr ⟨Bool.eq_false_iff.2 fun hc => hunknown (h.unknown hc), fun line hline => .inl ?_⟩
    rcases h.lines with heq | ⟨hsub, _⟩
    · exact ⟨line, heq ▸ hline, rfl⟩
    · exact ⟨line, hsub line hline, rfl⟩

/-- Lines that stay are counted alike, whether or not they fit. -/
lemma counts (h : c.Weakens c') (g : Geometry) (S : UInt64 → Prop) : c.Counts g S Eq c' := by
  rcases h.lines with heq | ⟨_, fits⟩
  · refine (h.names (A := Away g S)).imp id fun ⟨hknown, _⟩ => ⟨hknown, ?_⟩
    rintro x _ rfl _
    rw [Call.conflicts, Call.conflicts, heq]
  · exact h.names.counts (crowds_of_eq g S id) fits

end Call.Weakens

/-- Losing information creates no verdict: where less is known about a procedure, an access that is
said to hit is said to hit where more is known, and an access that is said to miss is said to miss
there. -/
theorem verdicts_of_weakens (s t : Summary) (linked : s.Linked (.whole s)) (weakens : s.Weakens t) :
    (∃ must may, s.Ends must may) ∧ (∃ must may, t.Ends must may) ∧
    ∀ must may must' may', s.Ends must may → t.Ends must' may' → ∀ n i,
      (t.classAt? must' may' n i = some .alwaysHit → s.classAt? must may n i = some .alwaysHit) ∧
      (t.classAt? must' may' n i = some .alwaysMiss →
        s.classAt? must may n i = some .alwaysMiss) := by
  refine ⟨s.exists_ends, t.exists_ends, ?_⟩
  intro must may must' may' ends ends' n i
  -- every set is concerned
  exact ⟨weakens.coarsens.alwaysHit (S := fun _ => True) linked (crowds_of_eq _ _ id)
      (fun _ _ h => h.counts _ _) (fun _ _ _ _ => trivial) ends ends',
    weakens.coarsens.alwaysMiss (S := fun _ => True) linked (crowds_of_eq _ _ Eq.symm)
      (fun _ _ h => h.names) (fun _ _ _ _ => trivial) ends ends'⟩

/-- Line 0, a call that touches line 2 of the same set, line 0 again, and line 4 of the set. -/
def Summary.callBetween : Summary where
  geometry := .twoWays
  predecessors := [[]]
  successors := [[]]
  entries := [0]
  events := [[.access ⟨⟨0, 0, .data⟩, .lines [0], .always, none⟩,
    .call ⟨{}, .ofList [2]⟩,
    .access ⟨⟨0, 4, .data⟩, .lines [0], .always, none⟩,
    .access ⟨⟨0, 8, .data⟩, .lines [4], .always, none⟩]]
  coldStart := true

/-- The same, where the call may touch line 1 as well and the last access may touch line 6 instead
and need not arrive. -/
def Summary.callBetweenLessKnown : Summary :=
  { callBetween with
    events := [[.access ⟨⟨0, 0, .data⟩, .lines [0], .always, none⟩,
      .call ⟨{}, .ofList [1, 2]⟩,
      .access ⟨⟨0, 4, .data⟩, .lines [0], .always, none⟩,
      .access ⟨⟨0, 8, .data⟩, .lines [4, 6], .uncertain, none⟩]] }

/-- The hit and the miss that are found with less knowledge are found with more. -/
theorem verdicts_of_weakens_callBetween :
    Summary.callBetween.Linked (.whole .callBetween) ∧
      Summary.callBetween.Weakens .callBetweenLessKnown ∧
      ∀ must may, Summary.callBetween.Ends must may →
        Summary.callBetween.classAt? must may 0 2 = some .alwaysHit ∧
        Summary.callBetween.classAt? must may 0 3 = some .alwaysMiss := by
  have transposed : Summary.callBetween.Transposed := by
    unfold Summary.Transposed
    decide
  have linked : Summary.callBetween.Linked (.whole .callBetween) :=
    transposed.linked fun _ => OrderedSet.mem_below.1
  have weakens : Summary.callBetween.Weakens .callBetweenLessKnown := by
    refine ⟨rfl, rfl, rfl, rfl, ?_, id⟩
    have call : (⟨{}, .ofList [2]⟩ : Call).Weakens ⟨{}, .ofList [1, 2]⟩ := by
      refine ⟨.inr ⟨fun line hline => ?_, by decide⟩, id⟩
      exact OrderedSet.mem_ofList.2 (List.mem_cons_of_mem _ (OrderedSet.mem_ofList.1 hline))
    have last : (Target.lines [4]).Weakens (.lines [4, 6]) := .more (by simp) (by simp)
    exact .cons (.cons (.access .same .same) (.cons (.call call) (.cons (.access .same .same)
      (.cons (.access last .uncertain) .nil)))) .nil
  refine ⟨linked, weakens, ?_⟩
  intro must may ends
  obtain ⟨_, _, verdicts⟩ := verdicts_of_weakens _ _ linked weakens
  have found : (do
      let must ← Solution.solve? 5 .callBetweenLessKnown (.whole .callBetweenLessKnown)
      let may ← Solution.solve? 5 .callBetweenLessKnown (.whole .callBetweenLessKnown)
      return (Summary.callBetweenLessKnown.classAt? must may 0 2,
        Summary.callBetweenLessKnown.classAt? must may 0 3)) =
      some (some .alwaysHit, some .alwaysMiss) := by
    decide +kernel
  obtain ⟨must', hmust', found⟩ := Option.bind_eq_some_iff.1 found
  obtain ⟨may', hmay', found⟩ := Option.bind_eq_some_iff.1 found
  obtain ⟨hhit, hmiss⟩ := Prod.mk.inj (Option.some.inj found)
  have ends' : Summary.callBetweenLessKnown.Ends must' may' := ⟨⟨5, hmust'⟩, ⟨5, hmay'⟩⟩
  exact ⟨(verdicts must may must' may' ends ends' 0 2).1 hhit,
    (verdicts must may must' may' ends ends' 0 3).2 hmiss⟩

end CacheVerdict
