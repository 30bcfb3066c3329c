import CacheVerdict.Proofs.Analysis.Comparison
import CacheVerdict.Proofs.Analysis.Multilevel
import CacheVerdict.Proofs.Analysis.Refinement

/-!
# Verdicts of studies that approximate one another

Take an access at the nearest level for its kind. What the second study says to hit there hits by the
first, if in the sets that the access goes to the names of the second study crowd no less, the data
accesses concerned arrive alike, and calls fit in their counters (`Study.HitKept`); and what it says
to miss misses, if the names crowd no more and arrivals are alike (`Study.MissKept`). Main statements:
`Study.Compared.alwaysHit` and `Study.Compared.alwaysMiss`. Fetches arrive alike anyway, because the
level in front serves no data, and there both studies come to the same
(`Study.Compared.verdict_of_no_data`).
-/

namespace CacheVerdict

/-! ### Levels in front -/

/-- A chain is in the order of its levels. -/
lemma Hierarchy.sorted_chain (h : Hierarchy) (kind : AccessKind) :
    (h.chain kind).Pairwise fun a b => a.1.rank < b.1.rank :=
  (h.caches.sorted.sublist List.filter_sublist).imp Nat.compare_eq_lt.1

/-- The level before another one belongs to a nearer cache of the same chain. -/
lemma Hierarchy.exists_previous {h : Hierarchy} {kind : AccessKind} {cache : Level × Geometry}
    (hcache : cache ∈ h.caches.entries) {level : Level}
    (hprevious : h.previous? kind cache.1 = some level) :
    ∃ near ∈ h.chain kind, near.1 = level ∧ near.1.rank < cache.1.rank := by
  have hmem : cache.1 ∈ h.levelsFor kind := by
    by_contra hmem
    rw [previous?, if_neg hmem] at hprevious
    cases hprevious
  have hchain : cache ∈ h.chain kind :=
    List.mem_filter.2 ⟨hcache, (List.mem_filter.1 hmem).2⟩
  obtain ⟨front, behind, hsplit⟩ := List.append_of_mem hchain
  rw [previous?_eq hsplit] at hprevious
  obtain ⟨near, hlast, rfl⟩ := Option.map_eq_some_iff.1 hprevious
  have hnear : near ∈ front := List.mem_of_getLast? hlast
  refine ⟨near, hsplit ▸ List.mem_append_left _ hnear, rfl, ?_⟩
  have hsorted := h.sorted_chain kind
  rw [hsplit, List.pairwise_append] at hsorted
  exact hsorted.2.2 near hnear cache List.mem_cons_self

/-- No level in front of the nearest one for a kind serves the kind. -/
lemma Hierarchy.not_serves_of_nearer {h : Hierarchy} {kind : AccessKind}
    {cache near : Level × Geometry} (hcache : cache ∈ h.chain kind)
    (nearest : h.previous? kind cache.1 = none) (hnear : near ∈ h.caches.entries)
    (hlt : near.1.rank < cache.1.rank) : near.1.serves kind = false := by
  by_contra hserves
  have hmem : near ∈ h.chain kind :=
    List.mem_filter.2 ⟨hnear, Bool.not_eq_false _ ▸ hserves⟩
  obtain ⟨front, behind, hsplit⟩ := List.append_of_mem hcache
  rw [previous?_eq hsplit, Option.map_eq_none_iff, List.getLast?_eq_none_iff] at nearest
  have hsorted := h.sorted_chain kind
  rw [hsplit, nearest, List.nil_append] at hmem hsorted
  rcases List.mem_cons.1 hmem with rfl | hbehind
  · exact Nat.lt_irrefl _ hlt
  · exact Nat.lt_asymm hlt (List.rel_of_pairwise_cons hsorted hbehind)

/-- Only the first level serves no data, and nothing is in front of it. -/
lemma Hierarchy.previous?_eq_none {h : Hierarchy} {kind : AccessKind} {cache : Level × Geometry}
    (hcache : cache ∈ h.caches.entries) (hdata : cache.1.serves .data = false) :
    h.previous? kind cache.1 = none := by
  cases hprevious : h.previous? kind cache.1 with
  | none => rfl
  | some level =>
    obtain ⟨near, _, _, hlt⟩ := exists_previous hcache hprevious
    have hfirst : cache.1 = .l1i := by
      cases hlevel : cache.1 with
      | l1i => rfl
      | l1d | l2 | l3 =>
        rw [hlevel] at hdata
        cases hdata
    rw [hfirst] at hlt
    exact absurd hlt (Nat.not_lt_zero _)

namespace Study

variable {s t : Study} {f f' : Findings} {p q n j : Nat} {cache : Level × Geometry} {r r' : Request}
  {site : Site}

/-- At the nearest level for its kind, an access always arrives. -/
lemma reachOf_nearest (nearest : s.hierarchy.previous? site.kind cache.1 = none) :
    s.reachOf f p site cache.1 = .always := by
  rw [reachOf, nearest]

/-- Matching actions stand at the same place among what a level is offered. -/
lemma Approximates.offersBefore (approximates : s.Approximates t)
    (hp : p < s.program.procedures.length) :
    t.offersBefore f' p cache n j = s.offersBefore f p cache n j := by
  have hactions := List.forall₂_take j (approximates.actions p hp n)
  have hoffered : List.Forall₂ (fun _ _ => True)
      (((s.actions p n).take j).filterMap (s.offered? f p cache n))
      (((t.actions p n).take j).filterMap (t.offered? f' p cache n)) := by
    refine List.rel_filterMap (fun action action' h => ?_) hactions
    cases h with
    | call => exact .some trivial
    | access hr =>
      rw [offered?, offered?, hr.site]
      split
      · exact .some trivial
      · exact .none
  exact hoffered.length_eq.symm

namespace Compared

/-- The second study has distinct addresses, too. -/
lemma distinct' (compared : s.Compared t f f') (hp : p < s.program.procedures.length) :
    t.DistinctAddresses p := by
  rw [DistinctAddresses, compared.approximates.procedure]
  exact compared.distinct p hp

/-! ### A level that serves no data -/

/-- What such a level is offered of matching actions is the same, if the footprints of callees are. -/
lemma offered_eq (compared : s.Compared t f f') (hq : q < s.program.procedures.length)
    (hcache : cache ∈ s.hierarchy.caches.entries) (hdata : cache.1.serves .data = false)
    (hcallees : ∀ c, s.program.Calls q c → ⟨q, c⟩ ∉ s.callOrder.recursive →
      t.offers f' c cache = s.offers f c cache)
    {action action' : NodeAction} (happroximates : action.Approximates action')
    (haction : action' ∈ t.actions q n) :
    t.offered? f' q cache n action' = s.offered? f q cache n action := by
  have approximates := compared.approximates
  cases happroximates with
  | @access r r' hr =>
    rw [offered?, offered?, hr.site, approximates.hierarchy, approximates.frameOffsets q hq]
    split
    · rename_i hserves
      -- the access is a fetch, which goes to one place
      have hsame : r'.references = r.references := by
        refine hr.references.resolve_right fun hkind => ?_
        rw [hkind.1, hdata] at hserves
        cases hserves
      have htarget := Request.targetAt_congr hr.site hsame s.hierarchy.finestShift cache.2
      have nearest : t.hierarchy.previous? r.site.kind cache.1 = none := by
        rw [approximates.hierarchy]
        exact Hierarchy.previous?_eq_none hcache hdata
      rw [htarget, reachOf_nearest nearest, reachOf_nearest (approximates.hierarchy ▸ nearest)]
    · rfl
  | call callee =>
    have heffect : t.calleeEffect f' q callee cache.1 = s.calleeEffect f q callee cache.1 := by
      unfold Study.calleeEffect unknownCallee
      rw [approximates.program, approximates.callOrder, approximates.clobber]
      cases hc : s.program.procedureNamed? callee with
      | none => rfl
      | some c =>
        simp only
        split
        · rfl
        · rename_i hrecursive
          obtain ⟨hfootprint, hfootprint'⟩ :=
            compared.get?_footprints (Program.procedureNamed?_lt hc) hcache
          rw [hfootprint, hfootprint', hcallees c (compared.calls hq haction hc) hrecursive]
    rw [offered?, offered?, heffect, approximates.stackBase, approximates.heights q hq]

/-- So it is offered the same of every procedure. -/
lemma offers_eq (compared : s.Compared t f f') (hcache : cache ∈ s.hierarchy.caches.entries)
    (hdata : cache.1.serves .data = false) (hq : q < s.program.procedures.length) :
    t.offers f' q cache = s.offers f q cache := by
  have approximates := compared.approximates
  refine Program.calls_induction (motive := fun q => t.offers f' q cache = s.offers f q cache)
    (fun q hq hcallees => ?_) hq
  rw [← approximates.order] at hcallees
  have hprocedure := approximates.procedure q
  have hevents (n : Nat) : (t.actions q n).filterMap (t.offered? f' q cache n) =
      (s.actions q n).filterMap (s.offered? f q cache n) := by
    have hactions := approximates.actions q hq n
    have hmem : List.Forall₂ (fun action action' => action.Approximates action' ∧
        action' ∈ t.actions q n) (s.actions q n) (t.actions q n) :=
      List.forall₂_iff_zip.2 ⟨hactions.length_eq,
        fun h => ⟨List.forall₂_zip hactions h, (List.of_mem_zip h).2⟩⟩
    have hoffered : List.Forall₂ Eq ((s.actions q n).filterMap (s.offered? f q cache n))
        ((t.actions q n).filterMap (t.offered? f' q cache n)) := by
      refine List.rel_filterMap (fun action action' h => ?_) hmem
      rw [compared.offered_eq hq hcache hdata hcallees h.1 h.2]
      cases s.offered? f q cache n action with
      | none => exact .none
      | some event => exact .some rfl
    rw [List.forall₂_eq_eq_eq] at hoffered
    exact hoffered.symm
  simp only [offers, summary, hprocedure, approximates.startsCold q, hevents]

/-- So both studies come to the same verdict on an access there. -/
lemma get?_verdicts (compared : s.Compared t f f') (hcache : cache ∈ s.hierarchy.chain r.site.kind)
    (hdata : cache.1.serves .data = false) (hq : q < s.program.procedures.length)
    (haction : (t.actions q n)[j]? = some (.access r)) :
    f'.verdicts.get? ⟨q, r.site, cache.1⟩ = f.verdicts.get? ⟨q, r.site, cache.1⟩ := by
  have approximates := compared.approximates
  have hentries := (List.mem_filter.1 hcache).1
  obtain ⟨⟨A, kept⟩, A', kept'⟩ := compared.exists_analyses hq
  obtain ⟨before, kept⟩ := kept cache hentries
  obtain ⟨before', kept'⟩ := kept' cache hentries
  obtain ⟨action, haction', hmatch⟩ :=
    exists_getElem?_of_forall₂ (approximates.actions q hq n).flip haction
  cases hmatch with
  | @access r₀ _ hr =>
    have hcache' : cache ∈ t.hierarchy.chain r.site.kind := approximates.hierarchy ▸ hcache
    have reach : s.reachOf f q r.site cache.1 = .always :=
      reachOf_nearest (Hierarchy.previous?_eq_none hentries hdata)
    have reach' : t.reachOf f' q r.site cache.1 = .always :=
      reachOf_nearest (Hierarchy.previous?_eq_none (List.mem_filter.1 hcache').1 hdata)
    obtain ⟨c', hverdict', hclass'⟩ :=
      A'.verdict_offered kept' (compared.distinct' hq) hcache' haction (reach' ▸ nofun)
    rw [hr.site] at hcache reach
    obtain ⟨c, hverdict, hclass⟩ :=
      A.verdict_offered kept (compared.distinct q hq) hcache haction' (reach ▸ nofun)
    rw [← hr.site] at hverdict reach
    -- the analyses are of the same summary, so they end with the same solutions
    have hoffers := compared.offers_eq hentries hdata hq
    have ends := A.ends_offers kept hentries
    have ends' := A'.ends_offers kept' (List.mem_filter.1 hcache').1
    rw [hoffers] at ends' hclass'
    obtain ⟨⟨_, hmust⟩, _, hmay⟩ := ends
    obtain ⟨⟨_, hmust'⟩, _, hmay'⟩ := ends'
    rw [approximates.offersBefore (f := f) hq, ← Solution.solve?_unique hmust hmust',
      ← Solution.solve?_unique hmay hmay', hclass] at hclass'
    rw [hverdict, hverdict', reach, reach', Option.some_inj.1 hclass', nest, nest,
      approximates.nests]

end Compared

/-! ### What has to be kept -/

/-- The sets of a cache that the access of a site may go to. -/
def setsOf (s : Study) (p : Nat) (site : Site) (cache : Level × Geometry) : List UInt64 :=
  (s.actions p site.node).flatMap fun
    | .access r =>
      if r.site = site then
        (r.targetAt s.hierarchy.finestShift cache.2).toList.map cache.2.setOf
      else []
    | .call _ => []

/-- The access of a site may go to a set. -/
def GoesTo (s : Study) (p : Nat) (site : Site) (cache : Level × Geometry) (set : UInt64) : Prop :=
  set ∈ s.setsOf p site cache

instance {set : UInt64} : Decidable (s.GoesTo p site cache set) :=
  inferInstanceAs (Decidable (_ ∈ _))

/-- An access goes to the sets of the lines that it may touch. -/
lemma goesTo_of_mem (haction : .access r ∈ s.actions p n) {line : Line}
    (hline : line ∈ (r.targetAt s.hierarchy.finestShift cache.2).toList) :
    s.GoesTo p r.site cache (cache.2.setOf line) := by
  rw [← site_of_mem_actions haction] at haction
  refine List.mem_flatMap.2 ⟨_, haction, ?_⟩
  simp only [if_true]
  exact List.mem_map_of_mem hline

/-- An access may go to one of the given sets, or it goes to the frame, which may lie in any. -/
def Concerns (s : Study) (q : Nat) (cache : Level × Geometry) (S : UInt64 → Prop) (r : Request) :
    Prop :=
  s.onFrame q r.site = true ∨ (r.targetAt s.hierarchy.finestShift cache.2).Meets cache.2 S

/-- The data accesses in the procedures used that are concerned, as the study `u` resolves them,
arrive at the level by the second study as they do by the first, or it is open whether they do. -/
def ArrivalsKept (s t : Study) (f f' : Findings) (cache : Level × Geometry) (p : Nat) (u : Study)
    (S : UInt64 → Prop) : Prop :=
  ∀ q, s.Uses p q → ∀ n r, .access r ∈ u.actions q n → r.site.kind = .data →
    cache.1.serves .data = true → u.Concerns q cache S r →
    t.reachOf f' q r.site cache.1 = s.reachOf f q r.site cache.1 ∨
      t.reachOf f' q r.site cache.1 = .uncertain

/-- What makes a hit by the second study one by the first: in the sets that the access goes to, the
names of the second study crowd no less, arrivals are kept, and calls fit in their counters. -/
structure HitKept (s t : Study) (f f' : Findings) (cache : Level × Geometry) (p : Nat) (site : Site) :
    Prop where
  crowds : Crowds cache.2 (s.GoesTo p site cache) (s.Renames t f' cache p)
  arrivals : s.ArrivalsKept t f f' cache p s (s.GoesTo p site cache)
  fits : ∀ summary, f'.summaries.get? ⟨p, cache.1⟩ = some summary → summary.CallsFit

/-- What makes a miss by the second study one by the first: in the sets that the second study takes
the access to, its names crowd no more, and arrivals are kept. -/
structure MissKept (s t : Study) (f f' : Findings) (cache : Level × Geometry) (p : Nat) (site : Site) :
    Prop where
  crowds : Crowds cache.2 (t.GoesTo p site cache) (flip (s.Renames t f' cache p))
  arrivals : s.ArrivalsKept t f f' cache p t (t.GoesTo p site cache)

namespace Compared

/-- Whether fetches arrive is kept at the nearest level for some kind. -/
lemma fetch_kept (compared : s.Compared t f f') (hcache : cache ∈ s.hierarchy.chain site.kind)
    (nearest : s.hierarchy.previous? site.kind cache.1 = none)
    (hq : q < s.program.procedures.length) (haction : .access r ∈ t.actions q n)
    (hfetch : r.site.kind = .fetch) :
    t.reachOf f' q r.site cache.1 = s.reachOf f q r.site cache.1 := by
  have hentries := (List.mem_filter.1 hcache).1
  unfold reachOf
  rw [compared.approximates.hierarchy]
  cases hprevious : s.hierarchy.previous? r.site.kind cache.1 with
  | none => rfl
  | some level =>
    obtain ⟨near, hnear, rfl, hlt⟩ := Hierarchy.exists_previous hentries hprevious
    -- fetches have a nearer level only where the level is the nearest one for data
    have hkind : site.kind = .data := by
      cases hkind : site.kind with
      | data => rfl
      | fetch =>
        rw [hfetch, ← hkind, nearest] at hprevious
        cases hprevious
    have hdata : near.1.serves .data = false :=
      hkind ▸ Hierarchy.not_serves_of_nearer hcache nearest (List.mem_filter.1 hnear).1 hlt
    obtain ⟨j, hj⟩ := List.mem_iff_getElem?.1 haction
    simp only
    rw [compared.get?_verdicts hnear hdata hq hj]

/-- So are all arrivals, up to those that are aside, if those of data accesses are. -/
lemma reachKept (compared : s.Compared t f f') (hcache : cache ∈ s.hierarchy.chain site.kind)
    (nearest : s.hierarchy.previous? site.kind cache.1 = none)
    (hp : p < s.program.procedures.length) {A B : Line → Prop}
    (data : ∀ q, s.Uses p q → ∀ n r r', (.access r, .access r') ∈ (s.actions q n).zip (t.actions q n) →
      r.Approximates r' → r.site.kind = .data → cache.1.serves .data = true →
      (t.reachOf f' q r.site cache.1 = s.reachOf f q r.site cache.1 ∨
        t.reachOf f' q r.site cache.1 = .uncertain) ∨
        s.onFrame q r.site = false ∧ (r.targetAt s.hierarchy.finestShift cache.2).Aside A B
          (r'.targetAt s.hierarchy.finestShift cache.2)) :
    s.ReachKept t f f' cache A B p := by
  intro q uses n r r' hactions hserves
  have hq : q < s.program.procedures.length := uses.lt hp
  have hmatch := List.forall₂_zip (compared.approximates.actions q hq n) hactions
  cases hmatch with
  | access hr =>
    cases hkind : r.site.kind with
    | data => exact data q uses n r r' hactions hr hkind (hkind ▸ hserves)
    | fetch =>
      refine .inl (.inl ?_)
      rw [← hr.site]
      exact compared.fetch_kept hcache nearest hq (List.of_mem_zip hactions).2 (hr.site ▸ hkind)

end Compared

/-! ### Verdicts -/

/-- The verdict on an access is that on what the level is offered at a place, and the access goes to
the sets of its site. -/
structure OfferedAt (s : Study) (f : Findings) (cache : Level × Geometry) (p : Nat) (site : Site)
    (n i : Nat) (v : Verdict) : Prop where
  verdict : f.verdicts.get? ⟨p, site, cache.1⟩ = some v
  classed : ∃ must may, (s.offers f p cache).Ends must may ∧
    (s.offers f p cache).classAt? must may n i = some v.classification
  sets : ∀ a, ((s.offers f p cache).eventsOf n)[i]? = some (.access a) →
    ∀ line ∈ a.target.toList, s.GoesTo p site cache (cache.2.setOf line)

/-- Accesses that may reach a level are offered to it. -/
lemma Analyses.exists_offeredAt (A : s.Analyses p f) {before : Findings}
    (kept : s.Kept p cache f before) (distinct : s.DistinctAddresses p)
    (hcache : cache ∈ s.hierarchy.chain r.site.kind)
    (haction : (s.actions p n)[j]? = some (.access r))
    (hreach : s.reachOf f p r.site cache.1 ≠ .never) :
    ∃ v, s.OfferedAt f cache p r.site n (s.offersBefore f p cache n j) v := by
  obtain ⟨hentries, hserves⟩ := List.mem_filter.1 hcache
  obtain ⟨c, hverdict, hclass⟩ := A.verdict_offered kept distinct hcache haction hreach
  refine ⟨_, hverdict, ⟨_, _, A.ends_offers kept hentries, hclass⟩, fun a ha line hline => ?_⟩
  rw [getElem?_offers haction (if_pos hserves)] at ha
  cases ha
  exact goesTo_of_mem (List.mem_of_getElem? haction) hline

namespace Compared

/-- Both studies are offered an access at the nearest level for its kind at the same place. -/
lemma exists_offeredAt (compared : s.Compared t f f') (hcache : cache ∈ s.hierarchy.caches.entries)
    (nearest : s.hierarchy.previous? site.kind cache.1 = none)
    (hp : p < s.program.procedures.length) {v' : Verdict}
    (hverdict : f'.verdicts.get? ⟨p, site, cache.1⟩ = some v') :
    cache ∈ s.hierarchy.chain site.kind ∧ ∃ n i v, s.OfferedAt f cache p site n i v ∧
      t.OfferedAt f' cache p site n i v' := by
  have approximates := compared.approximates
  have hentries' : cache ∈ t.hierarchy.caches.entries := approximates.hierarchy ▸ hcache
  obtain ⟨⟨A, kept⟩, A', kept'⟩ := compared.exists_analyses hp
  obtain ⟨before, kept⟩ := kept cache hcache
  obtain ⟨before', kept'⟩ := kept' cache hcache
  obtain ⟨n, j, r, haction, rfl, hchain', hreach'⟩ := A'.exists_request hentries' hverdict
  have hchain : cache ∈ s.hierarchy.chain r.site.kind := approximates.hierarchy ▸ hchain'
  refine ⟨hchain, n, t.offersBefore f' p cache n j, ?_⟩
  obtain ⟨v₁, offered'⟩ :=
    A'.exists_offeredAt kept' (compared.distinct' hp) hchain' haction hreach'
  obtain rfl : v₁ = v' := Option.some_inj.1 (offered'.verdict.symm.trans hverdict)
  obtain ⟨action, haction', hmatch⟩ :=
    exists_getElem?_of_forall₂ (approximates.actions p hp n).flip haction
  cases hmatch with
  | @access r₀ _ hr =>
    have hreach : s.reachOf f p r₀.site cache.1 ≠ .never := by
      rw [← hr.site, reachOf_nearest nearest]
      exact nofun
    obtain ⟨v, offered⟩ :=
      A.exists_offeredAt kept (compared.distinct p hp) (hr.site ▸ hchain) haction' hreach
    have hbefore : t.offersBefore f' p cache n j = s.offersBefore f p cache n j :=
      approximates.offersBefore hp
    rw [← hr.site, ← hbefore] at offered
    exact ⟨v, offered, offered'⟩

/-- What the second study says to hit at the nearest level hits by the first, if hits are kept. -/
theorem alwaysHit (compared : s.Compared t f f') (hcache : cache ∈ s.hierarchy.caches.entries)
    (nearest : s.hierarchy.previous? site.kind cache.1 = none)
    (hp : p < s.program.procedures.length) (kept : s.HitKept t f f' cache p site) {v' : Verdict}
    (hverdict : f'.verdicts.get? ⟨p, site, cache.1⟩ = some v')
    (hhit : v'.classification = .alwaysHit) :
    ∃ v, f.verdicts.get? ⟨p, site, cache.1⟩ = some v ∧ v.classification = .alwaysHit := by
  have approximates := compared.approximates
  obtain ⟨hchain, n, i, v, offered, offered'⟩ :=
    compared.exists_offeredAt hcache nearest hp hverdict
  have reach : s.ReachKept t f f' cache (Away cache.2 (s.GoesTo p site cache))
      (AwayBy cache.2 (s.GoesTo p site cache) (s.Renames t f' cache p)) p := by
    refine compared.reachKept hchain nearest hp fun q uses n r r' hactions hr hkind hserves => ?_
    -- an access that does not go to the sets concerned is aside, whether it arrives or not
    by_cases concerns : s.Concerns q cache (s.GoesTo p site cache) r
    · exact .inl (kept.arrivals q uses n r (List.of_mem_zip hactions).1 hkind hserves concerns)
    · obtain ⟨hframe, hmeets⟩ := not_or.1 concerns
      have hframe := Bool.eq_false_iff.2 hframe
      refine .inr ⟨hframe, hr.aside_of_fine hmeets fun x y => ?_⟩
      exact renames_access uses hactions (hkind ▸ hserves) (counts_of_not_onFrame hframe)
  have coarsens := compared.coarsens hcache reach hp
  have counts (c c' : Call) (h : CallsMatch s t f' cache (Away cache.2 (s.GoesTo p site cache)) p c c') :
      c.Counts cache.2 (s.GoesTo p site cache) (s.Renames t f' cache p) c' := by
    obtain ⟨names, n, hcall⟩ := h
    obtain ⟨-, A', kept'⟩ := compared.exists_analyses hp
    obtain ⟨before', kept'⟩ := kept' cache hcache
    have hsummary := A'.get?_summaries kept' (approximates.hierarchy ▸ hcache)
    exact names.counts kept.crowds (kept.fits _ hsummary n c' hcall)
  obtain ⟨must, may, ends, hclass⟩ := offered.classed
  obtain ⟨must', may', ends', hclass'⟩ := offered'.classed
  rw [hhit] at hclass'
  refine ⟨v, offered.verdict, Option.some_inj.1 (hclass.symm.trans ?_)⟩
  exact coarsens.alwaysHit (S := s.GoesTo p site cache) (s.linked_offers f p cache) kept.crowds counts
    offered.sets ends ends' hclass'

/-- What the second study says to miss at the nearest level misses by the first, if misses are
kept. -/
theorem alwaysMiss (compared : s.Compared t f f') (hcache : cache ∈ s.hierarchy.caches.entries)
    (nearest : s.hierarchy.previous? site.kind cache.1 = none)
    (hp : p < s.program.procedures.length) (kept : s.MissKept t f f' cache p site) {v' : Verdict}
    (hverdict : f'.verdicts.get? ⟨p, site, cache.1⟩ = some v')
    (hmiss : v'.classification = .alwaysMiss) :
    ∃ v, f.verdicts.get? ⟨p, site, cache.1⟩ = some v ∧ v.classification = .alwaysMiss := by
  have approximates := compared.approximates
  obtain ⟨hchain, n, i, v, offered, offered'⟩ :=
    compared.exists_offeredAt hcache nearest hp hverdict
  have reach : s.ReachKept t f f' cache
      (AwayBy cache.2 (t.GoesTo p site cache) (flip (s.Renames t f' cache p)))
      (Away cache.2 (t.GoesTo p site cache)) p := by
    refine compared.reachKept hchain nearest hp fun q uses n r r' hactions hr hkind hserves => ?_
    have hq : q < s.program.procedures.length := uses.lt hp
    by_cases concerns : t.Concerns q cache (t.GoesTo p site cache) r'
    · have arrival := kept.arrivals q uses n r' (List.of_mem_zip hactions).2 (hr.site ▸ hkind)
        hserves concerns
      rw [hr.site] at arrival
      exact .inl arrival
    · obtain ⟨hframe, hmeets⟩ := not_or.1 concerns
      have hframe := Bool.eq_false_iff.2 hframe
      rw [approximates.onFrame hq, hr.site] at hframe
      rw [approximates.hierarchy] at hmeets
      refine .inr ⟨hframe, hr.aside_of_rough hmeets fun x y => ?_⟩
      exact renames_access uses hactions (hkind ▸ hserves) (counts_of_not_onFrame hframe)
  have coarsens := compared.coarsens hcache reach hp
  obtain ⟨must, may, ends, hclass⟩ := offered.classed
  obtain ⟨must', may', ends', hclass'⟩ := offered'.classed
  rw [hmiss] at hclass'
  refine ⟨v, offered.verdict, Option.some_inj.1 (hclass.symm.trans ?_)⟩
  exact coarsens.alwaysMiss (S := t.GoesTo p site cache) (s.linked_offers f p cache) kept.crowds
    (fun _ _ h => h.1) offered'.sets ends ends' hclass'

end Compared

end Study

end CacheVerdict
