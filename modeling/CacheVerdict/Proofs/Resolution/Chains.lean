import CacheVerdict.Proofs.Resolution.Heights
import CacheVerdict.Proofs.Resolution.ReferenceTable

/-!
# Addresses at the end of a chain

On a chain of nodes, each with one edge into it, the search goes back the way that executions come.
The heights describe the stack pointer all along (`Described`), so that a tracker locates the byte
that is accessed: it stands for its address, or the stack pointer has entered it at a height from
which the address follows (`Tracker.Locates`). Every step back keeps this (`Tracker.Locates.stepAt`),
so a byte of the frame or of a segment that is found is the one that is accessed
(`Resolution.resolve_exact_on_chain`).
-/

namespace CacheVerdict

/-! ### Chains -/

namespace Procedure

variable {p : Procedure}

/-- The chains of nodes from an entry of the procedure to a node: nothing else leads to an entry, and
one edge to every other node. The nodes in front come the nearest first. -/
inductive Chain (p : Procedure) : Nat → List Nat → Prop where
  | entry {n : Nat} : n ∈ p.entries → p.predecessors n = [] → Chain p n []
  | edge {m n : Nat} {path : List Nat} : Chain p m path → p.predecessors n = [m] →
    Chain p n (m :: path)

/-- A chain is a trail. -/
lemma Chain.trail {n : Nat} {path : List Nat} (chain : p.Chain n path) : p.Trail n path := by
  induction chain with
  | entry hn _ => exact .entry hn
  | edge _ hpred ih => exact .edge ih (hpred ▸ List.mem_cons_self)

/-- The search sees the predecessors of the procedure. -/
lemma predecessors_node (edges : ∀ e ∈ p.edges, p.hasEnds e = true) (n : Nat) :
    ((p.searchMap p.stackHeights).node n).predecessors = p.predecessors n := by
  unfold SearchMap.node searchMap nodeIds
  simp only [List.getElem?_toArray, List.getElem?_map]
  by_cases hn : n < p.nodes.length
  · rw [List.getElem?_range hn]
    rfl
  · rw [List.getElem?_eq_none (by simpa using hn)]
    refine (List.eq_nil_iff_forall_not_mem.2 fun m hm => hn ?_).symm
    exact target_lt edges (mem_successors_iff.2 hm)

end Procedure

/-! ### Walking back along a chain -/

/-- Everything but sums of two registers. -/
def Operation.isLinear : Operation → Bool
  | .add _ _ (.register _) _ => false
  | _ => true

/-- A linear operation assigns a constant, or the sum of one register and a constant. -/
lemma Operation.Assigns.of_linear {o : Operation} {dst : Register} {sources : List Register}
    {v : Int64} (assigns : o.Assigns dst sources v) (linear : o.isLinear = true) :
    sources = [] ∨ o.isPage = false ∧ ∃ r, sources = [r] := by
  cases assigns with
  | moveImmediate | page => exact .inl rfl
  | addRegister => cases linear
  | moveRegister | addImmediate | subtractImmediate | writeback => exact .inr ⟨rfl, _, rfl⟩

namespace Tracker

variable {t t' : Tracker} {base : Address} {regs : RegisterFile} {a : Address}

/-- A tracker that follows one register takes in the source of a linear operation, whatever it is. -/
lemma Single.apart (single : t.Single) {o : Operation} (linear : o.isLinear = true) : t.Apart o := by
  intro dst sources v assigns hdst
  have hpending : (t.replace dst []).pending = {} := single.pending_erase hdst
  refine ⟨⟨?_, fun r _ _ => hpending ▸ OrderedSet.not_mem_empty r⟩, fun _ => ?_⟩
  · obtain rfl | ⟨-, r, rfl⟩ := assigns.of_linear linear
    · exact List.nodup_nil
    · exact (List.nodup_singleton r).filter _
  · rw [single.base hdst]
    rfl

/-- The tracker leads to a byte, with the registers as they are and with the stack pointer at `base`
on entry: it stands for the address, or the stack pointer has entered it and the address follows from
the height there, if that is known. -/
inductive Locates (base : Address) (regs : RegisterFile) (a : Address) : Tracker → Prop where
  | follows {t : Tracker} : t.Single → t.Clean → t.stackUses = 0 → t.value regs = a →
    Locates base regs a t
  | framed {t : Tracker} : t.isResolved = true → t.stackUses = 1 →
    (∀ h, t.stackHeight = .known h → a = base + h.toUInt64 + t.offset.toUInt64) →
    Locates base regs a t

/-- Behind a linear assignment, the tracker follows one register at most, or the stack pointer has
entered. -/
lemma Single.assigned (single : t.Single) (huses : t.stackUses = 0) {o : Operation}
    (linear : o.isLinear = true) {dst : Register} {sources : List Register} {v : Int64}
    (assigns : o.Assigns dst sources v) (hdst : dst ∈ t.pending) :
    (t.assigned o.isPage dst sources v).Single ∧ (t.assigned o.isPage dst sources v).stackUses = 0 ∨
      (t.assigned o.isPage dst sources v).isResolved = true ∧
        (t.assigned o.isPage dst sources v).stackUses = 1 ∧
        (t.assigned o.isPage dst sources v).base = none := by
  have herase := single.pending_erase hdst
  have hbase := single.base hdst
  obtain rfl | ⟨hpage, r, rfl⟩ := assigns.of_linear linear
  · have hpending : (t.assigned o.isPage dst [] v).pending = {} := by
      unfold Tracker.assigned
      split <;> exact herase
    refine .inl ⟨⟨fun hx => ?_, fun hx => ?_⟩, ?_⟩
    · exact absurd (hpending ▸ hx) (OrderedSet.not_mem_empty _)
    · exact absurd (hpending ▸ hx) (OrderedSet.not_mem_empty _)
    · unfold Tracker.assigned
      split <;> exact huses
  · have hassigned : t.assigned o.isPage dst [r] v =
        (({ t with pending := {} } : Tracker).track r).shift v := by
      rw [Tracker.assigned, hpage, replace, herase]
      rfl
    rw [hassigned, track]
    cases hr : r.isStackPointer with
    | true => exact .inr ⟨rfl, congrArg (· + 1) huses, hbase⟩
    | false =>
      have hmem {x : Register} (hx : x ∈ OrderedSet.insert {} r) : x = r :=
        (OrderedSet.mem_insert.1 hx).resolve_right (OrderedSet.not_mem_empty x)
      exact .inl ⟨⟨fun hx hy => (hmem hx).trans (hmem hy).symm, fun _ => hbase⟩, huses⟩

/-- Where the stack pointer has entered, the address is the stack pointer and the offset. -/
lemma value_of_resolved (hresolved : t.isResolved = true) (huses : t.stackUses = 1)
    (hbase : t.base = none) (regs : RegisterFile) :
    t.value regs = regs ⟨"sp"⟩ + t.offset.toUInt64 := by
  have hnil : t.pending.toList = [] := List.isEmpty_iff.1 hresolved
  rw [value, hnil, hbase, huses]
  simp [add_comm]

/-- A tracker that stands for an address leads to it from in front of a linear instruction, too. Where
the stack pointer enters, its height is the one before the instruction. -/
lemma locates_of_step {ρ : Reading} {i : Instruction} {h : StackHeight} (single : t.Single)
    (clean : t.Clean) (huses : t.stackUses = 0)
    (hvalue : t.value (i.operation.canonical.execute ρ regs) = a)
    (linear : i.operation.isLinear = true) (hd : h.Describes base (regs ⟨"sp"⟩))
    (hstep : t.step i = .ok t') :
    (if t.stackUses < t'.stackUses then { t' with stackHeight := h } else t').Locates base regs a := by
  have hvalue' : t'.value regs = a := by
    rw [← clean.value_step hstep (single.apart linear) ρ regs, value_of_sp clean (.inl huses), hvalue]
  obtain ⟨rfl, -⟩ | ⟨dst, sources, v, assigns, hdst, heq⟩ := step_cases clean hstep
  · rw [if_neg (lt_irrefl _)]
    exact .follows single clean huses hvalue'
  · have hassigned := single.assigned huses linear assigns hdst
    rw [← heq] at hassigned
    obtain ⟨single', huses'⟩ | ⟨hresolved, huses', hbase⟩ := hassigned
    · rw [if_neg (by omega)]
      exact .follows single' (clean.step hstep) huses' hvalue'
    · rw [if_pos (by omega)]
      refine .framed hresolved huses' fun distance hknown => ?_
      have hknown : h = .known distance := hknown
      rw [hknown] at hd
      have hsp : regs ⟨"sp"⟩ = base + distance.toUInt64 := hd
      rw [← hvalue', value_of_resolved hresolved huses' hbase, hsp]

/-- Walking backwards over a linear instruction, before which the height describes the stack pointer,
the tracker leads to the same byte. -/
lemma Locates.stepAt {ρ : Reading} {i : Instruction} {h : StackHeight}
    (locates : t.Locates base (i.operation.canonical.execute ρ regs) a)
    (linear : i.operation.isLinear = true) (hd : h.Describes base (regs ⟨"sp"⟩))
    (hstep : t.stepAt i h = .ok t') : t'.Locates base regs a := by
  unfold Tracker.stepAt at hstep
  by_cases hresolved : t.isResolved = true
  · rw [if_pos hresolved] at hstep
    cases hstep
    cases locates with
    | follows single clean huses hvalue =>
      refine .follows single clean huses ?_
      rw [← hvalue, value_eq_address hresolved huses, value_eq_address hresolved huses]
    | framed _ huses hheight => exact .framed hresolved huses hheight
  · rw [if_neg hresolved] at hstep
    cases locates with
    | framed hframed => exact absurd hframed hresolved
    | follows single clean huses hvalue =>
      cases hok : t.step i with
      | error => simp [hok, Except.map] at hstep
      | ok t₁ =>
        simp only [hok, Except.map, Except.ok.injEq] at hstep
        exact hstep ▸ locates_of_step single clean huses hvalue linear hd hok

/-- The same holds for code, as far as it lies below the access. -/
lemma Locates.scan {ρ : Reading} {before : Address} {code : List (Instruction × StackHeight)}
    (locates : t.Locates base (ρ.run regs ((code.map Prod.fst).map .canonical)) a)
    (linear : ∀ e ∈ code, e.1.operation.isLinear = true) (described : Described ρ base regs code)
    (below : ∀ e ∈ code, e.1.address < before) (h : t.scan before code.reverse = .ok t') :
    t'.Locates base regs a := by
  induction code generalizing t' regs with
  | nil =>
    cases h
    exact locates
  | cons e code ih =>
    rw [List.forall_mem_cons] at linear below
    rw [List.reverse_cons] at h
    obtain ⟨t₁, hrest, hfirst⟩ := exists_of_scan_append h
    have locates₁ := ih locates linear.2 described.2 below.2 hrest
    obtain ⟨t₂, hstep, hlast⟩ := exists_of_scan_cons hfirst
    cases hlast
    rw [if_pos below.1] at hstep
    exact locates₁.stepAt linear.1 described.1 hstep

/-- Counting visits does not change what is located. -/
lemma Locates.withVisits (locates : t.Locates base regs a) (visits : Nat) :
    (t.withVisits visits).Locates base regs a := by
  cases locates with
  | follows single clean huses hvalue => exact .follows ⟨single.one, single.base⟩ clean huses hvalue
  | framed hresolved huses hheight => exact .framed hresolved huses hheight

variable {m : SearchMap} {before : Address}

/-- The tracker of an access with one address register leads to the byte that is accessed. -/
lemma locates_of_ofAccess {s : Settings} {n : Nat} {here : Address} {access : MemoryAccess}
    {r : Register} (hone : access.targets = [r]) (h : ofAccess s m n here access = .ok t)
    (hd : (heightAt m n here).Describes base (regs ⟨"sp"⟩)) (ρ : Reading) :
    t.Locates base regs (access.canonical.address ρ regs) := by
  obtain ⟨v, isRange, hoffset, heq, hheight⟩ := exists_of_ofAccess h
  rw [hone] at heq
  cases hr : r.isStackPointer with
  | true =>
    have hstart : start [r] v isRange = { offset := v, isRange, stackUses := 1 } := by
      simp [start, track, hr]
    rw [hstart] at heq
    have hrelative : t.isStackRelative = true := by rw [heq]; rfl
    refine .framed ?_ ?_ fun distance hknown => ?_
    · rw [heq]
      rfl
    · rw [heq]
    · rw [← hheight hrelative, hknown] at hd
      have hsp : regs ⟨"sp"⟩ = base + distance.toUInt64 := hd
      have hv : t.offset = v := by rw [heq]
      simp [MemoryAccess.address, MemoryAccess.canonical, hone,
        Register.canonical_of_stackPointer hr, hoffset, hsp, hv]
  | false =>
    have hclean := clean_start [r] v isRange
    have huses : (start [r] v isRange).stackUses = 0 := by simp [start, track, hr]
    have huses : t.stackUses = 0 := by rw [heq]; exact huses
    obtain ⟨single, hvalue⟩ := single_of_ofAccess hone h huses
    have haddress : access.canonical.address ρ regs = access.address ρ regs := by
      simp [MemoryAccess.address, MemoryAccess.canonical, hone, Register.canonical_of_other hr]
    refine .follows single ?_ huses ((hvalue ρ regs).trans haddress.symm)
    rw [heq]
    exact hclean

section

variable {p : Procedure} {n : Nat} {path : List Nat}

/-- From a node of a chain, the search goes back along the chain. -/
lemma searched_initial (edges : ∀ e ∈ p.edges, p.hasEnds e = true) (chain : p.Chain n path)
    {queue : Queue Nat} (hqueue : queue.toList = p.predecessors n) (left : Nat) :
    t.searched (p.searchMap p.stackHeights) before left queue <+: path := by
  induction chain generalizing left queue t with
  | @entry n _ hnone =>
    have hpop : queue.pop? = none := Queue.pop?_eq_none.2 (hqueue.trans hnone)
    unfold searched
    rw [hpop]
    split <;> exact List.nil_prefix
  | @edge m n path _ hpred ih =>
    unfold searched
    split
    · exact List.nil_prefix
    · cases hpop : queue.pop? with
      | none => exact List.nil_prefix
      | some next =>
        obtain ⟨x, rest⟩ := next
        have hlist := Queue.toList_of_pop? hpop
        rw [hqueue, hpred, List.cons.injEq] at hlist
        obtain ⟨rfl, hrest⟩ := hlist
        cases left with
        | zero => exact List.nil_prefix
        | succ left =>
          refine (List.prefix_cons_inj m).2 ?_
          cases t.scan before ((p.searchMap p.stackHeights).node m).code with
          | error => exact List.nil_prefix
          | ok t₁ =>
            by_cases hresolved : t₁.isResolved = true
            · have hstop (queue : Queue Nat) : ({ t₁ with visited := t₁.visited + 1 } :
                  Tracker).searched (p.searchMap p.stackHeights) before left queue = [] := by
                unfold searched
                exact if_pos hresolved
              simp only [hstop]
              exact List.nil_prefix
            · simp only [if_neg hresolved, Procedure.predecessors_node edges]
              exact ih (by rw [Queue.toList_pushAll, ← hrest, List.nil_append]) left

/-- Walking back along a path on which all code lies below the access. -/
lemma Locates.walk (edges : ∀ e ∈ p.edges, p.hasEnds e = true) (trail : p.Trail n path)
    {ρ : Reading} (linear : ∀ i ∈ p.codeAlong path, i.operation.isLinear = true)
    (below : ∀ i ∈ p.codeAlong path, i.address < before)
    (locates : t.Locates (regs ⟨"sp"⟩) (ρ.run regs ((p.codeAlong path).map .canonical)) a)
    (h : t.walk (p.searchMap p.stackHeights) before path = .ok t') :
    t'.Locates (regs ⟨"sp"⟩) regs a := by
  induction trail generalizing t with
  | entry =>
    cases h
    exact locates
  | @edge m n path trail _ ih =>
    rw [p.codeAlong_cons] at linear below locates
    obtain ⟨t₁, hscan, hwalk⟩ := exists_of_walk_cons h
    rw [p.code_node] at hscan
    have hcode : ((p.codeOf m).zip (p.stackHeights.beforeEach m)).map Prod.fst = p.codeOf m :=
      List.map_fst_zip (p.length_beforeEach m).ge
    have hmem {e : Instruction × StackHeight}
        (he : e ∈ (p.codeOf m).zip (p.stackHeights.beforeEach m)) :
        e.1 ∈ p.codeAlong path ++ p.codeOf m :=
      List.mem_append_right _ (hcode ▸ List.mem_map_of_mem he)
    rw [List.map_append, ρ.run_append, ← hcode] at locates
    have locates₁ := locates.scan (fun e he => linear e.1 (hmem he)) (trail.described edges ρ regs)
      (fun e he => below e.1 (hmem he)) hscan
    exact ih (fun i hi => linear i (List.mem_append_left _ hi))
      (fun i hi => below i (List.mem_append_left _ hi)) locates₁ hwalk

/-- Where addresses rise, what is noted at the access is the height before it. -/
lemma heightAt_eq {i : Instruction} {h : StackHeight} {front behind : List (Instruction × StackHeight)}
    (hcode : (m.node n).code = (front ++ (i, h) :: behind).reverse)
    (below : ∀ e ∈ front, e.1.address < i.address) : heightAt m n i.address = h := by
  have hfront : front.find? (fun e => decide (e.1.address = i.address)) = none := by
    refine List.find?_eq_none.2 fun e he => ?_
    simpa using (UInt64.ne_of_lt (below e he))
  rw [heightAt, hcode, List.reverse_reverse, List.find?_append, hfront, Option.none_or,
    List.find?_cons_of_pos (by simp)]

/-- The search for the address of an access in a node of a chain goes back along the chain. -/
lemma route_initial (edges : ∀ e ∈ p.edges, p.hasEnds e = true) (chain : p.Chain n path)
    (s : Settings) (i : Instruction) :
    t.route s (p.searchMap p.stackHeights) n i <+: n :: path := by
  refine (List.prefix_cons_inj n).2 ?_
  cases t.scan i.address ((p.searchMap p.stackHeights).node n).code with
  | error => exact List.nil_prefix
  | ok t₁ =>
    refine searched_initial edges chain ?_ _
    rw [Queue.toList_ofList, Procedure.predecessors_node edges]

variable {i : Instruction} {front behind : List Instruction} {access : MemoryAccess} {r : Register}
  {s : Settings}

/-- Walking back through the node of the access, of which what stands in front of it counts. -/
lemma locates_of_scan (edges : ∀ e ∈ p.edges, p.hasEnds e = true) (trail : p.Trail n path)
    (hcode : p.codeOf n = front ++ i :: behind)
    (rising : (p.codeOf n).Pairwise fun i j => i.address < j.address)
    (linear : ∀ i ∈ p.codeOf n, i.operation.isLinear = true) (hone : access.targets = [r])
    (hstart : ofAccess s (p.searchMap p.stackHeights) n i.address access = .ok t)
    (hscan : t.scan i.address ((p.searchMap p.stackHeights).node n).code = .ok t') (ρ : Reading)
    (regs : RegisterFile) :
    t'.Locates (regs ⟨"sp"⟩) (ρ.run regs ((p.codeAlong path).map .canonical))
      (access.canonical.address ρ (ρ.run regs ((p.codeAlong path ++ front).map .canonical))) := by
  have hfst : ((p.codeOf n).zip (p.stackHeights.beforeEach n)).map Prod.fst = front ++ i :: behind :=
    (List.map_fst_zip (p.length_beforeEach n).ge).trans hcode
  obtain ⟨fs, rest, hzip, rfl, hrest⟩ := List.map_eq_append_iff.1 hfst
  obtain ⟨⟨i, height⟩, bs, rfl, rfl, rfl⟩ := List.map_eq_cons_iff.1 hrest
  have hnode := (p.code_node n).trans (congrArg List.reverse hzip)
  have described := trail.described edges ρ regs
  rw [hzip, described_append] at described
  rw [hcode] at rising linear
  rw [List.pairwise_append, List.pairwise_cons] at rising
  obtain ⟨-, ⟨hbehind, -⟩, hfront⟩ := rising
  have below : ∀ e ∈ fs, e.1.address < i.address := fun e he =>
    hfront e.1 (List.mem_map_of_mem he) i List.mem_cons_self
  rw [List.map_append, ρ.run_append]
  have locates := locates_of_ofAccess hone hstart (heightAt_eq hnode below ▸ described.2.1) ρ
  rw [hnode, List.reverse_append] at hscan
  obtain ⟨t₁, hskip, hscan⟩ := exists_of_scan_append hscan
  have hsame : t.scan i.address ((i, height) :: bs).reverse = .ok t := by
    refine scan_of_not_below fun e he => ?_
    rcases List.mem_cons.1 (List.mem_reverse.1 he) with rfl | he
    · exact UInt64.lt_irrefl _
    · exact UInt64.not_lt.2 (UInt64.le_of_lt (hbehind e.1 (List.mem_map_of_mem he)))
  obtain rfl := Except.ok.inj (hsame.symm.trans hskip)
  exact locates.scan (fun e he => linear e.1 (List.mem_append_left _ (List.mem_map_of_mem he)))
    described.1 below hscan

/-- The search for an access with one address register, at the end of a chain, leads to the byte that
is accessed, whatever the registers hold on entry. -/
lemma locates_of_backtrack (edges : ∀ e ∈ p.edges, p.hasEnds e = true) (chain : p.Chain n path)
    (rising : (p.codeAlong (n :: path)).Pairwise fun i j => i.address < j.address)
    (linear : ∀ i ∈ p.codeAlong (n :: path), i.operation.isLinear = true)
    (hcode : p.codeOf n = front ++ i :: behind) (haccess : i.operation = .access access)
    (hone : access.targets = [r])
    (found : backtrack s (p.searchMap p.stackHeights) n i = .ok t) (ρ : Reading)
    (regs : RegisterFile) :
    t.isResolved = true ∧ t.Locates (regs ⟨"sp"⟩) regs
      (access.canonical.address ρ (ρ.run regs ((p.codeAlong path ++ front).map .canonical))) := by
  obtain ⟨hresolved, t₀, visits, hstart, hroute⟩ := exists_of_backtrack haccess found
  have hpath := walk_of_initial (route_initial edges chain s i) hroute hresolved
  obtain ⟨t₁, hscan, hwalk⟩ := exists_of_walk_cons hpath
  rw [p.codeAlong_cons] at rising linear
  obtain ⟨-, rising, hacross⟩ := List.pairwise_append.1 rising
  have hi : i ∈ p.codeOf n := hcode ▸ List.mem_append_right _ List.mem_cons_self
  have locates₁ := locates_of_scan edges chain.trail hcode rising
    (fun j hj => linear j (List.mem_append_right _ hj)) hone hstart hscan ρ regs
  have locates := locates₁.walk edges chain.trail (fun j hj => linear j (List.mem_append_left _ hj))
    (fun j hj => hacross j hj i hi) hwalk
  exact ⟨hresolved, locates.withVisits t.visited⟩

end

/-- The address of a tracker, if it is one without wrapping around. -/
lemma address_of_toNat (h : ((t.base.getD 0).toNat : Int) + t.offset.toInt = a.toNat) :
    t.address = a := by
  have hbits := congrArg (BitVec.ofInt 64) h
  rw [BitVec.ofInt_add] at hbits
  apply UInt64.toBitVec_inj.1
  simpa [address] using hbits

end Tracker

/-! ### What the search concludes -/

namespace Resolution

variable {s : Settings} {segments : Segments} {lineSize : Nat} {i : Instruction} {t : Tracker}
  {a : Address}

/-- A byte of the frame is found where the stack pointer has entered once, at a known height. -/
lemma height_of_stack {offset : Int64}
    (h : (ofTracker s segments lineSize i t).outcome = .stack a offset) :
    t.stackUses = 1 ∧ ∃ height, t.stackHeight = .known height ∧ offset = height + t.offset := by
  unfold ofTracker at h
  split at h
  · rename_i hrelative
    have hpos : 0 < t.stackUses := by simpa [Tracker.isStackRelative] using hrelative
    unfold ofFrame at h
    split at h
    · cases h
    · rename_i hone
      refine ⟨by omega, ?_⟩
      cases hheight : t.stackHeight with
      | unreached | unknown =>
        rw [hheight] at h
        cases h
      | known height =>
        rw [hheight] at h
        cases h
        exact ⟨height, rfl, rfl⟩
  · simp only at h
    split at h
    · unfold ofSegment at h
      split at h
      · cases h
      · split at h <;> cases h
    · cases h

/-- An address is found where the stack pointer has not entered. -/
lemma address_of_exact (h : (ofTracker s segments lineSize i t).outcome = .exact a) :
    t.stackUses = 0 ∧ t.address = a := by
  unfold ofTracker at h
  split at h
  · unfold ofFrame at h
    split at h
    · cases h
    · split at h <;> cases h
  · rename_i hrelative
    refine ⟨by simpa [Tracker.isStackRelative] using hrelative, ?_⟩
    simp only at h
    split at h
    · rename_i found segment hsegment
      have hexact : a = found := by
        unfold ofSegment at h
        split at h
        · cases h
        · split at h
          · cases h
            rfl
          · cases h
      rw [hexact]
      exact Tracker.address_of_toNat (find?_of_segmentAt? hsegment).1
    · cases h

/-- Along a chain of nodes with rising addresses, what is concluded about an access with one address
register is exact whatever the registers hold on entry: a byte of the frame is touched at that
offset from the stack pointer on entry, and an address is touched itself. -/
theorem resolve_exact_on_chain (p : Procedure) (edges : ∀ e ∈ p.edges, p.hasEnds e = true) (n : Nat)
    (path : List Nat) (chain : p.Chain n path)
    (rising : (p.codeAlong (n :: path)).Pairwise fun i j => i.address < j.address)
    (linear : ∀ i ∈ p.codeAlong (n :: path), i.operation.isLinear = true) (i : Instruction)
    (front behind : List Instruction) (hcode : p.codeOf n = front ++ i :: behind)
    (access : MemoryAccess) (haccess : i.operation = .access access) (r : Register)
    (hone : access.targets = [r]) (s : Settings) (segments : Segments) (lineSize : Nat) :
    (∀ a offset,
      (resolve s segments lineSize (p.searchMap p.stackHeights) n i).outcome = .stack a offset →
      ∀ (ρ : Reading) (regs : RegisterFile),
        access.canonical.address ρ (ρ.run regs ((p.codeAlong path ++ front).map .canonical)) =
          regs ⟨"sp"⟩ + offset.toUInt64) ∧
    ∀ a, (resolve s segments lineSize (p.searchMap p.stackHeights) n i).outcome = .exact a →
      ∀ (ρ : Reading) (regs : RegisterFile),
        access.canonical.address ρ (ρ.run regs ((p.codeAlong path ++ front).map .canonical)) = a := by
  unfold resolve
  cases found : Tracker.backtrack s (p.searchMap p.stackHeights) n i with
  | error fault => exact ⟨nofun, nofun⟩
  | ok t =>
    have hfound := Tracker.locates_of_backtrack edges chain rising linear hcode haccess hone found
    refine ⟨fun a offset hstack ρ regs => ?_, fun a hexact ρ regs => ?_⟩
    · obtain ⟨huses, height, hheight, rfl⟩ := height_of_stack hstack
      obtain ⟨-, locates⟩ := hfound ρ regs
      cases locates with
      | follows _ _ hnone _ => exact absurd (huses.symm.trans hnone) one_ne_zero
      | framed _ _ hframe =>
        rw [Int64.toUInt64_add, ← add_assoc]
        exact hframe height hheight
    · obtain ⟨huses, rfl⟩ := address_of_exact hexact
      obtain ⟨hresolved, locates⟩ := hfound ρ regs
      cases locates with
      | framed _ hone => exact absurd (hone.symm.trans huses) one_ne_zero
      | follows _ _ _ hvalue =>
        rw [← hvalue]
        exact Tracker.value_eq_address hresolved huses regs

/-! ### A chain of three nodes -/

/-- A load from the frame. -/
def frameLoad : Instruction :=
  ⟨0x1014, .access (loadAt "x2"), "ldr x0, [x2]"⟩

/-- A load from a segment. -/
def dataLoad : Instruction :=
  ⟨0x1018, .access { loadAt "x1" with offset := some "8" }, "ldr x3, [x1, #8]"⟩

/-- A frame of 32 bytes and a pointer into it, moved by a store in the next node, are set up before
two loads. -/
def threeNodes : Procedure where
  name := "main"
  nodes :=
    [⟨"enter", .straight
      [⟨0x1000, .add ⟨"sp"⟩ ⟨"sp"⟩ (.immediate "32") true, "sub sp, sp, #32"⟩,
       ⟨0x1004, .move ⟨"x29"⟩ (.register ⟨"sp"⟩), "mov x29, sp"⟩]⟩,
     ⟨"store", .straight
      [⟨0x1008, .access ⟨[⟨"x29"⟩], some "-16", false, true, some "-16"⟩, "str x0, [x29, #-16]!"⟩,
       ⟨0x100c, .page ⟨"x1"⟩ "0x2000", "adrp x1, 2000"⟩]⟩,
     ⟨"load", .straight
      [⟨0x1010, .add ⟨"x2"⟩ ⟨"x29"⟩ (.immediate "24") false, "add x2, x29, #24"⟩,
       frameLoad, dataLoad]⟩]
  edges := [⟨none, 0⟩, ⟨some 0, 1⟩, ⟨some 1, 2⟩]

/-- The three nodes stand in a chain. -/
lemma chain_threeNodes : threeNodes.Chain 2 [1, 0] :=
  .edge (.edge (.entry (by decide) rfl) rfl) rfl

/-- The first load touches the byte 24 below the stack pointer on entry, the second one `0x2008`. -/
theorem resolve_exact_on_chain_threeNodes :
    (∀ (ρ : Reading) (regs : RegisterFile),
      (loadAt "x2").canonical.address ρ
        (ρ.run regs ((threeNodes.codeAlong [1, 0] ++ (threeNodes.codeOf 2).take 1).map .canonical)) =
          regs ⟨"sp"⟩ + Int64.toUInt64 (-24)) ∧
    ∀ (ρ : Reading) (regs : RegisterFile),
      ({ loadAt "x1" with offset := some "8" } : MemoryAccess).canonical.address ρ
        (ρ.run regs ((threeNodes.codeAlong [1, 0] ++ (threeNodes.codeOf 2).take 2).map .canonical)) =
          0x2008 := by
  have hedges : ∀ e ∈ threeNodes.edges, threeNodes.hasEnds e = true := by decide
  have hrising : (threeNodes.codeAlong [2, 1, 0]).Pairwise fun i j => i.address < j.address := by
    decide
  have hlinear : ∀ i ∈ threeNodes.codeAlong [2, 1, 0], i.operation.isLinear = true := by decide
  constructor
  · refine (resolve_exact_on_chain threeNodes hedges 2 [1, 0] chain_threeNodes hrising hlinear
      frameLoad _ [dataLoad] rfl (loadAt "x2") rfl ⟨"x2"⟩ rfl {} {} 64).1 0x7fffefe8 (-24) ?_
    decide +kernel
  · refine (resolve_exact_on_chain threeNodes hedges 2 [1, 0] chain_threeNodes hrising hlinear
      dataLoad _ [] rfl { loadAt "x1" with offset := some "8" } rfl ⟨"x1"⟩ rfl { exactAddresses := true }
      ⟨[], [⟨".data", "WA", 0x2000, 0x2100⟩]⟩ 64).2 0x2008 ?_
    decide +kernel

end Resolution

end CacheVerdict
