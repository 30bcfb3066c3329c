import CacheVerdict.Instruction.Decode
import CacheVerdict.Proofs.Text.Blank

/-!
# Operands and the commas between them

A comma separates operands only outside brackets. A text whose commas all stand inside brackets
(`Operand.Guarded`) and whose brackets are closed (`Operand.Whole`) can be an operand that others
follow. Every text falls apart into such pieces in front of its separating commas and a last piece
behind them (`Operand.exists_pieces`), and splitting gives these pieces, trimmed, without the last if
it is blank (`Operand.Pieces.split_eq`). So operands that are joined by commas are read back
(`Operand.split_joined`).
-/

namespace CacheVerdict.Operand

open Text

/-- The bracket depth behind a text, in front of which `depth` brackets are open. -/
def depthBehind (depth : Nat) (s : List Char) : Nat :=
  s.foldl depthAfter depth

/-- Every comma of the text stands inside brackets, `depth` of which are open in front of it. -/
def Guarded (depth : Nat) (s : List Char) : Prop :=
  ∀ before after, s = before ++ ',' :: after → depthBehind depth before ≠ 0

/-- Every comma stands inside brackets, and all brackets are closed. -/
structure Whole (s : List Char) : Prop where
  guarded : Guarded 0 s
  closed : depthBehind 0 s = 0

/-- Neither a bracket nor a comma is among the characters. -/
def Neutral (s : List Char) : Prop :=
  ∀ c ∈ s, c ≠ '[' ∧ c ≠ ']' ∧ c ≠ ','

instance (s : List Char) : Decidable (Neutral s) :=
  decidable_of_iff ((s.all fun c => c != '[' && c != ']' && c != ',') = true)
    (by simp [Neutral, and_assoc])

/-- Operands one after another, with a comma and any blanks around it between them. -/
inductive Joined : List (List Char) → List Char → Prop where
  | single (w : List Char) : Joined [w] w
  | cons {w before after s : List Char} {ws : List (List Char)} : Blanks before → Blanks after →
    Joined ws s → Joined (w :: ws) (w ++ before ++ ',' :: (after ++ s))

/-- A text as pieces with a comma behind each, and a last piece. -/
structure Pieces (pieces : List (List Char)) (last s : List Char) : Prop where
  text : s = pieces.flatMap (· ++ [',']) ++ last
  whole : ∀ p ∈ pieces, Whole p
  guarded : Guarded 0 last

variable {depth : Nat} {c : Char} {s t p last : List Char} {ws pieces : List (List Char)}

/-! ### Brackets and commas -/

/-- Depths add up along a text. -/
lemma depthBehind_append (depth : Nat) (s t : List Char) :
    depthBehind depth (s ++ t) = depthBehind (depthBehind depth s) t :=
  List.foldl_append

/-- There is no comma in an empty text. -/
lemma guarded_nil (depth : Nat) : Guarded depth [] := by
  intro before after h
  cases before <;> cases h

/-- A comma is guarded where brackets are open before it. -/
lemma guarded_cons_iff :
    Guarded depth (c :: s) ↔ (c = ',' → depth ≠ 0) ∧ Guarded (depthAfter depth c) s := by
  constructor
  · intro h
    refine ⟨?_, fun before after hs => ?_⟩
    · rintro rfl
      exact h [] s rfl
    · exact h (c :: before) after (congrArg (c :: ·) hs)
  · rintro ⟨hc, hs⟩ before after h
    cases before with
    | nil => exact hc (List.cons.inj h).1
    | cons d before =>
      obtain ⟨rfl, rfl⟩ := List.cons.inj h
      exact hs before after rfl

instance decidableGuarded : (depth : Nat) → (s : List Char) → Decidable (Guarded depth s)
  | depth, [] => isTrue (guarded_nil depth)
  | depth, c :: s =>
    have := decidableGuarded (depthAfter depth c) s
    decidable_of_iff _ guarded_cons_iff.symm

instance (s : List Char) : Decidable (Whole s) :=
  decidable_of_iff (Guarded 0 s ∧ depthBehind 0 s = 0)
    ⟨fun h => ⟨h.1, h.2⟩, fun h => ⟨h.guarded, h.closed⟩⟩

/-- The second part of a text is guarded at the depth behind the first one. -/
lemma guarded_append_iff :
    Guarded depth (s ++ t) ↔ Guarded depth s ∧ Guarded (depthBehind depth s) t := by
  induction s generalizing depth with
  | nil => exact ⟨fun h => ⟨guarded_nil depth, h⟩, fun h => h.2⟩
  | cons c s ih =>
    rw [List.cons_append, guarded_cons_iff, guarded_cons_iff, ih, and_assoc]
    exact Iff.rfl

/-- Only brackets change the depth. -/
lemma depthAfter_of_ne (hopen : c ≠ '[') (hclose : c ≠ ']') : depthAfter depth c = depth := by
  unfold depthAfter
  split
  · exact absurd rfl hopen
  · exact absurd rfl hclose
  · rfl

/-- A text without brackets and commas separates nothing. -/
lemma Neutral.guarded (h : Neutral s) (depth : Nat) : Guarded depth s := by
  rintro before after rfl
  exact absurd rfl (h ',' (by simp)).2.2

/-- It closes no bracket either. -/
lemma Neutral.depthBehind (h : Neutral s) (depth : Nat) : depthBehind depth s = depth := by
  induction s with
  | nil => rfl
  | cons c s ih =>
    obtain ⟨⟨hopen, hclose, -⟩, hs⟩ := List.forall_mem_cons.1 h
    rw [Operand.depthBehind, List.foldl_cons, depthAfter_of_ne hopen hclose]
    exact ih hs

/-- A text without commas and brackets is whole. -/
lemma Neutral.whole (h : Neutral s) : Whole s :=
  ⟨h.guarded 0, h.depthBehind 0⟩

/-- Blanks contain neither commas nor brackets. -/
lemma neutral_blanks (h : Blanks s) : Neutral s := by
  intro c hc
  have hblank := h c hc
  refine ⟨?_, ?_, ?_⟩ <;> (rintro rfl; cases hblank)

/-- Whole texts together are whole. -/
lemma Whole.append (hs : Whole s) (ht : Whole t) : Whole (s ++ t) where
  guarded := guarded_append_iff.2 ⟨hs.guarded, hs.closed.symm ▸ ht.guarded⟩
  closed := by rw [depthBehind_append, hs.closed, ht.closed]

/-- Blanks around an operand are part of no bracket. -/
lemma Whole.blanks {before after : List Char} (hbefore : Blanks before) (h : Whole s)
    (hafter : Blanks after) : Whole (before ++ s ++ after) :=
  ((neutral_blanks hbefore).whole.append h).append (neutral_blanks hafter).whole

/-- What guards the commas of a text guards those of the trimmed text. -/
lemma Guarded.trim (h : Guarded 0 s) : Guarded 0 (trim s) := by
  obtain ⟨before, after, hbefore, -, hs⟩ := exists_blanks_trim s
  rw [← hs, guarded_append_iff, guarded_append_iff, (neutral_blanks hbefore).depthBehind] at h
  exact h.1.2

/-! ### Splitting -/

/-- No piece ends inside a text whose commas are guarded. -/
lemma splitFrom_append (h : Guarded depth s) (current rest : List Char) :
    splitFrom depth current (s ++ rest) = splitFrom (depthBehind depth s) (current ++ s) rest := by
  induction s generalizing depth current with
  | nil =>
    rw [List.append_nil]
    rfl
  | cons c s ih =>
    obtain ⟨hc, hs⟩ := guarded_cons_iff.1 h
    have hinside : ¬ (c = ',' ∧ depth = 0) := fun hboth => hc hboth.1 hboth.2
    rw [List.cons_append, splitFrom, if_neg hinside, ih hs, List.append_assoc]
    rfl

/-- A whole piece in front of a comma is an operand. -/
lemma split_cons (h : Whole p) (rest : List Char) :
    split (p ++ ',' :: rest) = trim p :: split rest := by
  rw [split, splitFrom_append h.guarded, h.closed, splitFrom, if_pos ⟨rfl, rfl⟩]
  rfl

/-- What is behind the last separating comma is an operand unless it is blank. -/
lemma split_last (h : Guarded 0 last) :
    split last = if trim last = [] then [] else [trim last] := by
  have hsplit := splitFrom_append h [] []
  rw [List.append_nil] at hsplit
  rw [split, hsplit, splitFrom]
  rfl

/-- The last piece is an operand unless it is blank. -/
lemma split_of_ne_nil (h : Guarded 0 last) (hlast : trim last ≠ []) : split last = [trim last] := by
  rw [split_last h, if_neg hlast]

/-- Splitting gives the pieces of a text, without the last one if that is blank. -/
lemma Pieces.split_eq (h : Pieces pieces last s) :
    split s = pieces.map trim ++ if trim last = [] then [] else [trim last] := by
  obtain ⟨rfl, hwhole, hguarded⟩ := h
  induction pieces with
  | nil => exact split_last hguarded
  | cons p pieces ih =>
    obtain ⟨hp, hpieces⟩ := List.forall_mem_cons.1 hwhole
    rw [List.flatMap_cons, List.append_assoc, List.append_assoc, List.singleton_append,
      split_cons hp, ih hpieces]
    rfl

/-- Every text falls apart into pieces. -/
lemma exists_pieces (s : List Char) : ∃ pieces last, Pieces pieces last s := by
  -- from the front to the back: another character goes on with the last piece, or ends it
  induction s using List.reverseRecOn with
  | nil => exact ⟨[], [], rfl, List.forall_mem_nil _, guarded_nil 0⟩
  | append_singleton s c ih =>
    obtain ⟨pieces, last, rfl, hwhole, hguarded⟩ := ih
    by_cases hends : c = ',' ∧ depthBehind 0 last = 0
    · obtain ⟨rfl, hclosed⟩ := hends
      refine ⟨pieces ++ [last], [], ?_, ?_, guarded_nil 0⟩
      · simp
      · exact List.forall_mem_append.2 ⟨hwhole, List.forall_mem_singleton.2 ⟨hguarded, hclosed⟩⟩
    · refine ⟨pieces, last ++ [c], ?_, hwhole, ?_⟩
      · rw [List.append_assoc]
      · rw [guarded_append_iff, guarded_cons_iff]
        exact ⟨hguarded, fun hc hzero => hends ⟨hc, hzero⟩, guarded_nil _⟩

/-- In every operand the commas are guarded, and no blank is left around it. -/
lemma Pieces.operand (h : Pieces pieces last s) : ∀ w ∈ split s, Guarded 0 w ∧ trim w = w := by
  have htrimmed {p : List Char} (hp : Guarded 0 p) : Guarded 0 (trim p) ∧ trim (trim p) = trim p :=
    ⟨hp.trim, trim_trim p⟩
  rw [h.split_eq]
  refine List.forall_mem_append.2 ⟨List.forall_mem_map.2 fun p hp => ?_, ?_⟩
  · exact htrimmed (h.whole p hp).guarded
  · split
    · exact List.forall_mem_nil _
    · exact List.forall_mem_singleton.2 (htrimmed h.guarded)

/-! ### Joining -/

/-- Operands that are joined are read back, each without the blanks around it. The blanks behind a
comma belong to the operand that follows, so there may be some in front of the first. -/
lemma Joined.split_append {blanks : List Char} (h : Joined ws s) (hblanks : Blanks blanks)
    (hws : ∀ w ∈ ws, Whole w) (hlast : ∀ w ∈ ws.getLast?, trim w ≠ []) :
    split (blanks ++ s) = ws.map trim := by
  have hnone : Blanks [] := List.forall_mem_nil _
  induction h generalizing blanks with
  | single w =>
    have hw := Whole.blanks hblanks (hws w (List.mem_singleton_self w)) hnone
    have htrim := trim_append hblanks w hnone
    rw [List.append_nil] at hw htrim
    rw [split_of_ne_nil hw.guarded (htrim ▸ hlast w rfl), htrim]
    rfl
  | @cons w before after s ws hbefore hafter hs ih =>
    obtain ⟨hw, hws⟩ := List.forall_mem_cons.1 hws
    have hlast' : ∀ w ∈ ws.getLast?, trim w ≠ [] := by
      cases hs <;> exact hlast
    rw [← List.append_assoc, ← List.append_assoc, split_cons (Whole.blanks hblanks hw hbefore),
      trim_append hblanks w hbefore, ih hafter hws hlast']
    rfl

/-- Whole operands that are joined by commas are found again. -/
lemma Joined.split_eq (h : Joined ws s) (hws : ∀ w ∈ ws, Whole w)
    (hlast : ∀ w ∈ ws.getLast?, trim w ≠ []) : split s = ws.map trim :=
  h.split_append (List.forall_mem_nil _) hws hlast

/-- Splitting inverts joining: whole operands, the last one not blank, are read back from what they
are joined to. Of any text, splitting gives the pieces between the commas outside brackets, trimmed,
but for a last one that is blank. -/
theorem split_joined :
    (∀ (ws : List (List Char)) (s : List Char), Joined ws s →
      (∀ w ∈ ws, trim w = w ∧ Whole w) → ws.getLast? ≠ some [] → split s = ws) ∧
    ∀ s : List Char,
      (∀ w ∈ split s, Guarded 0 w ∧ trim w = w) ∧
        ∃ pieces last, Pieces pieces last s ∧
          split s = pieces.map trim ++ if trim last = [] then [] else [trim last] := by
  constructor
  · intro ws s hjoined hws hlast
    have htrim : ws.map trim = ws :=
      (List.map_congr_left fun w hw => (hws w hw).1).trans (List.map_id ws)
    rw [hjoined.split_eq (fun w hw => (hws w hw).2), htrim]
    rintro w hw hnil
    rw [(hws w (List.mem_of_getLast? hw)).1] at hnil
    exact hlast (hnil ▸ hw)
  · intro s
    obtain ⟨pieces, last, hpieces⟩ := exists_pieces s
    exact ⟨hpieces.operand, pieces, last, hpieces, hpieces.split_eq⟩

/-- The empty operand in front and the bracket that is never opened count like any other. -/
theorem split_joined_unbalanced :
    split ", [x1, #8]! ,\tx2] , lsl #3".toList =
      ["", "[x1, #8]!", "x2]", "lsl #3"].map String.toList := by
  refine split_joined.1 _ _ ?_ (by decide) (by decide)
  have hpair : Joined ["x2]".toList, "lsl #3".toList] "x2] , lsl #3".toList :=
    @Joined.cons _ [' '] [' '] _ _ (by decide) (by decide) (.single _)
  have hthree := @Joined.cons "[x1, #8]!".toList [' '] ['\t'] _ _ (by decide) (by decide) hpair
  exact @Joined.cons [] [] [' '] _ _ (by decide) (by decide) hthree

end CacheVerdict.Operand
