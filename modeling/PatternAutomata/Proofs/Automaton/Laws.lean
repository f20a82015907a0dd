import PatternAutomata.Proofs.Automaton.Budget
import PatternAutomata.Proofs.Automaton.Repetition
import PatternAutomata.Proofs.Automaton.Tabular
import PatternAutomata.Proofs.Token

/-!
# Laws of the operations

What complement, intersection, concatenation, union and repetition make of the texts that their
operands accept, and what is left where nothing is accepted or the budget is spent.
-/
namespace PatternAutomata.Automaton
variable {a b c d : Automaton} {limit : Nat}

/-! ## Complement -/

/-- The rewrite succeeds exactly when the deterministic automaton fits the limit. Then bytes alone
decide, so the complement is matched wherever it stands. Otherwise nothing is changed. -/
theorem complementInPlace_law (h : a.WellFormed) (limit : Nat) :
    ((a.complementInPlace limit).1 = .ok () ↔ a.determinize.size ≤ limit) ∧
      (a.determinize.size ≤ limit → ∃ d, a.complementInPlace limit = (.ok (), d) ∧
        d.usesEpsilons = false ∧ d.Unanchored ∧ (∀ w, d.accepts w = !a.accepts w) ∧
        ∀ b w e, d.meaning b w e ↔ a.accepts w = false) ∧
      (limit < a.determinize.size →
        a.complementInPlace limit = (.error (.tooManyStates limit), a)) := by
  have hfits (hle : a.determinize.size ≤ limit) :
      a.complementInPlace limit = (.ok (), a.complement) := by
    unfold complementInPlace complementUpTo
    rw [determinizeUpTo_eq_ok h hle]
    rfl
  have hexceeds (hlt : limit < a.determinize.size) :
      a.complementInPlace limit = (.error (.tooManyStates limit), a) := by
    unfold complementInPlace complementUpTo
    rw [determinizeUpTo_eq_error h hlt]
    rfl
  refine ⟨⟨fun hok => ?_, fun hle => by rw [hfits hle]⟩, fun hle => ?_, hexceeds⟩
  · by_contra hlt
    rw [hexceeds (Nat.lt_of_not_le hlt)] at hok
    simp at hok
  · have htable : a.complement.Tabular :=
      (determinizeUpTo_tabular h (determinizeUpTo_subsetBound h)).flip
    have hmeaning (b : Bool) (w : List UInt8) (e : Bool) :
        a.complement.meaning b w e ↔ a.accepts w = false := by
      rw [meaning_complement h, Bool.eq_false_iff, Ne, accepts_iff]
      rfl
    refine ⟨a.complement, hfits hle, htable.usesEpsilons_eq, htable.unanchored, fun w => ?_,
      hmeaning⟩
    rw [Bool.eq_iff_iff, accepts_iff, Bool.not_eq_true']
    exact hmeaning true w true

theorem complementInPlace_anchoredLoop : anchoredLoop.WellFormed ∧
    anchoredLoop.complementInPlace 0 = (.error (.tooManyStates 0), anchoredLoop) ∧
    ∃ d, anchoredLoop.complementInPlace 9 = (.ok (), d) ∧ d.usesEpsilons = false ∧
      d.Unanchored ∧ (∀ w, d.accepts w = !anchoredLoop.accepts w) ∧
      ∀ b w e, d.meaning b w e ↔ anchoredLoop.accepts w = false := by
  have h : anchoredLoop.WellFormed := by decide
  obtain ⟨next, hd, -⟩ := determinize_spec h
  have hsize : anchoredLoop.determinize.size ≤ 9 :=
    size_determinizeUpTo_le h (determinizeUpTo_subsetBound h)
  exact ⟨h, (complementInPlace_law h 0).2.2 (Nat.zero_lt_of_lt hd.wellFormed.start_lt),
    (complementInPlace_law h 9).2.1 hsize⟩

/-! ## Intersection -/

theorem useful_start_iff (h : d.Tabular) : d.Useful d.start ↔ ∃ w, d.meaning.whole w := by
  constructor
  · rintro ⟨-, f, hf, hlinked⟩
    obtain ⟨w, hw⟩ := h.exists_path hlinked true true
    exact ⟨w, f, hf, hw⟩
  · rintro ⟨w, f, hf, hw⟩
    exact ⟨.refl, f, hf, linked_of_path hw⟩

/-- Only where the start is not useful, nothing is left. -/
theorem prune_eq_nothing_iff (h : d.WellFormed) : d.prune = nothing ↔ ¬ d.Useful d.start := by
  rw [← mem_usefulStates h]
  rcases prune_cases d with ⟨start, hstart, hprune⟩ | ⟨hnone, hprune⟩
  · have huseful := List.mem_of_getElem? hstart
    refine iff_of_false (fun hnothing => ?_) (not_not_intro huseful)
    obtain ⟨-, f, hf, hlinked⟩ := (mem_usefulStates h).mp huseful
    have hmem : f ∈ d.usefulStates :=
      (mem_usefulStates h).mpr ⟨hlinked, f, hf, .refl⟩
    obtain ⟨m, hm⟩ := List.getElem?_of_mem hmem
    have hacc : m ∈ d.prune.accepting := by
      rw [hprune]
      exact (mem_accepting_restrict (nodup_usefulStates d)).mpr ⟨f, hf, hm⟩
    rw [hnothing] at hacc
    simp [nothing] at hacc
  · exact iff_of_true hprune hnone

/-- An intersection is what pruning leaves of a table of pairs. -/
theorem exists_pairs_of_intersectUpTo (ha : a.WellFormed) (hb : b.WellFormed)
    (hrun : a.intersectUpTo b limit = .ok c) :
    ∃ d : Automaton, d.WellFormed ∧ d.Tabular ∧ c = d.prune ∧
      d.meaning = .strings fun w => a.meaning.whole w ∧ b.meaning.whole w := by
  obtain ⟨da, db, d, hda, hdb, hd, rfl⟩ := exists_of_intersectUpTo hrun
  obtain ⟨nextA, hca, hma⟩ := determinizeUpTo_spec ha hda
  obtain ⟨nextB, hcb, hmb⟩ := determinizeUpTo_spec hb hdb
  have hproduct := builds_productUpTo hca hcb limit
  rw [hd] at hproduct
  refine ⟨d, hproduct.wellFormed, productUpTo_tabular hca hcb hd, rfl, ?_⟩
  rw [hproduct.meaning_eq, hma, hmb]
  rfl

/-- The budget of an intersection is never spent. -/
theorem intersectUpTo_productBound (ha : a.WellFormed) (hb : b.WellFormed) :
    a.intersectUpTo b (a.productBound b) = .ok (a.intersect b) := by
  have hbuilds := builds_intersectUpTo ha hb (a.productBound b)
  unfold intersect
  cases hrun : a.intersectUpTo b (a.productBound b) with
  | ok c => rfl
  | error err =>
    rw [hrun] at hbuilds
    exact absurd hbuilds.2 (Nat.lt_irrefl _)

theorem WellFormed.intersect (ha : a.WellFormed) (hb : b.WellFormed) :
    (a.intersect b).WellFormed := by
  obtain ⟨d, -, -, heq, -⟩ :=
    exists_pairs_of_intersectUpTo ha hb (intersectUpTo_productBound ha hb)
  exact heq ▸ .prune d

/-- The intersection accepts what both operands accept. It is the automaton `nothing` itself, and
not just one that accepts nothing, exactly when they have no text in common. -/
theorem intersect_law (ha : a.WellFormed) (hb : b.WellFormed) :
    (∀ w, (a.intersect b).accepts w = true ↔ a.accepts w = true ∧ b.accepts w = true) ∧
      (a.intersect b = nothing ↔ ¬ ∃ w, a.accepts w = true ∧ b.accepts w = true) := by
  obtain ⟨d, hd, htable, heq, hmeaning⟩ :=
    exists_pairs_of_intersectUpTo ha hb (intersectUpTo_productBound ha hb)
  simp only [accepts_iff]
  rw [heq]
  constructor
  · intro w
    rw [meaning_prune hd, hmeaning]
    rfl
  · rw [prune_eq_nothing_iff hd, useful_start_iff htable, hmeaning]
    rfl

theorem intersect_anchoredLoop : anchoredLoop.WellFormed ∧ anchoredLoop.complement.WellFormed ∧
    (∀ w, (anchoredLoop.intersect anchoredLoop).accepts w = true ↔
      anchoredLoop.accepts w = true ∧ anchoredLoop.accepts w = true) ∧
    anchoredLoop.intersect anchoredLoop.complement = nothing := by
  have h : anchoredLoop.WellFormed := by decide
  refine ⟨h, h.complement, (intersect_law h h).1, (intersect_law h h.complement).2.mpr ?_⟩
  rintro ⟨w, hw, hw'⟩
  rw [accepts_iff] at hw hw'
  rw [meaning_complement h] at hw'
  exact hw' hw

/-! ## Concatenation -/

/-- Both sides of a split see the end of the text that the other side leaves them. Without anchors
any split into two accepted texts will do. -/
theorem concat_law (h : a.WellFormed) :
    (∀ s w e, (a.concat b).meaning s w e ↔ ∃ u v, w = u ++ v ∧
      a.meaning s u (e && v.isEmpty) ∧ b.meaning (s && u.isEmpty) v e) ∧
    (a.Unanchored → b.Unanchored → ∀ w, (a.concat b).accepts w = true ↔
      ∃ u v, w = u ++ v ∧ a.accepts u = true ∧ b.accepts v = true) := by
  have hseq := meaning_concat (b := b) h
  constructor
  · intro s w e
    rw [hseq]
    rfl
  · intro ha hb w
    simp only [accepts_iff]
    rw [hseq]
    exact ha.placeless.seq_iff hb.placeless true w true

/-- Both states accept, and both have edges of their own. -/
def unanchoredLoop : Automaton where
  states := #[
    { transitions := [⟨.bytes 0 9, 1⟩], epsilons := [1] },
    { transitions := [⟨.bytes 5 255, 0⟩], epsilons := [0] }]
  start := 1
  accepting := {0, 1}

theorem concat_anchoredLoop : anchoredLoop.WellFormed ∧ unanchoredLoop.WellFormed ∧
    unanchoredLoop.Unanchored ∧
    (∀ s w e, (anchoredLoop.concat unanchoredLoop).meaning s w e ↔ ∃ u v, w = u ++ v ∧
      anchoredLoop.meaning s u (e && v.isEmpty) ∧
        unanchoredLoop.meaning (s && u.isEmpty) v e) ∧
    ∀ w, (unanchoredLoop.concat unanchoredLoop).accepts w = true ↔
      ∃ u v, w = u ++ v ∧ unanchoredLoop.accepts u = true ∧ unanchoredLoop.accepts v = true := by
  have h : anchoredLoop.WellFormed := by decide
  have h' : unanchoredLoop.WellFormed := by decide
  have hfree : unanchoredLoop.Unanchored := by simp [Unanchored, unanchoredLoop]
  exact ⟨h, h', hfree, (concat_law h).1, (concat_law h').2 hfree hfree⟩

/-! ## Union -/

/-- Wherever it stands, a union matches what one of its operands matches there, whatever edges lead
back to their starts. Its table is a new start and behind it the tables of both, moved up. -/
theorem union_law (ha : a.WellFormed) (hb : b.WellFormed) :
    (∀ s w e, (a.union b).meaning s w e ↔ a.meaning s w e ∨ b.meaning s w e) ∧
      (∀ w, (a.union b).accepts w = (a.accepts w || b.accepts w)) ∧
      (a.union b).WellFormed ∧ (a.union b).size = 1 + a.size + b.size ∧
      (a.union b).start = 0 ∧ (a.union b).states[0]? =
        some { transitions := [], epsilons := [a.start + 1, b.start + (1 + a.size)] } ∧
      (∀ i < a.size, (a.union b).states[i + 1]? = a.states[i]?.map (·.shift 1)) ∧
      (∀ i < b.size, (a.union b).states[i + (1 + a.size)]? =
        b.states[i]?.map (·.shift (1 + a.size))) ∧
      ∀ f, f ∈ (a.union b).accepting ↔
        (∃ i ∈ a.accepting, i + 1 = f) ∨ ∃ i ∈ b.accepting, i + (1 + a.size) = f := by
  have heither (s : Bool) (w : List UInt8) (e : Bool) :
      (a.union b).meaning s w e ↔ a.meaning s w e ∨ b.meaning s w e := by
    rw [meaning_union ha]
    rfl
  refine ⟨heither, fun w => ?_, ha.union hb, size_union a b, start_union a b,
    getElem?_union_hub ha b, fun i hi => getElem?_union_left b hi,
    fun i _ => getElem?_union_right a b i, fun f => mem_accepting_union⟩
  rw [Bool.eq_iff_iff, Bool.or_eq_true]
  simp only [accepts_iff]
  exact heither true w true

/-- Edges lead back to the start of either operand. -/
theorem union_anchoredLoop : anchoredLoop.WellFormed ∧ unanchoredLoop.WellFormed ∧
    (∀ s w e, (anchoredLoop.union unanchoredLoop).meaning s w e ↔
      anchoredLoop.meaning s w e ∨ unanchoredLoop.meaning s w e) ∧
    (anchoredLoop.union unanchoredLoop).size = 6 ∧
    (anchoredLoop.union unanchoredLoop).states[0]? =
      some { transitions := [], epsilons := [1, 5] } ∧
    (anchoredLoop.union unanchoredLoop).states[1]? = some
      { transitions := [⟨.anchor .textStart, 2⟩, ⟨.bytes 2 1, 1⟩], epsilons := [2] } ∧
    (anchoredLoop.union unanchoredLoop).states[5]? = some
      { transitions := [⟨.bytes 5 255, 4⟩], epsilons := [4] } := by
  have h : anchoredLoop.WellFormed := by decide
  have h' : unanchoredLoop.WellFormed := by decide
  obtain ⟨hmeaning, -, -, hsize, -, hhub, hleft, hright, -⟩ := union_law h h'
  exact ⟨h, h', hmeaning, hsize, hhub, hleft 0 (by decide), hright 1 (by decide)⟩

/-! ## Repetition -/

theorem inBounds_iff {least k : Nat} {most : Bound} : Meaning.inBounds least most k ↔
    least ≤ k ∧ most.Allows k ∨ ¬ most.Allows least ∧ k = least := by
  cases most with
  | finite n =>
    simp only [Meaning.inBounds, Bound.Allows]
    omega
  | infinity => simp [Meaning.inBounds, Bound.Allows]

/-- Whatever way a repetition is put together, it matches a row of pieces whose number lies within
the bounds, and `least` many when `most` is smaller. Each piece sees of the two ends of the text
what the empty pieces next to it leave open. Without anchors any row of accepted texts will do. -/
theorem repetition_law (h : a.WellFormed) (least : Nat) (most : Bound) :
    Decomposition a least most (a.repeatBetween least most) ∧
    ∀ c, Decomposition a least most c →
      (∀ b w e, c.meaning b w e ↔ ∃ pieces : List (List UInt8),
        (least ≤ pieces.length ∧ most.Allows pieces.length ∨
          ¬ most.Allows least ∧ pieces.length = least) ∧
        w = pieces.flatten ∧
        ∀ before u after, pieces = before ++ u :: after →
          a.meaning (b && before.all List.isEmpty) u (e && after.all List.isEmpty)) ∧
      (a.Unanchored → ∀ w, c.accepts w = true ↔ ∃ pieces : List (List UInt8),
        (least ≤ pieces.length ∧ most.Allows pieces.length ∨
          ¬ most.Allows least ∧ pieces.length = least) ∧
        w = pieces.flatten ∧ ∀ u ∈ pieces, a.accepts u = true) := by
  refine ⟨decomposition_repeatBetween a least most, fun c hc => ?_⟩
  have hrow (b : Bool) (w : List UInt8) (e : Bool) : c.meaning b w e ↔
      ∃ pieces : List (List UInt8),
        (least ≤ pieces.length ∧ most.Allows pieces.length ∨
          ¬ most.Allows least ∧ pieces.length = least) ∧
        w = pieces.flatten ∧ a.meaning.Row b pieces e := by
    rw [hc.meaning_eq h]
    constructor
    · rintro ⟨k, hk, hpower⟩
      obtain ⟨pieces, rfl, hw, hpieces⟩ := Meaning.power_iff_row.mp hpower
      exact ⟨pieces, inBounds_iff.mp hk, hw, hpieces⟩
    · rintro ⟨pieces, hcount, hw, hpieces⟩
      exact ⟨_, inBounds_iff.mpr hcount, Meaning.power_iff_row.mpr ⟨pieces, rfl, hw, hpieces⟩⟩
  refine ⟨hrow, fun hfree w => ?_⟩
  simp only [accepts_iff]
  rw [Meaning.whole, hrow]
  simp only [hfree.placeless.row_iff]

theorem repetition_unanchoredLoop : unanchoredLoop.WellFormed ∧ unanchoredLoop.Unanchored ∧
    (∀ w, (unanchoredLoop.concat unanchoredLoop.star).accepts w = true ↔
      ∃ pieces : List (List UInt8),
        (1 ≤ pieces.length ∧ Bound.infinity.Allows pieces.length ∨
          ¬ Bound.infinity.Allows 1 ∧ pieces.length = 1) ∧
        w = pieces.flatten ∧ ∀ u ∈ pieces, unanchoredLoop.accepts u = true) ∧
    ∀ w, (unanchoredLoop.repeatBetween 3 (.finite 1)).accepts w = true ↔
      ∃ pieces : List (List UInt8),
        (3 ≤ pieces.length ∧ (Bound.finite 1).Allows pieces.length ∨
          ¬ (Bound.finite 1).Allows 3 ∧ pieces.length = 3) ∧
        w = pieces.flatten ∧ ∀ u ∈ pieces, unanchoredLoop.accepts u = true := by
  have h : unanchoredLoop.WellFormed := by decide
  have hfree : unanchoredLoop.Unanchored := by simp [Unanchored, unanchoredLoop]
  exact ⟨h, hfree, ((repetition_law h 1 .infinity).2 _ .plus).2 hfree,
    ((repetition_law h 3 (.finite 1)).2 _ (repetition_law h 3 (.finite 1)).1).2 hfree⟩

end PatternAutomata.Automaton
