import Mathlib.Logic.Relation
import PatternAutomata.Proofs.Automaton.Product

/-!
# Worklists

A construction of a deterministic automaton takes turns. Each turn writes the row of the key that
has waited longest, and the keys that are new on this row join the line behind all others. The line
grows while it is served, but no key joins it twice. So there are no more turns than keys, and when
the line is empty the construction is finished.
-/
namespace PatternAutomata
open Relation (ReflTransGen)

/-- A construction on its way: the keys that have numbers, and the rows of the first of them. The
other keys wait in line. -/
structure Worklist (κ : Type) where
  numbering : Numbering κ
  rows : Array State

namespace Worklist
variable {κ : Type} {space : KeySpace κ} {step : κ → UInt8 → κ} {good : κ → Prop}
  {limit lead bound : Nat} {s : Numbering κ} {t t' : Worklist κ} {d : Automaton}

/-- How many keys have numbers. -/
def size (t : Worklist κ) : Nat := t.numbering.keys.size

/-- How many turns have been taken. -/
def turns (t : Worklist κ) : Nat := t.rows.size

/-- Whether no key waits. -/
def Finished (t : Worklist κ) : Prop := t.size ≤ t.turns

/-- The automaton whose states are the rows. -/
def automaton (t : Worklist κ) : Automaton := Numbering.toAutomaton t.numbering.keys t.rows

/-- The worklist with the row of its first waiting key. -/
def write (t : Worklist κ) (numbering : Numbering κ) (row : List (Nat × Nat)) : Worklist κ :=
  ⟨numbering, t.rows.push { transitions := rowTransitions (expandRuns row) }⟩

@[simp] theorem turns_write (t : Worklist κ) (s : Numbering κ) (row : List (Nat × Nat)) :
    (t.write s row).turns = t.turns + 1 := by
  simp [write, turns]

/-- One turn: the first key in line gets its row, and the new keys on it get numbers. -/
inductive Turn (space : KeySpace κ) (limit : Nat) (t : Worklist κ) : Worklist κ → Prop
  | write {key : κ} {v : Bool} {row : List (Nat × Nat)} {s : Numbering κ}
      (hkey : t.numbering.keys[t.turns]? = some (key, v))
      (hrow : Numbering.visitRow space limit (space.row key) t.numbering = .ok (row, s)) :
      Turn space limit t (t.write s row)

/-- The worklists that turns lead to. -/
abbrev Reaches (space : KeySpace κ) (limit : Nat) : Worklist κ → Worklist κ → Prop :=
  ReflTransGen (Turn space limit)

/-- Turns lead to an empty line, and `d` is what has been written until then. -/
def ComesTo (space : KeySpace κ) (limit : Nat) (start : Worklist κ) (d : Automaton) : Prop :=
  ∃ t, Reaches space limit start t ∧ t.Finished ∧ d = t.automaton

/-! ## Turns and runs -/

theorem Turn.turns_eq (h : Turn space limit t t') : t'.turns = t.turns + 1 := by
  cases h with
  | write => exact turns_write ..

theorem Turn.turns_lt (h : Turn space limit t t') : t.turns < t.size := by
  cases h with
  | write hkey => exact (Array.getElem?_eq_some_iff.mp hkey).1

/-- A run takes turns until the line is empty. -/
theorem reaches_of_writeRows {rows rows' : Array State} {keys : Array (κ × Bool)}
    (h : Numbering.writeRows space limit rows.size s rows = .ok (keys, rows')) :
    ∃ t, Reaches space limit ⟨s, rows⟩ t ∧ t.Finished ∧
      t.numbering.keys = keys ∧ t.rows = rows' := by
  generalize hi : rows.size = i at h
  fun_induction Numbering.writeRows space limit i s rows with
  | case1 => simp at h
  | case2 i s rows hlt row s' hrow ih =>
    obtain ⟨t, hreaches, ht⟩ := ih (by simp [hi]) h
    have hkey : s.keys[rows.size]? = some (s.keys[i].1, s.keys[i].2) := by
      rw [hi]
      exact Array.getElem?_eq_getElem hlt
    exact ⟨t, .head (Turn.write (t := ⟨s, rows⟩) hkey hrow) hreaches, ht⟩
  | case3 i s rows hge =>
    obtain ⟨rfl, rfl⟩ := Prod.mk.inj (Except.ok.inj h)
    rw [← hi] at hge
    exact ⟨⟨s, rows⟩, .refl, Nat.not_lt.mp hge, rfl, rfl⟩

theorem writeRows_of_reaches (h : Reaches space limit t t') (hdone : t'.Finished) :
    Numbering.writeRows space limit t.turns t.numbering t.rows =
      .ok (t'.numbering.keys, t'.rows) := by
  induction h using ReflTransGen.head_induction_on with
  | refl =>
    have hnone : ¬ t'.turns < t'.numbering.keys.size := Nat.not_lt.mpr hdone
    rw [Numbering.writeRows, dif_neg hnone]
  | @head t u hturn _ ih =>
    have hlt := hturn.turns_lt
    cases hturn with
    | @write key v row s hkey hrow =>
      have heq : t.numbering.keys[t.turns] = (key, v) :=
        (Array.getElem?_eq_some_iff.mp hkey).2
      rw [Numbering.writeRows_of_lt space limit t.rows hlt, heq, hrow]
      rw [turns_write] at ih
      exact ih

/-- A construction gives the automaton that its worklist comes to, and fails where the worklist does
not come to an end. -/
theorem run_eq_ok_iff :
    Numbering.run space limit s = .ok d ↔ ComesTo space limit ⟨s, #[]⟩ d := by
  rw [Numbering.run_eq_map]
  constructor
  · intro hrun
    cases hwrite : Numbering.writeRows space limit 0 s #[] with
    | error err => simp [hwrite, Except.map] at hrun
    | ok table =>
      have hrows : Numbering.writeRows space limit (#[] : Array State).size s #[] =
        .ok (table.1, table.2) := hwrite
      obtain ⟨t, hreaches, hdone, hkeys, hstates⟩ := reaches_of_writeRows hrows
      rw [hwrite] at hrun
      refine ⟨t, hreaches, hdone, ?_⟩
      rw [automaton, hkeys, hstates]
      exact (Except.ok.inj hrun).symm
  · rintro ⟨t, hreaches, hdone, rfl⟩
    have hwrite := writeRows_of_reaches hreaches hdone
    change Numbering.writeRows space limit 0 s #[] = _ at hwrite
    rw [hwrite]
    rfl

/-! ## What turns keep -/

/-- What holds between two turns: numbers and keys agree, and the rows that are written hold the
numbers of successors. -/
structure Steady (space : KeySpace κ) (step : κ → UInt8 → κ) (good : κ → Prop) (lead : Nat)
    (t : Worklist κ) : Prop where
  valid : t.numbering.Valid space good lead
  written : Numbering.Written space step t.turns t.numbering t.rows

theorem steady_start (hs : s.Valid space good lead) : Steady space step good lead ⟨s, #[]⟩ :=
  ⟨hs, .zero space step s⟩

theorem Steady.turns_le (ht : t.Steady space step good lead) : t.turns ≤ t.size :=
  ht.written.le_size

theorem Steady.size_le (ht : t.Steady space step good lead) (hg : space.Grounded good bound) :
    t.size ≤ lead + bound :=
  ht.valid.size_le hg

section
variable (hlaw : space.Lawful step good)
include hlaw

theorem Turn.steady (h : Turn space limit t t') (ht : t.Steady space step good lead) :
    t'.Steady space step good lead ∧ t.numbering.Extends t'.numbering := by
  cases h with
  | @write key v row s hkey hrow =>
    obtain ⟨hlt, heq⟩ := Array.getElem?_eq_some_iff.mp hkey
    obtain rfl : t.numbering.keys[t.turns].1 = key := congrArg Prod.fst heq
    obtain ⟨hwritten, hvalid, hextends⟩ := ht.written.push hlaw ht.valid hlt hrow
    refine ⟨⟨hvalid, ?_⟩, hextends⟩
    rw [turns_write]
    exact hwritten

theorem Reaches.steady (h : Reaches space limit t t') (ht : t.Steady space step good lead) :
    t'.Steady space step good lead := by
  induction h with
  | refl => exact ht
  | tail _ hturn ih => exact (hturn.steady hlaw ih).1

/-- While a key waits, there is a turn to take, unless the budget is spent. -/
theorem Steady.exists_turn (ht : t.Steady space step good lead) (hg : space.Grounded good bound)
    (hroom : lead + bound ≤ limit) (hwaits : t.turns < t.size) :
    ∃ t', Turn space limit t t' := by
  have hkey : t.numbering.keys[t.turns]? =
      some (t.numbering.keys[t.turns].1, t.numbering.keys[t.turns].2) :=
    Array.getElem?_eq_getElem hwaits
  have hgood := ht.valid.good_keys _ _ _ hkey
  cases hrow : Numbering.visitRow space limit (space.row t.numbering.keys[t.turns].1)
      t.numbering with
  | error err =>
    have := (Numbering.visitRow_error ht.valid hg (hlaw.row_good _ hgood) hrow).2
    omega
  | ok found => exact ⟨_, .write hkey hrow⟩

end

/-! ## The end of the line -/

/-- Whatever the budget, there are never more than `bound` keys, nor more turns than keys. Where
there is room for `bound` keys, the turns go on until the line is empty. -/
structure EndsWithin (space : KeySpace κ) (start : Worklist κ) (bound : Nat) : Prop where
  size_le : ∀ limit t, Reaches space limit start t → t.turns ≤ t.size ∧ t.size ≤ bound
  exists_end : ∀ limit t, bound ≤ limit → Reaches space limit start t →
    ∃ t', Reaches space limit t t' ∧ t'.Finished

theorem endsWithin (hlaw : space.Lawful step good) (hs : s.Valid space good lead)
    (hg : space.Grounded good bound) : EndsWithin space ⟨s, #[]⟩ (lead + bound) where
  size_le limit t h := by
    have ht := h.steady hlaw (steady_start hs)
    exact ⟨ht.turns_le, ht.size_le hg⟩
  exists_end limit t hroom h := by
    have ht := h.steady hlaw (steady_start hs)
    clear h
    -- every turn brings the number of turns nearer to the bound of the keys
    induction hleft : lead + bound - t.turns generalizing t with
    | zero =>
      have hsize := ht.size_le hg
      exact ⟨t, .refl, hsize.trans (Nat.sub_eq_zero_iff_le.mp hleft)⟩
    | succ n ih =>
      by_cases hdone : t.Finished
      · exact ⟨t, .refl, hdone⟩
      · obtain ⟨u, hturn⟩ := ht.exists_turn hlaw hg hroom (Nat.lt_of_not_le hdone)
        have hturns := hturn.turns_eq
        obtain ⟨t', hreaches, hend⟩ := ih u (hturn.steady hlaw ht).1 (by omega)
        exact ⟨t', .head hturn hreaches, hend⟩

theorem EndsWithin.mono {start : Worklist κ} {bound' : Nat} (h : EndsWithin space start bound)
    (hle : bound ≤ bound') : EndsWithin space start bound' where
  size_le limit t ht := by
    obtain ⟨hturns, hsize⟩ := h.size_le limit t ht
    exact ⟨hturns, hsize.trans hle⟩
  exists_end limit t hroom := h.exists_end limit t (hle.trans hroom)

end Worklist

namespace Automaton
open Worklist (ComesTo EndsWithin)
variable {a b d da db : Automaton} {nextA nextB : Nat → UInt8 → Nat} {limit : Nat}

/-- The worklist on which the subset construction begins. The start is in line, but it will not be
recognized when its set is met again. -/
def subsetWorklist (a : Automaton) : Worklist StateSet :=
  ⟨⟨#[(a.initial [.textStart], a.meetsAccepting
    (a.growThrough (a.initial [.textStart]) [.textStart, .textEnd]))], ∅⟩, #[]⟩

/-- The worklist on which a product begins, with the pair of the starts in line. -/
def pairWorklist (a b : Automaton) : Worklist (Nat × Nat) :=
  ⟨⟨#[((a.start, b.start), a.accepting.contains a.start && b.accepting.contains b.start)],
    Std.TreeMap.ofList [((pairs a b).code (a.start, b.start), 0)]⟩, #[]⟩

theorem determinizeUpTo_eq_ok_iff_comesTo (h : a.WellFormed) : a.determinizeUpTo limit = .ok d ↔
    ComesTo a.subsets limit a.subsetWorklist d := by
  rw [determinizeUpTo_eq h]
  exact Worklist.run_eq_ok_iff

theorem endsWithin_subsets (h : a.WellFormed) :
    EndsWithin a.subsets a.subsetWorklist a.subsetBound := by
  rw [subsetBound_eq, Nat.add_comm]
  exact Worklist.endsWithin (lawful_subsets h) (valid_start (proper_initial h _) _)
    (grounded_subsets h)

theorem endsWithin_pairs (ha : Complete da nextA) (hb : Complete db nextB) :
    EndsWithin (pairs da db) (pairWorklist da db) (da.size * db.size) := by
  rw [← Nat.zero_add (da.size * db.size)]
  exact Worklist.endsWithin (lawful_pairs ha hb)
    (valid_pairs (paired_start ha.wellFormed hb.wellFormed)) (grounded_pairs da db)

/-- The worklists of determinization and of the product come to an end. They do so within bounds
that depend only on the numbers of states, so a budget that is not below these bounds never
refuses. -/
theorem worklists_end (ha : a.WellFormed) (hb : b.WellFormed) :
    EndsWithin a.subsets a.subsetWorklist (2 ^ a.size + 1) ∧
    EndsWithin (pairs a.determinize b.determinize) (pairWorklist a.determinize b.determinize)
      ((2 ^ a.size + 1) * (2 ^ b.size + 1)) ∧
    (∀ limit d, a.determinizeUpTo limit = .ok d ↔ ComesTo a.subsets limit a.subsetWorklist d) ∧
    (∀ limit d, productUpTo a.determinize b.determinize limit = .ok d ↔
      ComesTo (pairs a.determinize b.determinize) limit
        (pairWorklist a.determinize b.determinize) d) ∧
    (∀ limit, 2 ^ a.size + 1 ≤ limit → a.determinizeUpTo limit = .ok a.determinize ∧
      a.complementInPlace limit = (.ok (), a.complement)) ∧
    ∀ limit, (2 ^ a.size + 1) * (2 ^ b.size + 1) ≤ limit →
      a.intersectUpTo b limit = .ok (a.intersect b) := by
  have hsa := size_determinizeUpTo_le ha (determinizeUpTo_subsetBound ha)
  have hsb := size_determinizeUpTo_le hb (determinizeUpTo_subsetBound hb)
  obtain ⟨nextA, hca, -⟩ := determinize_spec ha
  obtain ⟨nextB, hcb, -⟩ := determinize_spec hb
  refine ⟨endsWithin_subsets ha, (endsWithin_pairs hca hcb).mono (Nat.mul_le_mul hsa hsb),
    fun limit d => determinizeUpTo_eq_ok_iff_comesTo ha, fun limit d => Worklist.run_eq_ok_iff,
    fun limit hroom => ?_, fun limit hroom => ?_⟩
  · have hfits := hsa.trans hroom
    exact ⟨determinizeUpTo_eq_ok ha hfits, complementInPlace_eq ha hfits⟩
  · rcases intersectUpTo_raise (show a.productBound b ≤ limit from hroom) a b with
      ⟨err, herr, -⟩ | hsame
    · rw [intersectUpTo_productBound ha hb] at herr
      cases herr
    · rw [hsame, intersectUpTo_productBound ha hb]

/-- Budgets of 64 bits, three states and two. -/
theorem worklists_end_anchoredLoop : anchoredLoop.WellFormed ∧ anyByte.WellFormed ∧
    EndsWithin anchoredLoop.subsets anchoredLoop.subsetWorklist 9 ∧
    EndsWithin (pairs anchoredLoop.determinize anyByte.determinize)
      (pairWorklist anchoredLoop.determinize anyByte.determinize) 45 ∧
    anchoredLoop.determinizeUpTo (2 ^ 64 - 1) = .ok anchoredLoop.determinize ∧
    anchoredLoop.complementInPlace (2 ^ 64 - 1) = (.ok (), anchoredLoop.complement) ∧
    anchoredLoop.intersectUpTo anyByte (2 ^ 64 - 1) = .ok (anchoredLoop.intersect anyByte) := by
  have ha : anchoredLoop.WellFormed := by decide
  have hb : anyByte.WellFormed := by decide
  obtain ⟨hsubsets, hpairs, -, -, hone, hboth⟩ := worklists_end ha hb
  obtain ⟨hdet, hcomplement⟩ := hone (2 ^ 64 - 1) (by decide)
  exact ⟨ha, hb, hsubsets, hpairs, hdet, hcomplement, hboth (2 ^ 64 - 1) (by decide)⟩

end Automaton

end PatternAutomata
