import PatternAutomata.Proofs.Automaton.Literal
import PatternAutomata.Proofs.Automaton.Refusal
import PatternAutomata.Proofs.Automaton.Repetition
import PatternAutomata.Proofs.Automaton.Subset
import PatternAutomata.Proofs.Automaton.Boolean
import PatternAutomata.Term

/-!
# Every look-up finds its state

A construction that looks a state up under a number that belongs to none gives nothing. On
well-formed automata that never happens: the constructions that check every number agree with those
that check none.
-/
namespace PatternAutomata
namespace Automaton
variable {a b d da db : Automaton} {i j : Nat}

/-! ## Concatenation and closure -/

theorem all_accepting_lt (ha : a.WellFormed) {n : Nat} (hn : a.size ≤ n) :
    a.accepting.toList.all (· < n) = true := by
  refine List.all_eq_true.mpr fun f hf => decide_eq_true ?_
  exact Nat.lt_of_lt_of_le (ha.accepting_lt (Std.ExtTreeSet.mem_toList.mp hf)) hn

theorem concat?_eq (ha : a.WellFormed) (b : Automaton) : a.concat? b = some (a.concat b) :=
  if_pos (all_accepting_lt ha (Nat.le_add_right _ _))

theorem star?_eq (ha : a.WellFormed) : a.star? = some a.star :=
  if_pos (all_accepting_lt ha (Nat.le_add_right _ _))

theorem power?_eq (ha : a.WellFormed) (n : Nat) : a.power? n = some (a.power n) := by
  -- each concatenation looks at what is put together so far, not at `a`
  have hfold (acc : Automaton) (hacc : acc.WellFormed) :
      (List.replicate n a).foldlM concat? acc = some ((List.replicate n a).foldl concat acc) := by
    induction n generalizing acc with
    | zero => rfl
    | succ n ih =>
      rw [List.replicate_succ, List.foldlM_cons, concat?_eq hacc]
      exact ih _ (hacc.concat ha)
  exact hfold emptyText wellFormed_emptyText

theorem repeatBetween?_eq (ha : a.WellFormed) (least : Nat) (most : Bound) :
    a.repeatBetween? least most = some (a.repeatBetween least most) := by
  have hrequired (m : Nat) (b : Automaton) : (a.power m).concat? b = some ((a.power m).concat b) :=
    concat?_eq (ha.power m) b
  unfold repeatBetween? repeatBetween
  split
  · rfl
  · exact star?_eq ha
  · simp only [star?_eq ha, Option.bind_eq_bind, Option.bind_some, concat?_eq ha]
  · simp only [star?_eq ha, power?_eq ha, Option.bind_eq_bind, Option.bind_some, hrequired]
  · simp only [power?_eq ha, power?_eq ha.optional, Option.bind_eq_bind, Option.bind_some,
      hrequired]
    split <;> rfl

theorem prune?_eq (ha : a.WellFormed) : a.prune? = some a.prune := if_pos ha

/-! ## Acceptance -/

section
variable {set : StateSet}

theorem closure?_eq (h : a.WellFormed) (hset : a.Within set) :
    a.closure? set = some (a.closure set) := by
  have hclosed := leaves_eq_false.mpr (within_closure h hset)
  simp [closure?, hclosed]

theorem readByte?_eq (hset : a.Within set) (c : UInt8) :
    a.readByte? set c = some (a.readByte set c) := by
  simp [readByte?, leaves_eq_false.mpr hset]

theorem growThrough?_eq (h : a.WellFormed) (hset : a.Proper set) (anchors : List Anchor) :
    a.growThrough? set anchors = some (a.growThrough set anchors) := by
  have hgrown : a.leaves (a.growThrough set anchors) = false :=
    leaves_eq_false.mpr (within_growThrough h hset.within hset.closed)
  simp [growThrough?, hgrown]

/-- Reading keeps to states, and to closed sets of them. -/
theorem foldlM_advance (h : a.WellFormed) (hset : a.Proper set) (text : List UInt8) :
    text.foldlM (fun set c => (a.readByte? set c).bind a.closure?) set =
        some (text.foldl a.advance set) ∧
      a.Proper (text.foldl a.advance set) := by
  induction text generalizing set with
  | nil => exact ⟨rfl, hset⟩
  | cons c text ih =>
    have hread : a.Within (a.readByte set c) := by
      intro i hi
      obtain ⟨s, -, l, he, -⟩ := mem_readByte_iff.mp hi
      exact h.target_lt he
    rw [List.foldlM_cons, readByte?_eq hset.within, Option.bind_some, closure?_eq h hread]
    exact ih (proper_advance h set c)

theorem accepts?_eq (h : a.WellFormed) (text : List UInt8) :
    a.accepts? text = some (a.accepts text) := by
  have hstart : a.Within {a.start} := by
    intro i hi
    have heq : a.start = i := by simpa using hi
    exact heq ▸ h.start_lt
  have hclosure : a.Proper (a.closure {a.start}) := ⟨within_closure h hstart, closed_closure a _⟩
  obtain ⟨hread, hlast⟩ := foldlM_advance h (proper_initial h (openingAnchors text)) text
  unfold accepts?
  rw [closure?_eq h hstart]
  simp only [Option.bind_eq_bind, Option.bind_some, growThrough?_eq h hclosure]
  rw [← initial, hread, Option.bind_some, growThrough?_eq h hlast]
  rfl

end

/-! ## Literal pieces -/

/-- Follow a string as `spell` does. Every state on the way is looked at. -/
def spell? (a : Automaton) (id : Nat) : List UInt8 → Option (Automaton × Nat)
  | [] => some (a, id)
  | b :: bs =>
    if id < a.size then
      match a.child? id b with
      | some next => a.spell? next bs
      | none => (a.newState.addEdge? id (.byte b) a.size).bind (·.spell? a.size bs)
    else none

/-- Accept one more string, looking at every state on its way. -/
def addString? (a : Automaton) (string : List UInt8) : Option Automaton :=
  (a.spell? 0 string).map fun spelled => spelled.1.markAccepting spelled.2 true

/-- The trie of the strings, with every look-up checked. -/
def trie? (strings : ByteStrings) : Option Automaton := strings.toList.foldlM addString? nothing

/-- A path of byte ranges. An edge starts at a state. -/
def addRanges? (a : Automaton) (id : Nat) : List (UInt8 × UInt8) → Option Automaton
  | [] => a.addEpsilon? id 1
  | [(lo, hi)] => a.addEdge? id (.bytes lo hi) 1
  | (lo, hi) :: ranges =>
    (a.newState.addEdge? id (.bytes lo hi) a.size).bind (·.addRanges? a.size ranges)

/-- The choice between sequences of ranges, with every look-up checked. -/
def choice? (sequences : List (List (UInt8 × UInt8))) : Option Automaton :=
  sequences.foldlM (fun a ranges => a.addRanges? 0 ranges) ⟨#[{}, {}], 0, {1}⟩

theorem lt_size_newState (hi : i < a.size) : i < a.newState.size := by
  rw [size_newState]
  exact Nat.lt_succ_of_lt hi

theorem addEdge?_eq {l : Label} (hi : i < a.size) : a.addEdge? i l j = some (a.addEdge i l j) :=
  if_pos hi

/-- A new edge between states keeps all numbers in range. -/
theorem WellFormed.addEdge (h : a.WellFormed) (l : Label) (hj : j < a.size) :
    (a.addEdge i l j).WellFormed := by
  rw [wellFormed_iff, size_addEdge]
  refine ⟨h.start_lt, fun s x t he => ?_, fun f hf => h.accepting_lt hf⟩
  rcases edge_addEdge.mp he with he | ⟨rfl, -, rfl, rfl⟩
  · exact h.target_lt he
  · exact hj

theorem WellFormed.addEpsilon (h : a.WellFormed) (hj : j < a.size) :
    (a.addEpsilon i j).WellFormed := by
  rw [wellFormed_iff, size_addEpsilon]
  refine ⟨h.start_lt, fun s x t he => ?_, fun f hf => h.accepting_lt hf⟩
  rcases edge_addEpsilon.mp he with he | ⟨rfl, -, rfl, rfl⟩
  · exact h.target_lt he
  · exact hj

theorem WellFormed.newState (h : a.WellFormed) : a.newState.WellFormed := by
  rw [wellFormed_iff, size_newState]
  refine ⟨Nat.lt_succ_of_lt h.start_lt, fun s x t he => ?_, fun f hf => ?_⟩
  · exact Nat.lt_succ_of_lt (h.target_lt (edge_newState.mp he))
  · exact Nat.lt_succ_of_lt (h.accepting_lt hf)

/-- Growing by an edge to a new state keeps all numbers in range. -/
theorem WellFormed.grow (h : a.WellFormed) (l : Label) :
    (a.newState.addEdge i l a.size).WellFormed :=
  h.newState.addEdge l (by simp)

theorem WellFormed.startAt (h : a.WellFormed) (hi : i < a.size) : (a.startAt i).WellFormed :=
  ⟨hi, h.2⟩

theorem WellFormed.markAccepting (h : a.WellFormed) (hi : i < a.size) (on : Bool) :
    (a.markAccepting i on).WellFormed := by
  refine wellFormed_iff.mpr ⟨h.start_lt, fun s x t he => h.target_lt he, fun f hf => ?_⟩
  cases on with
  | true =>
    have hmem : f ∈ a.accepting.insert i := hf
    rcases Std.ExtTreeSet.mem_insert.mp hmem with heq | hf
    · rw [← Std.LawfulEqCmp.compare_eq_iff_eq.mp heq]
      exact hi
    · exact h.accepting_lt hf
  | false =>
    have hmem : f ∈ a.accepting.erase i := hf
    exact h.accepting_lt (Std.ExtTreeSet.mem_erase.mp hmem).2

/-- Spelling stays within the automaton, which grows. -/
theorem spell?_spec (h : a.WellFormed) (hi : i < a.size) (bytes : List UInt8) :
    a.spell? i bytes = some (a.spell i bytes) ∧ (a.spell i bytes).1.WellFormed ∧
      (a.spell i bytes).2 < (a.spell i bytes).1.size ∧ 0 < (a.spell i bytes).1.size := by
  induction bytes generalizing a i with
  | nil => exact ⟨rfl, h, hi, Nat.zero_lt_of_lt hi⟩
  | cons c bytes ih =>
    unfold spell? spell
    rw [if_pos hi]
    cases hc : a.child? i c with
    | some next => exact ih h (h.target_lt (child?_eq_some hc))
    | none =>
      simp only [addEdge?_eq (lt_size_newState hi), Option.bind_some]
      exact ih (h.grow _) (by simp)

theorem addString?_spec (h : a.WellFormed) (hpos : 0 < a.size) (string : List UInt8) :
    a.addString? string = some (a.addString string) ∧ (a.addString string).WellFormed ∧
      0 < (a.addString string).size := by
  obtain ⟨heq, hw, hlt, hpos⟩ := spell?_spec h hpos string
  exact ⟨by rw [addString?, heq]; rfl, hw.markAccepting hlt true, hpos⟩

theorem trie?_eq (strings : ByteStrings) : trie? strings = some (trie strings) := by
  have hfold (list : List (List UInt8)) {a : Automaton} (h : a.WellFormed) (hpos : 0 < a.size) :
      list.foldlM addString? a = some (list.foldl addString a) := by
    induction list generalizing a with
    | nil => rfl
    | cons string list ih =>
      obtain ⟨heq, hw, hpos⟩ := addString?_spec h hpos string
      rw [List.foldlM_cons, heq]
      exact ih hw hpos
  exact hfold _ wellFormed_nothing Nat.one_pos

theorem addRanges?_spec (h : a.WellFormed) (hi : i < a.size) (hend : 1 < a.size)
    (ranges : List (UInt8 × UInt8)) :
    a.addRanges? i ranges = some (a.addRanges i ranges) ∧ (a.addRanges i ranges).WellFormed ∧
      1 < (a.addRanges i ranges).size := by
  induction ranges generalizing a i with
  | nil => exact ⟨if_pos hi, h.addEpsilon hend, by simpa [addRanges] using hend⟩
  | cons range ranges ih =>
    cases ranges with
    | nil => exact ⟨addEdge?_eq hi, h.addEdge _ hend, by simpa [addRanges] using hend⟩
    | cons next ranges =>
      unfold addRanges? addRanges
      simp only [addEdge?_eq (lt_size_newState hi), Option.bind_some]
      exact ih (h.grow _) (by simp) (by simp; omega)

theorem choice?_eq (sequences : List (List (UInt8 × UInt8))) :
    choice? sequences = some (choice sequences) := by
  have hfold (sequences : List (List (UInt8 × UInt8))) {a : Automaton} (h : a.WellFormed)
      (hend : 1 < a.size) : sequences.foldlM (fun a ranges => a.addRanges? 0 ranges) a =
        some (sequences.foldl (fun a ranges => a.addRanges 0 ranges) a) := by
    induction sequences generalizing a with
    | nil => rfl
    | cons ranges sequences ih =>
      obtain ⟨heq, hw, hend⟩ := addRanges?_spec h (Nat.zero_lt_of_lt hend) hend ranges
      rw [List.foldlM_cons, heq]
      exact ih hw hend
  exact hfold sequences (by decide) (Nat.lt_succ_self 1)

/-! ## Complement and intersection -/

/-- The complement without a budget. -/
def complement? (a : Automaton) : Option Automaton :=
  match a.complementUpTo a.subsetBound with
  | .ok d => some d
  | .error _ => none

theorem complement?_eq (h : a.WellFormed) : a.complement? = some a.complement := by
  unfold complement? complementUpTo
  rw [determinizeUpTo_subsetBound h]
  rfl

end Automaton

namespace Numbering
variable {κ : Type} {space : KeySpace κ} {step : κ → UInt8 → κ} {good : κ → Prop}
  {limit lead : Nat} {dangling : κ → Bool}

/-- What is not dangling may be looked up. -/
theorem visit_congr {key : κ} (hkey : dangling key = space.dangling key) (s : Numbering κ) :
    s.visit { space with dangling := dangling } limit key = s.visit space limit key := by
  unfold visit
  simp only [hkey]

theorem visitRow_congr {row : List (κ × Nat)}
    (hrow : ∀ p ∈ row, dangling p.1 = space.dangling p.1) (s : Numbering κ) :
    visitRow { space with dangling := dangling } limit row s = visitRow space limit row s := by
  induction row generalizing s with
  | nil => rfl
  | cons p row ih =>
    rw [visitRow_cons, visitRow_cons, visit_congr (hrow p List.mem_cons_self)]
    simp only [ih fun p hp => hrow p (List.mem_cons_of_mem _ hp)]

theorem writeRows_congr (hlaw : space.Lawful step good)
    (hsame : ∀ k, good k → dangling k = space.dangling k) {i : Nat} {s : Numbering κ}
    (hs : s.Valid space good lead) (states : Array State) :
    writeRows { space with dangling := dangling } limit i s states =
      writeRows space limit i s states := by
  have hrow (i : Nat) (s : Numbering κ) (hs : s.Valid space good lead) (hi : i < s.keys.size) :
      ∀ p ∈ space.row s.keys[i].1, good p.1 :=
    hlaw.row_good _ (hs.good_keys _ _ _ (Array.getElem?_eq_getElem hi))
  induction i, s, states using writeRows.induct space limit with
  | case1 i s states hi err herr =>
    rw [writeRows_of_lt _ limit states hi, writeRows_of_lt space limit states hi,
      visitRow_congr fun p hp => hsame _ (hrow i s hs hi p hp), herr]
    rfl
  | case2 i s states hi row s' hok ih =>
    rw [writeRows_of_lt _ limit states hi, writeRows_of_lt space limit states hi,
      visitRow_congr fun p hp => hsame _ (hrow i s hs hi p hp), hok]
    exact ih (visitRow_spec hs (hrow i s hs hi) hok).1
  | case3 i s states hi => rw [writeRows, writeRows, dif_neg hi, dif_neg hi]

theorem run_congr (hlaw : space.Lawful step good)
    (hsame : ∀ k, good k → dangling k = space.dangling k) {start : Numbering κ}
    (hs : start.Valid space good lead) :
    run { space with dangling := dangling } limit start = run space limit start := by
  rw [run_eq_map, run_eq_map, writeRows_congr hlaw hsame hs]

end Numbering

namespace Automaton
variable {a b da db : Automaton} {limit : Nat}

/-- Pairs of states, of which a member that is no state has no row. -/
def pairs? (a b : Automaton) : KeySpace (Nat × Nat) :=
  { pairs a b with dangling := fun k => !(decide (k.1 < a.size) && decide (k.2 < b.size)) }

/-- The product of two deterministic automata, with every row looked up. -/
def productUpTo? (a b : Automaton) (limit : Nat) : Except BuildError Automaton :=
  let first := (a.start, b.start)
  let verdict := a.accepting.contains a.start && b.accepting.contains b.start
  let space := pairs? a b
  if space.dangling first then .error .missingState
  else Numbering.run space limit ⟨#[(first, verdict)], Std.TreeMap.ofList [(space.code first, 0)]⟩

/-- The intersection, with every look-up checked. -/
def intersectUpTo? (a b : Automaton) (limit : Nat) : Except BuildError Automaton := do
  let da ← a.determinizeUpTo limit
  let db ← b.determinizeUpTo limit
  match (← productUpTo? da db limit).prune? with
  | some d => .ok d
  | none => .error .missingState

theorem not_dangling_pairs? {k : Nat × Nat} (hk : Paired a b k) :
    (pairs? a b).dangling k = false := by
  simp [pairs?, hk.1, hk.2]

theorem productUpTo?_eq {nextA nextB : Nat → UInt8 → Nat} (ha : Complete da nextA)
    (hb : Complete db nextB) (limit : Nat) :
    productUpTo? da db limit = productUpTo da db limit := by
  have hstart := paired_start ha.wellFormed hb.wellFormed
  have hfirst := not_dangling_pairs? hstart
  unfold productUpTo?
  simp only [hfirst]
  exact Numbering.run_congr (lawful_pairs ha hb) (fun _ hk => not_dangling_pairs? hk)
    (valid_pairs hstart)

theorem intersectUpTo?_eq (ha : a.WellFormed) (hb : b.WellFormed) (limit : Nat) :
    a.intersectUpTo? b limit = a.intersectUpTo b limit := by
  rw [intersectUpTo_eq_bind, intersectUpTo?]
  cases hda : a.determinizeUpTo limit with
  | error err => rfl
  | ok da =>
    cases hdb : b.determinizeUpTo limit with
    | error err => rfl
    | ok db =>
      obtain ⟨nextA, hca, -⟩ := determinizeUpTo_spec ha hda
      obtain ⟨nextB, hcb, -⟩ := determinizeUpTo_spec hb hdb
      have hproduct := builds_productUpTo hca hcb limit
      change (productUpTo? da db limit >>= _) = (productUpTo da db limit).map prune
      rw [productUpTo?_eq hca hcb]
      cases hd : productUpTo da db limit with
      | error err => rfl
      | ok d =>
        rw [hd] at hproduct
        change (match d.prune? with
          | some d => Except.ok d
          | none => Except.error BuildError.missingState) = Except.ok d.prune
        rw [prune?_eq hproduct.wellFormed]

end Automaton

end PatternAutomata
