import PatternAutomata.Automaton.Algebra
import PatternAutomata.Proofs.Meaning

/-!
# Paths

The edges of an automaton as a relation, and the paths along them. A path spells a piece of a text;
which anchors it may cross depends on the flags of the piece and on the bytes that are still ahead.
The meaning of an automaton is what its paths from the start to an accepting state spell.
-/
namespace PatternAutomata

/-- The edges out of a state. An epsilon edge has no label. -/
def State.Leads (s : State) : Option Label → Nat → Prop
  | some l, j => ⟨l, j⟩ ∈ s.transitions
  | none, j => j ∈ s.epsilons

namespace State

@[simp] theorem not_leads_empty (x : Option Label) (j : Nat) : ¬ ({} : State).Leads x j := by
  cases x <;> simp [Leads]

theorem leads_addEdge {s : State} {l : Label} {t : Nat} {x : Option Label} {j : Nat} :
    (s.addEdge l t).Leads x j ↔ s.Leads x j ∨ x = some l ∧ j = t := by
  cases x <;> simp [Leads, addEdge]

theorem leads_addEpsilon {s : State} {t : Nat} {x : Option Label} {j : Nat} :
    (s.addEpsilon t).Leads x j ↔ s.Leads x j ∨ x = none ∧ j = t := by
  cases x with
  | none => simp [Leads, mem_epsilons_addEpsilon]
  | some l => simp [Leads]

theorem leads_shift {s : State} {n : Nat} {x : Option Label} {j : Nat} :
    (s.shift n).Leads x j ↔ ∃ i, s.Leads x i ∧ i + n = j := by
  cases x with
  | none => simp [Leads, shift]
  | some l =>
    simp only [Leads, shift, List.mem_map, Transition.mk.injEq]
    constructor
    · rintro ⟨⟨_, i⟩, h, rfl, rfl⟩
      exact ⟨i, h, rfl⟩
    · rintro ⟨i, h, rfl⟩
      exact ⟨⟨l, i⟩, h, rfl, rfl⟩

theorem mem_targets {s : State} {j : Nat} : j ∈ s.targets ↔ ∃ x, s.Leads x j := by
  simp only [targets, List.mem_append, List.mem_map]
  constructor
  · rintro (⟨⟨l, _⟩, h, rfl⟩ | h)
    · exact ⟨some l, h⟩
    · exact ⟨none, h⟩
  · rintro ⟨_ | l, h⟩
    · exact .inr h
    · exact .inl ⟨⟨l, j⟩, h, rfl⟩

end State

/-- Labelled edges between numbers. -/
abbrev Graph := Nat → Option Label → Nat → Prop

/-- Whether an edge can be followed without a byte. The flags say which anchors can be crossed. -/
def crossable (b e : Bool) : Option Label → Bool
  | none => true
  | some (.anchor .textStart) => b
  | some (.anchor .textEnd) => e
  | some (.bytes _ _) => false

theorem crossable_mono {b b' e e' : Bool} (hb : b = true → b' = true) (he : e = true → e' = true)
    {x : Option Label} (h : crossable b e x = true) : crossable b' e' x = true := by
  match x with
  | none => rfl
  | some (.anchor .textStart) => exact hb h
  | some (.anchor .textEnd) => exact he h

/-- A way through a graph that spells a piece of a text. The first flag says whether the piece may
end at the end of the text, the second one whether it begins at the start. -/
inductive Path (g : Graph) (e : Bool) : Bool → Nat → List UInt8 → Nat → Prop
  | refl (b : Bool) (i : Nat) : Path g e b i [] i
  | silent {b : Bool} {i j k : Nat} {x : Option Label} {w : List UInt8} (h : g i x j)
      (hx : crossable b (e && w.isEmpty) x = true) (rest : Path g e b j w k) : Path g e b i w k
  | byte {b : Bool} {i j k : Nat} {l : Label} {c : UInt8} {w : List UInt8} (h : g i (some l) j)
      (hl : l.reads c = true) (rest : Path g e false j w k) : Path g e b i (c :: w) k

namespace Path
variable {g g' : Graph} {b e : Bool} {i j k : Nat} {u v w : List UInt8}

theorem epsilon (h : g i none j) (rest : Path g e b j w k) : Path g e b i w k :=
  .silent h rfl rest

theorem map (f : Nat → Nat) (hf : ∀ i x j, g i x j → g' (f i) x (f j)) (h : Path g e b i w k) :
    Path g' e b (f i) w (f k) := by
  induction h with
  | refl b i => exact .refl b (f i)
  | silent h hx _ ih => exact .silent (hf _ _ _ h) hx ih
  | byte h hl _ ih => exact .byte (hf _ _ _ h) hl ih

theorem mono (hg : ∀ i x j, g i x j → g' i x j) (h : Path g e b i w k) : Path g' e b i w k :=
  h.map id hg

/-- A path that begins in a copy of a graph stays in the copy, if no edge leads out of it. -/
theorem of_map (f : Nat → Nat) (inside : Nat → Prop)
    (hf : ∀ i x j, inside i → g' (f i) x j → ∃ j', f j' = j ∧ inside j' ∧ g i x j')
    (hi : inside i) (h : Path g' e b (f i) w k) :
    ∃ k', f k' = k ∧ inside k' ∧ Path g e b i w k' := by
  generalize hs : f i = s at h
  induction h generalizing i with
  | refl b s => exact ⟨i, hs, hi, .refl b i⟩
  | silent h hx _ ih =>
    subst hs
    obtain ⟨j, rfl, hj, hg⟩ := hf _ _ _ hi h
    obtain ⟨k', hk, hin, hp⟩ := ih hj rfl
    exact ⟨k', hk, hin, .silent hg hx hp⟩
  | byte h hl _ ih =>
    subst hs
    obtain ⟨j, rfl, hj, hg⟩ := hf _ _ _ hi h
    obtain ⟨k', hk, hin, hp⟩ := ih hj rfl
    exact ⟨k', hk, hin, .byte hg hl hp⟩

/-- Two paths make one. The first piece ends the text only if the second one is empty, and the
second one starts it only if the first one is. -/
theorem trans (h : Path g (e && v.isEmpty) b i u j) (h' : Path g e (b && u.isEmpty) j v k) :
    Path g e b i (u ++ v) k := by
  induction h with
  | refl b i => simpa using h'
  | silent h hx _ ih =>
    refine .silent h ?_ (ih h')
    rw [isEmpty_append, Bool.and_comm (List.isEmpty _), ← Bool.and_assoc]
    exact hx
  | byte h hl _ ih =>
    refine .byte h hl (ih ?_)
    simpa using h'

/-- A path that may begin at the start of the text, may also begin there. -/
theorem weaken {b' : Bool} (hb : b = true → b' = true) (h : Path g e b i w k) :
    Path g e b' i w k := by
  induction h generalizing b' with
  | refl b i => exact .refl b' i
  | silent h hx _ ih => exact .silent h (crossable_mono hb id hx) (ih hb)
  | byte h hl rest => exact .byte h hl rest

end Path

/-- The edges of a table of states. -/
def edgesOf (table : Array State) : Graph := fun i x j => ∃ s, table[i]? = some s ∧ s.Leads x j

namespace Automaton

/-- The edges of an automaton. -/
def Edge (a : Automaton) : Graph := edgesOf a.states

/-- What the automaton says of a piece of a text. -/
def meaning (a : Automaton) : Meaning := fun b w e =>
  ∃ f ∈ a.accepting, Path a.Edge e b a.start w f

variable {a : Automaton} {i j : Nat} {x : Option Label}

theorem mem_transitionsOf {t : Transition} :
    t ∈ a.transitionsOf i ↔ a.Edge i (some t.label) t.target := by
  unfold transitionsOf Edge edgesOf
  cases a.states[i]? <;> simp [State.Leads]

theorem mem_epsilonsOf : j ∈ a.epsilonsOf i ↔ a.Edge i none j := by
  unfold epsilonsOf Edge edgesOf
  cases a.states[i]? <;> simp [State.Leads]

theorem mem_targetsOf : j ∈ a.targetsOf i ↔ ∃ x, a.Edge i x j := by
  unfold targetsOf Edge edgesOf
  cases a.states[i]? <;> simp [State.mem_targets]

theorem Edge.lt_size (h : a.Edge i x j) : i < a.size := by
  obtain ⟨s, hs, -⟩ := h
  exact (Array.getElem?_eq_some_iff.mp hs).1

theorem wellFormed_iff : a.WellFormed ↔
    a.start < a.size ∧ (∀ i x j, a.Edge i x j → j < a.size) ∧ ∀ f ∈ a.accepting, f < a.size := by
  simp only [WellFormed, Array.mem_toList_iff, Std.ExtTreeSet.mem_toList]
  refine and_congr_right fun _ => and_congr_left fun _ => ?_
  constructor
  · rintro h i x j ⟨s, hs, hx⟩
    exact h s (Array.mem_of_getElem? hs) j (State.mem_targets.mpr ⟨x, hx⟩)
  · intro h s hs j hj
    obtain ⟨i, hi⟩ := Array.mem_iff_getElem?.mp hs
    obtain ⟨x, hx⟩ := State.mem_targets.mp hj
    exact h i x j ⟨s, hi, hx⟩

theorem WellFormed.start_lt (h : a.WellFormed) : a.start < a.size := h.1

theorem WellFormed.target_lt (h : a.WellFormed) (he : a.Edge i x j) : j < a.size :=
  (wellFormed_iff.mp h).2.1 i x j he

theorem WellFormed.accepting_lt (h : a.WellFormed) {f : Nat} (hf : f ∈ a.accepting) : f < a.size :=
  (wellFormed_iff.mp h).2.2 f hf

end Automaton

end PatternAutomata
