import PatternAutomata.Proofs.Automaton.Algebra

/-!
# Without anchors

Where a piece stands in a text matters to anchors only. What is made without them matches a piece
everywhere or nowhere, and then a concatenation matches what splits into a piece for each part.
-/
namespace PatternAutomata

namespace Meaning
variable {p q : Meaning}

/-- Whether a piece is matched does not depend on where it stands. -/
def Placeless (p : Meaning) : Prop := ∀ b w e, p b w e ↔ p.whole w

theorem placeless_empty : empty.Placeless := fun _ _ _ => Iff.rfl

theorem placeless_strings (s : List UInt8 → Prop) : (strings s).Placeless := fun _ _ _ => Iff.rfl

theorem Placeless.either (hp : p.Placeless) (hq : q.Placeless) : (p.either q).Placeless :=
  fun b w e => or_congr (hp b w e) (hq b w e)

theorem Placeless.seq_iff (hp : p.Placeless) (hq : q.Placeless) (b : Bool) (w : List UInt8)
    (e : Bool) : p.seq q b w e ↔ ∃ u v, w = u ++ v ∧ p.whole u ∧ q.whole v :=
  exists_congr fun _ => exists_congr fun _ => and_congr_right fun _ =>
    and_congr (hp _ _ _) (hq _ _ _)

theorem Placeless.seq (hp : p.Placeless) (hq : q.Placeless) : (p.seq q).Placeless :=
  fun b w e => (hp.seq_iff hq b w e).trans (hp.seq_iff hq true w true).symm

theorem Placeless.power (hp : p.Placeless) (k : Nat) : (p.power k).Placeless := by
  induction k with
  | zero => exact placeless_empty
  | succ k ih => exact ih.seq hp

/-- Where place does not matter, the pieces of a row do not see each other. -/
theorem Placeless.row_iff (h : p.Placeless) {b e : Bool} {pieces : List (List UInt8)} :
    p.Row b pieces e ↔ ∀ u ∈ pieces, p.whole u := by
  constructor
  · intro hrow u hu
    obtain ⟨before, after, hpieces⟩ := List.append_of_mem hu
    exact (h ..).mp (hrow before u after hpieces)
  · intro hall before u after hpieces
    exact (h ..).mpr (hall u (by simp [hpieces]))

end Meaning

namespace Automaton
variable {a : Automaton}

/-- No edge is an anchor. -/
def Unanchored (a : Automaton) : Prop :=
  ∀ st ∈ a.states.toList, ∀ t ∈ st.transitions, ∀ m, t.label ≠ .anchor m

theorem Unanchored.not_edge (h : a.Unanchored) {i j : Nat} (m : Anchor) :
    ¬ a.Edge i (some (.anchor m)) j := by
  rintro ⟨st, hst, ht⟩
  exact h st (Array.mem_toList_iff.mpr (Array.mem_of_getElem? hst)) _ ht m rfl

theorem Unanchored.path (h : a.Unanchored) {b b' e e' : Bool} {i k : Nat} {w : List UInt8}
    (hp : Path a.Edge e b i w k) : Path a.Edge e' b' i w k := by
  induction hp generalizing b' with
  | refl b i => exact .refl b' i
  | @silent b i j k x w he hx rest ih =>
    match x with
    | none => exact .epsilon he ih
    | some (.anchor m) => exact absurd he (h.not_edge m)
  | byte he hl rest ih => exact .byte he hl ih

theorem Unanchored.placeless (h : a.Unanchored) : a.meaning.Placeless := fun _ _ _ =>
  exists_congr fun _ => and_congr_right fun _ => ⟨h.path, h.path⟩

end Automaton

end PatternAutomata
