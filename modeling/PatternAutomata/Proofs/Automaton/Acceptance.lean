import PatternAutomata.Proofs.Automaton.Reach

/-!
# Acceptance along paths

Reading a text byte by byte keeps the set of all states that a path can have come to, so the
automaton accepts a text exactly if its meaning matches the whole of it.
-/
namespace PatternAutomata.Automaton
open Relation (ReflTransGen)
variable {a : Automaton} {set : StateSet} {i : Nat} {text : List UInt8}

theorem closed_initial (a : Automaton) (anchors : List Anchor) : a.Closed (a.initial anchors) :=
  closed_growThrough (closed_closure a _)

theorem mem_initial {anchors : List Anchor} : i ∈ a.initial anchors ↔ ReflTransGen
    (Silent a.Edge (anchors.contains .textStart) (anchors.contains .textEnd)) a.start i := by
  unfold initial
  rw [mem_growThrough (closed_closure a _)]
  constructor
  · rintro ⟨s, hs, h⟩
    obtain ⟨t, ht, h'⟩ := mem_closure.mp hs
    obtain rfl : a.start = t := by simpa using ht
    exact (Silent.mono (by simp) (by simp) h').trans h
  · intro h
    exact ⟨a.start, mem_closure.mpr ⟨a.start, by simp, .refl⟩, h⟩

theorem closed_advance (a : Automaton) (set : StateSet) (c : UInt8) : a.Closed (a.advance set c) :=
  closed_closure a _

theorem mem_readByte_iff {c : UInt8} : i ∈ a.readByte set c ↔
    ∃ s ∈ set, ∃ l, a.Edge s (some l) i ∧ l.reads c = true := by
  rw [mem_readByte]
  refine exists_congr fun s => and_congr_right fun _ => ?_
  constructor
  · rintro ⟨t, ht, hl, rfl⟩
    exact ⟨t.label, mem_transitionsOf.mp ht, hl⟩
  · rintro ⟨l, h, hl⟩
    exact ⟨⟨l, i⟩, mem_transitionsOf.mpr h, hl, rfl⟩

theorem acceptsAtEnd_iff (hset : a.Closed set) : a.acceptsAtEnd set = true ↔
    ∃ s ∈ set, ∃ f ∈ a.accepting, ReflTransGen (Silent a.Edge false true) s f := by
  unfold acceptsAtEnd
  rw [meetsAccepting_eq_true]
  constructor
  · rintro ⟨f, hf, hacc⟩
    obtain ⟨s, hs, h⟩ := (mem_growThrough hset).mp hf
    exact ⟨s, hs, f, hacc, h⟩
  · rintro ⟨s, hs, f, hacc, h⟩
    exact ⟨f, (mem_growThrough hset).mpr ⟨s, hs, h⟩, hacc⟩

/-- Reading the rest of a text keeps all states that paths lead to. -/
theorem acceptsAtEnd_foldl (hset : a.Closed set) :
    a.acceptsAtEnd (text.foldl a.advance set) = true ↔
      ∃ s ∈ set, ∃ f ∈ a.accepting, Path a.Edge true false s text f := by
  induction text generalizing set with
  | nil =>
    rw [List.foldl_nil, acceptsAtEnd_iff hset]
    simp only [path_nil_iff]
  | cons c text ih =>
    rw [List.foldl_cons, ih (closed_advance a set c)]
    constructor
    · rintro ⟨t, ht, f, hf, h⟩
      obtain ⟨j, hj, hjt⟩ := mem_closure.mp ht
      obtain ⟨s, hs, l, he, hl⟩ := mem_readByte_iff.mp hj
      refine ⟨s, hs, f, hf, .byte he hl (.of_silent ?_ h)⟩
      exact Silent.mono id (fun h => absurd h Bool.false_ne_true) hjt
    · rintro ⟨s, hs, f, hf, h⟩
      obtain ⟨j, l, j', hj, he, hl, h'⟩ := path_cons_iff.mp h
      have hjset : j ∈ set := by
        clear he
        induction hj with
        | refl => exact hs
        | tail _ h ih => exact hset _ ih _ (mem_epsilonsOf.mp (silent_false_iff.mp h))
      refine ⟨j', mem_closure.mpr ⟨j', ?_, .refl⟩, f, hf, h'⟩
      exact mem_readByte_iff.mpr ⟨j, hjset, l, he, hl⟩

theorem accepts_iff (a : Automaton) (text : List UInt8) :
    a.accepts text = true ↔ a.meaning.whole text := by
  unfold accepts Meaning.whole meaning
  cases text with
  | nil =>
    rw [List.foldl_nil, acceptsAtEnd_iff (closed_initial a _)]
    simp only [path_nil_iff]
    constructor
    · rintro ⟨s, hs, f, hf, h⟩
      refine ⟨f, hf, ReflTransGen.trans (mem_initial.mp hs) ?_⟩
      exact Silent.mono (fun _ => rfl) (fun _ => rfl) h
    · rintro ⟨f, hf, h⟩
      exact ⟨f, mem_initial.mpr h, f, hf, .refl⟩
  | cons c text =>
    rw [acceptsAtEnd_foldl (closed_initial a _)]
    constructor
    · rintro ⟨s, hs, f, hf, h⟩
      refine ⟨f, hf, .of_silent (mem_initial.mp hs) (h.weaken fun _ => rfl)⟩
    · rintro ⟨f, hf, h⟩
      obtain ⟨j, l, j', hj, he, hl, h'⟩ := path_cons_iff.mp h
      exact ⟨j, mem_initial.mpr hj, f, hf, .byte he hl h'⟩

end PatternAutomata.Automaton
