import PatternAutomata.Proofs.Automaton.Lookup

/-!
# Walks

A walk is a list of edges, each of which begins where the one before it ends. What an automaton
accepts can be said of the labels along a walk alone: its byte edges take the bytes of the text one
by one, and its anchors stand at the two ends of the text.
-/
namespace PatternAutomata

/-- A walk through a graph, with the labels of its edges in order. -/
inductive Walk (g : Graph) : Nat → List (Option Label) → Nat → Prop
  | refl (i : Nat) : Walk g i [] i
  | step {i j k : Nat} {x : Option Label} {labels : List (Option Label)} (h : g i x j)
      (rest : Walk g j labels k) : Walk g i (x :: labels) k

/-- The labels that take a byte, in order. -/
def byteLabels : List (Option Label) → List Label
  | [] => []
  | some (.bytes lo hi) :: labels => .bytes lo hi :: byteLabels labels
  | some (.anchor _) :: labels => byteLabels labels
  | none :: labels => byteLabels labels

/-- Every label takes the byte at its place, and there are as many labels as bytes. -/
def Takes (labels : List Label) (w : List UInt8) : Prop :=
  List.Forall₂ (fun l c => l.reads c = true) labels w

/-- Anchors at the start of the text come before every label that takes a byte, anchors at its end
behind every one. The flags say whether the labels may begin and end where the text does. -/
structure Placed (b e : Bool) (labels : List (Option Label)) : Prop where
  textStart : ∀ before behind, labels = before ++ some (.anchor .textStart) :: behind →
    b = true ∧ byteLabels before = []
  textEnd : ∀ before behind, labels = before ++ some (.anchor .textEnd) :: behind →
    e = true ∧ byteLabels behind = []

section
variable {g : Graph} {b e : Bool} {i j k : Nat} {x : Option Label} {labels : List (Option Label)}
  {w : List UInt8}

theorem byteLabels_cons_of_crossable (hx : crossable b e x = true) :
    byteLabels (x :: labels) = byteLabels labels := by
  match x with
  | none => rfl
  | some (.anchor m) => rfl

theorem byteLabels_append (labels labels' : List (Option Label)) :
    byteLabels (labels ++ labels') = byteLabels labels ++ byteLabels labels' := by
  induction labels with
  | nil => rfl
  | cons x labels ih =>
    match x with
    | none => exact ih
    | some (.anchor m) => exact ih
    | some (.bytes lo hi) => exact congrArg (Label.bytes lo hi :: ·) ih

theorem Takes.isEmpty_eq {ls : List Label} (h : Takes ls w) : w.isEmpty = ls.isEmpty := by
  cases h <;> rfl

theorem placed_nil (b e : Bool) : Placed b e [] := by
  constructor
  · intro before behind h
    simp at h
  · intro before behind h
    simp at h

/-- A label without a byte stands where it can be crossed, and the others are placed as before. -/
theorem placed_cons_of_silent (hx : ∀ lo hi, x ≠ some (.bytes lo hi)) :
    Placed b e (x :: labels) ↔
      crossable b (e && (byteLabels labels).isEmpty) x = true ∧ Placed b e labels := by
  constructor
  · intro h
    refine ⟨?_, ⟨fun before behind heq => ?_, fun before behind heq => ?_⟩⟩
    · rcases x with _ | ⟨lo, hi⟩ | ⟨_ | _⟩
      · rfl
      · exact absurd rfl (hx lo hi)
      · exact (h.textStart [] labels rfl).1
      · simpa [crossable] using h.textEnd [] labels rfl
    · have hplace := h.textStart (x :: before) behind (by rw [heq, List.cons_append])
      rcases x with _ | ⟨lo, hi⟩ | m
      · exact hplace
      · exact absurd rfl (hx lo hi)
      · exact hplace
    · exact h.textEnd (x :: before) behind (by rw [heq, List.cons_append])
  · rintro ⟨hc, h⟩
    refine ⟨fun before behind heq => ?_, fun before behind heq => ?_⟩
    · rcases List.cons_eq_append_iff.mp heq with ⟨rfl, hhead⟩ | ⟨before', rfl, htail⟩
      · obtain ⟨rfl, rfl⟩ := List.cons.inj hhead
        exact ⟨hc, rfl⟩
      · rw [byteLabels_cons_of_crossable hc]
        exact h.textStart before' behind htail
    · rcases List.cons_eq_append_iff.mp heq with ⟨rfl, hhead⟩ | ⟨before', rfl, htail⟩
      · obtain ⟨rfl, rfl⟩ := List.cons.inj hhead
        simpa [crossable] using hc
      · exact h.textEnd before' behind htail

/-- Behind a label that takes a byte, nothing stands at the start of the text. -/
theorem placed_cons_bytes {lo hi : UInt8} :
    Placed b e (some (.bytes lo hi) :: labels) ↔ Placed false e labels := by
  constructor
  · intro h
    refine ⟨fun before behind heq => ?_, fun before behind heq => ?_⟩
    · have := (h.textStart (some (.bytes lo hi) :: before) behind (by rw [heq, List.cons_append])).2
      simp [byteLabels] at this
    · exact h.textEnd (some (.bytes lo hi) :: before) behind (by rw [heq, List.cons_append])
  · intro h
    refine ⟨fun before behind heq => ?_, fun before behind heq => ?_⟩
    · rcases List.cons_eq_append_iff.mp heq with ⟨-, hhead⟩ | ⟨before', -, htail⟩
      · simp at hhead
      · exact absurd (h.textStart before' behind htail).1 Bool.false_ne_true
    · rcases List.cons_eq_append_iff.mp heq with ⟨-, hhead⟩ | ⟨before', -, htail⟩
      · simp at hhead
      · exact h.textEnd before' behind htail

theorem exists_walk_of_path (h : Path g e b i w k) :
    ∃ labels, Walk g i labels k ∧ Takes (byteLabels labels) w ∧ Placed b e labels := by
  induction h with
  | refl b i => exact ⟨[], .refl i, .nil, placed_nil b e⟩
  | @silent b i j k x w he hx _ ih =>
    obtain ⟨labels, hwalk, htakes, hplaced⟩ := ih
    have hsilent (lo hi : UInt8) : x ≠ some (.bytes lo hi) := by
      intro heq
      simp [heq, crossable] at hx
    refine ⟨x :: labels, .step he hwalk, ?_, (placed_cons_of_silent hsilent).mpr ⟨?_, hplaced⟩⟩
    · rwa [byteLabels_cons_of_crossable hx]
    · rwa [← htakes.isEmpty_eq]
  | @byte b i j k l c w he hl _ ih =>
    obtain ⟨labels, hwalk, htakes, hplaced⟩ := ih
    cases l with
    | bytes lo hi =>
      exact ⟨_ :: labels, .step he hwalk, .cons hl htakes, placed_cons_bytes.mpr hplaced⟩
    | anchor m => cases hl

theorem path_of_walk (h : Walk g i labels k) (htakes : Takes (byteLabels labels) w)
    (hplaced : Placed b e labels) : Path g e b i w k := by
  induction h generalizing b w with
  | refl i =>
    cases htakes
    exact .refl b i
  | @step i j k x labels he _ ih =>
    by_cases hx : ∃ lo hi, x = some (.bytes lo hi)
    · obtain ⟨lo, hi, rfl⟩ := hx
      cases htakes with
      | cons hl htakes => exact .byte he hl (ih htakes (placed_cons_bytes.mp hplaced))
    · have hsilent (lo hi : UInt8) : x ≠ some (.bytes lo hi) := fun heq => hx ⟨lo, hi, heq⟩
      obtain ⟨hc, hplaced⟩ := (placed_cons_of_silent hsilent).mp hplaced
      rw [byteLabels_cons_of_crossable hc] at htakes
      rw [← htakes.isEmpty_eq] at hc
      exact .silent he hc (ih htakes hplaced)

end

namespace Automaton
variable {a : Automaton}

/-- An automaton accepts a text exactly if some walk from the start to an accepting state takes its
bytes, with all anchors at the right end. Nothing is looked up in vain on the way. -/
theorem accepts_iff_walk (h : a.WellFormed) (text : List UInt8) :
    a.accepts? text = some (a.accepts text) ∧
    (a.accepts text = true ↔ ∃ labels, ∃ f ∈ a.accepting, Walk a.Edge a.start labels f ∧
      Takes (byteLabels labels) text ∧
      (∀ before behind, labels = before ++ some (.anchor .textStart) :: behind →
        byteLabels before = []) ∧
      ∀ before behind, labels = before ++ some (.anchor .textEnd) :: behind →
        byteLabels behind = []) := by
  refine ⟨accepts?_eq h text, ?_⟩
  rw [accepts_iff]
  constructor
  · intro ⟨f, hf, hpath⟩
    obtain ⟨labels, hwalk, htakes, hplaced⟩ := exists_walk_of_path hpath
    exact ⟨labels, f, hf, hwalk, htakes, fun before behind heq => (hplaced.1 before behind heq).2,
      fun before behind heq => (hplaced.2 before behind heq).2⟩
  · intro ⟨labels, f, hf, hwalk, htakes, hstart, hend⟩
    have hplaced : Placed true true labels :=
      ⟨fun before behind heq => ⟨rfl, hstart before behind heq⟩,
        fun before behind heq => ⟨rfl, hend before behind heq⟩⟩
    exact ⟨f, hf, path_of_walk hwalk htakes hplaced⟩

/-- The end of the text is crossed before its start, so that no byte fits in between. -/
def mixedChain : Automaton where
  states := #[{ epsilons := [1] }, { transitions := [⟨.anchor .textEnd, 2⟩] },
    { transitions := [⟨.anchor .textStart, 3⟩] }, { epsilons := [4] },
    { transitions := [⟨.anchor .textStart, 5⟩], epsilons := [3] },
    { transitions := [⟨.bytes 0 255, 5⟩], epsilons := [0] }]
  start := 0
  accepting := {5}

theorem accepts_mixedChain : mixedChain.WellFormed ∧ mixedChain.accepts? [] = some true ∧
    mixedChain.accepts? [0x61] = some false := by
  have h : mixedChain.WellFormed := by decide
  refine ⟨h, ?_, ?_⟩
  · obtain ⟨hlooked, haccepts⟩ := accepts_iff_walk h []
    let labels : List (Option Label) := [none, some (.anchor .textEnd), some (.anchor .textStart),
      none, some (.anchor .textStart)]
    have hwalk : Walk mixedChain.Edge 0 labels 5 := by
      refine .step (j := 1) ?_ (.step (j := 2) ?_ (.step (j := 3) ?_ (.step (j := 4) ?_
        (.step ?_ (.refl 5)))))
      all_goals simp [Edge, edgesOf, State.Leads, mixedChain]
    have hnone (before behind : List (Option Label)) (x : Option Label)
        (heq : labels = before ++ x :: behind) :
        byteLabels before = [] ∧ byteLabels behind = [] := by
      have hparts : byteLabels before ++ byteLabels ([x] ++ behind) = [] := by
        rw [← byteLabels_append]
        exact (congrArg byteLabels heq).symm
      rw [byteLabels_append] at hparts
      simp only [List.append_eq_nil_iff] at hparts
      exact ⟨hparts.1, hparts.2.2⟩
    rw [hlooked, haccepts.mpr ⟨labels, 5, by simp [mixedChain], hwalk, .nil,
      fun before behind heq => (hnone before behind _ heq).1,
      fun before behind heq => (hnone before behind _ heq).2⟩]
  · obtain ⟨hlooked, haccepts⟩ := accepts_iff_walk h [0x61]
    rw [hlooked, Option.some.injEq, Bool.eq_false_iff, ne_eq, haccepts]
    rintro ⟨labels, f, hf, hwalk, htakes, -, hend⟩
    have hf : 5 = f := by simpa [mixedChain] using hf
    subst hf
    -- every walk begins with the end of the text, behind which there is no byte
    cases hwalk with
    | @step _ j _ x _ he rest =>
      obtain ⟨rfl, rfl⟩ : x = none ∧ j = 1 := by
        cases x with
        | none => simpa [Edge, edgesOf, State.Leads, mixedChain] using he
        | some l => simp [Edge, edgesOf, State.Leads, mixedChain] at he
      cases rest with
      | @step _ j _ x _ he rest =>
        obtain ⟨rfl, rfl⟩ : x = some (.anchor .textEnd) ∧ j = 2 := by
          cases x with
          | none => simp [Edge, edgesOf, State.Leads, mixedChain] at he
          | some l => simpa [Edge, edgesOf, State.Leads, mixedChain] using he
        have hlast := hend [none] _ rfl
        simp [byteLabels, hlast, Takes] at htakes

end Automaton

end PatternAutomata
