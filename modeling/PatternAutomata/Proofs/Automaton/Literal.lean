import Mathlib.Data.List.Forall2
import Mathlib.Logic.Function.Basic
import PatternAutomata.Automaton.Literal
import PatternAutomata.Proofs.Automaton.Algebra

/-!
# The meaning of literal pieces

A state of a trie stands for the one string that leads to it, and a state of a choice for the texts
that lead from it to the end. Both descriptions survive the adding of a string or of a sequence of
ranges.
-/
namespace PatternAutomata

theorem StateSet.mem_singleton {i f : Nat} : f ∈ ({i} : StateSet) ↔ f = i := by
  change f ∈ (∅ : StateSet).insert i ↔ f = i
  rw [Std.ExtTreeSet.mem_insert, Std.LawfulEqCmp.compare_eq_iff_eq]
  simp [eq_comm]

namespace Automaton
variable {a : Automaton} {b e : Bool} {i j k s t : Nat} {c : UInt8} {x : Option Label}
  {w bytes : List UInt8}

/-! ## Tries -/

/-- Every state is named by the string that leads to it from the start. -/
structure Spelled (a : Automaton) (word : Nat → List UInt8) : Prop where
  start_eq : a.start = 0
  pos : 0 < a.size
  word_start : word 0 = []
  edge : ∀ i x j, a.Edge i x j → j < a.size ∧ ∃ c, x = some (.byte c) ∧ word j = word i ++ [c]
  parent : ∀ i < a.size, i ≠ 0 → ∃ p c, a.Edge p (some (.byte c)) i
  inj : ∀ i j, i < a.size → j < a.size → word i = word j → i = j

theorem child?_eq_some (h : a.child? i c = some j) : a.Edge i (some (.byte c)) j := by
  obtain ⟨t, ht, rfl⟩ := Option.map_eq_some_iff.mp h
  have hbyte := List.find?_some ht
  have hl := Label.isByte_eq_true.mp hbyte
  have he := mem_transitionsOf.mp (List.mem_of_find?_eq_some ht)
  rwa [hl] at he

theorem child?_eq_none (h : a.child? i c = none) : ¬ a.Edge i (some (.byte c)) j := by
  intro he
  have hnone := List.find?_eq_none.mp (Option.map_eq_none_iff.mp h) ⟨.byte c, j⟩
    (mem_transitionsOf.mpr he)
  simp at hnone

namespace Spelled
variable {word : Nat → List UInt8}

/-- A path spells what the word of its end has more than the word of its beginning. -/
theorem word_eq (h : a.Spelled word) (hp : Path a.Edge e b i w k) : word k = word i ++ w := by
  induction hp with
  | refl => simp
  | silent he hx =>
    obtain ⟨-, c, rfl, -⟩ := h.edge _ _ _ he
    simp [crossable, Label.byte] at hx
  | byte he hl _ ih =>
    obtain ⟨-, c, hc, hw⟩ := h.edge _ _ _ he
    obtain rfl := Option.some.inj hc
    obtain rfl := Label.reads_byte _ _ |>.mp hl
    rw [ih, hw, List.append_assoc, List.singleton_append]

/-- The word of a state leads to it. -/
theorem path (h : a.Spelled word) (i : Nat) (hi : i < a.size) (b e : Bool) :
    Path a.Edge e b 0 (word i) i := by
  by_cases hi0 : i = 0
  · subst hi0
    rw [h.word_start]
    exact .refl b 0
  · obtain ⟨p, c, he⟩ := h.parent i hi hi0
    obtain ⟨-, c', hc, hw⟩ := h.edge _ _ _ he
    obtain rfl : c = c' := by simpa [Label.byte] using hc
    have hshorter : (word p).length < (word i).length := by simp [hw]
    rw [hw]
    refine (path h p he.lt_size b _).trans ?_
    exact .byte he (Label.reads_byte _ _ |>.mpr rfl) (.refl _ i)
termination_by (word i).length

theorem edge_iff_word (h : a.Spelled word) (hj : j < a.size) (hw : word j = word i ++ [c])
    (hi : i < a.size) : a.Edge i (some (.byte c)) j := by
  have hj0 : j ≠ 0 := by
    rintro rfl
    rw [h.word_start] at hw
    simp at hw
  obtain ⟨p, c', he⟩ := h.parent j hj hj0
  obtain ⟨-, c'', hc, hp⟩ := h.edge _ _ _ he
  obtain rfl : c' = c'' := by simpa [Label.byte] using hc
  rw [hp] at hw
  obtain ⟨hword, hc⟩ := List.append_inj' hw rfl
  obtain rfl := h.inj _ _ he.lt_size hi hword
  obtain rfl : c' = c := by simpa using hc
  exact he

/-- A new child is named after its parent. -/
theorem newChild (h : a.Spelled word) (hi : i < a.size) (hc : a.child? i c = none) :
    (a.newState.addEdge i (.byte c) a.size).Spelled
      (Function.update word a.size (word i ++ [c])) where
  start_eq := h.start_eq
  pos := by simp
  word_start := by
    rw [Function.update_of_ne (Nat.ne_of_lt h.pos), h.word_start]
  edge := by
    intro s x j he
    rw [size_addEdge, size_newState]
    rcases edge_addEdge.mp he with he | ⟨rfl, -, rfl, rfl⟩
    · have he := edge_newState.mp he
      obtain ⟨hj, c, hx, hw⟩ := h.edge _ _ _ he
      refine ⟨Nat.lt_succ_of_lt hj, c, hx, ?_⟩
      rwa [Function.update_of_ne (Nat.ne_of_lt hj), Function.update_of_ne (Nat.ne_of_lt he.lt_size)]
    · refine ⟨Nat.lt_succ_self _, c, rfl, ?_⟩
      rw [Function.update_self, Function.update_of_ne (Nat.ne_of_lt hi)]
  parent := by
    intro j hj hj0
    rw [size_addEdge, size_newState] at hj
    by_cases hlast : j = a.size
    · subst hlast
      exact ⟨i, c, edge_addEdge.mpr (.inr ⟨rfl, by simpa using Nat.lt_succ_of_lt hi, rfl, rfl⟩)⟩
    · obtain ⟨p, c, he⟩ := h.parent j (by omega) hj0
      exact ⟨p, c, edge_addEdge.mpr (.inl (edge_newState.mpr he))⟩
  inj := by
    have hfresh {j : Nat} (hj : j < a.size) : word j ≠ word i ++ [c] := fun hw =>
      child?_eq_none hc (h.edge_iff_word hj hw hi)
    intro j k hj hk hw
    rw [size_addEdge, size_newState] at hj hk
    by_cases hja : j = a.size
    · by_cases hka : k = a.size
      · exact hja.trans hka.symm
      · rw [hja, Function.update_self, Function.update_of_ne hka] at hw
        exact absurd hw.symm (hfresh (by omega))
    · by_cases hka : k = a.size
      · rw [hka, Function.update_self, Function.update_of_ne hja] at hw
        exact absurd hw (hfresh (by omega))
      · rw [Function.update_of_ne hja, Function.update_of_ne hka] at hw
        exact h.inj j k (by omega) (by omega) hw

/-- Spelling a string leads to the state of that name, and keeps the names given before. -/
theorem spell (h : a.Spelled word) (hi : i < a.size) (bytes : List UInt8) :
    ∃ word', (a.spell i bytes).1.Spelled word' ∧ (∀ j < a.size, word' j = word j) ∧
      a.size ≤ (a.spell i bytes).1.size ∧ (a.spell i bytes).2 < (a.spell i bytes).1.size ∧
      word' (a.spell i bytes).2 = word i ++ bytes ∧
      (a.spell i bytes).1.accepting = a.accepting := by
  induction bytes generalizing a i word with
  | nil => exact ⟨word, h, fun _ _ => rfl, Nat.le_refl _, hi, by simp [Automaton.spell], rfl⟩
  | cons c bytes ih =>
    unfold Automaton.spell
    split
    · next j hj =>
      have he := child?_eq_some hj
      obtain ⟨hlt, c', hc, hw⟩ := h.edge _ _ _ he
      obtain rfl : c = c' := by simpa [Label.byte] using hc
      obtain ⟨word', h', hkeep, hsize, hk, hword, hacc⟩ := ih h hlt
      exact ⟨word', h', hkeep, hsize, hk, by simp [hword, hw], hacc⟩
    · next hnone =>
      dsimp only
      have hnew := h.newChild hi hnone
      obtain ⟨word', h', hkeep, hsize, hk, hword, hacc⟩ := ih hnew (by simp : a.size < _)
      rw [size_addEdge, size_newState] at hkeep hsize
      refine ⟨word', h', ?_, by omega, hk, ?_, hacc⟩
      · intro j hj
        rw [hkeep j (by omega), Function.update_of_ne (Nat.ne_of_lt hj)]
      · rw [hword, Function.update_self, List.append_assoc, List.singleton_append]

end Spelled

/-- The accepting states of a trie are those whose names are among its strings. -/
structure TrieOf (a : Automaton) (word : Nat → List UInt8) (p : List UInt8 → Prop) : Prop where
  spelled : a.Spelled word
  accepting_iff : ∀ f, f ∈ a.accepting ↔ f < a.size ∧ p (word f)
  named : ∀ w, p w → ∃ f < a.size, word f = w

namespace TrieOf
variable {word : Nat → List UInt8} {p : List UInt8 → Prop}

theorem meaning_eq (h : a.TrieOf word p) : a.meaning = .strings p := by
  apply Meaning.ext
  intro b w e
  unfold meaning Meaning.strings
  rw [h.spelled.start_eq]
  constructor
  · rintro ⟨f, hf, hp⟩
    have hw := h.spelled.word_eq hp
    rw [h.spelled.word_start, List.nil_append] at hw
    exact hw ▸ ((h.accepting_iff f).mp hf).2
  · intro hw
    obtain ⟨f, hf, rfl⟩ := h.named w hw
    exact ⟨f, (h.accepting_iff f).mpr ⟨hf, hw⟩, h.spelled.path f hf b e⟩

theorem wellFormed (h : a.TrieOf word p) : a.WellFormed := by
  refine wellFormed_iff.mpr ⟨?_, fun i x j he => (h.spelled.edge i x j he).1, ?_⟩
  · rw [h.spelled.start_eq]
    exact h.spelled.pos
  · exact fun f hf => ((h.accepting_iff f).mp hf).1

theorem addString (h : a.TrieOf word p) (string : List UInt8) :
    ∃ word', (a.addString string).TrieOf word' fun w => p w ∨ w = string := by
  obtain ⟨word', h', hkeep, hsize, hk, hword, hacc⟩ := h.spelled.spell h.spelled.pos string
  rw [h.spelled.word_start, List.nil_append] at hword
  refine ⟨word', ⟨h'.start_eq, h'.pos, h'.word_start, h'.edge, h'.parent, h'.inj⟩, ?_, ?_⟩
  · intro f
    change f ∈ (a.spell 0 string).1.accepting.insert _ ↔ f < (a.spell 0 string).1.size ∧ _
    rw [Std.ExtTreeSet.mem_insert, Std.LawfulEqCmp.compare_eq_iff_eq, hacc, h.accepting_iff]
    constructor
    · rintro (rfl | ⟨hf, hp⟩)
      · exact ⟨hk, .inr hword⟩
      · exact ⟨by omega, .inl (hkeep f hf ▸ hp)⟩
    · rintro ⟨hf, hp | hw⟩
      · obtain ⟨g, hg, hgf⟩ := h.named _ hp
        obtain rfl := h'.inj g f (by omega) hf ((hkeep g hg).trans hgf)
        exact .inr ⟨hg, hgf ▸ hp⟩
      · exact .inl (h'.inj _ _ hk hf (hword.trans hw.symm))
  · rintro w (hp | rfl)
    · obtain ⟨g, hg, rfl⟩ := h.named w hp
      exact ⟨g, Nat.lt_of_lt_of_le hg hsize, hkeep g hg⟩
    · exact ⟨_, hk, hword⟩

end TrieOf

/-- Only the empty string leads anywhere in the empty trie, and it is none of its strings. -/
theorem trieOf_nothing : nothing.TrieOf (fun _ => []) fun _ => False := by
  have hedge (i : Nat) (x : Option Label) (j : Nat) : ¬ nothing.Edge i x j := not_edge_emptyText
  exact ⟨⟨rfl, Nat.one_pos, rfl, fun i x j he => absurd he (hedge i x j),
    fun i hi h0 => absurd (Nat.lt_one_iff.mp hi) h0,
    fun i j hi hj _ => (Nat.lt_one_iff.mp hi).trans (Nat.lt_one_iff.mp hj).symm⟩,
    by simp [nothing], by simp⟩

theorem exists_trieOf (strings : ByteStrings) :
    ∃ word, (trie strings).TrieOf word (· ∈ strings) := by
  have hfold (list : List (List UInt8)) {a : Automaton} {word p} (h : a.TrieOf word p) :
      ∃ word', (list.foldl Automaton.addString a).TrieOf word' fun w => p w ∨ w ∈ list := by
    induction list generalizing a word p with
    | nil => exact ⟨word, by simpa using h⟩
    | cons string list ih =>
      obtain ⟨word₁, h₁⟩ := h.addString string
      obtain ⟨word₂, h₂⟩ := ih h₁
      exact ⟨word₂, by simpa [or_assoc] using h₂⟩
  obtain ⟨word, h⟩ := hfold strings.toList trieOf_nothing
  exact ⟨word, by simpa [trie] using h⟩

@[simp] theorem meaning_trie (strings : ByteStrings) :
    (trie strings).meaning = .strings (· ∈ strings) := by
  obtain ⟨word, h⟩ := exists_trieOf strings
  exact h.meaning_eq

theorem wellFormed_trie (strings : ByteStrings) : (trie strings).WellFormed := by
  obtain ⟨word, h⟩ := exists_trieOf strings
  exact h.wellFormed

/-! ## Choices between sequences of ranges -/

/-- Whether a text has one byte out of each range, in order. -/
def Fits (ranges : List (UInt8 × UInt8)) (w : List UInt8) : Prop :=
  List.Forall₂ (fun r c => (Label.bytes r.1 r.2).reads c = true) ranges w

@[simp] theorem fits_nil : Fits [] w ↔ w = [] := List.forall₂_nil_left_iff

theorem fits_cons {r : UInt8 × UInt8} {ranges : List (UInt8 × UInt8)} : Fits (r :: ranges) w ↔
    ∃ c v, w = c :: v ∧ (Label.bytes r.1 r.2).reads c = true ∧ Fits ranges v := by
  unfold Fits
  rw [List.forall₂_cons_left_iff]
  refine exists_congr fun c => exists_congr fun v => ?_
  tauto

/-- What leads to state 1 from a state, if `tail` says so for the states behind its edges. -/
def Onward (a : Automaton) (tail : Nat → List UInt8 → Prop) (i : Nat) (w : List UInt8) : Prop :=
  i = 1 ∧ w = [] ∨ (∃ j, a.Edge i none j ∧ tail j w) ∨
    ∃ l j c v, w = c :: v ∧ a.Edge i (some l) j ∧ l.reads c = true ∧ tail j v

/-- Every state is known by the texts that lead from it to state 1. What is still to be added at
state `open` is `extra`. -/
structure Tailed (a : Automaton) (tail : Nat → List UInt8 → Prop) (pending : Nat)
    (extra : List UInt8 → Prop) : Prop where
  start_eq : a.start = 0
  accepting_iff : ∀ f, f ∈ a.accepting ↔ f = 1
  two_le : 2 ≤ a.size
  pending_lt : pending < a.size
  pending_ne : pending ≠ 1
  edge : ∀ i x j, a.Edge i x j → j < a.size ∧ j ≠ 0 ∧
    (x = none ∧ j = 1 ∨ ∃ lo hi, x = some (.bytes lo hi))
  tail_one : ∀ w, tail 1 w ↔ w = []
  tail_iff : ∀ i < a.size, ∀ w, tail i w ↔ a.Onward tail i w ∨ i = pending ∧ extra w

namespace Tailed
variable {tail : Nat → List UInt8 → Prop} {pending : Nat} {extra : List UInt8 → Prop}

/-- When nothing is left to add, the tails are what the paths to state 1 spell. -/
theorem path_iff (h : a.Tailed tail pending fun _ => False) (hi : i < a.size) :
    Path a.Edge e b i w 1 ↔ tail i w := by
  constructor
  · intro hp
    generalize h1 : 1 = k at hp
    induction hp with
    | refl => exact h1 ▸ (h.tail_one []).mpr rfl
    | silent he hx _ ih =>
      obtain ⟨hj, -, ⟨rfl, -⟩ | ⟨lo, hi, rfl⟩⟩ := h.edge _ _ _ he
      · exact (h.tail_iff _ he.lt_size _).mpr (.inl (.inr (.inl ⟨_, he, ih hj h1⟩)))
      · simp [crossable] at hx
    | byte he hl _ ih =>
      obtain ⟨hj, -⟩ := h.edge _ _ _ he
      exact (h.tail_iff _ he.lt_size _).mpr
        (.inl (.inr (.inr ⟨_, _, _, _, rfl, he, hl, ih hj h1⟩)))
  · intro ht
    induction w generalizing i b with
    | nil =>
      rcases (h.tail_iff i hi _).mp ht with (⟨rfl, -⟩ | ⟨j, he, -⟩ | ⟨_, _, _, _, h, -⟩) | ⟨-, hf⟩
      · exact .refl b 1
      · obtain ⟨-, -, ⟨-, rfl⟩ | ⟨_, _, hx⟩⟩ := h.edge _ _ _ he
        · exact .epsilon he (.refl b 1)
        · simp at hx
      · simp at h
      · exact hf.elim
    | cons c w ih =>
      rcases (h.tail_iff i hi _).mp ht with
        (⟨-, h⟩ | ⟨j, he, hj⟩ | ⟨l, j, c', v, hw, he, hl, hj⟩) | ⟨-, hf⟩
      · simp at h
      · obtain ⟨-, -, ⟨-, rfl⟩ | ⟨_, _, hx⟩⟩ := h.edge _ _ _ he
        · rw [h.tail_one] at hj
          simp at hj
        · simp at hx
      · obtain ⟨rfl, rfl⟩ := List.cons.inj hw
        exact .byte he hl (ih (h.edge _ _ _ he).1 hj)
      · exact hf.elim

/-- What a new edge adds to what leads on from a state. -/
theorem onward_iff {a' : Automaton} {tail' : Nat → List UInt8 → Prop} {y : Option Label}
    (hedge : ∀ i x j, a'.Edge i x j ↔ a.Edge i x j ∨ i = s ∧ x = y ∧ j = t)
    (htail : ∀ i x j, a.Edge i x j → tail' j = tail j) :
    a'.Onward tail' i w ↔ a.Onward tail i w ∨ i = s ∧ (y = none ∧ tail' t w ∨
      ∃ l c v, y = some l ∧ w = c :: v ∧ l.reads c = true ∧ tail' t v) := by
  unfold Onward
  simp only [hedge]
  constructor
  · rintro (h | ⟨j, he | ⟨rfl, hy, rfl⟩, hj⟩ | ⟨l, j, c, v, hw, he | ⟨rfl, hy, rfl⟩, hl, hj⟩)
    · exact .inl (.inl h)
    · exact .inl (.inr (.inl ⟨j, he, htail _ _ _ he ▸ hj⟩))
    · exact .inr ⟨rfl, .inl ⟨hy.symm, hj⟩⟩
    · exact .inl (.inr (.inr ⟨l, j, c, v, hw, he, hl, htail _ _ _ he ▸ hj⟩))
    · exact .inr ⟨rfl, .inr ⟨l, c, v, hy.symm, hw, hl, hj⟩⟩
  · rintro ((h | ⟨j, he, hj⟩ | ⟨l, j, c, v, hw, he, hl, hj⟩) |
      ⟨rfl, ⟨hy, hj⟩ | ⟨l, c, v, hy, hw, hl, hj⟩⟩)
    · exact .inl h
    · exact .inr (.inl ⟨j, .inl he, htail _ _ _ he ▸ hj⟩)
    · exact .inr (.inr ⟨l, j, c, v, hw, .inl he, hl, htail _ _ _ he ▸ hj⟩)
    · exact .inr (.inl ⟨t, .inr ⟨rfl, hy.symm, rfl⟩, hj⟩)
    · exact .inr (.inr ⟨l, t, c, v, hw, .inr ⟨rfl, hy.symm, rfl⟩, hl, hj⟩)

/-- An edge to state 1 can complete what is open. -/
theorem close {a' : Automaton} {y : Option Label} (h : a.Tailed tail pending extra)
    (hstart : a'.start = a.start) (hacc : a'.accepting = a.accepting) (hsize : a'.size = a.size)
    (hedge : ∀ i x j, a'.Edge i x j ↔ a.Edge i x j ∨ i = pending ∧ x = y ∧ j = 1)
    (hy : y = none ∨ ∃ lo hi, y = some (.bytes lo hi))
    (hextra : ∀ w, extra w ↔ y = none ∧ w = [] ∨
      ∃ l c, y = some l ∧ w = [c] ∧ l.reads c = true) :
    a'.Tailed tail pending fun _ => False where
  start_eq := hstart.trans h.start_eq
  accepting_iff := hacc ▸ h.accepting_iff
  two_le := hsize ▸ h.two_le
  pending_lt := hsize ▸ h.pending_lt
  pending_ne := h.pending_ne
  edge := by
    intro i x j he
    rw [hsize]
    rcases (hedge i x j).mp he with he | ⟨-, rfl, rfl⟩
    · exact h.edge i x j he
    · exact ⟨h.two_le, Nat.one_ne_zero, hy.imp_left fun hx => ⟨hx, rfl⟩⟩
  tail_one := h.tail_one
  tail_iff := by
    intro i hi w
    rw [h.tail_iff i (hsize ▸ hi), onward_iff hedge fun _ _ _ _ => rfl, hextra]
    simp only [h.tail_one, and_false, or_false]
    refine or_congr_right (and_congr_right fun _ => or_congr_right ?_)
    constructor
    · rintro ⟨l, c, hl, rfl, hread⟩
      exact ⟨l, c, [], hl, rfl, hread, rfl⟩
    · rintro ⟨l, c, _, hl, rfl, hread, rfl⟩
      exact ⟨l, c, hl, rfl, hread⟩

/-- An edge to a new state leaves the rest to that state. -/
theorem extend {lo hi : UInt8} {rest : List UInt8 → Prop} (h : a.Tailed tail pending extra)
    (hextra : ∀ w, extra w ↔ ∃ c v, w = c :: v ∧ (Label.bytes lo hi).reads c = true ∧ rest v) :
    (a.newState.addEdge pending (.bytes lo hi) a.size).Tailed
      (Function.update tail a.size rest) a.size rest := by
  have htwo := h.two_le
  have hpending := h.pending_lt
  have hold {j : Nat} (hj : j < a.size) : Function.update tail a.size rest j = tail j :=
    Function.update_of_ne (Nat.ne_of_lt hj) rest tail
  have hedge (i : Nat) (x : Option Label) (j : Nat) :
      (a.newState.addEdge pending (.bytes lo hi) a.size).Edge i x j ↔
        a.Edge i x j ∨ i = pending ∧ x = some (.bytes lo hi) ∧ j = a.size := by
    rw [edge_addEdge, edge_newState, size_newState,
      and_iff_right (a := pending < a.size + 1) (by omega)]
  have htail (i : Nat) (x : Option Label) (j : Nat) (he : a.Edge i x j) :
      Function.update tail a.size rest j = tail j := hold (h.edge i x j he).1
  refine ⟨h.start_eq, h.accepting_iff, ?_, ?_, by omega, ?_, ?_, ?_⟩
  · simp; omega
  · simp
  · intro i x j he
    rw [size_addEdge, size_newState]
    rcases (hedge i x j).mp he with he | ⟨rfl, rfl, rfl⟩
    · obtain ⟨hj, h0, hx⟩ := h.edge i x j he
      exact ⟨by omega, h0, hx⟩
    · exact ⟨by omega, by omega, .inr ⟨lo, hi, rfl⟩⟩
  · rw [hold (by omega)]
    exact h.tail_one
  · intro i hi w
    rw [size_addEdge, size_newState] at hi
    rw [onward_iff hedge htail, Function.update_self]
    by_cases hlast : i = a.size
    · subst hlast
      have hnone : ¬ a.Onward tail a.size w := by
        rintro (⟨h1, -⟩ | ⟨j, he, -⟩ | ⟨_, _, _, _, -, he, -⟩)
        · omega
        · exact absurd he.lt_size (Nat.lt_irrefl _)
        · exact absurd he.lt_size (Nat.lt_irrefl _)
      have hne : a.size ≠ pending := by omega
      simp [hnone, hne]
    · rw [hold (by omega), h.tail_iff i (by omega), hextra]
      simp [hlast]

theorem addRanges (ranges : List (UInt8 × UInt8)) (h : a.Tailed tail pending (Fits ranges)) :
    ∃ tail' pending', (a.addRanges pending ranges).Tailed tail' pending' (fun _ => False) ∧
      ∀ i < a.size, tail' i = tail i := by
  fun_induction Automaton.addRanges a pending ranges generalizing tail with
  | case1 a pending =>
    refine ⟨tail, pending, h.close (y := none) rfl rfl (size_addEpsilon _ _ _) ?_ (.inl rfl) ?_,
      fun _ _ => rfl⟩
    · intro i x j
      rw [edge_addEpsilon, and_iff_right (a := pending < a.size) h.pending_lt]
    · simp
  | case2 a pending lo hi =>
    refine ⟨tail, pending, h.close (y := some (.bytes lo hi)) rfl rfl (size_addEdge _ _ _ _) ?_
      (.inr ⟨lo, hi, rfl⟩) ?_, fun _ _ => rfl⟩
    · intro i x j
      rw [edge_addEdge, and_iff_right (a := pending < a.size) h.pending_lt]
    · intro w
      rw [fits_cons]
      simp only [fits_nil]
      constructor
      · rintro ⟨c, _, hw, hl, rfl⟩
        exact .inr ⟨_, c, rfl, hw, hl⟩
      · rintro (⟨hy, -⟩ | ⟨l, c, hy, hw, hl⟩)
        · simp at hy
        · obtain rfl := Option.some.inj hy
          exact ⟨c, [], hw, hl, rfl⟩
  | case3 a pending lo hi ranges hne next =>
    rename_i ih
    obtain ⟨tail', pending', h', hkeep⟩ := ih (h.extend fun w => fits_cons)
    refine ⟨tail', pending', h', ?_⟩
    intro i hi
    rw [hkeep i (by simp; omega), Function.update_of_ne (Nat.ne_of_lt hi)]

/-- A sequence of ranges may be added at the start, since nothing leads there. -/
theorem reopen (h : a.Tailed tail pending fun _ => False) (ranges : List (UInt8 × UInt8)) :
    a.Tailed (Function.update tail 0 fun w => tail 0 w ∨ Fits ranges w) 0 (Fits ranges) where
  start_eq := h.start_eq
  accepting_iff := h.accepting_iff
  two_le := h.two_le
  pending_lt := Nat.lt_of_lt_of_le Nat.two_pos h.two_le
  pending_ne := Nat.zero_ne_one
  edge := h.edge
  tail_one w := by
    rw [Function.update_of_ne Nat.one_ne_zero]
    exact h.tail_one w
  tail_iff i hi w := by
    have honward : a.Onward (Function.update tail 0 fun w => tail 0 w ∨ Fits ranges w) i w ↔
        a.Onward tail i w := by
      have htail {x : Option Label} {j : Nat} (he : a.Edge i x j) :
          Function.update tail 0 (fun w => tail 0 w ∨ Fits ranges w) j = tail j :=
        Function.update_of_ne (h.edge i x j he).2.1 _ _
      unfold Onward
      refine or_congr_right (or_congr ?_ ?_)
      · exact exists_congr fun j => and_congr_right fun he => by rw [htail he]
      · refine exists_congr fun l => exists_congr fun j => exists_congr fun c =>
          exists_congr fun v => and_congr_right fun _ => and_congr_right fun he => ?_
        rw [htail he]
    rw [honward]
    by_cases h0 : i = 0
    · subst h0
      rw [Function.update_self, h.tail_iff 0 hi]
      simp
    · rw [Function.update_of_ne h0, h.tail_iff i hi]
      simp [h0]

end Tailed

theorem exists_tailed (sequences : List (List (UInt8 × UInt8))) :
    ∃ tail pending, (choice sequences).Tailed tail pending (fun _ => False) ∧
      ∀ w, tail 0 w ↔ ∃ ranges ∈ sequences, Fits ranges w := by
  have hfold (sequences : List (List (UInt8 × UInt8))) {a : Automaton}
      {tail : Nat → List UInt8 → Prop} {pending : Nat} (h : a.Tailed tail pending fun _ => False) :
      ∃ tail' pending', (sequences.foldl (fun a ranges => a.addRanges 0 ranges) a).Tailed tail'
        pending' (fun _ => False) ∧
          ∀ w, tail' 0 w ↔ tail 0 w ∨ ∃ ranges ∈ sequences, Fits ranges w := by
    induction sequences generalizing a tail pending with
    | nil => exact ⟨tail, pending, h, by simp⟩
    | cons ranges sequences ih =>
      obtain ⟨tail₁, pending₁, h₁, hkeep⟩ := (h.reopen ranges).addRanges
      obtain ⟨tail₂, pending₂, h₂, hzero⟩ := ih h₁
      refine ⟨tail₂, pending₂, h₂, ?_⟩
      intro w
      rw [hzero, hkeep 0 (Nat.lt_of_lt_of_le Nat.two_pos h.two_le), Function.update_self]
      simp [or_assoc]
  have hempty : (⟨#[{}, {}], 0, {1}⟩ : Automaton).Tailed (fun i w => i = 1 ∧ w = []) 0
      fun _ => False := by
    have hedge (i : Nat) (x : Option Label) (j : Nat) :
        ¬ (⟨#[{}, {}], 0, {1}⟩ : Automaton).Edge i x j := by
      rintro ⟨st, hst, hx⟩
      obtain rfl : st = {} := by simpa using Array.mem_of_getElem? hst
      exact State.not_leads_empty x j hx
    refine ⟨rfl, fun f => StateSet.mem_singleton, Nat.le_refl _, Nat.two_pos, Nat.zero_ne_one,
      fun i x j he => absurd he (hedge i x j), by simp, fun i _ w => ?_⟩
    unfold Onward
    simp only [hedge, false_and, and_false, exists_false, or_false]
  obtain ⟨tail, pending, h, hzero⟩ := hfold sequences hempty
  exact ⟨tail, pending, h, by simpa using hzero⟩

@[simp] theorem meaning_choice (sequences : List (List (UInt8 × UInt8))) :
    (choice sequences).meaning = .strings fun w => ∃ ranges ∈ sequences, Fits ranges w := by
  obtain ⟨tail, pending, h, hzero⟩ := exists_tailed sequences
  apply Meaning.ext
  intro b w e
  have hpath : Path (choice sequences).Edge e b 0 w 1 ↔ tail 0 w :=
    h.path_iff (Nat.lt_of_lt_of_le Nat.two_pos h.two_le)
  unfold meaning Meaning.strings
  simp only [h.start_eq, h.accepting_iff, exists_eq_left]
  rw [hpath, hzero]

theorem wellFormed_choice (sequences : List (List (UInt8 × UInt8))) :
    (choice sequences).WellFormed := by
  obtain ⟨tail, pending, h, -⟩ := exists_tailed sequences
  have htwo := h.two_le
  refine wellFormed_iff.mpr ⟨?_, fun i x j he => (h.edge i x j he).1, ?_⟩
  · rw [h.start_eq]
    omega
  · intro f hf
    obtain rfl := (h.accepting_iff f).mp hf
    exact htwo

/-! ## Anchors -/

theorem edge_crossing {m : Anchor} :
    (crossing m).Edge i x j ↔ i = 0 ∧ x = some (.anchor m) ∧ j = 1 := by
  constructor
  · rintro ⟨st, hst, hx⟩
    match i with
    | 0 =>
      obtain rfl := Option.some.inj hst
      cases x with
      | none => simp [State.Leads, crossing] at hx
      | some l => simpa [State.Leads, crossing] using hx
    | 1 =>
      obtain rfl := Option.some.inj hst
      exact absurd hx (State.not_leads_empty x j)
    | i + 2 => simp [crossing] at hst
  · rintro ⟨rfl, rfl, rfl⟩
    exact ⟨_, rfl, List.mem_singleton_self _⟩

@[simp] theorem meaning_crossing (m : Anchor) : (crossing m).meaning = .anchor m := by
  have hstay {b e : Bool} {w : List UInt8} {k : Nat} (hp : Path (crossing m).Edge e b 1 w k) :
      w = [] := by
    cases hp with
    | refl => rfl
    | silent he => exact absurd (edge_crossing.mp he).1 Nat.one_ne_zero
    | byte he => exact absurd (edge_crossing.mp he).1 Nat.one_ne_zero
  apply Meaning.ext
  intro b w e
  constructor
  · rintro ⟨f, hf, hp⟩
    obtain rfl := StateSet.mem_singleton.mp hf
    generalize hs : (crossing m).start = s at hp
    cases hp with
    | refl => simp [crossing] at hs
    | silent he hx rest =>
      obtain ⟨-, rfl, rfl⟩ := edge_crossing.mp he
      obtain rfl := hstay rest
      cases m <;> simpa [crossable, Meaning.anchor] using hx
    | byte he hl =>
      obtain ⟨-, hx, -⟩ := edge_crossing.mp he
      obtain rfl := Option.some.inj hx
      simp at hl
  · intro h
    obtain rfl : w = [] := by cases m <;> exact h.1
    refine ⟨1, StateSet.mem_singleton.mpr rfl, ?_⟩
    refine .silent (edge_crossing.mpr ⟨rfl, rfl, rfl⟩) ?_ (.refl b 1)
    cases m <;> simpa [crossable, Meaning.anchor] using h

theorem wellFormed_crossing (m : Anchor) : (crossing m).WellFormed := by
  cases m <;> decide

/-! ## Pieces behind an automaton -/

variable (h : a.WellFormed)
include h

theorem meaning_appendTrie (strings : ByteStrings) :
    (a.appendTrie strings).meaning = a.meaning.seq (.strings (· ∈ strings)) := by
  unfold appendTrie
  rw [meaning_concat h, meaning_trie]

theorem meaning_appendChoice (sequences : List (List (UInt8 × UInt8))) :
    (a.appendChoice sequences).meaning =
      a.meaning.seq (.strings fun w => ∃ ranges ∈ sequences, Fits ranges w) := by
  unfold appendChoice
  rw [meaning_concat h, meaning_choice]

theorem meaning_appendAnchor (m : Anchor) :
    (a.appendAnchor m).meaning = a.meaning.seq (.anchor m) := by
  unfold appendAnchor
  rw [meaning_concat h, meaning_crossing]

theorem WellFormed.appendTrie (strings : ByteStrings) : (a.appendTrie strings).WellFormed :=
  h.concat (wellFormed_trie strings)

theorem WellFormed.appendChoice (sequences : List (List (UInt8 × UInt8))) :
    (a.appendChoice sequences).WellFormed :=
  h.concat (wellFormed_choice sequences)

theorem WellFormed.appendAnchor (m : Anchor) : (a.appendAnchor m).WellFormed :=
  h.concat (wellFormed_crossing m)

end Automaton

end PatternAutomata
