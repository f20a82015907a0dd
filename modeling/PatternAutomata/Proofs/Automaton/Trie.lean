import Mathlib.Data.Finset.Card
import Mathlib.Data.Finset.Dedup
import Mathlib.Data.List.Infix
import PatternAutomata.Proofs.Automaton.Lookup

/-!
# The states of a trie

A trie has a state for each beginning of its strings and no other: different states are named
differently, and every state but the start is on the way to a string. No state has a choice between
two transitions on the same byte.
-/
namespace PatternAutomata

/-- All beginnings of the strings, the empty one and the strings themselves included. -/
def ByteStrings.prefixes (strings : ByteStrings) : Finset (List UInt8) :=
  (strings.toList.flatMap List.inits).toFinset

theorem ByteStrings.mem_prefixes {strings : ByteStrings} {p : List UInt8} :
    p ∈ strings.prefixes ↔ ∃ s ∈ strings, p <+: s := by
  simp [prefixes]

/-- The empty string is among the beginnings as soon as there is a string. -/
theorem ByteStrings.card_insert_prefixes (strings : ByteStrings) :
    (insert [] strings.prefixes).card = max 1 strings.prefixes.card := by
  rcases strings.prefixes.eq_empty_or_nonempty with hnone | hsome
  · rw [hnone]
    rfl
  · obtain ⟨p, hp⟩ := id hsome
    obtain ⟨s, hs, -⟩ := mem_prefixes.mp hp
    have hnil : [] ∈ strings.prefixes := mem_prefixes.mpr ⟨s, hs, List.nil_prefix⟩
    rw [Finset.insert_eq_of_mem hnil, Nat.max_eq_right hsome.card_pos]

namespace Automaton
open Relation (ReflTransGen)
variable {a b : Automaton} {i j s t : Nat} {c : UInt8} {word : Nat → List UInt8}

/-! ## Transitions in the order of their making -/

@[simp] theorem transitionsOf_newState : a.newState.transitionsOf i = a.transitionsOf i := by
  by_cases hi : i = a.states.size
  · simp [transitionsOf, newState, hi]
  · simp [transitionsOf, newState, Array.getElem?_push, hi]

theorem transitionsOf_addEdge {l : Label} (hs : s < a.size) :
    (a.addEdge s l t).transitionsOf i =
      if i = s then a.transitionsOf i ++ [⟨l, t⟩] else a.transitionsOf i := by
  by_cases hi : i = s
  · subst hi
    have hget : a.states[i]? = some a.states[i] := Array.getElem?_eq_getElem hs
    simp [transitionsOf, addEdge, State.addEdge, Array.getElem?_modify, hget]
  · simp [transitionsOf, addEdge, Array.getElem?_modify, hi, Ne.symm hi]

@[simp] theorem transitionsOf_addEpsilon :
    (a.addEpsilon s t).transitionsOf i = a.transitionsOf i := by
  cases hget : a.states[i]? with
  | none => simp [transitionsOf, addEpsilon, Array.getElem?_modify, hget]
  | some st =>
    by_cases hi : s = i <;> simp [transitionsOf, addEpsilon, Array.getElem?_modify, hget, hi]

@[simp] theorem transitionsOf_addEpsilons (sources : List Nat) :
    (a.addEpsilons sources t).transitionsOf i = a.transitionsOf i := by
  induction sources generalizing a with
  | nil => rfl
  | cons s sources ih => exact (ih (a := a.addEpsilon s t)).trans transitionsOf_addEpsilon

/-- A state of the second operand keeps its transitions, up to where its states now are. -/
theorem transitionsOf_concat_right : (a.concat b).transitionsOf (i + a.size) =
    (b.transitionsOf i).map fun t => { t with target := t.target + a.size } := by
  obtain ⟨states, start, accepting⟩ := a
  simp only [concat, transitionsOf_addEpsilons]
  simp only [transitionsOf, size, Array.getElem?_append_right (Nat.le_add_left _ _),
    Nat.add_sub_cancel, Array.getElem?_map]
  cases b.states[i]? <;> rfl

/-! ## One string after the other -/

/-- What holds of the empty trie and survives the adding of a string holds of every trie. -/
theorem trie_induction {P : Automaton → Prop} (hempty : P nothing)
    (hadd : ∀ a word, a.Spelled word → P a → ∀ string, P (a.addString string))
    (strings : ByteStrings) : P (trie strings) := by
  have hfold (list : List (List UInt8)) {a : Automaton} {word p} (h : a.TrieOf word p)
      (ha : P a) : P (list.foldl addString a) := by
    induction list generalizing a word p with
    | nil => exact ha
    | cons string list ih =>
      obtain ⟨word', h'⟩ := h.addString string
      exact ih h' (hadd a word h.spelled ha string)
  exact hfold strings.toList trieOf_nothing hempty

/-! ## On the way to a string -/

/-- Every state but the start leads to an accepting one. -/
def Trim (a : Automaton) : Prop :=
  ∀ i < a.size, i ≠ 0 → ∃ f ∈ a.accepting, ReflTransGen a.Linked i f

theorem linked_spell {bytes : List UInt8} (h : a.Linked s t) :
    (a.spell i bytes).1.Linked s t := by
  fun_induction Automaton.spell a i bytes with
  | case1 a i => exact h
  | case2 a i c bytes next hnext ih => exact ih h
  | case3 a i c bytes hnone next ih =>
    obtain ⟨x, he⟩ := h
    exact ih ⟨x, edge_addEdge.mpr (.inl (edge_newState.mpr he))⟩

/-- The state at the end of a string is ahead of where its spelling begins and of every state that
is new. -/
theorem linked_end_of_spell (h : a.Spelled word) (hi : i < a.size) (bytes : List UInt8) :
    ReflTransGen (a.spell i bytes).1.Linked i (a.spell i bytes).2 ∧
      ∀ j, a.size ≤ j → j < (a.spell i bytes).1.size →
        ReflTransGen (a.spell i bytes).1.Linked j (a.spell i bytes).2 := by
  induction bytes generalizing a i word with
  | nil => exact ⟨.refl, fun j hj hlt => absurd hlt (Nat.not_lt.mpr hj)⟩
  | cons c bytes ih =>
    cases hc : a.child? i c with
    | some child =>
      have he := child?_eq_some hc
      simp only [Automaton.spell, hc]
      obtain ⟨hend, hnew⟩ := ih h (h.edge _ _ _ he).1
      exact ⟨.head (linked_spell ⟨_, he⟩) hend, hnew⟩
    | none =>
      have he : (a.newState.addEdge i (.byte c) a.size).Linked i a.size :=
        ⟨_, edge_addEdge.mpr (.inr ⟨rfl, by simpa using Nat.lt_succ_of_lt hi, rfl, rfl⟩)⟩
      -- the new child is where the rest begins, and all later states are new to that too
      obtain ⟨hend, hnew⟩ := ih (h.newChild hi hc) (by simp : a.size < _)
      simp only [Automaton.spell, hc]
      refine ⟨.head (linked_spell he) hend, ?_⟩
      intro j hj hlt
      by_cases hfirst : j = a.size
      · exact hfirst ▸ hend
      · exact hnew j (by simp; omega) hlt

theorem Trim.addString (ha : a.Trim) (h : a.Spelled word) (string : List UInt8) :
    (a.addString string).Trim := by
  obtain ⟨-, -, -, -, -, -, hacc⟩ := h.spell h.pos string
  have hmem {f : Nat} : f ∈ (a.addString string).accepting ↔
      f = (a.spell 0 string).2 ∨ f ∈ a.accepting := by
    change f ∈ (a.spell 0 string).1.accepting.insert _ ↔ _
    rw [Std.ExtTreeSet.mem_insert, Std.LawfulEqCmp.compare_eq_iff_eq, hacc]
    exact or_congr_left eq_comm
  intro i hi hi0
  by_cases hold : i < a.size
  · obtain ⟨f, hf, hlinked⟩ := ha i hold hi0
    exact ⟨f, hmem.mpr (.inr hf), ReflTransGen.mono (fun _ _ => linked_spell) _ _ hlinked⟩
  · exact ⟨_, hmem.mpr (.inl rfl),
      (linked_end_of_spell h h.pos string).2 i (Nat.le_of_not_lt hold) hi⟩

theorem trim_trie (strings : ByteStrings) : (trie strings).Trim :=
  trie_induction (fun _ hi h0 => absurd (Nat.lt_one_iff.mp hi) h0)
    (fun _ _ h ha string => ha.addString h string) strings

/-! ## One transition for a byte -/

/-- No state has two transitions on the same byte. -/
def Unforked (a : Automaton) : Prop :=
  ∀ i c, (a.transitionsOf i).countP (·.label.reads c) ≤ 1

/-- A child is new only where nothing reads its byte. -/
theorem Unforked.newChild (ha : a.Unforked) (h : a.Spelled word) (hi : i < a.size)
    (hc : a.child? i c = none) : (a.newState.addEdge i (.byte c) a.size).Unforked := by
  -- labels are single bytes, so whatever reads this one would have been found
  have hzero : (a.transitionsOf i).countP (·.label.reads c) = 0 := by
    rw [List.countP_eq_zero]
    intro t ht hreads
    have he := mem_transitionsOf.mp ht
    obtain ⟨-, c', hl, -⟩ := h.edge _ _ _ he
    rw [Option.some.inj hl, Label.reads_byte] at hreads
    exact child?_eq_none hc (hreads ▸ hl ▸ he)
  intro s d
  rw [transitionsOf_addEdge (by simpa using Nat.lt_succ_of_lt hi), transitionsOf_newState]
  by_cases hs : s = i
  · by_cases hd : d = c
    · simp [hs, hd, hzero]
    · simpa [hs, hd] using ha i d
  · simpa [hs] using ha s d

theorem Unforked.spell (ha : a.Unforked) (h : a.Spelled word) (hi : i < a.size)
    (bytes : List UInt8) : (a.spell i bytes).1.Unforked := by
  induction bytes generalizing a i word with
  | nil => exact ha
  | cons c bytes ih =>
    cases hc : a.child? i c with
    | some child =>
      simpa only [Automaton.spell, hc] using ih ha h (h.edge _ _ _ (child?_eq_some hc)).1
    | none =>
      simpa only [Automaton.spell, hc] using
        ih (ha.newChild h hi hc) (h.newChild hi hc) (by simp)

theorem unforked_trie (strings : ByteStrings) : (trie strings).Unforked := by
  refine trie_induction (fun i c => ?_) (fun a word h ha string => ha.spell h h.pos string) strings
  cases i <;> simp [transitionsOf, nothing]

/-! ## The number of states -/

namespace Spelled

theorem prefix_of_linked (h : a.Spelled word) (hij : ReflTransGen a.Linked i j) :
    word i <+: word j := by
  induction hij with
  | refl => exact List.prefix_rfl
  | tail _ he ih =>
    obtain ⟨x, he⟩ := he
    obtain ⟨-, c, -, hw⟩ := h.edge _ _ _ he
    exact ih.trans (hw ▸ List.prefix_append _ _)

/-- The beginnings of a word are words. -/
theorem exists_word (h : a.Spelled word) (i : Nat) (hi : i < a.size) {p : List UInt8}
    (hp : p <+: word i) : ∃ j < a.size, word j = p := by
  by_cases hi0 : i = 0
  · subst hi0
    rw [h.word_start, List.prefix_nil] at hp
    exact ⟨0, hi, h.word_start.trans hp.symm⟩
  · obtain ⟨k, c, he⟩ := h.parent i hi hi0
    obtain ⟨-, c', -, hw⟩ := h.edge _ _ _ he
    have hshorter : (word k).length < (word i).length := by simp [hw]
    rw [hw, List.prefix_concat_iff] at hp
    rcases hp with rfl | hp
    · exact ⟨i, hi, hw⟩
    · exact h.exists_word k he.lt_size hp
termination_by (word i).length

end Spelled

/-- The names of the states are the beginnings of the strings. -/
theorem TrieOf.image_word {strings : ByteStrings} (h : a.TrieOf word (· ∈ strings))
    (htrim : a.Trim) :
    (Finset.range a.size).image word = insert [] strings.prefixes := by
  ext p
  simp only [Finset.mem_image, Finset.mem_range, Finset.mem_insert, ByteStrings.mem_prefixes]
  constructor
  · rintro ⟨i, hi, rfl⟩
    by_cases hi0 : i = 0
    · exact .inl (hi0 ▸ h.spelled.word_start)
    · obtain ⟨f, hf, hlinked⟩ := htrim i hi hi0
      exact .inr ⟨_, ((h.accepting_iff f).mp hf).2, h.spelled.prefix_of_linked hlinked⟩
  · rintro (rfl | ⟨s, hs, hp⟩)
    · exact ⟨0, h.spelled.pos, h.spelled.word_start⟩
    · obtain ⟨f, hf, rfl⟩ := h.named s hs
      exact h.spelled.exists_word f hf hp

theorem size_trie (strings : ByteStrings) :
    (trie strings).size = max 1 strings.prefixes.card := by
  obtain ⟨word, h⟩ := exists_trieOf strings
  have hinj : Set.InjOn word (Finset.range (trie strings).size) := by
    intro i hi j hj hword
    exact h.spelled.inj i j (Finset.mem_range.mp hi) (Finset.mem_range.mp hj) hword
  rw [← strings.card_insert_prefixes, ← h.image_word (trim_trie strings),
    Finset.card_image_of_injOn hinj, Finset.card_range]

/-! ## Tries behind an automaton -/

/-- A trie behind an automaton matches what splits into a text of the automaton and one of the
strings; the text keeps the end only before the empty string. The trie adds a state for each
beginning of a string, or a single one when there is no string, and no added state has two
transitions on the same byte. -/
theorem appendTrie_law (h : a.WellFormed) (strings : ByteStrings) :
    (trie? strings).bind a.concat? = some (a.appendTrie strings) ∧
      (∀ b w e, (a.appendTrie strings).meaning b w e ↔
        ∃ u s, w = u ++ s ∧ s ∈ strings ∧ a.meaning b u (e && s.isEmpty)) ∧
      (a.appendTrie strings).size = a.size + max 1 strings.prefixes.card ∧
      ∀ i, a.size ≤ i → ∀ c,
        ((a.appendTrie strings).transitionsOf i).countP (·.label.reads c) ≤ 1 := by
  refine ⟨?_, ?_, ?_, ?_⟩
  · rw [trie?_eq, Option.bind_some, concat?_eq h, appendTrie]
  · intro b w e
    rw [meaning_appendTrie h]
    exact exists_congr fun u => exists_congr fun s => and_congr_right fun _ => and_comm
  · rw [appendTrie, size_concat, size_trie]
  · intro i hi c
    obtain ⟨k, rfl⟩ := Nat.exists_eq_add_of_le' hi
    rw [appendTrie, transitionsOf_concat_right, List.countP_map]
    exact unforked_trie strings k c

/-- The empty string, and strings that begin other ones. -/
def nestedStrings : ByteStrings :=
  Std.ExtTreeSet.ofList [([] : List UInt8), [1], [1, 2], [1, 3, 4], [5]]

theorem appendTrie_nestedStrings : anchoredLoop.WellFormed ∧
    nestedStrings.prefixes.card = 6 ∧
    (trie? nestedStrings).bind anchoredLoop.concat? =
      some (anchoredLoop.appendTrie nestedStrings) ∧
    (∀ b w e, (anchoredLoop.appendTrie nestedStrings).meaning b w e ↔
      ∃ u s, w = u ++ s ∧ s ∈ nestedStrings ∧ anchoredLoop.meaning b u (e && s.isEmpty)) ∧
    (anchoredLoop.appendTrie nestedStrings).size = anchoredLoop.size + 6 ∧
    (anchoredLoop.appendTrie ∅).size = anchoredLoop.size + 1 ∧
    ∀ i, anchoredLoop.size ≤ i → ∀ c,
      ((anchoredLoop.appendTrie nestedStrings).transitionsOf i).countP (·.label.reads c) ≤ 1 := by
  have h : anchoredLoop.WellFormed := by decide
  have hcard : nestedStrings.prefixes.card = 6 := by decide +kernel
  obtain ⟨hrun, hmeaning, hsize, hunforked⟩ := appendTrie_law h nestedStrings
  rw [hcard] at hsize
  exact ⟨h, hcard, hrun, hmeaning, hsize, (appendTrie_law h ∅).2.2.1, hunforked⟩

end Automaton

end PatternAutomata
