import PatternAutomata.Proofs.Automaton.Tidy
import PatternAutomata.Proofs.Parser.Checked

/-!
# Histories

What can be made of the two smallest automata by any number of calls of the algebra, in any order.
Whatever was made before, the next call finds every state that it looks up, and so does the reading
of any text.
-/
namespace PatternAutomata
open Automaton

/-- One call of the algebra with its operands. The closure stands for both ways to ask for it, with
or without a copy of the operand. -/
inductive Operation where
  | union (a b : Automaton)
  | intersect (a b : Automaton)
  | concat (a b : Automaton)
  | star (a : Automaton)
  | power (a : Automaton) (n : Nat)
  | repeatBetween (a : Automaton) (least : Nat) (most : Bound)
  | complement (a : Automaton)
  | determinize (a : Automaton)
  | appendTrie (a : Automaton) (strings : ByteStrings)
  | appendChoice (a : Automaton) (sequences : List (List (UInt8 × UInt8)))
  | appendAnchor (a : Automaton) (m : Anchor)
  | appendTexts (a : Automaton) (texts : Texts) (e : Encoding)
  | appendCharacter (a : Automaton) (e : Encoding)
  | prune (a : Automaton)
  | newState (a : Automaton)
  | addEdge (a : Automaton) (source : Nat) (label : Label) (target : Nat)
  | addEpsilon (a : Automaton) (source target : Nat)
  | startAt (a : Automaton) (id : Nat)
  | markAccepting (a : Automaton) (id : Nat) (on : Bool)

namespace Operation

/-- The automata that a call works on. -/
def operands : Operation → List Automaton
  | .union a b | .intersect a b | .concat a b => [a, b]
  | .star a | .power a _ | .repeatBetween a _ _ | .complement a | .determinize a
  | .appendTrie a _ | .appendChoice a _ | .appendAnchor a _ | .appendTexts a _ _
  | .appendCharacter a _ | .prune a | .newState a | .addEdge a _ _ _ | .addEpsilon a _ _
  | .startAt a _ | .markAccepting a _ _ => [a]

/-- Numbers that a call is given belong to states. -/
def Permitted : Operation → Prop
  | .addEdge a source _ target | .addEpsilon a source target => source < a.size ∧ target < a.size
  | .startAt a id | .markAccepting a id _ => id < a.size
  | _ => True

/-- What a call makes. -/
def result : Operation → Automaton
  | .union a b => a.union b
  | .intersect a b => a.intersect b
  | .concat a b => a.concat b
  | .star a => a.star
  | .power a n => a.power n
  | .repeatBetween a least most => a.repeatBetween least most
  | .complement a => a.complement
  | .determinize a => a.determinize
  | .appendTrie a strings => a.appendTrie strings
  | .appendChoice a sequences => a.appendChoice sequences
  | .appendAnchor a m => a.appendAnchor m
  | .appendTexts a texts e => a.appendTexts texts e
  | .appendCharacter a e => a.appendCharacter e
  | .prune a => a.prune
  | .newState a => a.newState
  | .addEdge a source label target => a.addEdge source label target
  | .addEpsilon a source target => a.addEpsilon source target
  | .startAt a id => a.startAt id
  | .markAccepting a id on => a.markAccepting id on

/-- What a call makes if it finds every state that it looks up. A union looks up the state alone
that it has just made, and a new state, start or accepting number takes no look-up. -/
def result? : Operation → Option Automaton
  | .union a b => some (a.union b)
  | .intersect a b => (a.intersectUpTo? b (a.productBound b)).toOption
  | .concat a b => a.concat? b
  | .star a => a.star?
  | .power a n => a.power? n
  | .repeatBetween a least most => a.repeatBetween? least most
  | .complement a => a.complement?
  | .determinize a => (a.determinizeUpTo a.subsetBound).toOption
  | .appendTrie a strings => (trie? strings).bind a.concat?
  | .appendChoice a sequences => (choice? sequences).bind a.concat?
  | .appendAnchor a m => a.concat? (crossing m)
  | .appendTexts a texts e => a.joinTexts? texts e
  | .appendCharacter a e => a.joinCharacter? e
  | .prune a => a.prune?
  | .newState a => some a.newState
  | .addEdge a source label target => a.addEdge? source label target
  | .addEpsilon a source target => a.addEpsilon? source target
  | .startAt a id => some (a.startAt id)
  | .markAccepting a id on => some (a.markAccepting id on)

variable {op : Operation} {p : Automaton → Prop} {a b : Automaton} {as : List Automaton}

theorem first_operand (h : ∀ a ∈ op.operands, p a) (heq : op.operands = a :: as) : p a :=
  h a (heq ▸ List.mem_cons_self)

theorem second_operand (h : ∀ a ∈ op.operands, p a) (heq : op.operands = a :: b :: as) : p b :=
  h b (heq ▸ List.mem_cons_of_mem a List.mem_cons_self)

section
variable (h : ∀ a ∈ op.operands, a.WellFormed)
include h

/-- A call finds every state that it looks up. -/
theorem result?_eq (hp : op.Permitted) : op.result? = some op.result := by
  cases op with
  | union a b => rfl
  | intersect a b =>
    have ha := first_operand h rfl
    have hb := second_operand h rfl
    rw [result?, intersectUpTo?_eq ha hb, intersectUpTo_productBound ha hb]
    rfl
  | concat a b => exact concat?_eq (first_operand h rfl) b
  | star a => exact star?_eq (first_operand h rfl)
  | power a n => exact power?_eq (first_operand h rfl) n
  | repeatBetween a least most => exact repeatBetween?_eq (first_operand h rfl) least most
  | complement a => exact complement?_eq (first_operand h rfl)
  | determinize a =>
    rw [result?, determinizeUpTo_subsetBound (first_operand h rfl)]
    rfl
  | appendTrie a strings =>
    rw [result?, trie?_eq]
    exact concat?_eq (first_operand h rfl) _
  | appendChoice a sequences =>
    rw [result?, choice?_eq]
    exact concat?_eq (first_operand h rfl) _
  | appendAnchor a m => exact concat?_eq (first_operand h rfl) _
  | appendTexts a texts e => exact joinTexts?_eq (first_operand h rfl) texts e
  | appendCharacter a e => exact joinCharacter?_eq (first_operand h rfl) e
  | prune a => exact prune?_eq (first_operand h rfl)
  | newState a => rfl
  | addEdge a source label target => exact if_pos hp.1
  | addEpsilon a source target => exact if_pos hp.1
  | startAt a id => rfl
  | markAccepting a id on => rfl

/-- A call keeps all numbers in range. -/
theorem wellFormed (hp : op.Permitted) : op.result.WellFormed := by
  cases op with
  | union a b => exact (first_operand h rfl).union (second_operand h rfl)
  | intersect a b => exact (first_operand h rfl).intersect (second_operand h rfl)
  | concat a b => exact (first_operand h rfl).concat (second_operand h rfl)
  | star a => exact (first_operand h rfl).star
  | power a n => exact (first_operand h rfl).power n
  | repeatBetween a least most => exact (first_operand h rfl).repeatBetween least most
  | complement a => exact (first_operand h rfl).complement
  | determinize a => exact (first_operand h rfl).determinize
  | appendTrie a strings => exact (first_operand h rfl).appendTrie strings
  | appendChoice a sequences => exact (first_operand h rfl).appendChoice sequences
  | appendAnchor a m => exact (first_operand h rfl).appendAnchor m
  | appendTexts a texts e => exact (first_operand h rfl).appendTexts texts e
  | appendCharacter a e => exact (first_operand h rfl).appendCharacter e
  | prune a => exact .prune a
  | newState a => exact (first_operand h rfl).newState
  | addEdge a source label target => exact (first_operand h rfl).addEdge label hp.2
  | addEpsilon a source target => exact (first_operand h rfl).addEpsilon hp.2
  | startAt a id => exact (first_operand h rfl).startAt hp
  | markAccepting a id on => exact (first_operand h rfl).markAccepting hp on

/-- A call lists no epsilon target twice. -/
theorem tidy (ht : ∀ a ∈ op.operands, a.Tidy) : op.result.Tidy := by
  cases op with
  | union a b => exact (first_operand ht rfl).union (second_operand ht rfl)
  | intersect a b => exact .intersect (first_operand h rfl) (second_operand h rfl)
  | concat a b => exact (first_operand ht rfl).concat (second_operand ht rfl)
  | star a => exact (first_operand ht rfl).star
  | power a n => exact (first_operand ht rfl).power n
  | repeatBetween a least most => exact (first_operand ht rfl).repeatBetween least most
  | complement a => exact .complement (first_operand h rfl)
  | determinize a => exact .determinize (first_operand h rfl)
  | appendTrie a strings => exact (first_operand ht rfl).concat (.trie strings)
  | appendChoice a sequences => exact (first_operand ht rfl).concat (.choice sequences)
  | appendAnchor a m => exact (first_operand ht rfl).concat (.crossing m)
  | appendTexts a texts e => exact (first_operand ht rfl).appendTexts texts e
  | appendCharacter a e => exact (first_operand ht rfl).concat (.choice e.characterRanges)
  | prune a => exact (first_operand ht rfl).prune
  | newState a => exact (first_operand ht rfl).newState
  | addEdge a source label target => exact (first_operand ht rfl).addEdge source label target
  | addEpsilon a source target => exact (first_operand ht rfl).addEpsilon source target
  | startAt a id => exact (first_operand ht rfl).startAt id
  | markAccepting a id on => exact (first_operand ht rfl).markAccepting id on

end

end Operation

/-- The automata made so far, latest first. Every operand of a call was made before. -/
inductive History : List Automaton → Prop
  | start : History [emptyText, nothing]
  | call {made : List Automaton} {op : Operation} {a : Automaton} (h : History made)
      (hop : ∀ b ∈ op.operands, b ∈ made) (hp : op.Permitted) (ha : op.result? = some a) :
      History (a :: made)

namespace History
variable {made : List Automaton}

/-- One invariant for everything that is made: numbers belong to states, and no epsilon edge is
there twice. -/
theorem wellFormed_and_tidy (h : History made) : ∀ a ∈ made, a.WellFormed ∧ a.Tidy := by
  induction h with
  | start =>
    intro a ha
    have heq : a = emptyText ∨ a = nothing := by simpa using ha
    cases heq with
    | inl heq => exact heq ▸ ⟨wellFormed_emptyText, tidy_emptyText⟩
    | inr heq => exact heq ▸ ⟨wellFormed_nothing, tidy_nothing⟩
  | @call made op a h hop hp ha ih =>
    have hwell (b : Automaton) (hb : b ∈ op.operands) : b.WellFormed := (ih b (hop b hb)).1
    have htidy (b : Automaton) (hb : b ∈ op.operands) : b.Tidy := (ih b (hop b hb)).2
    obtain rfl : op.result = a := Option.some.inj ((op.result?_eq hwell hp).symm.trans ha)
    intro b hb
    cases hb with
    | head => exact ⟨op.wellFormed hwell hp, op.tidy hwell htidy⟩
    | tail _ hb => exact ih b hb

/-- Whatever was made before, all numbers belong to states and no epsilon edge is there twice. So no
text and no further call ever looks up a state that does not exist. -/
theorem states_exist (h : History made) :
    (∀ a ∈ made, a.WellFormed ∧ (∀ s ∈ a.states.toList, s.epsilons.Nodup) ∧
      ∀ text, a.accepts? text = some (a.accepts text)) ∧
    ∀ op : Operation, (∀ a ∈ op.operands, a ∈ made) → op.Permitted →
      op.result? = some op.result := by
  have hall := h.wellFormed_and_tidy
  constructor
  · intro a ha
    obtain ⟨hwell, htidy⟩ := hall a ha
    exact ⟨hwell, htidy, accepts?_eq hwell⟩
  · intro op hop hp
    exact op.result?_eq (fun a ha => (hall a (hop a ha)).1) hp

/-- A loop of an anchor and an epsilon edge, made edge by edge. -/
theorem states_exist_loop :
    let edge := emptyText.newState.addEdge 0 (.anchor .textStart) 1
    let loop := edge.addEpsilon 1 0
    History [loop, edge, emptyText.newState, emptyText, nothing] ∧
    loop.WellFormed ∧ (∀ s ∈ loop.states.toList, s.epsilons.Nodup) ∧
    (∀ text, loop.accepts? text = some (loop.accepts text)) ∧
    (Operation.intersect loop emptyText).result? = some (loop.intersect emptyText) := by
  intro edge loop
  have hstate : History [emptyText.newState, emptyText, nothing] :=
    @call _ (.newState emptyText) _ .start (by simp [Operation.operands]) trivial rfl
  have hedge : History [edge, emptyText.newState, emptyText, nothing] :=
    @call _ (.addEdge emptyText.newState 0 (.anchor .textStart) 1) _ hstate
      (by simp [Operation.operands]) ⟨by decide, by decide⟩ rfl
  have hloop : History [loop, edge, emptyText.newState, emptyText, nothing] :=
    @call _ (.addEpsilon edge 1 0) _ hedge (by simp [Operation.operands])
      ⟨by decide, by decide⟩ rfl
  obtain ⟨hmade, hcalls⟩ := states_exist hloop
  obtain ⟨hwell, htidy, haccepts⟩ := hmade loop List.mem_cons_self
  exact ⟨hloop, hwell, htidy, haccepts,
    hcalls (.intersect loop emptyText) (by simp [Operation.operands]) trivial⟩

end History

end PatternAutomata
