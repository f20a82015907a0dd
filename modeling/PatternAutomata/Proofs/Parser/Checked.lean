import PatternAutomata.Proofs.Automaton.Lookup
import PatternAutomata.Proofs.Parser.Recognition

/-!
# Rules that check every look-up

The meaning of a rule once more, with every state on the way looked up under a number that has to
belong to one. As long as the numbers of the automata at hand belong to states, this comes to the
same: no look-up is in vain.
-/
namespace PatternAutomata

namespace Automaton

/-- Concatenate the choice between texts, with every look-up checked. -/
def joinTexts? (a : Automaton) (texts : Texts) (e : Encoding) : Option Automaton :=
  let strings := texts.encode e
  if strings.isEmpty then some nothing else (trie? strings).bind a.concat?

/-- Concatenate any single character, with every look-up checked. -/
def joinCharacter? (a : Automaton) (e : Encoding) : Option Automaton :=
  (choice? e.characterRanges).bind a.concat?

/-- A single character that is none of the texts, with every look-up checked. -/
def characterExcept? (texts : Texts) (e : Encoding) : Option Automaton := do
  let texts ← emptyText.joinTexts? texts e
  let others ← (← emptyText.joinCharacter? e).complement?
  (← (texts.union others).complement?).prune?

variable {a : Automaton}

theorem joinTexts?_eq (h : a.WellFormed) (texts : Texts) (e : Encoding) :
    a.joinTexts? texts e = some (a.appendTexts texts e) := by
  unfold joinTexts? appendTexts
  dsimp only
  split
  · rfl
  · rw [trie?_eq, Option.bind_some, concat?_eq h, appendTrie]

theorem joinCharacter?_eq (h : a.WellFormed) (e : Encoding) :
    a.joinCharacter? e = some (a.appendCharacter e) := by
  rw [joinCharacter?, choice?_eq, Option.bind_some, concat?_eq h, appendCharacter, appendChoice]

theorem characterExcept?_eq (texts : Texts) (e : Encoding) :
    characterExcept? texts e = some (characterExcept texts e) := by
  have hunion := (wellFormed_emptyText.appendTexts texts e).union (wellFormed_nonCharacters e)
  have hothers : (emptyText.appendCharacter e).complement? = some (nonCharacters e) :=
    complement?_eq (wellFormed_emptyText.appendCharacter e)
  simp only [characterExcept?, joinTexts?_eq wellFormed_emptyText,
    joinCharacter?_eq wellFormed_emptyText, hothers, complement?_eq hunion,
    prune?_eq hunion.complement, Option.bind_eq_bind, Option.bind_some]
  rfl

end Automaton

/-- What was looked up, which has to be there. -/
def found {α : Type} : Option α → Except Error α
  | some v => .ok v
  | none => .error (.broken .missingState)

/-- The automaton of a term, with every look-up checked. A count has none. -/
def Term.build (e : Encoding) : Term → Except Error Automaton
  | .choice alternatives false => found (Automaton.emptyText.joinTexts? alternatives e)
  | .choice alternatives true => found (Automaton.characterExcept? alternatives e)
  | .dot => found (Automaton.emptyText.joinCharacter? e)
  | .anchor m => found (Automaton.emptyText.concat? (Automaton.crossing m))
  | .count _ _ => .error (.broken .bareCount)

namespace Operand
variable {a : Automaton} {v : Operand}

/-- The automaton of an operand, with every look-up checked. -/
def build (e : Encoding) : Operand → Except Error Automaton
  | .automaton a => .ok a
  | .term t => t.build e

/-- The automaton of an operand, put behind `a` with every look-up checked. -/
def buildBehind (a : Automaton) (e : Encoding) : Operand → Except Error Automaton
  | .term (.choice alternatives false) => found (a.joinTexts? alternatives e)
  | .term .dot => found (a.joinCharacter? e)
  | operand => do found (a.concat? (← operand.build e))

/-- The numbers of an automaton belong to states. -/
def Sound : Operand → Prop
  | .term _ => True
  | .automaton a => a.WellFormed

open Automaton (wellFormed_emptyText)

theorem Sound.wellFormed {e : Encoding} (h : v.Sound) (ha : v.toAutomaton e = .ok a) :
    a.WellFormed := by
  cases v with
  | automaton b => exact Except.ok.inj ha ▸ h
  | term t =>
    by_cases hmatching : t.Matching
    · obtain ⟨b, hb, hw, -⟩ := Operand.toAutomaton_spec (v := .term t) hmatching e
      exact Except.ok.inj (hb.symm.trans ha) ▸ hw
    · cases t <;> first | exact absurd trivial hmatching | cases ha

theorem build_eq (v : Operand) (e : Encoding) : v.build e = v.toAutomaton e := by
  rcases v with (⟨texts, _ | _⟩ | _ | m | ⟨least, most⟩) | a
  · rw [build, Term.build, Automaton.joinTexts?_eq wellFormed_emptyText]
    rfl
  · rw [build, Term.build, Automaton.characterExcept?_eq]
    rfl
  · rw [build, Term.build, Automaton.joinCharacter?_eq wellFormed_emptyText]
    rfl
  · rw [build, Term.build, Automaton.concat?_eq wellFormed_emptyText]
    rfl
  · rfl
  · rfl

theorem found_concat?_eq (h : a.WellFormed) (v : Operand) (e : Encoding) :
    (do found (a.concat? (← v.build e))) = match v.toAutomaton e with
      | .ok b => .ok (a.concat b)
      | .error err => .error err := by
  rw [build_eq]
  cases v.toAutomaton e with
  | error err => rfl
  | ok b => rw [ok_bind, Automaton.concat?_eq h, found]

theorem buildBehind_eq (h : a.WellFormed) (v : Operand) (e : Encoding) :
    v.buildBehind a e = v.appendTo a e := by
  rcases v with (⟨texts, _ | _⟩ | _ | m | ⟨least, most⟩) | b
  · rw [buildBehind, Automaton.joinTexts?_eq h]
    rfl
  · exact found_concat?_eq h _ e
  · rw [buildBehind, Automaton.joinCharacter?_eq h]
    rfl
  · exact found_concat?_eq h _ e
  · exact found_concat?_eq h _ e
  · exact found_concat?_eq h _ e

end Operand

theorem sound_values {stack : List Slot}
    (h : ∀ slot ∈ stack, ∀ a, slot.value = some (.automaton a) → a.WellFormed) (n : Nat) :
    ∀ v, some v ∈ ((values stack).take n).reverse → v.Sound := by
  intro v hv
  obtain ⟨slot, hslot, hvalue⟩ := List.mem_map.mp (List.mem_of_mem_take (List.mem_reverse.mp hv))
  cases v with
  | term t => trivial
  | automaton a => exact h slot hslot a hvalue

/-- The meaning of a rule, with every look-up checked. The rules left to `combine` look nothing up.
-/
def combineChecked (limit : Nat) (e : Encoding) (rule : Rule) (values : List (Option Operand)) :
    Except Error Operand :=
  match rule, values with
  | .pattern, [v] | .group, [_, v, _] => do
    let v ← needed v
    return .automaton (← v.build e)
  | .nextAlternative, [l, _, r] => do
    let l ← needed l
    let r ← needed r
    return .automaton ((← l.build e).union (← r.build e))
  | .nextConjunct, [l, _, r] => do
    let l ← needed l
    let r ← needed r
    let both := (← l.build e).intersectUpTo? (← r.build e) limit
    return .automaton (← both.mapError .ofBuild)
  | .negated, [_, v] => do
    let v ← needed v
    let others := (← v.build e).complementUpTo limit
    return .automaton (← others.mapError .ofBuild)
  | .nextItem, [v, item] => do
    let v ← needed v
    let item ← needed item
    return .automaton (← item.buildBehind (← v.build e) e)
  | .counted, [item, count] => do
    let item ← needed item
    let count ← needed count
    let (least, most) ← repetitionBounds count
    let a ← item.build e
    guardSize limit (Automaton.repetitionEstimate a.size least most)
    return .automaton (← found (a.repeatBetween? least most))
  | rule, values => combine limit e rule values

/-- Where the numbers of all automata belong to states, every look-up finds its state. It does not
matter whether the values fit the rule. -/
theorem combineChecked_eq (limit : Nat) (e : Encoding) {rule : Rule} {vs : List (Option Operand)}
    (hvs : ∀ v, some v ∈ vs → v.Sound) :
    combineChecked limit e rule vs = combine limit e rule vs := by
  unfold combineChecked
  split
  · simp only [combine, Operand.build_eq]
  · simp only [combine, Operand.build_eq]
  · simp only [combine, Operand.build_eq]
  · next l _ r =>
    cases l with
    | none => rfl
    | some l =>
      cases r with
      | none => rfl
      | some r =>
        simp only [combine, needed, ok_bind, Operand.build_eq]
        cases ha : l.toAutomaton e with
        | error err => simp only [error_bind]
        | ok a =>
          cases hb : r.toAutomaton e with
          | error err => simp only [error_bind]
          | ok b =>
            have hwa := (hvs l (by simp)).wellFormed ha
            have hwb := (hvs r (by simp)).wellFormed hb
            simp only [ok_bind, Automaton.intersectUpTo?_eq hwa hwb]
  · simp only [combine, Operand.build_eq]
  · next v item =>
    cases v with
    | none => rfl
    | some v =>
      cases item with
      | none => rfl
      | some item =>
        simp only [combine, needed, ok_bind, Operand.build_eq]
        cases ha : v.toAutomaton e with
        | error err => simp only [error_bind]
        | ok a => simp only [ok_bind, Operand.buildBehind_eq ((hvs v (by simp)).wellFormed ha)]
  · next item count =>
    cases item with
    | none => rfl
    | some item =>
      simp only [combine, repeatOperand, needed, ok_bind, Operand.build_eq, bind_assoc]
      refine bind_congr fun count => bind_congr fun bounds => ?_
      cases ha : item.toAutomaton e with
      | error err => simp only [error_bind]
      | ok a =>
        have hw := (hvs item (by simp)).wellFormed ha
        simp only [ok_bind, Automaton.repeatBetween?_eq hw, found, pure_bind]
  · rfl

end PatternAutomata
