import PatternAutomata.Proofs.Automaton.Repetition
import PatternAutomata.Proofs.Parser.Evaluation
import PatternAutomata.Proofs.Term

/-!
# What the rules make of meanings

One statement for each rule that builds an automaton: what the automaton matches, and which limit is
large enough for it. A smaller limit may be refused, and nothing else can go wrong.
-/
namespace PatternAutomata

/-- What is known of an operand: what it matches, and how large its automaton is at most. -/
structure Operand.Denotes (e : Encoding) (p : Meaning) (bound : Nat) (v : Operand) : Prop where
  matching : v.Matching
  meaning_eq : v.meaning e = p
  size_le : ∀ a, v.toAutomaton e = .ok a → a.size ≤ bound

/-- Whether a hook keeps a condition on what it remembers, and replaces atoms by others that match
the same and are not larger. -/
structure Hook.Harmless {η : Type} (hook : Hook η) (keeps : η → Prop) : Prop where
  kept : ∀ a h, keeps h → keeps (hook a h).2
  denotes : ∀ a h p n, keeps h → a.Denotes p n → (hook a h).1.Denotes p n

/-- Whether a computation succeeds with a certain outcome, or is refused by a limit below `bound`.
-/
def Eval.Yields {η α : Type} (limit bound : Nat) (keeps : η → Prop) (post : α → Prop)
    (x : Eval η α) : Prop :=
  ∀ h, keeps h → keeps (x.run h).2 ∧ match (x.run h).1 with
    | .ok v => post v
    | .error err => err = .tooLarge limit ∧ limit < bound

section
variable {η α β : Type} {limit bound bound' m n : Nat} {keeps : η → Prop} {e : Encoding}
  {p q : Meaning} {v item : Operand} {a : Automaton} {hook : Hook η}

namespace Eval

theorem yields_ok {post : α → Prop} {x : Except Error α} {v : α} (hx : x = .ok v) (h : post v) :
    Yields limit bound keeps post (liftM x : Eval η α) := by
  subst hx
  exact fun _ hs => ⟨hs, h⟩

theorem yields_refused {post : α → Prop} {x : Except Error α} (hx : x = .error (.tooLarge limit))
    (h : limit < bound) : Yields limit bound keeps post (liftM x : Eval η α) := by
  subst hx
  exact fun _ hs => ⟨hs, rfl, h⟩

theorem Yields.bind {x : Eval η α} {f : α → Eval η β} {post : α → Prop} {post' : β → Prop}
    (hx : x.Yields limit bound keeps post)
    (hf : ∀ v, post v → (f v).Yields limit bound keeps post') :
    (x >>= f).Yields limit bound keeps post' := by
  intro h hs
  obtain ⟨hs', hpost⟩ := hx h hs
  rw [run_bind]
  generalize x.run h = r at hs' hpost
  obtain ⟨err | v, h'⟩ := r
  · exact ⟨hs', hpost⟩
  · exact hf v hpost h' hs'

theorem Yields.mono {x : Eval η α} {post : α → Prop} (hx : x.Yields limit bound keeps post)
    (h : bound ≤ bound') : x.Yields limit bound' keeps post := by
  intro s hs
  obtain ⟨hs', hpost⟩ := hx s hs
  refine ⟨hs', ?_⟩
  cases hr : (x.run s).1 with
  | ok v => rwa [hr] at hpost
  | error err =>
    rw [hr] at hpost
    exact ⟨hpost.1, Nat.lt_of_lt_of_le hpost.2 h⟩

theorem yields_tell (hhook : hook.Harmless keeps) (h : a.Denotes p n) :
    (tell hook a).Yields limit bound keeps (·.Denotes p n) :=
  fun s hs => ⟨hhook.kept a s hs, hhook.denotes a s p n hs h⟩

end Eval

open Eval (yields_ok yields_refused yields_tell)

theorem Automaton.Denotes.operand (h : a.Denotes p n) : (Operand.automaton a).Denotes e p n where
  matching := h.wellFormed
  meaning_eq := h.meaning_eq
  size_le := by
    intro b hb
    obtain rfl := Except.ok.inj hb
    exact h.size_le

/-- What matches something denotes what it matches. -/
theorem Operand.Matching.exists_denotes (h : v.Matching) (e : Encoding) :
    ∃ n, v.Denotes e (v.meaning e) n := by
  obtain ⟨a, ha, -, -⟩ := Operand.toAutomaton_spec h e
  refine ⟨a.size, h, rfl, ?_⟩
  intro b hb
  rw [Except.ok.inj (ha.symm.trans hb)]

theorem yields_toAutomaton (h : v.Denotes e p n) : Eval.Yields limit bound keeps (·.Denotes p n)
    (liftM (v.toAutomaton e) : Eval η Automaton) := by
  obtain ⟨a, ha, hw, hm⟩ := Operand.toAutomaton_spec h.matching e
  exact yields_ok ha ⟨hw, hm.trans h.meaning_eq, h.size_le a ha⟩

/-- An operand that is not refused is handed on. -/
theorem yields_guard (h : v.Denotes e p n) (hn : n ≤ bound) :
    Eval.Yields limit bound keeps (·.Denotes e p n)
      (liftM (guardOperand limit v) : Eval η Operand) := by
  cases v with
  | term t => exact yields_ok rfl h
  | automaton a =>
    by_cases hlt : limit < a.size
    · exact yields_refused (if_pos hlt) (Nat.lt_of_lt_of_le hlt ((h.size_le a rfl).trans hn))
    · exact yields_ok (if_neg hlt) h

theorem yields_built {x : Except BuildError Automaton} (h : Automaton.Builds limit n p x)
    (hn : n ≤ bound) : Eval.Yields limit bound keeps (·.Denotes p bound)
      (liftM (x.mapError Error.ofBuild) : Eval η Automaton) := by
  cases x with
  | ok d => exact yields_ok rfl ⟨h.wellFormed, h.meaning_eq, h.size_le.trans hn⟩
  | error err =>
    obtain ⟨rfl, hlt⟩ := h
    exact yields_refused rfl (Nat.lt_of_lt_of_le hlt hn)

/-! ## The rules -/

theorem yields_emptySequence : Eval.Yields limit 1 keeps (·.Denotes e .empty 1)
    (liftM (guardOperand limit (.automaton .emptyText)) : Eval η Operand) :=
  yields_guard (Automaton.Denotes.operand
    ⟨Automaton.wellFormed_emptyText, Automaton.meaning_emptyText, Nat.le_refl 1⟩) (Nat.le_refl 1)

theorem yields_pattern (h : v.Denotes e p n) :
    Eval.Yields (η := η) limit n keeps (·.Denotes e p n) (do
      guardOperand limit (.automaton (← v.toAutomaton e))) :=
  (yields_toAutomaton h).bind fun _ ha => yields_guard ha.operand (Nat.le_refl n)

theorem yields_nextAlternative (hv : v.Denotes e p m) (hitem : item.Denotes e q n) :
    Eval.Yields (η := η) limit (1 + m + n) keeps (·.Denotes e (p.either q) (1 + m + n)) (do
      guardOperand limit (.automaton ((← v.toAutomaton e).union (← item.toAutomaton e)))) := by
  refine (yields_toAutomaton hv).bind fun a ha => (yields_toAutomaton hitem).bind fun b hb => ?_
  have hunion : (a.union b).Denotes (p.either q) (1 + m + n) := by
    refine ⟨ha.wellFormed.union hb.wellFormed, ?_, ?_⟩
    · rw [Automaton.meaning_union ha.wellFormed, ha.meaning_eq, hb.meaning_eq]
    · rw [Automaton.size_union]
      exact Nat.add_le_add (Nat.add_le_add_left ha.size_le 1) hb.size_le
  exact yields_guard hunion.operand (Nat.le_refl _)

theorem subsetBound_le (h : a.Denotes p n) : a.subsetBound ≤ 2 ^ n + 1 :=
  Nat.succ_le_succ (Nat.pow_le_pow_right (by decide) h.size_le)

theorem yields_nextConjunct (hv : v.Denotes e p m) (hitem : item.Denotes e q n) :
    Eval.Yields (η := η) limit ((2 ^ m + 1) * (2 ^ n + 1)) keeps
      (·.Denotes e (.strings fun w => p.whole w ∧ q.whole w) ((2 ^ m + 1) * (2 ^ n + 1))) (do
        let both := (← v.toAutomaton e).intersectUpTo (← item.toAutomaton e) limit
        guardOperand limit (.automaton (← liftM (both.mapError Error.ofBuild)))) := by
  refine (yields_toAutomaton hv).bind fun a ha => (yields_toAutomaton hitem).bind fun b hb => ?_
  have hbound : a.productBound b ≤ (2 ^ m + 1) * (2 ^ n + 1) :=
    Nat.mul_le_mul (subsetBound_le ha) (subsetBound_le hb)
  have hbuilds := Automaton.builds_intersectUpTo ha.wellFormed hb.wellFormed limit
  rw [ha.meaning_eq, hb.meaning_eq] at hbuilds
  exact (yields_built hbuilds hbound).bind fun c hc => yields_guard hc.operand (Nat.le_refl _)

theorem yields_negated (hv : v.Denotes e p n) :
    Eval.Yields (η := η) limit (2 ^ n + 1) keeps
      (·.Denotes e (.strings fun w => ¬ p.whole w) (2 ^ n + 1)) (do
        let others := (← v.toAutomaton e).complementUpTo limit
        guardOperand limit (.automaton (← liftM (others.mapError Error.ofBuild)))) := by
  apply (yields_toAutomaton hv).bind
  intro a ha
  have hbuilds := Automaton.builds_complementUpTo ha.wellFormed limit
  rw [ha.meaning_eq] at hbuilds
  exact (yields_built hbuilds (subsetBound_le ha)).bind fun c hc =>
    yields_guard hc.operand (Nat.le_refl _)

/-- Whichever way an item is appended, its own automaton would not take fewer states. -/
theorem size_appendTo_le {b c : Automaton} (hb : v.toAutomaton e = .ok b)
    (hc : v.appendTo a e = .ok c) : c.size ≤ a.size + b.size := by
  unfold Operand.appendTo at hc
  split at hc
  · obtain rfl := Except.ok.inj hb
    obtain rfl := Except.ok.inj hc
    unfold Automaton.appendTexts
    dsimp only
    split
    · exact Nat.le_add_left _ _
    · simp only [Automaton.appendTrie, Automaton.size_concat]
      omega
  · obtain rfl := Except.ok.inj hb
    obtain rfl := Except.ok.inj hc
    simp only [Automaton.appendCharacter, Automaton.appendChoice, Automaton.size_concat]
    omega
  · rw [hb] at hc
    obtain rfl := Except.ok.inj hc
    exact Nat.le_of_eq (Automaton.size_concat a b)

theorem yields_nextItem (hv : v.Denotes e p m) (hitem : item.Denotes e q n) :
    Eval.Yields (η := η) limit (m + n) keeps (·.Denotes e (p.seq q) (m + n)) (do
      guardOperand limit (.automaton (← item.appendTo (← v.toAutomaton e) e))) := by
  apply (yields_toAutomaton hv).bind
  intro a ha
  obtain ⟨b, hb, -, -⟩ := Operand.toAutomaton_spec hitem.matching e
  obtain ⟨c, hc, hw, hm⟩ := Operand.appendTo_spec ha.wellFormed hitem.matching e
  have hsize : c.size ≤ m + n :=
    (size_appendTo_le hb hc).trans (Nat.add_le_add ha.size_le (hitem.size_le b hb))
  rw [ha.meaning_eq, hitem.meaning_eq] at hm
  have happend : Eval.Yields limit (m + n) keeps (·.Denotes (p.seq q) (m + n))
      (liftM (item.appendTo a e) : Eval η Automaton) := yields_ok hc ⟨hw, hm, hsize⟩
  exact happend.bind fun _ hc => yields_guard hc.operand (Nat.le_refl _)

/-- A limit that is large enough for a repetition. -/
def repetitionBound (states least : Nat) (most : Bound) : Nat :=
  (Automaton.mostCopies least most + 1) * (states + 2) + 2

theorem repetitionEstimate_le (h : m ≤ n) (least : Nat) (most : Bound) :
    Automaton.repetitionEstimate m least most ≤ repetitionBound n least most := by
  have hcopies : max (Automaton.copiesHeld least most) 1 ≤ Automaton.mostCopies least most + 1 := by
    cases most <;> simp only [Automaton.copiesHeld, Automaton.mostCopies] <;> omega
  have hmul := Nat.mul_le_mul (Nat.add_le_add_right h 2) hcopies
  unfold Automaton.repetitionEstimate repetitionBound
  rw [Nat.mul_comm (Automaton.mostCopies least most + 1)]
  omega

theorem yields_repeatOperand (hitem : item.Denotes e p n) (least : Nat) (most : Bound) :
    Eval.Yields limit (repetitionBound n least most) keeps
      (·.Denotes (p.repeated least most) (repetitionBound n least most))
      (liftM (repeatOperand limit e item (.term (.count least most))) : Eval η Automaton) := by
  obtain ⟨a, ha, hw, hm⟩ := Operand.toAutomaton_spec hitem.matching e
  have hn : a.size ≤ n := hitem.size_le a ha
  have hrun : repeatOperand limit e item (.term (.count least most)) =
      (guardSize limit (Automaton.repetitionEstimate a.size least most) >>= fun _ =>
        .ok (a.repeatBetween least most)) := by
    simp only [repeatOperand, repetitionBounds, ha, ok_bind]
    rfl
  by_cases hlt : limit < Automaton.repetitionEstimate a.size least most
  · refine yields_refused ?_ (Nat.lt_of_lt_of_le hlt (repetitionEstimate_le hn least most))
    rw [hrun, guardSize, if_pos hlt, error_bind]
  · refine yields_ok (v := a.repeatBetween least most) ?_ ⟨hw.repeatBetween least most, ?_, ?_⟩
    · rw [hrun, guardSize, if_neg hlt, ok_bind]
    · rw [Automaton.meaning_repetition hw, hm, hitem.meaning_eq]
    · have hsize := Automaton.size_repeatBetween_le a least most
      have hmul := Nat.mul_le_mul_left (Automaton.mostCopies least most) (Nat.add_le_add_right hn 2)
      unfold repetitionBound
      rw [Nat.add_mul]
      omega

theorem yields_counted (hhook : hook.Harmless keeps) (hitem : item.Denotes e p n) (least : Nat)
    (most : Bound) :
    Eval.Yields limit (repetitionBound n least most) keeps
      (·.Denotes e (p.repeated least most) (repetitionBound n least most)) (do
        let repeated ← repeatOperand limit e item (.term (.count least most))
        guardOperand limit (.automaton (← Eval.tell hook repeated))) :=
  (yields_repeatOperand hitem least most).bind fun _ ha => (yields_tell hhook ha).bind fun _ hb =>
    yields_guard hb.operand (Nat.le_refl _)

theorem yields_group (hhook : hook.Harmless keeps) (hv : v.Denotes e p n) :
    Eval.Yields limit n keeps (·.Denotes e p n) (do
      guardOperand limit (.automaton (← Eval.tell hook (← v.toAutomaton e)))) :=
  (yields_toAutomaton hv).bind fun _ ha => (yields_tell hhook ha).bind fun _ hb =>
    yields_guard hb.operand (Nat.le_refl n)

end

end PatternAutomata
