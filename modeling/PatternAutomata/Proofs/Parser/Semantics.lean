import PatternAutomata.Proofs.Automaton.Acceptance
import PatternAutomata.Proofs.Parser.Playing
import PatternAutomata.Proofs.Parser.Productions
import PatternAutomata.Proofs.Token

/-!
# The meaning of a pattern

Every derivation tree says of a piece of a text, in its context, whether it is matched. The
automaton that the parser builds accepts a text exactly when the tree matches it as a whole.
-/
namespace PatternAutomata

/-- Matches `k` pieces of `p` in a row, where `k` is at least `least` and allowed by `most`. -/
def Meaning.counted (p : Meaning) (least : Nat) (most : Bound) : Meaning := fun b w e =>
  ∃ k, least ≤ k ∧ most.Allows k ∧ p.power k b w e

/-- As long as the bounds are in order, a repetition keeps to both of them. -/
theorem Meaning.repeated_eq_counted (p : Meaning) {least : Nat} {most : Bound}
    (h : most.Allows least) : p.repeated least most = p.counted least most := by
  apply Meaning.ext
  intro b w e
  refine exists_congr fun k => ?_
  cases most with
  | infinity => simp [Meaning.inBounds, Bound.Allows]
  | finite n =>
    have hn : least ≤ n := h
    simp only [Meaning.inBounds, Bound.Allows, Nat.max_eq_left hn, and_assoc]

namespace Tree

/-- What a tree matches. Conjunction and negation speak of the piece as if it were a whole text. -/
def meaning (e : Encoding) : {s : Symbol} → Tree s → Meaning
  | _, .pattern whole => whole.meaning e
  | _, .firstAlternative c => c.meaning e
  | _, .nextAlternative l _ r => (l.meaning e).either (r.meaning e)
  | _, .firstConjunct n => n.meaning e
  | _, .nextConjunct l _ r => .strings fun w => (l.meaning e).whole w ∧ (r.meaning e).whole w
  | _, .plain s => s.meaning e
  | _, .negated _ s => .strings fun w => ¬ (s.meaning e).whole w
  | _, .emptySequence => .empty
  | _, .nextItem s i => (s.meaning e).seq (i.meaning e)
  | _, .once a => a.meaning e
  | _, .counted a count =>
    match count.1.term with
    | some (.count least most) => (a.meaning e).counted least most
    | _ => .nothing
  | _, .single _ leaf =>
    match leaf.1.term with
    | some t => t.meaning e
    | none => .nothing
  | _, .group _ inner _ => inner.meaning e

variable {η : Type} {hook : Hook η} {keeps : η → Prop}

/-- The value of a tree matches what the tree matches. A limit that is large enough for all automata
on the way is never hit. -/
theorem exists_yields (hhook : hook.Harmless keeps) (e : Encoding) {s : Symbol} (tree : Tree s)
    (hlex : ∀ t ∈ tree.tokens, t.Lexical) :
    ∃ n, ∀ limit, (tree.evaluate limit e hook).Yields limit n keeps
      (·.Denotes e (tree.meaning e) n) := by
  induction tree with
  | pattern whole ih =>
    obtain ⟨n, hn⟩ := ih hlex
    exact ⟨n, fun limit => (hn limit).bind fun v hv => yields_pattern hv⟩
  | firstAlternative c ih =>
    obtain ⟨n, hn⟩ := ih hlex
    exact ⟨n, fun limit => (hn limit).bind fun v hv => yields_guard hv (Nat.le_refl n)⟩
  | nextAlternative l bar r ihl ihr =>
    obtain ⟨m, hm⟩ := ihl fun t ht => hlex t (by simp [tokens, ht])
    obtain ⟨n, hn⟩ := ihr fun t ht => hlex t (by simp [tokens, ht])
    refine ⟨1 + m + n, fun limit => ((hm limit).mono (by omega)).bind fun v hv => ?_⟩
    exact ((hn limit).mono (by omega)).bind fun w hw => yields_nextAlternative hv hw
  | firstConjunct c ih =>
    obtain ⟨n, hn⟩ := ih hlex
    exact ⟨n, fun limit => (hn limit).bind fun v hv => yields_guard hv (Nat.le_refl n)⟩
  | nextConjunct l sign r ihl ihr =>
    obtain ⟨m, hm⟩ := ihl fun t ht => hlex t (by simp [tokens, ht])
    obtain ⟨n, hn⟩ := ihr fun t ht => hlex t (by simp [tokens, ht])
    have hle : m ≤ (2 ^ m + 1) * (2 ^ n + 1) :=
      (Nat.le_succ_of_le (Nat.le_of_lt Nat.lt_two_pow_self)).trans
        (Nat.le_mul_of_pos_right _ (Nat.succ_pos _))
    have hle' : n ≤ (2 ^ m + 1) * (2 ^ n + 1) :=
      (Nat.le_succ_of_le (Nat.le_of_lt Nat.lt_two_pow_self)).trans
        (Nat.le_mul_of_pos_left _ (Nat.succ_pos _))
    refine ⟨_, fun limit => ((hm limit).mono hle).bind fun v hv => ?_⟩
    exact ((hn limit).mono hle').bind fun w hw => yields_nextConjunct hv hw
  | plain s ih =>
    obtain ⟨n, hn⟩ := ih hlex
    exact ⟨n, fun limit => (hn limit).bind fun v hv => yields_guard hv (Nat.le_refl n)⟩
  | negated sign s ih =>
    obtain ⟨n, hn⟩ := ih fun t ht => hlex t (by simp [tokens, ht])
    have hle : n ≤ 2 ^ n + 1 := Nat.le_succ_of_le (Nat.le_of_lt Nat.lt_two_pow_self)
    exact ⟨_, fun limit => ((hn limit).mono hle).bind fun v hv => yields_negated hv⟩
  | emptySequence => exact ⟨1, fun limit => yields_emptySequence⟩
  | nextItem s i ihs ihi =>
    obtain ⟨m, hm⟩ := ihs fun t ht => hlex t (by simp [tokens, ht])
    obtain ⟨n, hn⟩ := ihi fun t ht => hlex t (by simp [tokens, ht])
    refine ⟨m + n, fun limit => ((hm limit).mono (by omega)).bind fun v hv => ?_⟩
    exact ((hn limit).mono (by omega)).bind fun w hw => yields_nextItem hv hw
  | once a ih =>
    obtain ⟨n, hn⟩ := ih hlex
    exact ⟨n, fun limit => (hn limit).bind fun v hv => yields_guard hv (Nat.le_refl n)⟩
  | counted a count ih =>
    obtain ⟨n, hn⟩ := ih fun t ht => hlex t (by simp [tokens, ht])
    obtain ⟨least, most, hterm, hallows⟩ : ∃ least most,
        count.1.term = some (.count least most) ∧ most.Allows least := by
      have hcount := hlex count.1 (by simp [tokens])
      rwa [Token.Lexical, count.2] at hcount
    have hle : n ≤ repetitionBound n least most := by
      unfold repetitionBound
      rw [Nat.add_mul]
      omega
    refine ⟨repetitionBound n least most, ?_⟩
    intro limit
    simp only [evaluate, meaning, hterm, Option.map_some, needed, Eval.lift_ok_bind,
      ← Meaning.repeated_eq_counted _ hallows]
    exact ((hn limit).mono hle).bind fun v hv => yields_counted hhook hv least most
  | single k leaf =>
    obtain ⟨t, hterm, hmatching⟩ : ∃ t, leaf.1.term = some t ∧ t.Matching := by
      have hleaf := (hlex leaf.1 (by simp [tokens])).meaningful
      rw [Token.Meaningful, leaf.2] at hleaf
      cases k <;> exact hleaf
    obtain ⟨n, hn⟩ := Operand.Matching.exists_denotes (v := .term t) hmatching e
    refine ⟨n, ?_⟩
    intro limit
    simp only [evaluate, meaning, hterm, Option.map_some, needed, Eval.lift_ok_bind]
    exact yields_guard hn (Nat.le_refl n)
  | group opening inner closing ih =>
    obtain ⟨n, hn⟩ := ih fun t ht => hlex t (by simp [tokens, ht])
    exact ⟨n, fun limit => (hn limit).bind fun v hv => yields_group hhook hv⟩

theorem exists_yields_result (hhook : hook.Harmless keeps) (e : Encoding) (tree : Tree .pattern)
    (hlex : ∀ t ∈ tree.tokens, t.Lexical) :
    ∃ n, ∀ limit, (tree.result limit e hook).Yields limit n keeps
      (·.Denotes (tree.meaning e) n) := by
  obtain ⟨n, hn⟩ := exists_yields hhook e tree hlex
  exact ⟨n, fun limit => (hn limit).bind fun v hv => yields_toAutomaton hv⟩

end Tree

/-- The automaton of a sentence accepts the texts that the tree matches. The parser builds it or
refuses the limit, and it refuses none that is large enough. -/
theorem parse_matches {σ η : Type} {source : TokenSource σ} {e : Encoding} {hook : Hook η}
    {shows : σ → List Token → η → Prop} {keeps : η → Prop} (plays : source.Plays e hook shows)
    (hhook : hook.Harmless keeps) (tree : Tree .pattern) (hlex : ∀ t ∈ tree.tokens, t.Lexical)
    {last : Token} (hlast : last.terminal = .eof) {s : σ} {h : η}
    (hs : shows s (tree.tokens ++ [last]) h) (hkeeps : keeps h) :
    (∀ limit, (parse source limit s).1 = .error (.tooLarge limit) ∨
        ∃ a, (parse source limit s).1 = .ok a ∧
          ∀ w, a.accepts w = true ↔ tree.meaning e true w true) ∧
      ∃ bound, ∀ limit, bound ≤ limit → ∃ a, (parse source limit s).1 = .ok a := by
  obtain ⟨n, hyields⟩ := tree.exists_yields_result hhook e hlex
  have houtcome (limit : Nat) := (hyields limit h hkeeps).2
  constructor
  · intro limit
    have := houtcome limit
    rw [(plays.parse_eq tree hlast hs limit).1]
    cases hrun : ((tree.result limit e hook).run h).1 with
    | error err =>
      rw [hrun] at this
      exact .inl (congrArg _ this.1)
    | ok a =>
      rw [hrun] at this
      refine .inr ⟨a, rfl, ?_⟩
      intro w
      rw [Automaton.accepts_iff, this.meaning_eq]
      rfl
  · refine ⟨n, ?_⟩
    intro limit hlimit
    have := houtcome limit
    rw [(plays.parse_eq tree hlast hs limit).1]
    cases hrun : ((tree.result limit e hook).run h).1 with
    | error err =>
      rw [hrun] at this
      exact absurd this.2 (Nat.not_lt.mpr hlimit)
    | ok a => exact ⟨a, rfl⟩

theorem parse_matches_repeatedGroup :
    (∀ limit, (parse (Script.source id) limit repeatedGroupScript).1 = .error (.tooLarge limit) ∨
        ∃ a, (parse (Script.source id) limit repeatedGroupScript).1 = .ok a ∧
          ∀ w, a.accepts w = true ↔ repeatedGroup.meaning .utf8 true w true) ∧
      ∃ bound, ∀ limit, bound ≤ limit →
        ∃ a, (parse (Script.source id) limit repeatedGroupScript).1 = .ok a := by
  have hhook : Hook.Harmless (fun a (sizes : List Nat) => (id a, a.size :: sizes)) fun _ => True :=
    ⟨fun _ _ _ => trivial, fun _ _ _ _ _ ha => ha⟩
  have hlex : ∀ t ∈ repeatedGroup.tokens, t.Lexical := by
    simp [repeatedGroup, Tree.tokens, Token.Lexical, Bound.Allows]
  exact parse_matches (Script.plays id .utf8) hhook repeatedGroup hlex rfl ⟨rfl, rfl, rfl⟩ trivial

end PatternAutomata
