import PatternAutomata.Proofs.Automaton.Unanchored
import PatternAutomata.Proofs.Compile

/-!
# Patterns within patterns

A pattern in parentheses is scanned and parsed as it is by itself, whatever its text. So patterns
can be put together as texts, and what the new pattern accepts is told by what they accept.
-/
namespace PatternAutomata

theorem Meaning.Placeless.counted {p : Meaning} (hp : p.Placeless) (least : Nat) (most : Bound) :
    (p.counted least most).Placeless := fun b w e =>
  exists_congr fun k => and_congr_right fun _ => and_congr_right fun _ => hp.power k b w e

namespace Tree
variable {s : Symbol}

/-- The same tree over a text that begins `n` bytes later. -/
def moved (n : Nat) : {s : Symbol} → Tree s → Tree s
  | _, .pattern whole => .pattern (whole.moved n)
  | _, .firstAlternative c => .firstAlternative (c.moved n)
  | _, .nextAlternative l bar r => .nextAlternative (l.moved n) ⟨bar.1.moved n, bar.2⟩ (r.moved n)
  | _, .firstConjunct c => .firstConjunct (c.moved n)
  | _, .nextConjunct l sign r => .nextConjunct (l.moved n) ⟨sign.1.moved n, sign.2⟩ (r.moved n)
  | _, .plain s => .plain (s.moved n)
  | _, .negated sign s => .negated ⟨sign.1.moved n, sign.2⟩ (s.moved n)
  | _, .emptySequence => .emptySequence
  | _, .nextItem s i => .nextItem (s.moved n) (i.moved n)
  | _, .once a => .once (a.moved n)
  | _, .counted a count => .counted (a.moved n) ⟨count.1.moved n, count.2⟩
  | _, .single k leaf => .single k ⟨leaf.1.moved n, leaf.2⟩
  | _, .group opening inner closing =>
    .group ⟨opening.1.moved n, opening.2⟩ (inner.moved n) ⟨closing.1.moved n, closing.2⟩

@[simp] theorem tokens_moved (n : Nat) (tree : Tree s) :
    (tree.moved n).tokens = tree.tokens.map (·.moved n) := by
  induction tree <;> simp [moved, tokens, *]

@[simp] theorem meaning_moved (n : Nat) (e : Encoding) (tree : Tree s) :
    (tree.moved n).meaning e = tree.meaning e := by
  induction tree <;> simp [moved, meaning, Token.moved, *]

/-- A sequence of a single atom. -/
def sole (a : Tree .atom) : Tree .sequence := .nextItem .emptySequence (.once a)

@[simp] theorem tokens_sole (a : Tree .atom) : (sole a).tokens = a.tokens := rfl

@[simp] theorem meaning_sole (e : Encoding) (a : Tree .atom) :
    (sole a).meaning e = a.meaning e := Meaning.empty_seq _

/-- Without anchors it does not matter where a piece stands. -/
theorem placeless (e : Encoding) (tree : Tree s) (h : ∀ t ∈ tree.tokens,
    t.Lexical ∧ t.terminal ≠ .caret ∧ t.terminal ≠ .dollar) : (tree.meaning e).Placeless := by
  induction tree with
  | pattern whole ih => exact ih h
  | firstAlternative c ih => exact ih h
  | nextAlternative l bar r ihl ihr =>
    have hl := ihl fun t ht => h t (by simp [tokens, ht])
    have hr := ihr fun t ht => h t (by simp [tokens, ht])
    exact hl.either hr
  | firstConjunct c ih => exact ih h
  | nextConjunct l sign r => exact Meaning.placeless_strings _
  | plain s ih => exact ih h
  | negated sign s => exact Meaning.placeless_strings _
  | emptySequence => exact Meaning.placeless_empty
  | nextItem s i ihs ihi =>
    have hs := ihs fun t ht => h t (by simp [tokens, ht])
    have hi := ihi fun t ht => h t (by simp [tokens, ht])
    exact hs.seq hi
  | once a ih => exact ih h
  | counted a count ih =>
    obtain ⟨least, most, hterm, -⟩ : ∃ least most,
        count.1.term = some (.count least most) ∧ most.Allows least := by
      have hcount := (h count.1 (by simp [tokens])).1
      rwa [Token.Lexical, count.2] at hcount
    have ha := ih fun t ht => h t (by simp [tokens, ht])
    simp only [meaning, hterm]
    exact ha.counted least most
  | single k leaf =>
    obtain ⟨hlex, hcaret, hdollar⟩ := h leaf.1 (by simp [tokens])
    rw [Token.Lexical, leaf.2] at hlex
    rw [leaf.2] at hcaret hdollar
    cases k with
    | letters =>
      obtain ⟨texts, negated, hterm⟩ := hlex
      simp only [meaning, hterm]
      cases negated <;> exact Meaning.placeless_strings _
    | dot =>
      have hterm : leaf.1.term = some .dot := hlex
      simp only [meaning, hterm]
      exact Meaning.placeless_strings _
    | caret => exact absurd rfl hcaret
    | dollar => exact absurd rfl hdollar
  | group opening inner closing ih => exact ih fun t ht => h t (by simp [tokens, ht])

end Tree

/-! ## Scanning what is put together -/

section
open Scanner
variable {config : Config} {p q : String} {tp tq : Tree .pattern} {z : Scanner}
  {us : List Token} {last : Token} {rest : List Char}

/-- A pattern in parentheses makes an atom that matches what the pattern matches. -/
theorem exists_atom (hz : z.scan = (us, .ok last)) (hp : tp.ReadFrom config p)
    (hconfig : z.config = config) (hr : z.cursor.rest = '(' :: (p.toList ++ ')' :: rest)) :
    ∃ (atom : Tree .atom) (y : Scanner) (vs : List Token), us = atom.tokens ++ vs ∧
      (∀ e, atom.meaning e = tp.meaning e) ∧
      y.scan = (vs, .ok last) ∧ y.config = config ∧ y.cursor.rest = rest := by
  obtain ⟨_, hscan⟩ := hp
  obtain ⟨whole⟩ := tp
  obtain ⟨n, opening, closing, y, vs, rfl, hy, hyconfig, hyrest⟩ :=
    scan_group hz hscan hconfig hr
  refine ⟨.group opening (whole.moved n) closing, y, vs, ?_, ?_, hy, hyconfig, hyrest⟩
  · simp [Tree.tokens]
  · intro e
    simp [Tree.meaning]

/-- Two patterns in parentheses with a sign between them. -/
theorem exists_atoms_of_sign {c : Char} {terminal : Terminal} (hc : sign? c = some terminal)
    (hz : z.scan = (us, .ok last)) (hp : tp.ReadFrom config p) (hq : tq.ReadFrom config q)
    (hconfig : z.config = config)
    (hr : z.cursor.rest = '(' :: (p.toList ++ ')' :: c :: '(' :: (q.toList ++ [')']))) :
    ∃ (l : Tree .atom) (sign : Leaf terminal) (r : Tree .atom),
      us = l.tokens ++ sign.1 :: r.tokens ∧ ∀ e, l.meaning e = tp.meaning e ∧
        r.meaning e = tq.meaning e := by
  obtain ⟨l, y, vs, rfl, hl, hy, hyconfig, hyrest⟩ := exists_atom hz hp hconfig hr
  obtain ⟨sign, x, vs, rfl, hx, hxconfig, hxrest⟩ := scan_sign hy hc hyrest
  obtain ⟨r, y', vs, rfl, hr, hy', -, hyrest'⟩ := exists_atom hx hq (hxconfig.trans hyconfig) hxrest
  obtain rfl := scan_end hy' hyrest'
  exact ⟨l, sign, r, by simp, fun e => ⟨hl e, hr e⟩⟩

variable (hp : tp.ReadFrom config p) (hq : tq.ReadFrom config q)
include hp

theorem exists_readFrom_negated (h : (ofText config ("!(" ++ p ++ ")")).scan = (us, .ok last)) :
    ∃ tree : Tree .pattern, tree.ReadFrom config ("!(" ++ p ++ ")") ∧
      ∀ e, tree.meaning e = .strings fun w => ¬ (tp.meaning e).whole w := by
  have hrest : (ofText config ("!(" ++ p ++ ")")).cursor.rest =
      '!' :: '(' :: (p.toList ++ [')']) := by
    simp [ofText]
  obtain ⟨sign, y, vs, rfl, hy, hyconfig, hyrest⟩ := scan_sign h rfl hrest
  obtain ⟨atom, x, vs, rfl, hatom, hx, -, hxrest⟩ := exists_atom hy hp hyconfig hyrest
  obtain rfl := scan_end hx hxrest
  refine ⟨.pattern <| .firstAlternative <| .firstConjunct <| .negated sign (.sole atom),
    ⟨last, ?_⟩, fun e => ?_⟩
  · rw [h]
    simp [Tree.tokens]
  · simp [Tree.meaning, hatom]

include hq

theorem exists_readFrom_both
    (h : (ofText config ("(" ++ p ++ ")&(" ++ q ++ ")")).scan = (us, .ok last)) :
    ∃ tree : Tree .pattern, tree.ReadFrom config ("(" ++ p ++ ")&(" ++ q ++ ")") ∧
      ∀ e, tree.meaning e = .strings fun w => (tp.meaning e).whole w ∧ (tq.meaning e).whole w := by
  obtain ⟨l, sign, r, rfl, hmeaning⟩ :=
    exists_atoms_of_sign (c := '&') rfl h hp hq rfl (by simp [ofText])
  refine ⟨.pattern <| .firstAlternative <|
    .nextConjunct (.firstConjunct <| .plain <| .sole l) sign (.plain <| .sole r),
    ⟨last, ?_⟩, fun e => ?_⟩
  · rw [h]
    simp [Tree.tokens]
  · simp [Tree.meaning, hmeaning]

theorem exists_readFrom_either
    (h : (ofText config ("(" ++ p ++ ")|(" ++ q ++ ")")).scan = (us, .ok last)) :
    ∃ tree : Tree .pattern, tree.ReadFrom config ("(" ++ p ++ ")|(" ++ q ++ ")") ∧
      ∀ e, tree.meaning e = (tp.meaning e).either (tq.meaning e) := by
  obtain ⟨l, bar, r, rfl, hmeaning⟩ :=
    exists_atoms_of_sign (c := '|') rfl h hp hq rfl (by simp [ofText])
  refine ⟨.pattern <| .nextAlternative (.firstAlternative <| .firstConjunct <| .plain <| .sole l)
    bar (.firstConjunct <| .plain <| .sole r), ⟨last, ?_⟩, fun e => ?_⟩
  · rw [h]
    simp [Tree.tokens]
  · simp [Tree.meaning, hmeaning]

theorem exists_readFrom_joined
    (h : (ofText config ("(" ++ p ++ ")(" ++ q ++ ")")).scan = (us, .ok last)) :
    ∃ tree : Tree .pattern, tree.ReadFrom config ("(" ++ p ++ ")(" ++ q ++ ")") ∧
      ∀ e, tree.meaning e = (tp.meaning e).seq (tq.meaning e) := by
  have hrest : (ofText config ("(" ++ p ++ ")(" ++ q ++ ")")).cursor.rest =
      '(' :: (p.toList ++ ')' :: '(' :: (q.toList ++ [')'])) := by
    simp [ofText]
  obtain ⟨l, y, vs, rfl, hl, hy, hyconfig, hyrest⟩ := exists_atom h hp rfl hrest
  obtain ⟨r, x, vs, rfl, hr, hx, -, hxrest⟩ := exists_atom hy hq hyconfig hyrest
  obtain rfl := scan_end hx hxrest
  refine ⟨.pattern <| .firstAlternative <| .firstConjunct <| .plain <|
    .nextItem (.sole l) (.once r), ⟨last, ?_⟩, fun e => ?_⟩
  · rw [h]
    simp [Tree.tokens]
  · simp [Tree.meaning, hl, hr]

end

/-! ## Compiling what is put together -/

/-- Whether a text has no anchors. -/
def AnchorFree (config : Config) (text : String) : Prop :=
  .caret ∉ kindsOf (Scanner.tokens config text) ∧ .dollar ∉ kindsOf (Scanner.tokens config text)

theorem AnchorFree.placeless {config : Config} {text : String} {tree : Tree .pattern}
    (hfree : AnchorFree config text) (h : tree.ReadFrom config text) (e : Encoding) :
    (tree.meaning e).Placeless := by
  obtain ⟨last, hscan⟩ := id h
  rw [AnchorFree, Scanner.tokens, hscan] at hfree
  exact tree.placeless e fun t ht => ⟨h.lexical t ht,
    fun hcaret => hfree.1 (hcaret ▸ List.mem_map_of_mem ht),
    fun hdollar => hfree.2 (hdollar ▸ List.mem_map_of_mem ht)⟩

variable {config : Config} {p q : String} {a b : Automaton}

/-- Whatever two patterns look like, in parentheses they are the operands of what stands between
and before them. -/
theorem compile_composition (hp : compile config p = .ok a) (hq : compile config q = .ok b) :
    (∀ c, compile config ("(" ++ p ++ ")&(" ++ q ++ ")") = .ok c →
        ∀ w, c.accepts w = true ↔ a.accepts w = true ∧ b.accepts w = true) ∧
      (∀ c, compile config ("(" ++ p ++ ")|(" ++ q ++ ")") = .ok c →
        ∀ w, c.accepts w = true ↔ a.accepts w = true ∨ b.accepts w = true) ∧
      (∀ c, compile config ("!(" ++ p ++ ")") = .ok c →
        ∀ w, c.accepts w = true ↔ ¬ a.accepts w = true) ∧
      (AnchorFree config p → AnchorFree config q →
        ∀ c, compile config ("(" ++ p ++ ")(" ++ q ++ ")") = .ok c →
          ∀ w, c.accepts w = true ↔
            ∃ u v, w = u ++ v ∧ a.accepts u = true ∧ b.accepts v = true) := by
  obtain ⟨tp, htp⟩ := exists_readFrom hp
  obtain ⟨tq, htq⟩ := exists_readFrom hq
  have ha := htp.accepts_iff hp
  have hb := htq.accepts_iff hq
  refine ⟨fun c hc w => ?both, fun c hc w => ?either, fun c hc w => ?negated,
    fun hpfree hqfree c hc w => ?joined⟩ <;>
    obtain ⟨_, last, hscan⟩ := exists_readFrom hc
  case both =>
    obtain ⟨tree, htree, hmeaning⟩ := exists_readFrom_both htp htq hscan
    rw [htree.accepts_iff hc, ha, hb, hmeaning]
    rfl
  case either =>
    obtain ⟨tree, htree, hmeaning⟩ := exists_readFrom_either htp htq hscan
    rw [htree.accepts_iff hc, ha, hb, hmeaning]
    rfl
  case negated =>
    obtain ⟨tree, htree, hmeaning⟩ := exists_readFrom_negated htp hscan
    rw [htree.accepts_iff hc, ha, hmeaning]
    rfl
  case joined =>
    obtain ⟨tree, htree, hmeaning⟩ := exists_readFrom_joined htp htq hscan
    have hpieces := hpfree.placeless htp config.encoding
    have hpieces' := hqfree.placeless htq config.encoding
    simp only [htree.accepts_iff hc, ha, hb, hmeaning]
    exact hpieces.seq_iff hpieces' true w true

/-- A conjunction of a single letter. -/
def soleLetter : Tree .conjunction := .firstConjunct <| .plain <| .sole <| .single .letters default

theorem compile_composition_escapedParen : ∃ bound, ∀ limit, bound ≤ limit →
    let config : Config := { sizeLimit := limit }
    ∃ a b, compile config "\\)" = .ok a ∧ compile config "a|b" = .ok b ∧
      (∃ c, compile config ("(" ++ "\\)" ++ ")&(" ++ "a|b" ++ ")") = .ok c ∧
        ∀ w, c.accepts w = true ↔ a.accepts w = true ∧ b.accepts w = true) ∧
      (∃ c, compile config ("(" ++ "\\)" ++ ")|(" ++ "a|b" ++ ")") = .ok c ∧
        ∀ w, c.accepts w = true ↔ a.accepts w = true ∨ b.accepts w = true) ∧
      (∃ c, compile config ("!(" ++ "\\)" ++ ")") = .ok c ∧
        ∀ w, c.accepts w = true ↔ ¬ a.accepts w = true) ∧
      (∃ c, compile config ("(" ++ "\\)" ++ ")(" ++ "a|b" ++ ")") = .ok c ∧
        ∀ w, c.accepts w = true ↔
          ∃ u v, w = u ++ v ∧ a.accepts u = true ∧ b.accepts v = true) := by
  obtain ⟨tp, htp⟩ : ∃ tree : Tree .pattern, tree.ReadFrom {} "\\)" :=
    exists_readFrom_of_kinds (.pattern <| .firstAlternative soleLetter)
      (by decide +kernel) (by decide +kernel)
  obtain ⟨tq, htq⟩ : ∃ tree : Tree .pattern, tree.ReadFrom {} "a|b" :=
    exists_readFrom_of_kinds
      (.pattern <| .nextAlternative (.firstAlternative soleLetter) default soleLetter)
      (by decide +kernel) (by decide +kernel)
  obtain ⟨_, _, hboth⟩ := Scanner.exists_scan
    (s := .ofText {} ("(" ++ "\\)" ++ ")&(" ++ "a|b" ++ ")")) (by decide +kernel)
  obtain ⟨_, _, heither⟩ := Scanner.exists_scan
    (s := .ofText {} ("(" ++ "\\)" ++ ")|(" ++ "a|b" ++ ")")) (by decide +kernel)
  obtain ⟨_, _, hnegated⟩ := Scanner.exists_scan
    (s := .ofText {} ("!(" ++ "\\)" ++ ")")) (by decide +kernel)
  obtain ⟨_, _, hjoined⟩ := Scanner.exists_scan
    (s := .ofText {} ("(" ++ "\\)" ++ ")(" ++ "a|b" ++ ")")) (by decide +kernel)
  have htrees : ∀ text ∈ ["\\)", "a|b", "(" ++ "\\)" ++ ")&(" ++ "a|b" ++ ")",
      "(" ++ "\\)" ++ ")|(" ++ "a|b" ++ ")", "!(" ++ "\\)" ++ ")",
      "(" ++ "\\)" ++ ")(" ++ "a|b" ++ ")"], ∃ tree : Tree .pattern, tree.ReadFrom {} text := by
    simp only [List.forall_mem_cons]
    exact ⟨⟨tp, htp⟩, ⟨tq, htq⟩, (exists_readFrom_both htp htq hboth).imp fun _ h => h.1,
      (exists_readFrom_either htp htq heither).imp fun _ h => h.1,
      (exists_readFrom_negated htp hnegated).imp fun _ h => h.1,
      (exists_readFrom_joined htp htq hjoined).imp fun _ h => h.1, List.forall_mem_nil _⟩
  obtain ⟨bound, hbound⟩ := exists_compile_all htrees
  refine ⟨bound, fun limit hle => ?_⟩
  have hcompile := hbound limit hle
  simp only [List.forall_mem_cons] at hcompile
  obtain ⟨⟨a, ha⟩, ⟨b, hb⟩, ⟨c₁, hc₁⟩, ⟨c₂, hc₂⟩, ⟨c₃, hc₃⟩, ⟨c₄, hc₄⟩, -⟩ := hcompile
  have hpfree : AnchorFree { sizeLimit := limit } "\\)" := by
    have hkinds : kindsOf (Scanner.tokens { sizeLimit := limit } "\\)") = [.letters] := by
      with_unfolding_all rfl
    simp [AnchorFree, hkinds]
  have hqfree : AnchorFree { sizeLimit := limit } "a|b" := by
    have hkinds : kindsOf (Scanner.tokens { sizeLimit := limit } "a|b") =
        [.letters, .pipe, .letters] := by with_unfolding_all rfl
    simp [AnchorFree, hkinds]
  obtain ⟨hboth, heither, hnegated, hjoined⟩ := compile_composition ha hb
  exact ⟨a, b, ha, hb, ⟨c₁, hc₁, hboth c₁ hc₁⟩, ⟨c₂, hc₂, heither c₂ hc₂⟩,
    ⟨c₃, hc₃, hnegated c₃ hc₃⟩, c₄, hc₄, hjoined hpfree hqfree c₄ hc₄⟩

end PatternAutomata
