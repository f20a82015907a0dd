import PatternAutomata.Proofs.Compile
import PatternAutomata.Proofs.Scanner.Depth

/-!
# Nesting

As long as no token fails, the tokens tell how many parentheses are open. The grammar closes each
parenthesis that is opened, so none is open behind a pattern that compiles, and the largest number
on the way is the number of groups that lie within each other in the derivation tree.
-/
namespace PatternAutomata

/-! ## Calls behind each other -/

namespace Scanner

/-- Successful calls behind each other, with the tokens that they return. -/
inductive Emits : Scanner → List Token → Scanner → Prop
  | nothing (s : Scanner) : Emits s [] s
  | token {s s' z : Scanner} {t : Token} {ts : List Token} (h : s.next = (.ok t, s'))
    (hfurther : Emits s' ts z) : Emits s (t :: ts) z

namespace Emits
variable {s z : Scanner} {ts us : List Token} {last : Token}

theorem config_eq (h : Emits s ts z) : z.config = s.config := by
  induction h with
  | nothing => rfl
  | token hnext _ ih => rw [ih, config_of_next hnext]

/-- The tokens tell how many parentheses are open. -/
theorem depth_eq (h : Emits s ts z) : z.depth = depthBehind s.depth (kindsOf ts) := by
  induction h with
  | nothing => rfl
  | token hnext _ ih =>
    rw [ih, depth_of_next hnext]
    rfl

theorem depth_le (h : Emits s ts z) (hs : s.depth ≤ s.config.nestLimit) :
    z.depth ≤ s.config.nestLimit := by
  induction h with
  | nothing => exact hs
  | token hnext _ ih =>
    rw [config_of_next hnext] at ih
    exact ih (depth_le_of_next hnext hs)

theorem within {text : String} (h : Emits s ts z) (hs : s.Within text) : z.Within text := by
  induction h with
  | nothing => exact hs
  | @token s s' _ t _ hnext _ ih =>
    have hs' := hs.next
    rw [hnext] at hs'
    exact ih hs'

/-- A counter of 32 bits never overflows, not even in the call that exceeds the limit, if either the
limit or the length of the text leaves room for it. -/
theorem depth_next_lt {config : Config} {text : String} (h : Emits (.ofText config text) ts z)
    (hroom : config.nestLimit < 2 ^ 32 - 1 ∨ text.utf8ByteSize < 2 ^ 32) :
    z.next.2.depth < 2 ^ 32 := by
  rcases hroom with hlimit | hsize
  · have hdepth : z.depth ≤ config.nestLimit := h.depth_le (Nat.zero_le _)
    have hnext := z.depth_next_le
    omega
  · have hwithin := (h.within (within_ofText config text)).next
    exact Nat.lt_of_le_of_lt (Nat.le_trans hwithin.depth_le hwithin.place.offset_le) hsize

/-- What a scan returns begins with any tokens that calls return, ends of the text left out. -/
theorem scan_eq (h : Emits s ts z) :
    s.scan = (ts.filter (·.terminal ≠ .eof) ++ z.scan.1, z.scan.2) := by
  induction h with
  | nothing => rfl
  | @token s s' _ t _ hnext _ ih =>
    by_cases ht : t.terminal = .eof
    · have hstay : s' = s := by
        rw [next_of_rest_nil (rest_of_eof hnext ht)] at hnext
        exact (Prod.mk.inj hnext).2.symm
      rw [← hstay, ih]
      simp [ht]
    · rw [scan_further hnext ht, ih]
      simp [ht]

theorem exists_of_scan {part : List Token} (h : s.scan = (part ++ us, .ok last)) :
    ∃ z, Emits s part z := by
  induction part generalizing s with
  | nil => exact ⟨s, .nothing s⟩
  | cons t part ih =>
    obtain ⟨_, s', hnext, ⟨-, hnil, -⟩ | ⟨-, _, hcons, hs'⟩⟩ := next_of_scan h
    · simp at hnil
    · obtain ⟨rfl, rfl⟩ := List.cons.inj hcons
      obtain ⟨z, hz⟩ := ih hs'
      exact ⟨z, .token hnext hz⟩

end Emits

end Scanner

/-! ## Parentheses in a tree -/

/-- The largest number of parentheses that are open anywhere among some tokens, of which `depth` are
open before them. -/
def peak (depth : Nat) : List Terminal → Nat
  | [] => depth
  | k :: ks => max depth (peak (k.depthAfter depth) ks)

section
variable {depth : Nat} {ks ls : List Terminal}

/-- The end of a text closes and opens nothing. -/
theorem depthBehind_filter_eof (depth : Nat) (ts : List Token) :
    depthBehind depth (kindsOf (ts.filter (·.terminal ≠ .eof))) =
      depthBehind depth (kindsOf ts) := by
  induction ts generalizing depth with
  | nil => rfl
  | cons t ts ih =>
    by_cases ht : t.terminal = .eof
    · rw [List.filter_cons_of_neg (by simp [ht]), ih]
      simp [kindsOf, ht, Terminal.depthAfter]
    · rw [List.filter_cons_of_pos (by simp [ht])]
      exact ih _

theorem le_peak (depth : Nat) (ks : List Terminal) : depth ≤ peak depth ks := by
  cases ks with
  | nil => exact Nat.le_refl _
  | cons k ks => exact Nat.le_max_left _ _

theorem peak_append (depth : Nat) (ks ls : List Terminal) :
    peak depth (ks ++ ls) = max (peak depth ks) (peak (depthBehind depth ks) ls) := by
  induction ks generalizing depth with
  | nil =>
    have := le_peak depth ls
    simp only [List.nil_append, peak, depthBehind_nil]
    omega
  | cons k ks ih => simp only [List.cons_append, peak, ih, depthBehind_cons, Nat.max_assoc]

theorem depthBehind_le_peak (depth : Nat) (ks ls : List Terminal) :
    depthBehind depth ks ≤ peak depth (ks ++ ls) := by
  have := le_peak (depthBehind depth ks) ls
  rw [peak_append]
  omega

/-- The peak is reached somewhere. -/
theorem exists_peak (depth : Nat) (ks : List Terminal) :
    ∃ part, part <+: ks ∧ depthBehind depth part = peak depth ks := by
  induction ks generalizing depth with
  | nil => exact ⟨[], List.nil_prefix, rfl⟩
  | cons k ks ih =>
    rcases Nat.le_total (peak (k.depthAfter depth) ks) depth with hle | hle
    · exact ⟨[], List.nil_prefix, (Nat.max_eq_left hle).symm⟩
    · obtain ⟨part, hpart, hpeak⟩ := ih (k.depthAfter depth)
      exact ⟨k :: part, List.cons_prefix_cons.mpr ⟨rfl, hpart⟩,
        hpeak.trans (Nat.max_eq_right hle).symm⟩

end

namespace Tree

/-- How many groups lie within each other. -/
def nesting : {s : Symbol} → Tree s → Nat
  | _, .pattern whole => whole.nesting
  | _, .firstAlternative c => c.nesting
  | _, .nextAlternative l _ r => max l.nesting r.nesting
  | _, .firstConjunct n => n.nesting
  | _, .nextConjunct l _ r => max l.nesting r.nesting
  | _, .plain s => s.nesting
  | _, .negated _ s => s.nesting
  | _, .emptySequence => 0
  | _, .nextItem s i => max s.nesting i.nesting
  | _, .once a => a.nesting
  | _, .counted a _ => a.nesting
  | _, .single _ _ => 0
  | _, .group _ inner _ => inner.nesting + 1

theorem Single.depthAfter (k : Single) (depth : Nat) : k.terminal.depthAfter depth = depth := by
  cases k <;> rfl

/-- The parentheses of a tree close all that they open, and open as many as groups are nested. -/
theorem depthBehind_kinds {s : Symbol} (tree : Tree s) (depth : Nat) :
    depthBehind depth tree.kinds = depth ∧ peak depth tree.kinds = depth + tree.nesting := by
  induction tree generalizing depth with
  | pattern _ ih | firstAlternative _ ih | firstConjunct _ ih | plain _ ih | once _ ih =>
    exact ih depth
  | nextAlternative l _ r ihl ihr | nextConjunct l _ r ihl ihr =>
    simp [peak_append, peak, Terminal.depthAfter, ihl, ihr, nesting]
  | negated _ s ih =>
    simp [peak, Terminal.depthAfter, ih, nesting]
  | emptySequence => exact ⟨rfl, rfl⟩
  | nextItem s i ihs ihi =>
    simp [peak_append, ihs, ihi, nesting]
  | counted a _ ih => simp [peak_append, peak, Terminal.depthAfter, ih, nesting]
  | single k _ => simp [peak, Single.depthAfter, nesting]
  | group _ inner _ ih =>
    have hinner := ih (depth + 1)
    simp only [kinds_group, depthBehind_cons, depthBehind_append, depthBehind_nil, peak,
      peak_append, Terminal.depthAfter, hinner, nesting]
    omega

end Tree

/-- The scanner's count of open parentheses, behind the tokens of a text and the end. -/
theorem depth_of_parse {config : Config} {text : String} {a : Automaton}
    (h : compile config text = .ok a) :
    (parse Scanner.source config.sizeLimit (.ofText config text)).2.depth = 0 := by
  have tracks : Scanner.source.Tracks fun ts t s =>
      s.depth = depthBehind 0 (kindsOf (ts ++ [t])) := by
    constructor
    · intro ts t s u s' hs _ hnext
      rw [Scanner.depth_of_next hnext, hs]
      simp [kindsOf]
    · intro a ts t s hs
      exact hs
  have hfirst : ∀ t s', Scanner.source.next (.ofText config text) = (.ok t, s') →
      s'.depth = depthBehind 0 (kindsOf ([] ++ [t])) :=
    fun t s' hnext => Scanner.depth_of_next hnext
  obtain ⟨tree, last, hlast, hdepth⟩ := parse_sound tracks hfirst h
  rw [hdepth, kindsOf, List.map_append, depthBehind_append]
  have hkinds : depthBehind 0 (tree.tokens.map (·.terminal)) = 0 := (tree.depthBehind_kinds 0).1
  simp [hkinds, hlast, Terminal.depthAfter]

namespace Tree.ReadFrom
variable {config : Config} {text : String} {tree : Tree .pattern}

/-- No more parentheses are open anywhere in a text than groups are nested in its tree. -/
theorem depth_le (h : tree.ReadFrom config text) {ts : List Token} {s : Scanner}
    (hs : Scanner.Emits (.ofText config text) ts s) : s.depth ≤ tree.nesting := by
  obtain ⟨last, hscan⟩ := h
  have hsplit := (Prod.mk.inj (hscan.symm.trans hs.scan_eq)).1
  have hkinds : tree.kinds = kindsOf (ts.filter (·.terminal ≠ .eof)) ++ kindsOf s.scan.1 := by
    rw [kinds, hsplit, List.map_append, kindsOf, kindsOf]
  rw [hs.depth_eq, ← depthBehind_filter_eof]
  calc depthBehind 0 (kindsOf (ts.filter (·.terminal ≠ .eof)))
    _ ≤ peak 0 tree.kinds := by
      rw [hkinds]
      exact depthBehind_le_peak 0 _ _
    _ = tree.nesting := by rw [(tree.depthBehind_kinds 0).2, Nat.zero_add]

/-- Somewhere as many parentheses are open as groups are nested. -/
theorem exists_depth (h : tree.ReadFrom config text) :
    ∃ ts s, Scanner.Emits (.ofText config text) ts s ∧ s.depth = tree.nesting := by
  obtain ⟨last, hscan⟩ := h
  obtain ⟨part, ⟨rest, hkinds⟩, hpeak⟩ := exists_peak 0 tree.kinds
  obtain ⟨ts, us, htokens, rfl, -⟩ := List.map_eq_append_iff.mp hkinds.symm
  rw [htokens] at hscan
  obtain ⟨s, hs⟩ := Scanner.Emits.exists_of_scan hscan
  refine ⟨ts, s, hs, ?_⟩
  rw [hs.depth_eq]
  exact hpeak.trans ((tree.depthBehind_kinds 0).2.trans (Nat.zero_add _))

end Tree.ReadFrom

/-- As long as no call fails, the scanner counts the parentheses of the tokens that it has returned,
and it fails for the limit of nesting exactly where one more parenthesis opens than may be open. No
parenthesis is open behind a text that compiles. On the way through it as many are open at most as
groups lie within each other in its derivation tree, and so these keep to the limit. -/
theorem nesting_law (config : Config) (text : String) :
    (∀ ts s, Scanner.Emits (.ofText config text) ts s →
      s.depth = depthBehind 0 (kindsOf ts) ∧ s.depth ≤ config.nestLimit ∧
      (∀ t s', s.next = (.ok t, s') → (t.terminal = .openParen ↔ s.taken = ['(']) ∧
        (t.terminal = .closeParen ↔ s.taken = [')'])) ∧
      ∀ offset limit, s.next.1 = .error ⟨offset, .nestLimitExceeded limit⟩ ↔
        s.cursor.rest.head? = some '(' ∧ config.nestLimit < depthBehind 0 (kindsOf ts) + 1 ∧
          offset = s.cursor.offset ∧ limit = config.nestLimit) ∧
    ∀ a, compile config text = .ok a →
      (parse Scanner.source config.sizeLimit (.ofText config text)).2.depth = 0 ∧
      ∃ tree : Tree .pattern, tree.ReadFrom config text ∧
        (∀ other : Tree .pattern, other.ReadFrom config text → other = tree) ∧
        tree.nesting ≤ config.nestLimit ∧
        (∀ ts s, Scanner.Emits (.ofText config text) ts s → s.depth ≤ tree.nesting) ∧
        ∃ ts s, Scanner.Emits (.ofText config text) ts s ∧ s.depth = tree.nesting := by
  constructor
  · intro ts s hs
    have hconfig : s.config = config := hs.config_eq
    refine ⟨hs.depth_eq, ?_, ?_, ?_⟩
    · exact hs.depth_le (Nat.zero_le _)
    · intro t s' hnext
      exact ⟨Scanner.terminal_eq_sign_iff rfl hnext, Scanner.terminal_eq_sign_iff rfl hnext⟩
    · intro offset limit
      have hdepth : s.depth = depthBehind 0 (kindsOf ts) := hs.depth_eq
      rw [Scanner.nestLimitExceeded_iff, hconfig, hdepth]
  · intro a ha
    obtain ⟨tree, htree⟩ := exists_readFrom ha
    obtain ⟨ts, s, hs, hdepth⟩ := htree.exists_depth
    refine ⟨depth_of_parse ha, tree, htree, ?_, ?_, fun _ _ => htree.depth_le, ts, s, hs, hdepth⟩
    · rintro other ⟨last, hother⟩
      obtain ⟨last', hscan⟩ := htree
      exact Tree.eq_of_tokens (Prod.mk.inj (hother.symm.trans hscan)).1
    · rw [← hdepth]
      exact hs.depth_le (Nat.zero_le _)

/-- The tree of a group within a group. -/
def nestedTree : Tree .pattern :=
  let letter (c : Char) (offset : Nat) : Tree .item :=
    .once (.single .letters ⟨⟨.letters, some (.ofChars [c]), offset⟩, rfl⟩)
  let group (first last : Nat) (inner : Tree .sequence) : Tree .item :=
    .once (.group ⟨⟨.openParen, none, first⟩, rfl⟩
      (.firstAlternative (.firstConjunct (.plain inner))) ⟨⟨.closeParen, none, last⟩, rfl⟩)
  .pattern <| .firstAlternative <| .firstConjunct <| .plain <| .nextItem .emptySequence <|
    group 0 5 (.nextItem (.nextItem .emptySequence
      (group 1 3 (.nextItem .emptySequence (letter 'a' 2)))) (letter 'b' 4))

/-- Two groups keep to a limit of two. A parenthesis that closes nothing and one behind a backslash
make no difference to the next text, where a third parenthesis is refused. -/
theorem nesting_law_two :
    let config : Config := { nestLimit := 2 }
    (nestedTree.ReadFrom config "((a)b)" ∧ nestedTree.nesting = 2 ∧
      (parse Scanner.source config.sizeLimit (.ofText config "((a)b)")).2.depth = 0) ∧
    ∃ ts s, Scanner.Emits (.ofText config ")(\\(((") ts s ∧
      kindsOf ts = [.closeParen, .openParen, .letters, .openParen] ∧ s.depth = 2 ∧
      s.next.1 = .error ⟨5, .nestLimitExceeded 2⟩ := by
  intro config
  have htree : nestedTree.ReadFrom config "((a)b)" := ⟨⟨.eof, none, 6⟩, by decide +kernel⟩
  have hok : (compile config "((a)b)").isOk = true := by
    rw [htree.compile_eq]
    decide +kernel
  constructor
  · cases ha : compile config "((a)b)" with
    | error err => simp [ha, Except.isOk, Except.toBool] at hok
    | ok a => exact ⟨htree, rfl, ((nesting_law config "((a)b)").2 a ha).1⟩
  · have hemits := Scanner.Emits.token (s := .ofText config ")(\\(((") rfl <|
      .token rfl <| .token rfl <| .token rfl <| .nothing _
    obtain ⟨hdepth, -, -, hexceeded⟩ := (nesting_law config ")(\\(((").1 _ _ hemits
    exact ⟨_, _, hemits, rfl, hdepth, (hexceeded 5 2).mpr ⟨rfl, by decide, rfl, rfl⟩⟩

end PatternAutomata
