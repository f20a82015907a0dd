import PatternAutomata.Compile
import PatternAutomata.Proofs.Parser.Soundness
import PatternAutomata.Proofs.Scanner.Tokens

/-!
# Compiling a text

A text that compiles is scanned to its end, and its tokens are the leaves of a derivation tree. The
other way round, a text whose tokens are the leaves of a tree compiles to an automaton for what the
tree matches, and nothing but the limit of states can stand in the way.
-/
namespace PatternAutomata

namespace Scanner
variable {e : Encoding} {ts us : List Token} {t last : Token} {s s' s₀ : Scanner}

/-- What is read from `s₀` begins with `ts` and `t`, and `s` stands behind them. -/
def Reaches (s₀ : Scanner) (ts : List Token) (t : Token) (s : Scanner) : Prop :=
  s₀.scan = if t.terminal = .eof then (ts, .ok t) else (ts ++ t :: s.scan.1, s.scan.2)

theorem reaches_of_next (h : s₀.next = (.ok t, s)) : s₀.Reaches [] t s := by
  unfold Reaches
  split
  · next ht => exact scan_last h ht
  · next ht => exact scan_further h ht

theorem tracks (s₀ : Scanner) : source.Tracks s₀.Reaches where
  next ts t s u s' h ht hnext := by
    rw [Reaches, if_neg ht] at h
    have hu := reaches_of_next hnext
    unfold Reaches at hu ⊢
    rw [h, hu]
    split <;> simp
  onAtom a ts t s h := by
    rw [Reaches, ← scan_withAtoms s (s.atoms + 1)] at h
    exact h

/-- What is left to be read is `ts`, the end of the text included. -/
def Holds (s : Scanner) (ts : List Token) : Prop :=
  ts = [] ∨ ∃ us last, ts = us ++ [last] ∧ s.scan = (us, .ok last)

/-- The scanner plays the tokens of its text. -/
theorem plays (e : Encoding) : source.Plays e (fun a (_ : Unit) => (a, ()))
    (fun s ts _ => s.config.encoding = e ∧ s.Holds ts) where
  encoding s ts _ hs := hs.1
  next s t ts _ hs := by
    obtain ⟨hencoding, hnil | ⟨us, last, hcons, hscan⟩⟩ := hs
    · simp at hnil
    · obtain ⟨u, s', hnext, hu⟩ := next_of_scan hscan
      have hencoding' : s'.config.encoding = e := by rw [config_of_next hnext, hencoding]
      obtain ⟨-, rfl, rfl⟩ | ⟨-, us, rfl, hscan'⟩ := hu
      · obtain ⟨rfl, rfl⟩ := List.cons.inj hcons
        exact ⟨s', hnext, hencoding', .inl rfl⟩
      · obtain ⟨rfl, rfl⟩ := List.cons.inj hcons
        exact ⟨s', hnext, hencoding', .inr ⟨us, last, rfl, hscan'⟩⟩
  onAtom a s ts _ hs := by
    obtain ⟨hencoding, hnil | ⟨us, last, hts, hscan⟩⟩ := hs
    · exact ⟨rfl, hencoding, .inl hnil⟩
    · exact ⟨rfl, hencoding, .inr ⟨us, last, hts, (scan_withAtoms s _).trans hscan⟩⟩

end Scanner

variable {config : Config} {text : String} {tree : Tree .pattern} {a : Automaton}

/-- Whether the leaves of the tree are the tokens of a text. -/
def Tree.ReadFrom (tree : Tree .pattern) (config : Config) (text : String) : Prop :=
  ∃ last, (Scanner.ofText config text).scan = (tree.tokens, .ok last)

theorem exists_readFrom (h : compile config text = .ok a) :
    ∃ tree : Tree .pattern, tree.ReadFrom config text := by
  obtain ⟨tree, last, hlast, hreaches⟩ :=
    parse_sound (Scanner.tracks _) (fun _ _ => Scanner.reaches_of_next) h
  rw [Scanner.Reaches, if_pos hlast] at hreaches
  exact ⟨tree, last, hreaches⟩

/-- A text that is scanned to its end has a tree if the kinds of its tokens have one. -/
theorem exists_readFrom_of_kinds (tree : Tree .pattern)
    (hkinds : kindsOf (Scanner.tokens config text) = tree.kinds)
    (hend : (Scanner.ofText config text).scan.2.isOk = true) :
    ∃ tree : Tree .pattern, tree.ReadFrom config text := by
  obtain ⟨tree, htokens⟩ := tree.exists_of_kinds hkinds
  obtain ⟨ts, last, hscan⟩ := Scanner.exists_scan hend
  rw [Scanner.tokens, hscan] at htokens
  exact ⟨tree, last, by rw [hscan, htokens]⟩

namespace Tree.ReadFrom

theorem lexical (h : tree.ReadFrom config text) : ∀ t ∈ tree.tokens, t.Lexical := by
  obtain ⟨last, hscan⟩ := h
  have := Scanner.lexical_scan (.ofText config text)
  rwa [hscan] at this

/-- What a text compiles to is what the parser makes of its tree. -/
theorem compile_eq (h : tree.ReadFrom config text) : compile config text =
    ((tree.result config.sizeLimit config.encoding fun a (_ : Unit) => (a, ())).run ()).1 := by
  obtain ⟨last, hscan⟩ := h
  exact ((Scanner.plays config.encoding).parse_eq tree (Scanner.eof_of_scan hscan)
    (h := ()) ⟨rfl, .inr ⟨_, last, rfl, hscan⟩⟩ config.sizeLimit).1

theorem withSizeLimit (h : tree.ReadFrom config text) (limit : Nat) :
    tree.ReadFrom { config with sizeLimit := limit } text := by
  obtain ⟨last, hscan⟩ := h
  exact ⟨last, (Scanner.scan_withSizeLimit (.ofText config text) limit).trans hscan⟩

/-- What a text compiles to under any limit of states. -/
theorem exists_denotes (h : tree.ReadFrom config text) : ∃ n, ∀ limit,
    match compile { config with sizeLimit := limit } text with
    | .ok a => a.Denotes (tree.meaning config.encoding) n
    | .error err => err = .tooLarge limit ∧ limit < n := by
  have hhook : Hook.Harmless (fun a (_ : Unit) => (a, ())) fun _ => True :=
    ⟨fun _ _ _ => trivial, fun _ _ _ _ _ ha => ha⟩
  obtain ⟨n, hyields⟩ := tree.exists_yields_result hhook config.encoding h.lexical
  refine ⟨n, fun limit => ?_⟩
  have houtcome := (hyields limit () trivial).2
  rw [(h.withSizeLimit limit).compile_eq]
  split <;> next hresult => rwa [hresult] at houtcome

/-- An automaton of the text matches what the tree matches. -/
theorem denotes (h : tree.ReadFrom config text) (ha : compile config text = .ok a) :
    ∃ n, a.Denotes (tree.meaning config.encoding) n := by
  obtain ⟨n, hn⟩ := h.exists_denotes
  have hdenotes := hn config.sizeLimit
  rw [ha] at hdenotes
  exact ⟨n, hdenotes⟩

theorem wellFormed (h : tree.ReadFrom config text) (ha : compile config text = .ok a) :
    a.WellFormed := by
  obtain ⟨n, hn⟩ := h.denotes ha
  exact hn.wellFormed

/-- An automaton of the text accepts what the tree matches. -/
theorem accepts_iff (h : tree.ReadFrom config text) (ha : compile config text = .ok a)
    (w : List UInt8) : a.accepts w = true ↔ (tree.meaning config.encoding).whole w := by
  obtain ⟨n, hn⟩ := h.denotes ha
  rw [Automaton.accepts_iff, hn.meaning_eq]

/-- A limit that is large enough lets the text compile. -/
theorem exists_compile (h : tree.ReadFrom config text) :
    ∃ n, ∀ limit, n ≤ limit → ∃ a, compile { config with sizeLimit := limit } text = .ok a := by
  obtain ⟨n, hn⟩ := h.exists_denotes
  refine ⟨n, fun limit hle => ?_⟩
  have hresult := hn limit
  split at hresult
  · next a ha => exact ⟨a, ha⟩
  · exact absurd hresult.2 (Nat.not_lt.mpr hle)

end Tree.ReadFrom

/-- A limit that is large enough lets several texts compile. -/
theorem exists_compile_all {texts : List String}
    (h : ∀ text ∈ texts, ∃ tree : Tree .pattern, tree.ReadFrom config text) : ∃ n, ∀ limit,
      n ≤ limit → ∀ text ∈ texts, ∃ a, compile { config with sizeLimit := limit } text = .ok a := by
  induction texts with
  | nil => exact ⟨0, by simp⟩
  | cons text texts ih =>
    rw [List.forall_mem_cons] at h
    obtain ⟨⟨tree, htree⟩, h⟩ := h
    obtain ⟨m, hm⟩ := htree.exists_compile
    obtain ⟨n, hn⟩ := ih h
    refine ⟨max m n, fun limit hle => List.forall_mem_cons.mpr ⟨?_, ?_⟩⟩
    · exact hm limit (le_trans (Nat.le_max_left m n) hle)
    · exact hn limit (le_trans (Nat.le_max_right m n) hle)

end PatternAutomata
