import PatternAutomata.Pattern.Error
import PatternAutomata.Term

/-!
# Tokens and their sources

The grammar pulls tokens one at a time from a source, asks it for the encoding in force, and tells
it of every completed atom. A source runs dry: it has a measure that goes down with every token but
the end of the pattern.
-/
namespace PatternAutomata

/-- A token: its kind, its meaning if it has one, and the byte offset where it starts. -/
structure Token where
  terminal : Terminal
  term : Option Term
  offset : Nat
deriving DecidableEq

/-- What tokens are pulled from, as operations on a state. -/
structure TokenSource (σ : Type) where
  /-- Pull the next token. -/
  next : σ → Except LexError Token × σ
  /-- The encoding in force. -/
  encoding : σ → Encoding
  /-- Take note of a completed atom, a group or a repetition, and possibly replace its automaton. -/
  onAtom : Automaton → σ → Automaton × σ
  /-- How much is left. -/
  remaining : σ → Nat
  next_le : ∀ s, remaining (next s).2 ≤ remaining s
  next_lt : ∀ s t, (next s).1 = .ok t → t.terminal ≠ .eof → remaining (next s).2 < remaining s
  onAtom_le : ∀ a s, remaining (onAtom a s).2 ≤ remaining s

/-- What a script hands out at one pull, after switching the encoding if it names one. -/
structure ScriptEntry where
  result : Except LexError Token
  encoding : Option Encoding := none

/-- A list of tokens to play back. -/
structure Script where
  entries : List ScriptEntry
  /-- The encoding in force. -/
  encoding : Encoding := .utf8
  /-- The offset of the end of the pattern. -/
  endOffset : Nat := entries.length
  /-- How many tokens have been pulled, ends of the pattern included. -/
  pulled : Nat := 0
  /-- The sizes of the completed atoms, the latest first. -/
  atomSizes : List Nat := []

namespace Script

/-- Hand out the next entry; the end of the pattern for ever after the last. -/
def next (s : Script) : Except LexError Token × Script :=
  match s.entries with
  | [] => (.ok ⟨.eof, none, s.endOffset⟩, { s with pulled := s.pulled + 1 })
  | entry :: entries =>
    (entry.result,
      { s with
        entries := entries
        encoding := entry.encoding.getD s.encoding
        pulled := s.pulled + 1 })

/-- A script as a source. It records the size of each atom and replaces it as `replace` says. -/
def source (replace : Automaton → Automaton) : TokenSource Script where
  next := next
  encoding := Script.encoding
  onAtom a s := (replace a, { s with atomSizes := a.size :: s.atomSizes })
  remaining s := s.entries.length
  next_le s := by
    unfold next
    split <;> simp_all
  next_lt s t h ht := by
    unfold next at h ⊢
    split
    · next hs =>
      rw [hs] at h
      obtain rfl := Except.ok.inj h
      exact absurd rfl ht
    · next hs => simp [hs]
  onAtom_le _ _ := Nat.le_refl _

end Script

end PatternAutomata
