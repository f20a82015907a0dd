import PatternAutomata.Pattern.Error

/-!
# Cursors

A place in a text: the characters that follow it and the number of UTF-8 bytes before it. Reading
moves a cursor forward, whether it succeeds or not.
-/
namespace PatternAutomata

/-- The number of bytes in the UTF-8 form of a text. -/
def utf8Length : List Char → Nat
  | [] => 0
  | c :: cs => c.utf8Size + utf8Length cs

@[simp] theorem utf8Length_nil : utf8Length [] = 0 := rfl

@[simp] theorem utf8Length_cons (c : Char) (cs : List Char) :
    utf8Length (c :: cs) = c.utf8Size + utf8Length cs := rfl

@[simp] theorem utf8Length_append (s t : List Char) :
    utf8Length (s ++ t) = utf8Length s + utf8Length t := by
  induction s with
  | nil => exact (Nat.zero_add _).symm
  | cons c s ih => rw [List.cons_append, utf8Length_cons, utf8Length_cons, ih, Nat.add_assoc]

/-- A place in a text. -/
structure Cursor where
  /-- The characters that follow. -/
  rest : List Char
  /-- The number of bytes before the place. -/
  offset : Nat
deriving DecidableEq, Repr

/-- What came of reading, and the place where it stopped. -/
abbrev Read (α : Type) := Except LexError α × Cursor

namespace Cursor

/-- The place after `c`, which comes next. -/
def past (cur : Cursor) (c : Char) (rest : List Char) : Cursor := ⟨rest, cur.offset + c.utf8Size⟩

/-- `d` lies `taken` behind `c` in the same text. -/
def Reaches (c : Cursor) (taken : List Char) (d : Cursor) : Prop :=
  c.rest = taken ++ d.rest ∧ d.offset = c.offset + utf8Length taken

theorem Reaches.refl (c : Cursor) : c.Reaches [] c := ⟨rfl, rfl⟩

theorem Reaches.trans {c d e : Cursor} {s t : List Char} (h : c.Reaches s d) (h' : d.Reaches t e) :
    c.Reaches (s ++ t) e := by
  constructor
  · rw [h.1, h'.1, List.append_assoc]
  · rw [h'.2, h.2, utf8Length_append, Nat.add_assoc]

theorem reaches_past {cur : Cursor} {c : Char} {rest : List Char} (h : cur.rest = c :: rest) :
    cur.Reaches [c] (cur.past c rest) := ⟨h, by simp [past]⟩

/-- The first character that is read, and the way on from behind it. -/
theorem Reaches.of_cons {c e : Cursor} {x : Char} {s : List Char} (h : c.Reaches (x :: s) e) :
    c.rest = x :: (s ++ e.rest) ∧ (c.past x (s ++ e.rest)).Reaches s e := by
  refine ⟨h.1, rfl, ?_⟩
  rw [h.2, utf8Length_cons, past, Nat.add_assoc]

theorem Reaches.of_singleton {c e : Cursor} {x : Char} (h : c.Reaches [x] e) :
    c.rest = x :: e.rest ∧ c.past x e.rest = e := by
  refine ⟨h.1, ?_⟩
  obtain ⟨rest, offset⟩ := e
  simpa [past] using h.2.symm

/-- A way has a place between any two parts of it. -/
theorem Reaches.of_append {c e : Cursor} {s t : List Char} (h : c.Reaches (s ++ t) e) :
    ∃ d, c.Reaches s d ∧ d.Reaches t e := by
  refine ⟨⟨t ++ e.rest, c.offset + utf8Length s⟩, ⟨?_, rfl⟩, rfl, ?_⟩
  · rw [h.1, List.append_assoc]
  · rw [h.2, utf8Length_append, Nat.add_assoc]

theorem Reaches.length {c d : Cursor} {taken : List Char} (h : c.Reaches taken d) :
    d.rest.length + taken.length = c.rest.length := by
  rw [h.1, List.length_append, Nat.add_comm]

theorem Reaches.take_eq {c d : Cursor} {taken : List Char} (h : c.Reaches taken d) :
    c.rest.take (c.rest.length - d.rest.length) = taken := by
  rw [h.1]
  exact List.take_left' (by rw [List.length_append]; omega)

end Cursor

end PatternAutomata
