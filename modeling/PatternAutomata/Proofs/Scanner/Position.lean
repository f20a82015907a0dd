import Mathlib.Algebra.Group.Nat.Defs
import PatternAutomata.Proofs.Scanner

/-!
# Where the scanner stands

A text can be cut at a byte offset only between two characters. Whatever the scanner has read, and
also where it failed to, it stands at such a place, and so does every place that it can come to from
there. A parenthesis takes a byte, so there are not more of them than bytes.
-/
namespace PatternAutomata

/-! ## Parts of a text -/

/-- The part of a text between two byte offsets. There is none when one of them lies within a
character or past the end, or when they are out of order. -/
def part? (text : String) (i j : Nat) : Option String := do
  let start ← text.pos? ⟨i⟩
  let stop ← text.pos? ⟨j⟩
  return (← text.slice? start stop).copy

theorem pos?_eq {text s t : String} (h : text = s ++ t) :
    text.pos? ⟨s.utf8ByteSize⟩ = some (String.Pos.ofEqAppend h) := by
  have hvalid : String.Pos.Raw.isValidForSlice text.toSlice s.rawEndPos = true := by
    refine String.Pos.Raw.isValidForSlice_eq_true_iff.mpr (String.Pos.Raw.IsValid.toSlice ?_)
    exact String.Pos.Raw.isValid_iff_exists_append.mpr ⟨s, t, h, rfl⟩
  have hslice : text.toSlice.pos? s.rawEndPos = some (text.toSlice.pos s.rawEndPos _) :=
    dif_pos hvalid
  refine (congrArg (Option.map String.Pos.ofToSlice) hslice).trans (congrArg some ?_)
  apply String.Pos.ext
  simp [String.Pos.ofEqAppend]

theorem part?_append (s m t : String) :
    part? (s ++ m ++ t) s.utf8ByteSize (s ++ m).utf8ByteSize = some m := by
  have hstart : s ++ m ++ t = s ++ (m ++ t) := String.append_assoc
  obtain ⟨hle, hcopy⟩ := String.copy_slice_eq_iff_splits.mpr
    ⟨s, t, String.Pos.splits_ofEqAppend hstart, String.Pos.splits_ofEqAppend rfl⟩
  rw [part?, pos?_eq hstart, pos?_eq rfl]
  simp only [Option.bind_eq_bind, Option.bind_some, String.slice?, dif_pos hle, hcopy]
  rfl

example : part? "é(" 0 2 = some "é" ∧ part? "é(" 1 2 = none ∧ part? "é(" 2 4 = none := by
  decide +kernel

theorem utf8ByteSize_ofList (s : List Char) : (String.ofList s).utf8ByteSize = utf8Length s := by
  induction s with
  | nil => rfl
  | cons c s ih =>
    rw [String.ofList_cons, String.utf8ByteSize_append, String.utf8ByteSize_singleton, ih,
      utf8Length_cons]

namespace Cursor
variable {text : String} {c d e : Cursor} {s₁ s₂ : List Char}

/-- Whether a cursor is a place of the text. -/
def In (text : String) (c : Cursor) : Prop := ∃ before, Reaches ⟨text.toList, 0⟩ before c

theorem In.reaches (h : c.In text) (hd : c.Reaches s₁ d) : d.In text := by
  obtain ⟨before, h⟩ := h
  exact ⟨_, h.trans hd⟩

theorem In.text_eq (h : c.In text) :
    ∃ before, text = String.ofList before ++ String.ofList c.rest ∧
      c.offset = (String.ofList before).utf8ByteSize := by
  obtain ⟨before, hrest, hoffset⟩ := h
  refine ⟨before, ?_, ?_⟩
  · rw [← String.ofList_append, ← hrest, String.ofList_toList]
  · rw [utf8ByteSize_ofList, hoffset, Nat.zero_add]

theorem In.offset_le (h : c.In text) : c.offset ≤ text.utf8ByteSize := by
  obtain ⟨before, rfl, hoffset⟩ := h.text_eq
  rw [hoffset, String.utf8ByteSize_append]
  exact Nat.le_add_right _ _

/-- Between a place of the text and one that is reached from it lies what is read on the way. -/
theorem In.part?_eq (h : c.In text) (hd : c.Reaches s₁ d) :
    part? text c.offset d.offset = some (String.ofList s₁) := by
  obtain ⟨before, rfl, hoffset⟩ := h.text_eq
  have hend : d.offset = (String.ofList before ++ String.ofList s₁).utf8ByteSize := by
    rw [hd.2, hoffset, String.utf8ByteSize_append, utf8ByteSize_ofList s₁]
  rw [hd.1, String.ofList_append, ← String.append_assoc, hoffset, hend]
  exact part?_append _ _ _

end Cursor

theorem length_le_utf8Length (s : List Char) : s.length ≤ utf8Length s := by
  induction s with
  | nil => exact Nat.le_refl 0
  | cons c s ih =>
    have := c.utf8Size_pos
    rw [List.length_cons, utf8Length_cons]
    omega

namespace Scanner
variable {text : String} {s : Scanner}

/-- Whether a scanner stands at a place of the text, with no more parentheses open than bytes read.
-/
structure Within (text : String) (s : Scanner) : Prop where
  place : s.cursor.In text
  depth_le : s.depth ≤ s.cursor.offset

theorem within_ofText (config : Config) (text : String) : (ofText config text).Within text where
  place := ⟨[], .refl _⟩
  depth_le := Nat.zero_le _

/-- A token opens one parenthesis at most. -/
theorem depth_next_le (s : Scanner) : s.next.2.depth ≤ s.depth + 1 := by
  unfold next
  dsimp only
  split
  · exact Nat.le_succ _
  · split
    case h_4 => split <;> exact Nat.le_refl _
    case h_5 => exact Nat.le_trans (Nat.sub_le _ _) (Nat.le_succ _)
    all_goals exact Nat.le_succ _

/-- Asking for a token leads to another place of the text, also where it fails. -/
theorem Within.next (h : s.Within text) : s.next.2.Within text := by
  obtain ⟨taken, hreach, hne⟩ := s.reaches_next
  refine ⟨h.place.reaches hreach, ?_⟩
  -- at the end nothing moves, and anywhere else a byte at least is read
  by_cases hrest : s.cursor.rest = []
  · rw [next_of_rest_nil hrest]
    exact h.depth_le
  · have hpos := List.length_pos_iff.mpr (hne hrest)
    have hlength := length_le_utf8Length taken
    have hdepth := s.depth_next_le
    have := h.depth_le
    rw [hreach.2]
    omega

/-- The scanner after some tokens were asked for, whether they could be read or not. -/
def skip (s : Scanner) : Nat → Scanner
  | 0 => s
  | n + 1 => (s.skip n).next.2

theorem Within.skip (h : s.Within text) (n : Nat) : (s.skip n).Within text := by
  induction n with
  | zero => exact h
  | succ n ih => exact ih.next

/-- Whether a scanner can look for a token in the text: from each place ahead, the text can be cut
up to each place behind that, and the open parentheses can be counted. -/
structure Secure (text : String) (s : Scanner) : Prop where
  cuts : ∀ s₁ d s₂ e, s.cursor.Reaches s₁ d → d.Reaches s₂ e →
    part? text d.offset e.offset = some (String.ofList s₂)
  depth_lt : s.depth < 2 ^ 31

theorem Within.secure (h : s.Within text) (hsize : text.utf8ByteSize < 2 ^ 31) :
    s.Secure text where
  cuts _ _ _ _ hd he := (h.place.reaches hd).part?_eq he
  depth_lt := Nat.lt_of_le_of_lt (Nat.le_trans h.depth_le h.place.offset_le) hsize

end Scanner

end PatternAutomata
