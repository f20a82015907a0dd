import PatternAutomata.Automaton.Repetition

/-!
# Meanings in context

What a part of a pattern says of a piece of a text depends on where the piece stands: an anchor
matches at the start or at the end of the text only. A meaning therefore takes two flags with the
piece. Meanings of larger parts come from those of smaller ones: where a piece is split, only the
first part that is not empty keeps the start of the text, and only the last one keeps its end.
-/
namespace PatternAutomata

theorem isEmpty_append {α : Type} (u v : List α) :
    (u ++ v).isEmpty = (u.isEmpty && v.isEmpty) := by
  cases u <;> rfl

/-- Whether a piece of a text is matched. The flags say whether the piece stands at the start and at
the end of the text. -/
abbrev Meaning := Bool → List UInt8 → Bool → Prop

namespace Meaning
variable {p q r : Meaning}

/-- Matches no piece. -/
def nothing : Meaning := fun _ _ _ => False

/-- Matches the empty piece. -/
def empty : Meaning := fun _ w _ => w = []

/-- Matches the empty piece at one end of the text. -/
def anchor : Anchor → Meaning
  | .textStart => fun b w _ => w = [] ∧ b = true
  | .textEnd => fun _ w e => w = [] ∧ e = true

/-- Matches the given byte strings, wherever they stand. -/
def strings (s : List UInt8 → Prop) : Meaning := fun _ w _ => s w

/-- Matches what one of two meanings matches. -/
def either (p q : Meaning) : Meaning := fun b w e => p b w e ∨ q b w e

/-- Matches a piece of `p` followed by a piece of `q`. -/
def seq (p q : Meaning) : Meaning := fun b w e =>
  ∃ u v, w = u ++ v ∧ p b u (e && v.isEmpty) ∧ q (b && u.isEmpty) v e

/-- Matches `k` pieces of `p` in a row. -/
def power (p : Meaning) : Nat → Meaning
  | 0 => empty
  | k + 1 => (p.power k).seq p

/-- Matches any number of pieces of `p` in a row. -/
def star (p : Meaning) : Meaning := fun b w e => ∃ k, p.power k b w e

/-- Whether `k` pieces are enough and not too many. When `most` is too small, `least` prevails. -/
def inBounds (least : Nat) (most : Bound) (k : Nat) : Prop :=
  least ≤ k ∧ match most with
    | .finite n => k ≤ max n least
    | .infinity => True

/-- Matches at least `least` and at most `most` pieces of `p` in a row. -/
def repeated (p : Meaning) (least : Nat) (most : Bound) : Meaning := fun b w e =>
  ∃ k, inBounds least most k ∧ p.power k b w e

/-- Whether a whole text is matched. -/
def whole (p : Meaning) (w : List UInt8) : Prop := p true w true

theorem ext (h : ∀ b w e, p b w e ↔ q b w e) : p = q := by
  funext b w e
  exact propext (h b w e)

@[simp] theorem empty_seq (p : Meaning) : empty.seq p = p := by
  apply ext
  intro b w e
  constructor
  · rintro ⟨u, v, rfl, rfl, h⟩
    simpa using h
  · intro h
    exact ⟨[], w, rfl, rfl, by simpa using h⟩

@[simp] theorem seq_empty (p : Meaning) : p.seq empty = p := by
  apply ext
  intro b w e
  constructor
  · rintro ⟨u, v, rfl, h, rfl⟩
    simpa using h
  · intro h
    exact ⟨w, [], by simp, by simpa using h, rfl⟩

@[simp] theorem seq_nothing (p : Meaning) : p.seq nothing = nothing := by
  apply ext
  intro b w e
  constructor
  · rintro ⟨_, _, _, _, h⟩
    exact h
  · exact False.elim

theorem seq_assoc (p q r : Meaning) : (p.seq q).seq r = p.seq (q.seq r) := by
  have atEnd (e : Bool) (t v : List UInt8) :
      (e && v.isEmpty && t.isEmpty) = (e && (t ++ v).isEmpty) := by
    rw [isEmpty_append]
    ac_rfl
  have atStart (b : Bool) (u t : List UInt8) :
      (b && (u ++ t).isEmpty) = (b && u.isEmpty && t.isEmpty) := by
    rw [isEmpty_append]
    ac_rfl
  apply ext
  intro b w e
  constructor
  · rintro ⟨_, v, rfl, ⟨u, t, rfl, hp, hq⟩, hr⟩
    rw [atEnd] at hp
    rw [atStart] at hr
    exact ⟨u, t ++ v, by simp, hp, t, v, rfl, hq, hr⟩
  · rintro ⟨u, _, rfl, hp, t, v, rfl, hq, hr⟩
    rw [← atEnd] at hp
    rw [← atStart] at hr
    exact ⟨u ++ t, v, by simp, ⟨u, t, rfl, hp, hq⟩, hr⟩

@[simp] theorem power_one (p : Meaning) : p.power 1 = p := empty_seq p

theorem power_add (p : Meaning) (m n : Nat) : p.power (m + n) = (p.power m).seq (p.power n) := by
  induction n with
  | zero => exact (seq_empty _).symm
  | succ n ih =>
    change (p.power (m + n)).seq p = (p.power m).seq ((p.power n).seq p)
    rw [ih, seq_assoc]

/-- A row of pieces each of which may be missing is a row of fewer pieces. -/
theorem power_either_empty (p : Meaning) (n : Nat) :
    (p.either empty).power n = fun b w e => ∃ k ≤ n, p.power k b w e := by
  induction n with
  | zero =>
    apply ext
    intro b w e
    simp [power]
  | succ n ih =>
    change ((p.either empty).power n).seq (p.either empty) = _
    rw [ih]
    apply ext
    intro b w e
    constructor
    · rintro ⟨u, v, rfl, ⟨k, hk, hu⟩, hv | rfl⟩
      · exact ⟨k + 1, by omega, u, v, rfl, hu, hv⟩
      · exact ⟨k, by omega, by simpa using hu⟩
    · rintro ⟨k, hk, h⟩
      by_cases hkn : k ≤ n
      · exact ⟨w, [], by simp, ⟨k, hkn, by simpa using h⟩, .inr rfl⟩
      · obtain rfl : k = n + 1 := by omega
        obtain ⟨u, v, rfl, hu, hv⟩ := h
        exact ⟨u, v, rfl, ⟨n, Nat.le_refl n, hu⟩, .inl hv⟩

theorem star_eq (p : Meaning) : p.star = empty.either (p.seq p.star) := by
  apply ext
  intro b w e
  constructor
  · rintro ⟨_ | k, h⟩
    · exact .inl h
    · rw [Nat.add_comm, power_add, power_one] at h
      obtain ⟨u, v, rfl, hu, hv⟩ := h
      exact .inr ⟨u, v, rfl, hu, k, hv⟩
  · rintro (h | ⟨u, v, rfl, hu, k, hv⟩)
    · exact ⟨0, h⟩
    · refine ⟨1 + k, ?_⟩
      rw [power_add, power_one]
      exact ⟨u, v, rfl, hu, hv⟩

/-- At least `m` pieces are `m` pieces and any number of further ones. -/
theorem power_seq_star (p : Meaning) (m : Nat) :
    (p.power m).seq p.star = p.repeated m .infinity := by
  apply ext
  intro b w e
  constructor
  · rintro ⟨u, v, rfl, hu, k, hv⟩
    refine ⟨m + k, ⟨Nat.le_add_right m k, trivial⟩, ?_⟩
    rw [power_add]
    exact ⟨u, v, rfl, hu, hv⟩
  · rintro ⟨k, ⟨hk, -⟩, h⟩
    obtain ⟨j, rfl⟩ := Nat.exists_eq_add_of_le hk
    rw [power_add] at h
    obtain ⟨u, v, rfl, hu, hv⟩ := h
    exact ⟨u, v, rfl, hu, j, hv⟩

/-- Between `m` and `n` pieces are `m` pieces and `n - m` others that may be missing. -/
theorem power_seq_optional (p : Meaning) (m n : Nat) :
    (p.power m).seq ((p.either empty).power (n - m)) = p.repeated m (.finite n) := by
  rw [power_either_empty]
  apply ext
  intro b w e
  constructor
  · rintro ⟨u, v, rfl, hu, k, hk, hv⟩
    refine ⟨m + k, ⟨Nat.le_add_right m k, by simp only; omega⟩, ?_⟩
    rw [power_add]
    exact ⟨u, v, rfl, hu, hv⟩
  · rintro ⟨k, ⟨hm, hn⟩, h⟩
    obtain ⟨j, rfl⟩ := Nat.exists_eq_add_of_le hm
    rw [power_add] at h
    obtain ⟨u, v, rfl, hu, hv⟩ := h
    exact ⟨u, v, rfl, hu, j, by simp only at hn; omega, hv⟩

/-! ## Rows of pieces -/

/-- Whether every piece of a row is matched where it stands: the pieces before it have to be empty
for it to keep the start of the text, and the pieces after it for it to keep the end. -/
def Row (p : Meaning) (b : Bool) (pieces : List (List UInt8)) (e : Bool) : Prop :=
  ∀ before u after, pieces = before ++ u :: after →
    p (b && before.all List.isEmpty) u (e && after.all List.isEmpty)

theorem and_all_isEmpty_snoc (e : Bool) (pieces : List (List UInt8)) (v : List UInt8) :
    (e && (pieces ++ [v]).all List.isEmpty) = (e && v.isEmpty && pieces.all List.isEmpty) := by
  rw [List.all_append, Bool.and_comm (pieces.all _)]
  simp [Bool.and_assoc]

theorem row_nil (p : Meaning) (b e : Bool) : p.Row b [] e := by
  intro before u after h
  simp at h

theorem row_snoc {b e : Bool} {pieces : List (List UInt8)} {v : List UInt8} :
    p.Row b (pieces ++ [v]) e ↔
      p.Row b pieces (e && v.isEmpty) ∧ p (b && pieces.all List.isEmpty) v e := by
  constructor
  · intro h
    refine ⟨fun before u after hpieces => ?_, by simpa using h pieces v [] rfl⟩
    have hu := h before u (after ++ [v]) (by simp [hpieces])
    rwa [and_all_isEmpty_snoc] at hu
  · intro h before u after hpieces
    -- The last piece is the piece asked for, or it stands behind it.
    cases List.eq_nil_or_concat after with
    | inl hnil =>
      subst hnil
      obtain ⟨rfl, hv⟩ := List.append_inj' hpieces rfl
      obtain rfl : v = u := by simpa using hv
      simpa using h.2
    | inr hlast =>
      obtain ⟨front, last, rfl⟩ := hlast
      rw [List.concat_eq_append, ← List.cons_append, ← List.append_assoc] at hpieces
      obtain ⟨hfront, hv⟩ := List.append_inj' hpieces rfl
      obtain rfl : v = last := by simpa using hv
      have hu := h.1 before u front hfront
      rwa [List.concat_eq_append, and_all_isEmpty_snoc]

theorem isEmpty_flatten (pieces : List (List UInt8)) :
    pieces.flatten.isEmpty = pieces.all List.isEmpty := by
  induction pieces with
  | nil => rfl
  | cons u pieces ih => rw [List.flatten_cons, isEmpty_append, ih, List.all_cons]

/-- Pieces in a row, seen all at once. -/
theorem power_iff_row {k : Nat} {b e : Bool} {w : List UInt8} :
    p.power k b w e ↔ ∃ pieces, pieces.length = k ∧ w = pieces.flatten ∧ p.Row b pieces e := by
  induction k generalizing w e with
  | zero =>
    constructor
    · intro h
      exact ⟨[], rfl, h, row_nil p b e⟩
    · rintro ⟨pieces, hlength, rfl, -⟩
      rw [List.length_eq_zero_iff.mp hlength]
      rfl
  | succ k ih =>
    constructor
    · rintro ⟨u, v, rfl, hu, hv⟩
      obtain ⟨pieces, hlength, rfl, hrow⟩ := ih.mp hu
      rw [isEmpty_flatten] at hv
      exact ⟨pieces ++ [v], by simp [hlength], by simp, row_snoc.mpr ⟨hrow, hv⟩⟩
    · rintro ⟨pieces, hlength, rfl, hrow⟩
      obtain ⟨front, v, rfl⟩ : ∃ front v, pieces = front ++ [v] :=
        ⟨_, _, (List.dropLast_concat_getLast (List.ne_nil_of_length_eq_add_one hlength)).symm⟩
      obtain ⟨hfront, hv⟩ := row_snoc.mp hrow
      rw [← isEmpty_flatten] at hv
      exact ⟨front.flatten, v, by simp,
        ih.mpr ⟨front, by simpa using hlength, rfl, hfront⟩, hv⟩

theorem star_iff_row {b e : Bool} {w : List UInt8} :
    p.star b w e ↔ ∃ pieces, w = pieces.flatten ∧ p.Row b pieces e := by
  simp only [star, power_iff_row]
  exact ⟨fun ⟨_, pieces, _, h⟩ => ⟨pieces, h⟩, fun ⟨pieces, h⟩ => ⟨_, pieces, rfl, h⟩⟩

end Meaning

end PatternAutomata
