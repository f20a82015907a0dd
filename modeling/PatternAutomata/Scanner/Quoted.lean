import PatternAutomata.Scanner.Escape

/-!
# Quoted texts

Everything between two quotation marks stands for itself, escapes of single characters excepted.
-/
namespace PatternAutomata

/-- The text up to the closing quotation mark, behind what is read of it so far, the latest first.
-/
def readQuoted (origin : Nat) (text : List Char) (cur : Cursor) : Read (List Char) :=
  match _hr : cur.rest with
  | [] => (.error ⟨origin, .unterminatedString⟩, cur)
  | '"' :: rest => (.ok text.reverse, cur.past '"' rest)
  | '\\' :: rest =>
    match _he : readEscape cur.offset (cur.past '\\' rest) with
    | (.error err, after) => (.error err, after)
    | (.ok (.shorthand _ _), after) =>
      (.error ⟨cur.offset, .invalidEscape (rest.headD '\\')⟩, after)
    | (.ok (.char c), after) => readQuoted origin (c :: text) after
  | c :: rest => readQuoted origin (c :: text) (cur.past c rest)
termination_by cur.rest.length
decreasing_by
  · obtain ⟨taken, h⟩ := reaches_readEscape cur.offset (cur.past '\\' rest)
    have hl := h.length
    rw [_he] at hl
    simp only [Cursor.past, _hr, List.length_cons] at hl ⊢
    omega
  · simp [Cursor.past, _hr]

theorem reaches_readQuoted (origin : Nat) (text : List Char) (cur : Cursor) :
    ∃ taken, cur.Reaches taken (readQuoted origin text cur).2 := by
  fun_induction readQuoted origin text cur with
  | case1 => exact ⟨_, .refl _⟩
  | case2 text cur rest hr => exact ⟨_, Cursor.reaches_past hr⟩
  | case3 text cur rest hr err after he =>
    obtain ⟨taken, h⟩ := reaches_readEscape cur.offset (cur.past '\\' rest)
    rw [he] at h
    exact ⟨_, (Cursor.reaches_past hr).trans h⟩
  | case4 text cur rest hr members negated after he =>
    obtain ⟨taken, h⟩ := reaches_readEscape cur.offset (cur.past '\\' rest)
    rw [he] at h
    exact ⟨_, (Cursor.reaches_past hr).trans h⟩
  | case5 text cur rest hr c after he ih =>
    obtain ⟨taken, h⟩ := reaches_readEscape cur.offset (cur.past '\\' rest)
    rw [he] at h
    obtain ⟨taken', h'⟩ := ih
    exact ⟨_, ((Cursor.reaches_past hr).trans h).trans h'⟩
  | case6 text cur c rest _ _ hr ih =>
    obtain ⟨taken, h⟩ := ih
    exact ⟨_, (Cursor.reaches_past hr).trans h⟩

end PatternAutomata
