import PatternAutomata.Proofs.Scanner.Tokens

/-!
# The pieces of a text

A scan cuts a text into pieces, one for each token. A token means the same however it is written,
so what depends on the way in which a pattern is written is said of its pieces.
-/
namespace PatternAutomata.Scanner

/-- The tokens before the end of the text or the first failure, each with the characters that it is
read from. -/
def pieces (s : Scanner) : List (Token × List Char) :=
  match _h : s.next with
  | (.error _, _) => []
  | (.ok t, s') =>
    if _ht : t.terminal = .eof then []
    else (t, s.cursor.rest.take (s.cursor.rest.length - s'.cursor.rest.length)) :: s'.pieces
termination_by s.cursor.rest.length
decreasing_by
  have := rest_next_lt s t (congrArg Prod.fst _h) _ht
  rwa [_h] at this

variable {s s' : Scanner} {t : Token} {piece : List Char}

theorem pieces_last (h : s.next = (.ok t, s')) (ht : t.terminal = .eof) : s.pieces = [] := by
  rw [pieces]
  split
  · rfl
  · next h' =>
    obtain ⟨ht', -⟩ := Prod.mk.inj (h.symm.trans h')
    obtain rfl := Except.ok.inj ht'
    exact dif_pos ht

theorem pieces_further (h : s.next = (.ok t, s')) (ht : t.terminal ≠ .eof)
    (hreach : s.cursor.Reaches piece s'.cursor) : s.pieces = (t, piece) :: s'.pieces := by
  rw [pieces]
  split
  · next h' => simp [h] at h'
  · next h' =>
    obtain ⟨ht', rfl⟩ := Prod.mk.inj (h.symm.trans h')
    obtain rfl := Except.ok.inj ht'
    rw [dif_neg ht, hreach.take_eq]

/-- Every token but the end of the text is read from some characters of it. -/
theorem exists_piece (h : s.next = (.ok t, s')) (ht : t.terminal ≠ .eof) :
    ∃ piece, s.cursor.Reaches piece s'.cursor ∧ piece ≠ [] := by
  obtain ⟨piece, hreach, -⟩ := s.reaches_next
  have hlt := rest_next_lt s t (congrArg Prod.fst h) ht
  rw [h] at hreach hlt
  refine ⟨piece, hreach, ?_⟩
  rintro rfl
  rw [hreach.1] at hlt
  exact Nat.lt_irrefl _ hlt

/-- The tokens of a scan are those that its pieces are read as. -/
theorem map_fst_pieces (s : Scanner) : s.pieces.map Prod.fst = s.scan.1 := by
  fun_induction scan s with
  | case1 s e s' h =>
    rw [pieces]
    split
    · rfl
    · next h' => simp [h] at h'
  | case2 s t s' h ht => rw [pieces_last h ht, List.map_nil]
  | case3 s t s' h ht _ ih =>
    obtain ⟨piece, hreach, -⟩ := exists_piece h ht
    rw [pieces_further h ht hreach, List.map_cons, ih]

/-- Every token of a scan is read by a scanner under the same options that stands before its piece.
-/
theorem exists_next_of_mem_pieces (h : (t, piece) ∈ s.pieces) :
    ∃ z z' : Scanner, z.config = s.config ∧ z.next = (.ok t, z') ∧ z.cursor.Reaches piece z'.cursor ∧
      piece ≠ [] := by
  fun_induction scan s with
  | case1 s e s' hnext =>
    rw [pieces] at h
    split at h
    · simp at h
    · next h' => simp [hnext] at h'
  | case2 s t' s' hnext ht => simp [pieces_last hnext ht] at h
  | case3 s t' s' hnext ht _ ih =>
    obtain ⟨piece', hreach, hne⟩ := exists_piece hnext ht
    rw [pieces_further hnext ht hreach, List.mem_cons] at h
    rcases h with h | h
    · obtain ⟨rfl, rfl⟩ := Prod.mk.inj h
      exact ⟨s, s', rfl, hnext, hreach, hne⟩
    · obtain ⟨z, z', hconfig, hz⟩ := ih h
      exact ⟨z, z', hconfig.trans (config_of_next hnext), hz⟩

end PatternAutomata.Scanner
