import PatternAutomata.Proofs.Parser.Playing
import PatternAutomata.Proofs.Scanner.Locality

/-!
# Scanning a text

A scan reads a text to its end, or to its first failure. Wherever a text that is scanned to its end
stands in another one, its tokens are among those of the other text.
-/
namespace PatternAutomata.Scanner

/-- The tokens before the end of the text or the first failure, and that end or failure. -/
def scan (s : Scanner) : List Token × Except LexError Token :=
  match _h : s.next with
  | (.error e, _) => ([], .error e)
  | (.ok t, s') =>
    if _ht : t.terminal = .eof then ([], .ok t)
    else
      let further := s'.scan
      (t :: further.1, further.2)
termination_by s.cursor.rest.length
decreasing_by
  have := rest_next_lt s t (congrArg Prod.fst _h) _ht
  rwa [_h] at this

/-- The tokens of a text, up to its end or its first failure. -/
def tokens (config : Config) (text : String) : List Token := (ofText config text).scan.1

variable {config : Config} {s s' z : Scanner} {t last last' : Token} {ts us : List Token}
  {more : List Char} {n : Nat}

theorem scan_failed {err : LexError} (h : s.next = (.error err, s')) :
    s.scan = ([], .error err) := by
  rw [scan]
  split
  · next h' => rw [Except.error.inj (Prod.mk.inj (h'.symm.trans h)).1]
  · next h' => simp [h] at h'

theorem scan_last (h : s.next = (.ok t, s')) (ht : t.terminal = .eof) : s.scan = ([], .ok t) := by
  rw [scan]
  split
  · next h' => simp [h] at h'
  · next h' =>
    obtain ⟨ht', -⟩ := Prod.mk.inj (h.symm.trans h')
    obtain rfl := Except.ok.inj ht'
    exact dif_pos ht

theorem scan_further (h : s.next = (.ok t, s')) (ht : t.terminal ≠ .eof) :
    s.scan = (t :: s'.scan.1, s'.scan.2) := by
  rw [scan]
  split
  · next h' => simp [h] at h'
  · next h' =>
    obtain ⟨ht', rfl⟩ := Prod.mk.inj (h.symm.trans h')
    obtain rfl := Except.ok.inj ht'
    exact dif_neg ht

theorem config_of_next {result : Except LexError Token} (h : s.next = (result, s')) :
    s'.config = s.config := by
  have := config_next s
  rwa [h] at this

/-- A scan to the end begins with the end, or with another token and goes on from there. -/
theorem next_of_scan (h : s.scan = (ts, .ok last)) : ∃ t s', s.next = (.ok t, s') ∧
    (t.terminal = .eof ∧ ts = [] ∧ last = t ∨
      t.terminal ≠ .eof ∧ ∃ us, ts = t :: us ∧ s'.scan = (us, .ok last)) := by
  rcases hnext : s.next with ⟨e | t, s'⟩
  · rw [scan_failed hnext] at h
    simp at h
  · refine ⟨t, s', rfl, ?_⟩
    by_cases ht : t.terminal = .eof
    · rw [scan_last hnext ht] at h
      obtain ⟨rfl, hlast⟩ := Prod.mk.inj h
      exact .inl ⟨ht, rfl, (Except.ok.inj hlast).symm⟩
    · rw [scan_further hnext ht] at h
      obtain ⟨rfl, hlast⟩ := Prod.mk.inj h
      exact .inr ⟨ht, _, rfl, Prod.ext rfl hlast⟩

theorem exists_scan (h : s.scan.2.isOk = true) : ∃ ts last, s.scan = (ts, .ok last) := by
  rcases hs : s.scan with ⟨ts, _ | last⟩
  · simp [hs, Except.isOk, Except.toBool] at h
  · exact ⟨ts, last, rfl⟩

theorem eof_of_scan (h : s.scan = (ts, .ok last)) : last.terminal = .eof := by
  induction ts generalizing s with
  | nil =>
    obtain ⟨t, s', -, ⟨ht, -, rfl⟩ | ⟨-, us, hnil, -⟩⟩ := next_of_scan h
    · exact ht
    · simp at hnil
  | cons t ts ih =>
    obtain ⟨_, s', -, ⟨-, hnil, -⟩ | ⟨-, us, hcons, hs'⟩⟩ := next_of_scan h
    · simp at hnil
    · obtain ⟨-, rfl⟩ := List.cons.inj hcons
      exact ih hs'

/-- Every token of a text has a term that suits its kind. -/
theorem lexical_scan (s : Scanner) : ∀ t ∈ s.scan.1, t.Lexical := by
  fun_induction scan s with
  | case1 => simp
  | case2 => simp
  | case3 s t s' h ht _ ih =>
    intro u hu
    rcases List.mem_cons.mp hu with rfl | hu
    · exact lexical_next (congrArg Prod.fst h)
    · exact ih u hu

/-- What no token depends on, the scan does not depend on. -/
theorem scan_of_next {f : Scanner → Scanner} (hf : ∀ s, (f s).next = (s.next.1, f s.next.2))
    (s : Scanner) : (f s).scan = s.scan := by
  fun_induction scan s with
  | case1 s e s' h =>
    have h' := hf s
    rw [h] at h'
    exact scan_failed h'
  | case2 s t s' h ht =>
    have h' := hf s
    rw [h] at h'
    exact scan_last h' ht
  | case3 s t s' h ht _ ih =>
    have h' := hf s
    rw [h] at h'
    rw [scan_further h' ht, ih]

theorem scan_withAtoms (s : Scanner) (atoms : Nat) : scan { s with atoms := atoms } = s.scan :=
  scan_of_next (f := fun s => { s with atoms := atoms }) (next_withAtoms · atoms) s

theorem scan_withSizeLimit (s : Scanner) (limit : Nat) :
    scan { s with config := { s.config with sizeLimit := limit } } = s.scan :=
  scan_of_next (f := fun s => { s with config := { s.config with sizeLimit := limit } })
    (next_withSizeLimit · limit) s

/-- Nothing but the end of the text is read as its end. -/
theorem rest_of_eof (h : s.next = (.ok t, s')) (ht : t.terminal = .eof) : s.cursor.rest = [] := by
  have other {x : Except LexError Token} {s₁ : Scanner} (h : (x, s₁) = (.ok t, s'))
      (hx : ∀ t, x = .ok t → t.terminal ≠ .eof) : s.cursor.rest = [] :=
    absurd ht (hx t (Prod.mk.inj h).1)
  revert h
  fun_cases next s <;> intro h
  case case1 hr => exact hr
  case case14 | case15 | case16 | case17 =>
    refine other h fun t ht => ?_
    obtain ⟨_, -, rfl⟩ := of_map_eq_ok ht
    simp
  all_goals exact other h (by simp)

/-! ## Scanning in another text -/

/-- The kinds of tokens that are a single character and mean nothing by themselves. -/
def sign? : Char → Option Terminal
  | '|' => some .pipe
  | '&' => some .amp
  | '!' => some .bang
  | '(' => some .openParen
  | ')' => some .closeParen
  | _ => none

theorem next_sign {c : Char} {terminal : Terminal} {rest : List Char}
    (hc : sign? c = some terminal) (hr : s.cursor.rest = c :: rest) (h : s.next = (.ok t, s')) :
    t.terminal = terminal ∧ terminal ≠ .eof ∧ s'.cursor.rest = rest := by
  unfold sign? at hc
  split at hc
  case h_4 =>
    rw [next_openParen hr] at h
    split at h
    · cases h
    · cases h
      cases hc
      simp [Cursor.past]
  case h_6 => cases hc
  all_goals
    simp only [next, hr] at h
    cases h
    cases hc
    simp [Cursor.past]

section
variable (hz : z.scan = (us, .ok last'))
include hz

/-- A text that is scanned to its end is scanned in the same way within another text. What follows
it there is scanned after it. -/
theorem scan_elsewhere (hs : s.scan = (ts, .ok last)) (hconfig : z.config = s.config)
    (hcursor : z.cursor = s.cursor.moved n more) :
    ∃ (y : Scanner) (vs : List Token), us = ts.map (·.moved n) ++ vs ∧ y.scan = (vs, .ok last') ∧
      y.config = s.config ∧ y.cursor.rest = more := by
  induction ts generalizing s z us with
  | nil =>
    obtain ⟨t, s', hnext, ⟨ht, -, -⟩ | ⟨-, us, hnil, -⟩⟩ := next_of_scan hs
    · refine ⟨z, us, rfl, hz, hconfig, ?_⟩
      rw [hcursor, Cursor.moved, rest_of_eof hnext ht, List.nil_append]
    · simp at hnil
  | cons t ts ih =>
    obtain ⟨_, s', hnext, ⟨-, hnil, -⟩ | ⟨ht, _, hcons, hs'⟩⟩ := next_of_scan hs
    · simp at hnil
    · obtain ⟨rfl, rfl⟩ := List.cons.inj hcons
      obtain ⟨u, z', hnext', hu⟩ := next_of_scan hz
      obtain ⟨rfl, hcursor'⟩ := next_elsewhere hconfig hcursor hnext (.inr ht) hnext'
      obtain ⟨heof, -⟩ | ⟨-, us, rfl, hz'⟩ := hu
      · exact absurd heof ht
      · have hconfig' : z'.config = s'.config :=
          (config_of_next hnext').trans (hconfig.trans (config_of_next hnext).symm)
        obtain ⟨y, vs, rfl, hy, hyconfig, hyrest⟩ := ih hz' hs' hconfig' hcursor'
        exact ⟨y, vs, rfl, hy, hyconfig.trans (config_of_next hnext), hyrest⟩

/-- A sign is read as the token that it is. -/
theorem scan_sign {c : Char} {terminal : Terminal} {rest : List Char}
    (hc : sign? c = some terminal) (hr : z.cursor.rest = c :: rest) :
    ∃ (u : Leaf terminal) (y : Scanner) (vs : List Token), us = u.1 :: vs ∧
      y.scan = (vs, .ok last') ∧ y.config = z.config ∧ y.cursor.rest = rest := by
  obtain ⟨u, y, hnext, hu⟩ := next_of_scan hz
  obtain ⟨hterminal, hne, hrest⟩ := next_sign hc hr hnext
  obtain ⟨heof, -⟩ | ⟨-, vs, rfl, hy⟩ := hu
  · exact absurd (hterminal.symm.trans heof) hne
  · exact ⟨⟨u, hterminal⟩, y, vs, rfl, hy, config_of_next hnext, hrest⟩

/-- A text in parentheses is scanned as it is by itself, between the parentheses. -/
theorem scan_group {p : String} {rest : List Char} (hp : (ofText config p).scan = (ts, .ok last))
    (hconfig : z.config = config) (hr : z.cursor.rest = '(' :: (p.toList ++ ')' :: rest)) :
    ∃ (n : Nat) (opening : Leaf .openParen) (closing : Leaf .closeParen) (y : Scanner)
      (vs : List Token), us = opening.1 :: (ts.map (·.moved n) ++ closing.1 :: vs) ∧
        y.scan = (vs, .ok last') ∧ y.config = config ∧ y.cursor.rest = rest := by
  obtain ⟨opening, x, vs, rfl, hx, hxconfig, hxrest⟩ := scan_sign hz rfl hr
  have hcursor : x.cursor = (ofText config p).cursor.moved x.cursor.offset (')' :: rest) := by
    simp [Cursor.moved, ofText, ← hxrest]
  obtain ⟨y, vs, rfl, hy, hyconfig, hyrest⟩ :=
    scan_elsewhere hx hp (hxconfig.trans hconfig) hcursor
  obtain ⟨closing, z', ws, rfl, hz', hzconfig, hzrest⟩ := scan_sign hy rfl hyrest
  exact ⟨_, opening, closing, z', ws, rfl, hz', hzconfig.trans hyconfig, hzrest⟩

/-- Where the text is at its end there are no tokens. -/
theorem scan_end (hr : z.cursor.rest = []) : us = [] := by
  obtain ⟨u, y, hnext, ⟨-, rfl, -⟩ | ⟨hne, -⟩⟩ := next_of_scan hz
  · rfl
  · obtain ⟨hu, -⟩ := Prod.mk.inj ((next_of_rest_nil hr).symm.trans hnext)
    rw [← Except.ok.inj hu] at hne
    exact absurd rfl hne

end

end PatternAutomata.Scanner
