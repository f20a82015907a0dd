import PatternAutomata.Proofs.Automaton.Shape

/-!
# Transitions that represent a row

Transitions represent a row when they give every byte its target and no other one. The runs of a row
do so with the fewest transitions, since each run needs one of its own. However they are chosen,
transitions that represent a row are read back as this row.
-/
namespace PatternAutomata

/-- The transitions give every byte its target in the row, and no other one. -/
def Represents (transitions : List Transition) (row : List Nat) : Prop :=
  ∀ c j, (∃ t ∈ transitions, t.label.reads c = true ∧ t.target = j) ↔ row[c.toNat]? = some j

/-- The transitions do so for the bytes from number `first` on. -/
def RepresentsFrom (first : Nat) (transitions : List Transition) (row : List Nat) : Prop :=
  ∀ c j, first ≤ c.toNat →
    ((∃ t ∈ transitions, t.label.reads c = true ∧ t.target = j) ↔ row[c.toNat]? = some j)

/-! ## As few as there are runs -/

/-- What a label reads has no gaps. -/
theorem Label.reads_of_between {l : Label} {c₁ c c₂ : UInt8} (h₁ : l.reads c₁ = true)
    (h₂ : l.reads c₂ = true) (hle₁ : c₁ ≤ c) (hle₂ : c ≤ c₂) : l.reads c = true := by
  cases l with
  | anchor m => simp at h₁
  | bytes lo hi =>
    rw [reads_bytes] at h₁ h₂ ⊢
    exact ⟨UInt8.le_trans h₁.1 hle₁, UInt8.le_trans hle₂ h₂.2⟩

theorem head?_expandRuns {α : Type} {rs : List (α × Nat)} (hpos : ∀ r ∈ rs, 0 < r.2) :
    (expandRuns rs).head? = rs.head?.map (·.1) := by
  cases rs with
  | nil => rfl
  | cons r rs =>
    obtain ⟨m, hm⟩ := Nat.exists_eq_succ_of_ne_zero (Nat.ne_of_gt (hpos r List.mem_cons_self))
    rw [expandRuns_cons, hm, List.replicate_succ]
    rfl

/-- Where a run begins, the row has what the run repeats. -/
theorem getElem?_of_drop_eq {α : Type} {row : List α} {first : Nat} {rs : List (α × Nat)}
    (hdrop : row.drop first = expandRuns rs) (hpos : ∀ r ∈ rs, 0 < r.2) :
    row[first]? = rs.head?.map (·.1) := by
  rw [← List.head?_drop, hdrop, head?_expandRuns hpos]

namespace RepresentsFrom
variable {first k : Nat} {row : List Nat} {ts : List Transition} {t : Transition} {c₁ c₂ : UInt8}

/-- All bytes from one that a transition reads to another one have its target. -/
theorem getElem?_of_between (hts : RepresentsFrom first ts row) (ht : t ∈ ts)
    (h₁ : t.label.reads c₁ = true) (h₂ : t.label.reads c₂ = true) (hfirst : first ≤ k)
    (hk₁ : c₁.toNat ≤ k) (hk₂ : k ≤ c₂.toNat) : row[k]? = some t.target := by
  have hk : (UInt8.ofNat k).toNat = k :=
    UInt8.toNat_ofNat_of_lt' (Nat.lt_of_le_of_lt hk₂ c₂.toNat_lt)
  have hreads : t.label.reads (UInt8.ofNat k) = true := by
    apply Label.reads_of_between h₁ h₂ <;> rw [UInt8.le_iff_toNat_le, hk]
    · exact hk₁
    · exact hk₂
  rw [← hk]
  exact (hts _ _ (hk.symm ▸ hfirst)).mp ⟨t, ht, hreads, rfl⟩

/-- Where the target changes, a transition has come to its end. -/
theorem reads_eq_false (hts : RepresentsFrom first ts row) (ht : t ∈ ts)
    (h₁ : t.label.reads c₁ = true) (hfirst : first ≤ k) (hk₁ : c₁.toNat ≤ k)
    (hk : row[k]? ≠ some t.target) (hk₂ : k ≤ c₂.toNat) : t.label.reads c₂ = false := by
  rw [← Bool.not_eq_true]
  exact fun h₂ => hk (hts.getElem?_of_between ht h₁ h₂ hfirst hk₁ hk₂)

/-- Behind what a transition reads, the others represent the row without it. -/
theorem erase {next : Nat} (hts : RepresentsFrom first ts row) (hle : first ≤ next)
    (ht : ∀ c : UInt8, next ≤ c.toNat → t.label.reads c = false) :
    RepresentsFrom next (ts.erase t) row := by
  intro c j hc
  rw [← hts c j (Nat.le_trans hle hc)]
  constructor
  · rintro ⟨t', ht', h⟩
    exact ⟨t', List.mem_of_mem_erase ht', h⟩
  · rintro ⟨t', ht', hreads, hj⟩
    have hne : t' ≠ t := by
      rintro rfl
      rw [ht c hc] at hreads
      exact Bool.false_ne_true hreads
    exact ⟨t', (List.mem_erase_of_ne hne).mpr ht', hreads, hj⟩

/-- Every run needs a transition of its own. One that reads the first byte of a run does not read
the first byte of the next run, since that has another target. -/
theorem length_le {rs : List (Nat × Nat)} (hts : RepresentsFrom first ts row)
    (hrow : row.length = byteCount) (hdrop : row.drop first = expandRuns rs)
    (hpos : ∀ r ∈ rs, 0 < r.2) (hchain : rs.IsChain fun r r' => r.1 ≠ r'.1) :
    rs.length ≤ ts.length := by
  induction rs generalizing first ts with
  | nil => exact Nat.zero_le _
  | cons r rs ih =>
    obtain ⟨x, n⟩ := r
    have hrest : ∀ r ∈ rs, 0 < r.2 := fun r hr => hpos r (List.mem_cons_of_mem _ hr)
    have hdrop' : row.drop (first + n) = expandRuns rs := by
      rw [← List.drop_drop, hdrop, expandRuns_cons, List.drop_left' (List.length_replicate ..)]
    have hx : row[first]? = some x := getElem?_of_drop_eq hdrop hpos
    have hnext : row[first + n]? ≠ some x := by
      rw [getElem?_of_drop_eq hdrop' hrest]
      cases rs with
      | nil => simp
      | cons r rs => simpa using Ne.symm (List.isChain_cons_cons.mp hchain).1
    have hfirst : (UInt8.ofNat first).toNat = first :=
      UInt8.toNat_ofNat_of_lt' (Nat.lt_of_lt_of_eq (List.getElem?_eq_some_iff.mp hx).1 hrow)
    obtain ⟨t, ht, hreads, rfl⟩ :=
      (hts (UInt8.ofNat first) x (Nat.le_of_eq hfirst.symm)).mpr (by rw [hfirst, hx])
    -- what reads the first byte of this run is of no use behind it
    have hless : rs.length ≤ (ts.erase t).length := by
      have hle := Nat.le_add_right first n
      refine ih (hts.erase hle fun c hc => ?_) hdrop' hrest hchain.tail
      exact hts.reads_eq_false ht hreads hle (hfirst.symm ▸ hle) hnext hc
    rw [List.length_erase_of_mem ht] at hless
    have := List.length_pos_of_mem ht
    rw [List.length_cons]
    omega

end RepresentsFrom

theorem length_rowTransitions (row : List Nat) :
    (rowTransitions row).length = (runsOf row).length := by
  rw [← List.length_map (·.target), rowTransitions, map_target_transitionsFrom, List.length_map]

theorem represents_rowTransitions {row : List Nat} (h : row.length = byteCount) :
    Represents (rowTransitions row) row := fun _ _ => mem_rowTransitions h

/-- Lists with one entry for each byte agree when they agree on all bytes. -/
theorem ext_bytes {α : Type} {xs ys : List α} (hxs : xs.length = byteCount)
    (hys : ys.length = byteCount) (h : ∀ c : UInt8, xs[c.toNat]? = ys[c.toNat]?) : xs = ys := by
  apply List.ext_getElem?
  intro n
  by_cases hn : n < byteCount
  · have hc : (UInt8.ofNat n).toNat = n := UInt8.toNat_ofNat_of_lt' hn
    rw [← hc, h]
  · rw [List.getElem?_eq_none (by omega), List.getElem?_eq_none (by omega)]

namespace Represents
variable {row : List Nat} {ts : List Transition}

theorem length_le (hts : Represents ts row) (h : row.length = byteCount) :
    (rowTransitions row).length ≤ ts.length := by
  have hfrom : RepresentsFrom 0 ts row := fun c j _ => hts c j
  rw [length_rowTransitions]
  exact hfrom.length_le h (expandRuns_runsOf row).symm (fun _ => pos_of_mem_runsOf)
    (isChain_runsOf row)

/-- Transitions that represent a row are read back as this row. -/
theorem rowOf_eq (hts : Represents ts row) (h : row.length = byteCount) : rowOf ts = row := by
  apply ext_bytes (by rw [rowOf, List.length_map, length_allBytes]) h
  intro c
  rw [rowOf, getElem?_map_allBytes, targetOn]
  split
  · next t ht =>
    have hmem := List.mem_reverse.mp (List.mem_of_find?_eq_some ht)
    have hreads := List.find?_some ht
    exact ((hts c _).mp ⟨t, hmem, hreads, rfl⟩).symm
  · next hnone =>
    have hlt : c.toNat < row.length := h ▸ c.toNat_lt
    obtain ⟨t, ht, hreads, -⟩ := (hts c _).mpr (List.getElem?_eq_getElem hlt)
    exact absurd hreads (List.find?_eq_none.mp hnone t (List.mem_reverse.mpr ht))

end Represents

end PatternAutomata
