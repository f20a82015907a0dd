import Mathlib.Data.List.Nodup
import PatternAutomata.Automaton.Numbering
import PatternAutomata.Proofs.Automaton.Deterministic

/-!
# Numbering keeps the successors of keys

A numbering gives equal numbers to equal keys only, and never takes a number back. So when all rows
are written, the automaton goes from the number of a key to the number of its successor on each
byte, and it accepts after a text as the key that the text leads to.
-/
namespace PatternAutomata

variable {κ : Type}

theorem expandRuns_map {α β : Type} (f : α → β) (rs : List (α × Nat)) :
    expandRuns (rs.map fun r => (f r.1, r.2)) = (expandRuns rs).map f := by
  induction rs with
  | nil => rfl
  | cons r rs ih =>
    obtain ⟨x, n⟩ := r
    simp [ih]

/-- What is asked of a space of keys. Codes tell keys apart, and the row of a key lists its
successors byte by byte. Only the keys that satisfy `good` are ever met. -/
structure KeySpace.Lawful (space : KeySpace κ) (step : κ → UInt8 → κ) (good : κ → Prop) : Prop where
  code_inj : ∀ k k', space.code k = space.code k' → k = k'
  row_eq : ∀ k, good k → expandRuns (space.row k) = allBytes.map (step k)
  row_good : ∀ k, good k → ∀ r ∈ space.row k, good r.1

/-- Keys that are met refer to states that exist, and there are at most `bound` of them. -/
structure KeySpace.Grounded (space : KeySpace κ) (good : κ → Prop) (bound : Nat) : Prop where
  not_dangling : ∀ k, good k → space.dangling k = false
  verdict_some : ∀ k, good k → ∃ v, space.verdict k = some v
  length_le : ∀ ks : List κ, ks.Nodup → (∀ k ∈ ks, good k) → ks.length ≤ bound

namespace KeySpace.Lawful
variable {space : KeySpace κ} {step : κ → UInt8 → κ} {good : κ → Prop}

/-- The successor on a byte stands in one of the runs. -/
theorem mem_row (h : space.Lawful step good) {k : κ} (hk : good k) (c : UInt8) :
    ∃ r ∈ space.row k, r.1 = step k c := by
  have hmem : step k c ∈ expandRuns (space.row k) := by
    rw [h.row_eq k hk]
    exact List.mem_map_of_mem (List.mem_of_getElem? (getElem?_allBytes c))
  obtain ⟨r, hr, hx⟩ := List.mem_flatMap.mp hmem
  exact ⟨r, hr, (List.eq_of_mem_replicate hx).symm⟩

/-- Fewer keys may be met, if rows do not lead out of them. -/
theorem restrict {good' : κ → Prop} (h : space.Lawful step good) (hgood : ∀ k, good' k → good k)
    (hrow : ∀ k, good' k → ∀ r ∈ space.row k, good' r.1) : space.Lawful step good' where
  code_inj := h.code_inj
  row_eq k hk := h.row_eq k (hgood k hk)
  row_good := hrow

end KeySpace.Lawful

namespace Numbering
variable {space : KeySpace κ} {step : κ → UInt8 → κ} {good : κ → Prop} {limit lead bound : Nat}
  {s s' : Numbering κ} {key : κ} {number : Nat}

/-- The number of a key; 0 for a key that has none. -/
def numberOf (space : KeySpace κ) (s : Numbering κ) (key : κ) : Nat :=
  s.numbers[space.code key]?.getD 0

/-- Whether a key has a number by which it is recognized. -/
def Knows (space : KeySpace κ) (s : Numbering κ) (key : κ) : Prop :=
  ∃ number, s.numbers[space.code key]? = some number

/-- The numbers and the keys agree. The keys before `lead` need not be recognized. -/
structure Valid (space : KeySpace κ) (good : κ → Prop) (lead : Nat) (s : Numbering κ) : Prop where
  good_keys : ∀ (j : Nat) k v, s.keys[j]? = some (k, v) → good k
  named : ∀ code j, s.numbers[code]? = some j → ∃ k v, space.code k = code ∧
    s.keys[j]? = some (k, v) ∧ space.verdict k = some v
  numbered : ∀ (j : Nat) k v, lead ≤ j → s.keys[j]? = some (k, v) →
    s.numbers[space.code k]? = some j

/-- Everything that `s` says still holds of `s'`. -/
structure Extends (s s' : Numbering κ) : Prop where
  keys : ∀ (j : Nat) entry, s.keys[j]? = some entry → s'.keys[j]? = some entry
  numbers : ∀ (code : List Nat) j, s.numbers[code]? = some j → s'.numbers[code]? = some j

theorem Extends.refl (s : Numbering κ) : s.Extends s := ⟨fun _ _ h => h, fun _ _ h => h⟩

theorem Extends.trans {s'' : Numbering κ} (h : s.Extends s') (h' : s'.Extends s'') :
    s.Extends s'' :=
  ⟨fun j e he => h'.keys j e (h.keys j e he), fun c j hj => h'.numbers c j (h.numbers c j hj)⟩

theorem Extends.knows (h : s.Extends s') (hk : s.Knows space key) : s'.Knows space key := by
  obtain ⟨number, hn⟩ := hk
  exact ⟨number, h.numbers _ _ hn⟩

theorem Extends.numberOf_eq (h : s.Extends s') (hk : s.Knows space key) :
    s'.numberOf space key = s.numberOf space key := by
  obtain ⟨number, hn⟩ := hk
  simp [numberOf, hn, h.numbers _ _ hn]

theorem Valid.keys_numberOf (hs : s.Valid space good lead) (h : space.Lawful step good)
    (hk : s.Knows space key) : ∃ v, s.keys[s.numberOf space key]? = some (key, v) ∧
      space.verdict key = some v := by
  obtain ⟨number, hn⟩ := hk
  obtain ⟨k, v, hcode, hkey, hv⟩ := hs.named _ _ hn
  obtain rfl := h.code_inj _ _ hcode
  refine ⟨v, ?_, hv⟩
  simpa [numberOf, hn] using hkey

/-- Adding a new key keeps the numbers and the keys in agreement. -/
theorem Valid.push (hs : s.Valid space good lead) {verdict : Bool} (hkey : good key)
    (hnew : s.numbers[space.code key]? = none) (hv : space.verdict key = some verdict) :
    Valid space good lead
      ⟨s.keys.push (key, verdict), s.numbers.insert (space.code key) s.keys.size⟩ where
  good_keys := by
    intro j k v hj
    rw [Array.getElem?_push] at hj
    split at hj
    · obtain ⟨rfl, rfl⟩ := Prod.mk.inj (Option.some.inj hj)
      exact hkey
    · exact hs.good_keys j k v hj
  named := by
    intro code j hj
    simp only [Std.TreeMap.getElem?_insert, Std.LawfulEqCmp.compare_eq_iff_eq] at hj
    split at hj
    · next hcode =>
      obtain rfl := Option.some.inj hj
      exact ⟨key, verdict, hcode, by simp, hv⟩
    · obtain ⟨k, v, hcode, hk, hkv⟩ := hs.named code j hj
      refine ⟨k, v, hcode, ?_, hkv⟩
      have hlt := (Array.getElem?_eq_some_iff.mp hk).1
      rw [Array.getElem?_push, if_neg (Nat.ne_of_lt hlt)]
      exact hk
  numbered := by
    intro j k v hlead hj
    simp only [Std.TreeMap.getElem?_insert, Std.LawfulEqCmp.compare_eq_iff_eq]
    rw [Array.getElem?_push] at hj
    split at hj
    · next hsize =>
      obtain ⟨rfl, rfl⟩ := Prod.mk.inj (Option.some.inj hj)
      rw [if_pos rfl, hsize]
    · have hk := hs.numbered j k v hlead hj
      split
      · next hcode =>
        rw [← hcode, hnew] at hk
        simp at hk
      · exact hk

theorem visit_spec (hs : s.Valid space good lead) (hkey : good key)
    (h : s.visit space limit key = .ok (number, s')) :
    s'.Valid space good lead ∧ s.Extends s' ∧ s'.Knows space key ∧
      number = s'.numberOf space key := by
  unfold visit at h
  split at h
  · simp at h
  · dsimp only at h
    split at h
    · next hn =>
      obtain ⟨rfl, rfl⟩ := Prod.mk.inj (Except.ok.inj h)
      exact ⟨hs, .refl s, ⟨_, hn⟩, by simp [numberOf, hn]⟩
    · next hn =>
      split at h
      · simp at h
      · split at h
        · simp at h
        · next verdict hv =>
          obtain ⟨rfl, rfl⟩ := Prod.mk.inj (Except.ok.inj h)
          refine ⟨hs.push hkey hn hv, ⟨?_, ?_⟩, ⟨s.keys.size, by simp⟩, by simp [numberOf]⟩
          · intro j entry hj
            have hlt := (Array.getElem?_eq_some_iff.mp hj).1
            rw [Array.getElem?_push, if_neg (Nat.ne_of_lt hlt)]
            exact hj
          · intro code j hj
            simp only [Std.TreeMap.getElem?_insert, Std.LawfulEqCmp.compare_eq_iff_eq]
            split
            · next hcode =>
              rw [← hcode, hn] at hj
              simp at hj
            · exact hj

theorem visitRow_spec {row : List (κ × Nat)} {numbers : List (Nat × Nat)}
    (hs : s.Valid space good lead) (hrow : ∀ p ∈ row, good p.1)
    (h : visitRow space limit row s = .ok (numbers, s')) :
    s'.Valid space good lead ∧ s.Extends s' ∧ (∀ p ∈ row, s'.Knows space p.1) ∧
      numbers = row.map fun p => (s'.numberOf space p.1, p.2) := by
  induction row generalizing s s' numbers with
  | nil =>
    obtain ⟨rfl, rfl⟩ := Prod.mk.inj (Except.ok.inj h)
    exact ⟨hs, .refl s, by simp, rfl⟩
  | cons p row ih =>
    obtain ⟨key, n⟩ := p
    simp only [visitRow] at h
    split at h
    · simp at h
    · next number s₁ h₁ =>
      split at h
      · simp at h
      · next ns s₂ h₂ =>
        obtain ⟨rfl, rfl⟩ := Prod.mk.inj (Except.ok.inj h)
        obtain ⟨hs₁, hext₁, hk₁, rfl⟩ := visit_spec hs (hrow _ List.mem_cons_self) h₁
        obtain ⟨hs₂, hext₂, hk₂, rfl⟩ :=
          ih hs₁ (fun p hp => hrow p (List.mem_cons_of_mem _ hp)) h₂
        refine ⟨hs₂, hext₁.trans hext₂, ?_, ?_⟩
        · intro p hp
          rcases List.mem_cons.mp hp with rfl | hp
          · exact hext₂.knows hk₁
          · exact hk₂ p hp
        · rw [List.map_cons, hext₂.numberOf_eq hk₁]

/-- The rows of the first `i` keys are written, and their successors have numbers. -/
structure Written (space : KeySpace κ) (step : κ → UInt8 → κ) (i : Nat) (s : Numbering κ)
    (states : Array State) : Prop where
  size_eq : states.size = i
  le_size : i ≤ s.keys.size
  knows : ∀ (j : Nat) k v, j < i → s.keys[j]? = some (k, v) → ∀ c, s.Knows space (step k c)
  rows : ∀ (j : Nat) k v, j < i → s.keys[j]? = some (k, v) → states[j]? = some
    { transitions := rowTransitions (allBytes.map fun c => s.numberOf space (step k c)) }

theorem Written.zero (space : KeySpace κ) (step : κ → UInt8 → κ) (s : Numbering κ) :
    Written space step 0 s #[] :=
  ⟨rfl, Nat.zero_le _, by simp, by simp⟩

theorem Written.push {i : Nat} {states : Array State} (hw : Written space step i s states)
    (h : space.Lawful step good) (hs : s.Valid space good lead) (hi : i < s.keys.size)
    {row : List (Nat × Nat)}
    (hrow : visitRow space limit (space.row s.keys[i].1) s = .ok (row, s')) :
    Written space step (i + 1) s'
      (states.push { transitions := rowTransitions (expandRuns row) }) ∧
      s'.Valid space good lead ∧ s.Extends s' := by
  have hkey : s.keys[i]? = some (s.keys[i].1, s.keys[i].2) := Array.getElem?_eq_getElem hi
  have hgood := hs.good_keys _ _ _ hkey
  obtain ⟨hs', hext, hknows, rfl⟩ := visitRow_spec hs (h.row_good _ hgood) hrow
  have hkey' := hext.keys _ _ hkey
  refine ⟨⟨by simp [hw.size_eq], (Array.getElem?_eq_some_iff.mp hkey').1, ?_, ?_⟩, hs', hext⟩
  · intro j k v hj hk c
    by_cases hji : j = i
    · subst hji
      rw [hkey'] at hk
      obtain ⟨rfl, rfl⟩ := Prod.mk.inj (Option.some.inj hk)
      obtain ⟨r, hr, hrc⟩ := h.mem_row hgood c
      exact hrc ▸ hknows r hr
    · have hlt : j < s.keys.size := by omega
      have hks := Array.getElem?_eq_getElem hlt
      rw [hext.keys _ _ hks] at hk
      exact hext.knows (hw.knows j k v (by omega) (hks.trans hk) c)
  · intro j k v hj hk
    by_cases hji : j = i
    · subst hji
      rw [hkey'] at hk
      obtain ⟨rfl, rfl⟩ := Prod.mk.inj (Option.some.inj hk)
      rw [Array.getElem?_push, if_pos hw.size_eq.symm, expandRuns_map, h.row_eq _ hgood,
        List.map_map]
      rfl
    · have hlt : j < s.keys.size := by omega
      have hks := Array.getElem?_eq_getElem hlt
      rw [hext.keys _ _ hks] at hk
      have hold := hks.trans hk
      rw [Array.getElem?_push, if_neg (by rw [hw.size_eq]; exact hji),
        hw.rows j k v (by omega) hold]
      congr 3
      refine List.map_congr_left fun c _ => ?_
      exact (hext.numberOf_eq (hw.knows j k v (by omega) hold c)).symm

/-- When the walk ends, all rows are written. -/
theorem writeRows_spec {i : Nat} {states states' : Array State} {keys : Array (κ × Bool)}
    (h : space.Lawful step good) (hs : s.Valid space good lead) (hw : Written space step i s states)
    (hrun : writeRows space limit i s states = .ok (keys, states')) :
    ∃ s', s'.keys = keys ∧ s'.Valid space good lead ∧ s.Extends s' ∧
      Written space step keys.size s' states' := by
  fun_induction writeRows space limit i s states with
  | case1 => simp at hrun
  | case2 i s states hi row s' hrow ih =>
    obtain ⟨hw', hs', hext⟩ := hw.push h hs hi hrow
    obtain ⟨t, hkeys, ht, hext', hwt⟩ := ih hs' hw' hrun
    exact ⟨t, hkeys, ht, hext.trans hext', hwt⟩
  | case3 i s states hi =>
    obtain ⟨rfl, rfl⟩ := Prod.mk.inj (Except.ok.inj hrun)
    obtain rfl : i = s.keys.size := Nat.le_antisymm hw.le_size (Nat.le_of_not_lt hi)
    exact ⟨s, rfl, hs, .refl s, hw⟩

/-! ## The automaton of a numbering -/

theorem mem_accepting_toAutomaton {keys : Array (κ × Bool)} {states : Array State} {j : Nat} :
    j ∈ (toAutomaton keys states).accepting ↔ ∃ k, keys[j]? = some (k, true) := by
  simp only [toAutomaton, Std.ExtTreeSet.mem_ofList, List.contains_iff_mem, List.mem_filter,
    List.mem_range]
  constructor
  · rintro ⟨-, h⟩
    cases hj : keys[j]? with
    | none => simp [hj] at h
    | some entry =>
      obtain ⟨k, v⟩ := entry
      obtain rfl : v = true := by simpa [hj] using h
      exact ⟨k, rfl⟩
  · rintro ⟨k, hk⟩
    exact ⟨(Array.getElem?_eq_some_iff.mp hk).1, by simp [hk]⟩

/-- The number that follows another one on a byte. -/
def nextNumber (space : KeySpace κ) (step : κ → UInt8 → κ) (s : Numbering κ) (i : Nat) (c : UInt8) :
    Nat :=
  match s.keys[i]? with
  | some (k, _) => s.numberOf space (step k c)
  | none => 0

theorem nextNumber_eq {i : Nat} {k : κ} {v : Bool} (hk : s.keys[i]? = some (k, v)) (c : UInt8) :
    nextNumber space step s i c = s.numberOf space (step k c) := by
  simp [nextNumber, hk]

theorem Written.row_eq {states : Array State} {i : Nat}
    (hw : Written space step s.keys.size s states) (hi : i < s.keys.size) : states[i]? =
      some { transitions := rowTransitions (allBytes.map (nextNumber space step s i)) } := by
  have hk : s.keys[i]? = some (s.keys[i].1, s.keys[i].2) := Array.getElem?_eq_getElem hi
  have hnext : nextNumber space step s i = fun c => s.numberOf space (step s.keys[i].1 c) :=
    funext (nextNumber_eq hk)
  rw [hnext]
  exact hw.rows i _ _ hi hk

section
variable {states : Array State} (h : space.Lawful step good) (hs : s.Valid space good lead)
  (hw : Written space step s.keys.size s states)
include h hs hw

theorem Written.keys_nextNumber {i : Nat} {k : κ} {v : Bool} (hk : s.keys[i]? = some (k, v))
    (c : UInt8) : ∃ v', s.keys[nextNumber space step s i c]? = some (step k c, v') ∧
      space.verdict (step k c) = some v' := by
  rw [nextNumber_eq hk]
  exact hs.keys_numberOf h (hw.knows i k v (Array.getElem?_eq_some_iff.mp hk).1 hk c)

/-- After a text the automaton stands at the number of the key that the text leads to. -/
theorem Written.keys_foldl {i : Nat} {k : κ} {v : Bool} (hk : s.keys[i]? = some (k, v))
    (w : List UInt8) : ∃ v', s.keys[w.foldl (nextNumber space step s) i]? =
      some (w.foldl step k, v') ∧ (if w = [] then v' = v
        else space.verdict (w.foldl step k) = some v') := by
  induction w generalizing i k v with
  | nil => exact ⟨v, hk, by simp⟩
  | cons c w ih =>
    obtain ⟨v₁, hk₁, hv₁⟩ := hw.keys_nextNumber h hs hk c
    obtain ⟨v', hk', hv'⟩ := ih hk₁
    refine ⟨v', hk', ?_⟩
    rw [if_neg (List.cons_ne_nil c w)]
    split at hv'
    · next hnil =>
      subst hnil
      rw [hv']
      exact hv₁
    · exact hv'

theorem Written.complete (hne : 0 < s.keys.size) :
    (toAutomaton s.keys states).Complete (nextNumber space step s) := by
  have hsize : (toAutomaton s.keys states).size = s.keys.size := hw.size_eq
  have hrow {i : Nat} {x : Option Label} {j : Nat} (he : (toAutomaton s.keys states).Edge i x j) :
      i < s.keys.size ∧ ∃ t ∈ rowTransitions (allBytes.map (nextNumber space step s i)),
        x = some t.label ∧ j = t.target := by
    have hi : i < s.keys.size := hsize ▸ he.lt_size
    have hstate := hw.row_eq hi
    generalize rowTransitions (allBytes.map (nextNumber space step s i)) = ts at hstate ⊢
    obtain ⟨st, hst, hx⟩ := he
    obtain rfl := Option.some.inj (hst.symm.trans hstate)
    refine ⟨hi, ?_⟩
    cases x with
    | none => simp [State.Leads] at hx
    | some l => exact ⟨⟨l, j⟩, hx, rfl, rfl⟩
  refine ⟨Automaton.wellFormed_iff.mpr ⟨?_, ?_, ?_⟩, ?_, ?_⟩
  · rw [hsize]
    exact hne
  · intro i x j he
    obtain ⟨hi, t, ht, -, rfl⟩ := hrow he
    obtain ⟨c, -, hc⟩ := List.mem_map.mp (target_mem_of_mem_rowTransitions ht)
    have hk : s.keys[i]? = some (s.keys[i].1, s.keys[i].2) := Array.getElem?_eq_getElem hi
    obtain ⟨v', hk', -⟩ := hw.keys_nextNumber h hs hk c
    rw [hsize, ← hc]
    exact (Array.getElem?_eq_some_iff.mp hk').1
  · intro f hf
    obtain ⟨k, hk⟩ := mem_accepting_toAutomaton.mp hf
    rw [hsize]
    exact (Array.getElem?_eq_some_iff.mp hk).1
  · intro i x j he
    obtain ⟨-, t, ht, rfl, -⟩ := hrow he
    obtain ⟨lo, hi, hl⟩ := bytes_of_mem_rowTransitions ht
    exact ⟨lo, hi, congrArg some hl⟩
  · intro i c j hi
    rw [hsize] at hi
    have hlength : (allBytes.map (nextNumber space step s i)).length = byteCount := by simp
    have hmem := mem_rowTransitions (j := j) (c := c) hlength
    rw [getElem?_map_allBytes, Option.some.injEq] at hmem
    rw [← hmem]
    have hstate := hw.row_eq hi
    constructor
    · rintro ⟨l, he, hl⟩
      obtain ⟨-, t, ht, hlt, rfl⟩ := hrow he
      obtain rfl := Option.some.inj hlt
      exact ⟨t, ht, hl, rfl⟩
    · generalize rowTransitions (allBytes.map (nextNumber space step s i)) = ts at hstate ⊢
      rintro ⟨t, ht, hl, rfl⟩
      exact ⟨t.label, ⟨_, hstate, ht⟩, hl⟩

end

/-- The automaton of a key space accepts a text if the key that the text leads to accepts. Only the
empty text is left to the verdict that came with the first key. -/
theorem run_spec {d : Automaton} {first : κ} {v : Bool} (h : space.Lawful step good)
    (hs : s.Valid space good lead) (hkeys : s.keys = #[(first, v)])
    (hrun : run space limit s = .ok d) : ∃ next, d.Complete next ∧
      d.meaning = .strings fun w =>
        if w = [] then v = true else space.verdict (w.foldl step first) = some true := by
  unfold run at hrun
  split at hrun
  · simp at hrun
  · next keys states hwrite =>
    obtain rfl := Except.ok.inj hrun
    obtain ⟨t, rfl, ht, hext, hwt⟩ := writeRows_spec h hs (.zero space step s) hwrite
    have hfirst : t.keys[0]? = some (first, v) := hext.keys _ _ (by simp [hkeys])
    have hc := hwt.complete h ht (Array.getElem?_eq_some_iff.mp hfirst).1
    refine ⟨_, hc, hc.meaning_eq.trans (Meaning.ext fun b w e => ?_)⟩
    obtain ⟨v', hk', hv'⟩ := hwt.keys_foldl h ht hfirst w
    change w.foldl _ 0 ∈ _ ↔ _
    rw [mem_accepting_toAutomaton, hk', Meaning.strings]
    split at hv'
    · next hnil =>
      rw [if_pos hnil, hv']
      simp
    · next hcons =>
      rw [if_neg hcons, hv']
      simp

/-! ## The number of keys -/

/-- Equal keys behind `lead` have the number of each as their own. -/
theorem Valid.nodup_keys (hs : s.Valid space good lead) :
    ((s.keys.toList.map (·.1)).drop lead).Nodup := by
  have hnumber {i : Nat} {k : κ} (hk : ((s.keys.toList.map (·.1)).drop lead)[i]? = some k) :
      s.numbers[space.code k]? = some (lead + i) := by
    rw [List.getElem?_drop, List.getElem?_map, Array.getElem?_toList] at hk
    obtain ⟨⟨_, v⟩, hkv, rfl⟩ := Option.map_eq_some_iff.mp hk
    exact hs.numbered _ _ v (Nat.le_add_right lead i) hkv
  rw [List.nodup_iff_getElem?_ne_getElem?]
  intro i j hij hj heq
  have hjk := List.getElem?_eq_getElem hj
  have := Option.some.inj ((hnumber hjk).symm.trans (hnumber (heq.trans hjk)))
  omega

theorem Valid.good_of_mem (hs : s.Valid space good lead)
    (hkey : key ∈ s.keys.toList.map (·.1)) : good key := by
  obtain ⟨⟨_, v⟩, hmem, rfl⟩ := List.mem_map.mp hkey
  obtain ⟨j, hj⟩ := List.getElem?_of_mem hmem
  exact hs.good_keys j _ v (Array.getElem?_toList.symm.trans hj)

theorem Valid.size_le (hs : s.Valid space good lead) (hg : space.Grounded good bound) :
    s.keys.size ≤ lead + bound := by
  have hlen := hg.length_le _ hs.nodup_keys fun k hk => hs.good_of_mem (List.mem_of_mem_drop hk)
  simp only [List.length_drop, List.length_map, Array.length_toList] at hlen
  omega

/-- A budget that does not suffice is smaller than the number of keys. -/
theorem visit_error {err : BuildError} (hs : s.Valid space good lead)
    (hg : space.Grounded good bound) (hkey : good key) (h : s.visit space limit key = .error err) :
    err = .tooManyStates limit ∧ limit < lead + bound := by
  unfold visit at h
  rw [hg.not_dangling key hkey] at h
  dsimp only at h
  rw [if_neg Bool.false_ne_true] at h
  split at h
  · simp at h
  · next hn =>
    obtain ⟨v, hv⟩ := hg.verdict_some key hkey
    split at h
    · next hle =>
      have hsize := (hs.push hkey hn hv).size_le hg
      rw [Array.size_push] at hsize
      exact ⟨(Except.error.inj h).symm, by omega⟩
    · simp [hv] at h

theorem visitRow_error {row : List (κ × Nat)} {err : BuildError} (hs : s.Valid space good lead)
    (hg : space.Grounded good bound) (hrow : ∀ p ∈ row, good p.1)
    (h : visitRow space limit row s = .error err) :
    err = .tooManyStates limit ∧ limit < lead + bound := by
  induction row generalizing s with
  | nil => simp [visitRow] at h
  | cons p row ih =>
    obtain ⟨key, n⟩ := p
    have hkey := hrow _ List.mem_cons_self
    simp only [visitRow] at h
    split at h
    · next h₁ =>
      obtain rfl := Except.error.inj h
      exact visit_error hs hg hkey h₁
    · next number s₁ h₁ =>
      obtain ⟨hs₁, -⟩ := visit_spec hs hkey h₁
      split at h
      · next h₂ =>
        obtain rfl := Except.error.inj h
        exact ih hs₁ (fun p hp => hrow p (List.mem_cons_of_mem _ hp)) h₂
      · simp at h

theorem writeRows_error {i : Nat} {states : Array State} {err : BuildError}
    (h : space.Lawful step good) (hs : s.Valid space good lead) (hg : space.Grounded good bound)
    (hrun : writeRows space limit i s states = .error err) :
    err = .tooManyStates limit ∧ limit < lead + bound := by
  fun_induction writeRows space limit i s states with
  | case1 i s states hi err' hrow =>
    obtain rfl := Except.error.inj hrun
    have hkey : s.keys[i]? = some (s.keys[i].1, s.keys[i].2) := Array.getElem?_eq_getElem hi
    exact visitRow_error hs hg (h.row_good _ (hs.good_keys _ _ _ hkey)) hrow
  | case2 i s states hi row s' hrow ih =>
    have hkey : s.keys[i]? = some (s.keys[i].1, s.keys[i].2) := Array.getElem?_eq_getElem hi
    obtain ⟨hs', -⟩ := visitRow_spec hs (h.row_good _ (hs.good_keys _ _ _ hkey)) hrow
    exact ih hs' hrun
  | case3 => simp at hrun

/-- A construction fails only when its budget is smaller than the number of keys. -/
theorem run_error {err : BuildError} (h : space.Lawful step good) (hs : s.Valid space good lead)
    (hg : space.Grounded good bound) (hrun : run space limit s = .error err) :
    err = .tooManyStates limit ∧ limit < lead + bound := by
  unfold run at hrun
  split at hrun
  · next hwrite =>
    obtain rfl := Except.error.inj hrun
    exact writeRows_error h hs hg hwrite
  · simp at hrun

theorem size_run_le {d : Automaton} (h : space.Lawful step good) (hs : s.Valid space good lead)
    (hg : space.Grounded good bound) (hrun : run space limit s = .ok d) :
    d.size ≤ lead + bound := by
  unfold run at hrun
  split at hrun
  · simp at hrun
  · next keys states hwrite =>
    obtain rfl := Except.ok.inj hrun
    obtain ⟨t, rfl, ht, -, hwt⟩ := writeRows_spec h hs (.zero space step s) hwrite
    have hsize : (toAutomaton t.keys states).size = t.keys.size := hwt.size_eq
    rw [hsize]
    exact ht.size_le hg

end Numbering

end PatternAutomata
