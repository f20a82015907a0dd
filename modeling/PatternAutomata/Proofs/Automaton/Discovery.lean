import PatternAutomata.Proofs.Automaton.BreadthFirst
import PatternAutomata.Proofs.Automaton.Worklist

/-!
# Constructions number in breadth-first order

A worklist gives a key its number when the key is met for the first time, and it reads the rows one
after the other, each of them by ascending bytes. So what it builds is in breadth-first order.
-/
namespace PatternAutomata

variable {κ : Type} {space : KeySpace κ} {step : κ → UInt8 → κ} {good : κ → Prop}
  {limit lead : Nat}

/-- A run of a row begins under some byte, and all smaller bytes belong to the runs before it. -/
theorem KeySpace.Lawful.exists_byte (h : space.Lawful step good) {k : κ} (hk : good k)
    {pre post : List (κ × Nat)} {r : κ × Nat} (hrow : space.row k = pre ++ r :: post)
    (hpos : 0 < r.2) : ∃ c, step k c = r.1 ∧ ∀ c' < c, ∃ q ∈ pre, step k c' = q.1 := by
  obtain ⟨x, n⟩ := r
  have hexpand : allBytes.map (step k) =
      expandRuns pre ++ (List.replicate n x ++ expandRuns post) := by
    rw [← h.row_eq k hk, hrow, ← expandRuns_cons]
    exact List.flatMap_append
  have hlength := congrArg List.length hexpand
  rw [List.length_map, length_allBytes, List.length_append, List.length_append,
    List.length_replicate] at hlength
  unfold byteCount at hlength
  have hbyte : (UInt8.ofNat (expandRuns pre).length).toNat = (expandRuns pre).length := by
    rw [UInt8.toNat_ofNat']
    exact Nat.mod_eq_of_lt (by omega)
  have hat (c : UInt8) := getElem?_map_allBytes (step k) c
  refine ⟨UInt8.ofNat (expandRuns pre).length, ?_, fun c hc => ?_⟩
  · have hfirst := hat (UInt8.ofNat (expandRuns pre).length)
    rw [hexpand, hbyte, List.getElem?_append_right (Nat.le_refl _), Nat.sub_self,
      List.getElem?_append_left (by simpa using hpos),
      List.getElem?_replicate_of_lt hpos] at hfirst
    exact (Option.some.inj hfirst).symm
  · rw [UInt8.lt_iff_toNat_lt, hbyte] at hc
    have hbefore := hat c
    rw [hexpand, List.getElem?_append_left hc] at hbefore
    obtain ⟨q, hq, hmem⟩ := List.mem_flatMap.mp (List.mem_of_getElem? hbefore)
    exact ⟨q, hq, List.eq_of_mem_replicate hmem⟩

/-! ## What visits discover -/

namespace Numbering
variable {s s' : Numbering κ} {key : κ} {j : Nat}

theorem numberOf_lt (hs : s.Valid space good lead) (h : space.Lawful step good)
    (hk : s.Knows space key) : s.numberOf space key < s.keys.size := by
  obtain ⟨v, hkey, -⟩ := hs.keys_numberOf h hk
  exact (Array.getElem?_eq_some_iff.mp hkey).1

/-- A number given on a row belongs to a key of the row that comes behind smaller numbers only. -/
theorem exists_of_visitRow {row : List (κ × Nat)} {numbers : List (Nat × Nat)}
    (h : space.Lawful step good) (hs : s.Valid space good lead) (hrow : ∀ p ∈ row, good p.1)
    (hvisit : visitRow space limit row s = .ok (numbers, s')) (hj : s.keys.size ≤ j)
    (hj' : j < s'.keys.size) : ∃ pre r post, row = pre ++ r :: post ∧
      s'.numberOf space r.1 = j ∧ ∀ q ∈ pre, s'.numberOf space q.1 < j := by
  induction row generalizing s numbers with
  | nil =>
    obtain ⟨-, rfl⟩ := Prod.mk.inj (Except.ok.inj hvisit)
    omega
  | cons p row ih =>
    obtain ⟨key, n⟩ := p
    have hrest : ∀ p ∈ row, good p.1 := fun p hp => hrow p (List.mem_cons_of_mem _ hp)
    obtain ⟨number, s₁, ns, h₁, h₂, -⟩ := visitRow_cons_ok hvisit
    obtain ⟨hs₁, -, hk₁, hnumber⟩ := visit_spec hs (hrow _ List.mem_cons_self) h₁
    obtain ⟨-, hext, -⟩ := visitRow_spec hs₁ hrest h₂
    by_cases hnew : j < s₁.keys.size
    · refine ⟨[], (key, n), row, rfl, ?_, by simp⟩
      rw [hext.numberOf_eq hk₁, ← hnumber]
      obtain ⟨-, ⟨-, rfl⟩ | ⟨-, -, rfl, v, -, rfl⟩⟩ := visit_eq_ok_iff.mp h₁
      · omega
      · rw [Array.size_push] at hnew
        omega
    · obtain ⟨pre, r, post, rfl, hr, hpre⟩ := ih hs₁ hrest h₂ (Nat.not_lt.mp hnew)
      refine ⟨(key, n) :: pre, r, post, rfl, hr, List.forall_mem_cons.mpr ⟨?_, hpre⟩⟩
      have hlt := numberOf_lt hs₁ h hk₁
      rw [hext.numberOf_eq hk₁]
      omega

/-- No key is recognized by a number before `lead`. -/
def Beyond (lead : Nat) (s : Numbering κ) : Prop :=
  ∀ (code : List Nat) (j : Nat), s.numbers[code]? = some j → lead ≤ j

theorem Beyond.visitRow {row : List (κ × Nat)} {numbers : List (Nat × Nat)} (hs : s.Beyond lead)
    (hlead : lead ≤ s.keys.size) (h : visitRow space limit row s = .ok (numbers, s')) :
    s'.Beyond lead := by
  induction row generalizing s numbers with
  | nil =>
    obtain ⟨-, rfl⟩ := Prod.mk.inj (Except.ok.inj h)
    exact hs
  | cons p row ih =>
    obtain ⟨number, s₁, ns, h₁, h₂, -⟩ := visitRow_cons_ok h
    refine ih ?_ (hlead.trans (keys_size_le_of_visit h₁)) h₂
    obtain ⟨-, ⟨-, rfl⟩ | ⟨-, -, -, v, -, rfl⟩⟩ := visit_eq_ok_iff.mp h₁
    · exact hs
    · intro code j hj
      simp only [Std.TreeMap.getElem?_insert] at hj
      split at hj
      · obtain rfl := Option.some.inj hj
        exact hlead
      · exact hs code j hj

end Numbering

/-! ## What turns discover -/

namespace Worklist
variable {t t' : Worklist κ} {i j : Nat}

/-- The number at a place in the rows. -/
def next (space : KeySpace κ) (step : κ → UInt8 → κ) (t : Worklist κ) : Nat → UInt8 → Nat :=
  Numbering.nextNumber space step t.numbering

/-- Every number but the first one is mentioned on the row of a smaller number, and up to there only
smaller numbers are. -/
def Discovers (space : KeySpace κ) (step : κ → UInt8 → κ) (t : Worklist κ) : Prop :=
  ∀ j, 0 < j → j < t.size → ∃ p : Nat × UInt8, p.1 < t.turns ∧ p.1 < j ∧
    t.next space step p.1 p.2 = j ∧ ∀ q, Before q p → t.next space step q.1 q.2 < j

theorem Steady.next_eq (ht : t.Steady space step good lead)
    (hextends : t.numbering.Extends t'.numbering) (hi : i < t.turns) (c : UInt8) :
    t'.next space step i c = t.next space step i c := by
  have hkey := Array.getElem?_eq_getElem (Nat.lt_of_lt_of_le hi ht.turns_le)
  rw [next, next, Numbering.nextNumber_eq hkey, Numbering.nextNumber_eq (hextends.keys i _ hkey)]
  exact hextends.numberOf_eq (ht.written.knows i _ _ hi hkey c)

section
variable (hlaw : space.Lawful step good) (ht : t.Steady space step good lead)
include hlaw ht

theorem Steady.next_lt (hi : i < t.turns) (c : UInt8) : t.next space step i c < t.size := by
  have hkey := Array.getElem?_eq_getElem (Nat.lt_of_lt_of_le hi ht.turns_le)
  rw [next, Numbering.nextNumber_eq hkey]
  exact Numbering.numberOf_lt ht.valid hlaw (ht.written.knows i _ _ hi hkey c)

/-- The place of a new number is on the row that is written, under the first byte of its run. -/
theorem Turn.exists_place (hpos : ∀ k, good k → ∀ r ∈ space.row k, 0 < r.2)
    (h : Turn space limit t t') (hj : t.size ≤ j) (hj' : j < t'.size) :
    ∃ c, t'.next space step t.turns c = j ∧
      ∀ q, Before q (t.turns, c) → t'.next space step q.1 q.2 < j := by
  have hextends := (h.steady hlaw ht).2
  cases h with
  | @write key v row s hkey hrow =>
    have hgood := ht.valid.good_keys _ _ _ hkey
    obtain ⟨pre, r, post, heq, hr, hpre⟩ :=
      Numbering.exists_of_visitRow hlaw ht.valid (hlaw.row_good key hgood) hrow hj hj'
    obtain ⟨c, hc, hbefore⟩ := hlaw.exists_byte hgood heq
      (hpos key hgood r (heq ▸ List.mem_append_right pre List.mem_cons_self))
    have hnext (c' : UInt8) : (t.write s row).next space step t.turns c' =
        s.numberOf space (step key c') := Numbering.nextNumber_eq (hextends.keys _ _ hkey) c'
    refine ⟨c, by rw [hnext, hc, hr], fun q hq => ?_⟩
    rcases hq with hq | ⟨hq, hqc⟩
    · -- the rows before this one mention old numbers only
      rw [ht.next_eq hextends hq]
      exact Nat.lt_of_lt_of_le (ht.next_lt hlaw hq q.2) hj
    · obtain ⟨q', hq', hstep⟩ := hbefore q.2 hqc
      rw [hq, hnext, hstep]
      exact hpre q' hq'

theorem Turn.discovers (hpos : ∀ k, good k → ∀ r ∈ space.row k, 0 < r.2)
    (h : Turn space limit t t') (hd : t.Discovers space step) : t'.Discovers space step := by
  have hturns := h.turns_eq
  have hwaits := h.turns_lt
  have hextends := (h.steady hlaw ht).2
  intro j hj hj'
  by_cases hold : j < t.size
  · obtain ⟨p, hp, hpj, heq, hbefore⟩ := hd j hj hold
    refine ⟨p, by omega, hpj, (ht.next_eq hextends hp p.2).trans heq, fun q hq => ?_⟩
    have := hq.fst_le
    rw [ht.next_eq hextends (by omega)]
    exact hbefore q hq
  · have hnew := Nat.not_lt.mp hold
    obtain ⟨c, hc, hbefore⟩ := h.exists_place hlaw ht hpos hnew hj'
    exact ⟨(t.turns, c), by dsimp only; omega, Nat.lt_of_lt_of_le hwaits hnew, hc, hbefore⟩

end

theorem Turn.beyond (h : Turn space limit t t') (ht : t.numbering.Beyond lead)
    (hlead : lead ≤ t.size) : t'.numbering.Beyond lead ∧ lead ≤ t'.size := by
  cases h with
  | write hkey hrow =>
    exact ⟨ht.visitRow hlead hrow, hlead.trans (Numbering.keys_size_le_of_visitRow hrow)⟩

/-- What every worklist has in which a construction began with a single key. -/
structure Numbered (space : KeySpace κ) (step : κ → UInt8 → κ) (good : κ → Prop) (lead : Nat)
    (first : κ) (t : Worklist κ) : Prop where
  steady : t.Steady space step good lead
  discovers : t.Discovers space step
  beyond : t.numbering.Beyond lead
  lead_le : lead ≤ t.size
  first_eq : ∃ v, t.numbering.keys[0]? = some (first, v)

theorem Turn.numbered {first : κ} (hlaw : space.Lawful step good)
    (hpos : ∀ k, good k → ∀ r ∈ space.row k, 0 < r.2) (h : Turn space limit t t')
    (ht : t.Numbered space step good lead first) : t'.Numbered space step good lead first := by
  obtain ⟨hsteady, hextends⟩ := h.steady hlaw ht.steady
  obtain ⟨hbeyond, hlead⟩ := h.beyond ht.beyond ht.lead_le
  obtain ⟨v, hfirst⟩ := ht.first_eq
  exact ⟨hsteady, h.discovers hlaw ht.steady hpos ht.discovers, hbeyond, hlead, v,
    hextends.keys _ _ hfirst⟩

theorem Reaches.numbered {first : κ} (hlaw : space.Lawful step good)
    (hpos : ∀ k, good k → ∀ r ∈ space.row k, 0 < r.2) (h : Reaches space limit t t')
    (ht : t.Numbered space step good lead first) : t'.Numbered space step good lead first := by
  induction h with
  | refl => exact ht
  | tail _ hturn ih => exact hturn.numbered hlaw hpos ih

end Worklist

/-! ## The end of a construction -/

namespace Worklist
variable {t : Worklist κ} {first : κ}

theorem Steady.exists_key (ht : t.Steady space step good lead) {i : Nat}
    (hi : i < t.automaton.size) : ∃ k v, t.numbering.keys[i]? = some (k, v) :=
  ⟨_, _, Array.getElem?_eq_getElem (Nat.lt_of_lt_of_le hi ht.turns_le)⟩

theorem Steady.written_all (ht : t.Steady space step good lead) (hdone : t.Finished) :
    Numbering.Written space step t.numbering.keys.size t.numbering t.rows := by
  have heq : t.turns = t.numbering.keys.size := Nat.le_antisymm ht.turns_le hdone
  exact heq ▸ ht.written

section
variable (hlaw : space.Lawful step good) (ht : t.Numbered space step good lead first)
  (hdone : t.Finished)
include hlaw ht hdone

theorem Numbered.breadthFirst : t.automaton.BreadthFirst (t.next space step) where
  complete := by
    obtain ⟨v, hfirst⟩ := ht.first_eq
    exact (ht.steady.written_all hdone).complete hlaw ht.steady.valid
      (Array.getElem?_eq_some_iff.mp hfirst).1
  start_eq := rfl
  row_eq i hi := (ht.steady.written_all hdone).row_eq (Nat.lt_of_lt_of_le hi ht.steady.turns_le)
  discovered j hpos hj := by
    obtain ⟨p, -, hp⟩ := ht.discovers j hpos (Nat.lt_of_lt_of_le hj ht.steady.turns_le)
    exact ⟨p, hp⟩

theorem Numbered.keyed : t.automaton.Keyed (t.next space step) step first lead
    fun i => (t.numbering.keys[i]?.map (·.1)).getD first where
  key_foldl w := by
    obtain ⟨v, hfirst⟩ := ht.first_eq
    obtain ⟨v', hkey, -⟩ :=
      (ht.steady.written_all hdone).keys_foldl hlaw ht.steady.valid hfirst w
    change (t.numbering.keys[w.foldl (Numbering.nextNumber space step t.numbering) 0]?.map
      (·.1)).getD first = _
    rw [hkey]
    rfl
  key_inj i j hi hi' hj hj' heq := by
    obtain ⟨k, v, hk⟩ := ht.steady.exists_key hi'
    obtain ⟨k', v', hk'⟩ := ht.steady.exists_key hj'
    have hsame : k = k' := by simpa [hk, hk'] using heq
    have hnumber := ht.steady.valid.numbered i k v hi hk
    rw [hsame, ht.steady.valid.numbered j k' v' hj hk'] at hnumber
    exact (Option.some.inj hnumber).symm
  lead_le i c hi := by
    obtain ⟨k, v, hk⟩ := ht.steady.exists_key hi
    obtain ⟨number, hnumber⟩ := (ht.steady.written_all hdone).knows i k v
      (Nat.lt_of_lt_of_le hi ht.steady.turns_le) hk c
    rw [next, Numbering.nextNumber_eq hk, Numbering.numberOf, hnumber]
    exact ht.beyond _ _ hnumber

end

/-- What a construction builds from a single key is in breadth-first order, and its states stand for
keys. -/
theorem exists_breadthFirst_of_run {s : Numbering κ} {d : Automaton} {v : Bool}
    (hlaw : space.Lawful step good) (hpos : ∀ k, good k → ∀ r ∈ space.row k, 0 < r.2)
    (hs : s.Valid space good lead) (hbeyond : s.Beyond lead) (hlead : lead ≤ 1)
    (hkeys : s.keys = #[(first, v)]) (hrun : Numbering.run space limit s = .ok d) :
    ∃ next key, d.BreadthFirst next ∧ d.Keyed next step first lead key := by
  obtain ⟨t, hreaches, hdone, rfl⟩ := run_eq_ok_iff.mp hrun
  have hone : s.keys.size = 1 := by rw [hkeys]; rfl
  have hstart : Numbered space step good lead first ⟨s, #[]⟩ :=
    { steady := steady_start hs
      discovers := fun j hj hj' => absurd hj' (by change ¬ j < s.keys.size; omega)
      beyond := hbeyond
      lead_le := by change lead ≤ s.keys.size; omega
      first_eq := ⟨v, by simp [hkeys]⟩ }
  have ht := hreaches.numbered hlaw hpos hstart
  exact ⟨_, _, ht.breadthFirst hlaw hdone, ht.keyed hlaw hdone⟩

end Worklist

end PatternAutomata
