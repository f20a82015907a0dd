import Mathlib.Logic.Relation
import PatternAutomata.Automaton.Acceptance
import PatternAutomata.Proofs.Automaton.Path

/-!
# Closures are least fixed points

A search collects exactly what can be reached along the given edges. So the closure of a set, and
its growth through anchors, are described by sequences of edges that take no byte.
-/
namespace PatternAutomata

open Relation (ReflTransGen)

/-! ## The search -/

section
variable {n : Nat} {next : Nat → List Nat} {ts stack : List Nat} {seen seeds : StateSet} {i j : Nat}

theorem mem_enter_seen : i ∈ (enter n ts stack seen).2 ↔ i ∈ seen ∨ i ∈ ts := by
  induction ts generalizing stack seen with
  | nil => simp [enter]
  | cons t ts ih =>
    unfold enter
    rw [List.mem_cons]
    split
    · next h =>
      rw [ih]
      constructor
      · exact Or.imp_right .inr
      · rintro (hi | rfl | hi)
        · exact .inl hi
        · exact .inl h
        · exact .inr hi
    · rw [ih, Std.ExtTreeSet.mem_insert, Std.LawfulEqCmp.compare_eq_iff_eq, eq_comm,
        or_comm (a := i = t), or_assoc]

theorem mem_enter_stack : i ∈ (enter n ts stack seen).1 ↔
    i ∈ stack ∨ i ∈ ts ∧ i ∉ seen ∧ i < n := by
  induction ts generalizing stack seen with
  | nil => simp [enter]
  | cons t ts ih =>
    unfold enter
    split
    · rw [ih]
      grind
    · rw [ih, Std.ExtTreeSet.mem_insert, Std.LawfulEqCmp.compare_eq_iff_eq]
      split <;> grind

/-- What a search that is under way has met and not yet followed is on its stack. -/
def Pending (n : Nat) (next : Nat → List Nat) (stack : List Nat) (seen : StateSet) : Prop :=
  ∀ i ∈ seen, i < n → i ∈ stack ∨ ∀ j ∈ next i, j ∈ seen

theorem Pending.enter (h : Pending n next (i :: stack) seen) :
    Pending n next (enter n (next i) stack seen).1 (enter n (next i) stack seen).2 := by
  intro k hk hlt
  have grows {j : Nat} (hj : j ∈ seen) : j ∈ (PatternAutomata.enter n (next i) stack seen).2 :=
    mem_enter_seen.mpr (.inl hj)
  by_cases hs : k ∈ seen
  · rcases h k hs hlt with hk | hk
    · rcases List.mem_cons.mp hk with rfl | hk
      · exact .inr fun j hj => mem_enter_seen.mpr (.inr hj)
      · exact .inl (mem_enter_stack.mpr (.inl hk))
    · exact .inr fun j hj => grows (hk j hj)
  · rcases mem_enter_seen.mp hk with hk | hk
    · exact absurd hk hs
    · exact .inl (mem_enter_stack.mpr (.inr ⟨hk, hs, hlt⟩))

theorem mem_explore_of_seen (hj : j ∈ seen) : j ∈ explore n next stack seen := by
  fun_induction explore n next stack seen with
  | case1 => exact hj
  | case2 i stack seen entered ih => exact ih (mem_enter_seen.mpr (.inl hj))

theorem explore_closed (h : Pending n next stack seen) (hi : i ∈ explore n next stack seen)
    (hlt : i < n) (hj : j ∈ next i) : j ∈ explore n next stack seen := by
  fun_induction explore n next stack seen with
  | case1 seen =>
    rcases h i hi hlt with h | h
    · simp at h
    · exact h j hj
  | case2 k stack seen entered ih => exact ih h.enter hi

theorem explore_least {p : Nat → Prop} (hstack : ∀ k ∈ stack, p k) (hseen : ∀ k ∈ seen, p k)
    (hp : ∀ k, p k → ∀ j ∈ next k, p j) (hi : i ∈ explore n next stack seen) : p i := by
  fun_induction explore n next stack seen with
  | case1 seen => exact hseen i hi
  | case2 k stack seen entered ih =>
    have hk := hp k (hstack k List.mem_cons_self)
    refine ih ?_ ?_ hi
    · intro j hj
      rcases mem_enter_stack.mp hj with hj | ⟨hj, -⟩
      · exact hstack j (List.mem_cons_of_mem k hj)
      · exact hk j hj
    · intro j hj
      rcases mem_enter_seen.mp hj with hj | hj
      · exact hseen j hj
      · exact hk j hj

/-- A search finds exactly what can be reached, if nothing leads out of a number without a state. -/
theorem mem_reach (hn : ∀ k, n ≤ k → next k = []) :
    i ∈ reach n next seeds ↔ ∃ s ∈ seeds, ReflTransGen (fun k j => j ∈ next k) s i := by
  unfold reach
  constructor
  · intro h
    refine explore_least (p := fun i => ∃ s ∈ seeds, ReflTransGen (fun k j => j ∈ next k) s i)
      ?_ ?_ ?_ h
    · intro k hk
      exact ⟨k, by simpa using hk, .refl⟩
    · intro k hk
      exact ⟨k, hk, .refl⟩
    · rintro k ⟨s, hs, hk⟩ j hj
      exact ⟨s, hs, hk.tail hj⟩
  · rintro ⟨s, hs, h⟩
    induction h with
    | refl => exact mem_explore_of_seen hs
    | tail _ hj ih =>
      rename_i k j _
      by_cases hlt : k < n
      · exact explore_closed (fun k hk _ => .inl (by simpa using hk)) ih hlt hj
      · rw [hn k (Nat.le_of_not_lt hlt)] at hj
        simp at hj

end

/-! ## Sequences of edges without bytes -/

/-- An edge that takes no byte. The flags say which anchors can be crossed. -/
def Silent (g : Graph) (b e : Bool) (i j : Nat) : Prop := ∃ x, g i x j ∧ crossable b e x = true

section
variable {g : Graph} {b b' e e' : Bool} {i j k : Nat} {c : UInt8} {w : List UInt8}

theorem Silent.mono (hb : b = true → b' = true) (he : e = true → e' = true)
    (h : ReflTransGen (Silent g b e) i j) : ReflTransGen (Silent g b' e') i j := by
  have hle : Silent g b e ≤ Silent g b' e' := by
    rintro i j ⟨x, hx, hc⟩
    exact ⟨x, hx, crossable_mono hb he hc⟩
  exact ReflTransGen.mono hle _ _ h

theorem Path.of_silent (h : ReflTransGen (Silent g b (e && w.isEmpty)) i j)
    (rest : Path g e b j w k) : Path g e b i w k := by
  induction h using ReflTransGen.head_induction_on with
  | refl => exact rest
  | head h _ ih =>
    obtain ⟨x, hx, hc⟩ := h
    exact .silent hx hc ih

theorem path_nil_iff : Path g e b i [] k ↔ ReflTransGen (Silent g b e) i k := by
  constructor
  · intro h
    generalize hw : [] = w at h
    induction h with
    | refl => exact .refl
    | silent h hx _ ih =>
      subst hw
      exact .head ⟨_, h, by simpa using hx⟩ (ih rfl)
    | byte => simp at hw
  · intro h
    exact .of_silent (by simpa using h) (.refl b k)

theorem path_cons_iff : Path g e b i (c :: w) k ↔ ∃ j l j', ReflTransGen (Silent g b false) i j ∧
    g j (some l) j' ∧ l.reads c = true ∧ Path g e false j' w k := by
  constructor
  · intro h
    generalize hw : c :: w = w' at h
    induction h with
    | refl => simp at hw
    | silent h hx _ ih =>
      subst hw
      obtain ⟨j, l, j', hj, rest⟩ := ih rfl
      exact ⟨j, l, j', .head ⟨_, h, by simpa using hx⟩ hj, rest⟩
    | byte h hl rest =>
      obtain ⟨rfl, rfl⟩ := List.cons.inj hw
      exact ⟨_, _, _, .refl, h, hl, rest⟩
  · rintro ⟨j, l, j', hj, h, hl, rest⟩
    exact .of_silent (by simpa using hj) (.byte h hl rest)

end

/-! ## Closures and growth -/

namespace Automaton
variable {a : Automaton} {set : StateSet} {i j : Nat}

theorem epsilonsOf_of_size_le (h : a.size ≤ i) : a.epsilonsOf i = [] := by
  unfold epsilonsOf
  rw [Array.getElem?_eq_none h]

theorem transitionsOf_of_size_le (h : a.size ≤ i) : a.transitionsOf i = [] := by
  unfold transitionsOf
  rw [Array.getElem?_eq_none h]

theorem silent_false_iff : Silent a.Edge false false i j ↔ j ∈ a.epsilonsOf i := by
  rw [mem_epsilonsOf]
  constructor
  · rintro ⟨_ | _ | _ | _, h, hc⟩
    · exact h
    all_goals simp [crossable] at hc
  · intro h
    exact ⟨none, h, rfl⟩

theorem mem_closure :
    i ∈ a.closure set ↔ ∃ s ∈ set, ReflTransGen (Silent a.Edge false false) s i := by
  have h : (fun k j => j ∈ a.epsilonsOf k) = Silent a.Edge false false := by
    funext k j
    exact propext silent_false_iff.symm
  unfold closure
  rw [mem_reach fun _ => epsilonsOf_of_size_le, h]

theorem mem_silentOf {anchors : List Anchor} : j ∈ a.silentOf anchors i ↔
    Silent a.Edge (anchors.contains .textStart) (anchors.contains .textEnd) i j := by
  unfold silentOf Silent
  rw [List.mem_append, mem_epsilonsOf, List.mem_filterMap]
  constructor
  · rintro (h | ⟨⟨l, t⟩, ht, h⟩)
    · exact ⟨none, h, rfl⟩
    · match l with
      | .bytes _ _ => simp at h
      | .anchor m =>
        simp only [Option.ite_none_right_eq_some, Option.some.injEq] at h
        obtain ⟨hm, rfl⟩ := h
        refine ⟨some (.anchor m), mem_transitionsOf.mp ht, ?_⟩
        cases m <;> simpa [crossable] using hm
  · rintro ⟨x, h, hc⟩
    match x with
    | none => exact .inl h
    | some (.bytes _ _) => simp [crossable] at hc
    | some (.anchor m) =>
      refine .inr ⟨⟨.anchor m, j⟩, mem_transitionsOf.mpr h, ?_⟩
      cases m <;> simpa [crossable] using hc

/-- The epsilon edges of the members lead to members. -/
def Closed (a : Automaton) (set : StateSet) : Prop := ∀ i ∈ set, ∀ j, a.Edge i none j → j ∈ set

theorem closed_closure (a : Automaton) (set : StateSet) : a.Closed (a.closure set) := by
  intro i hi j hj
  obtain ⟨s, hs, h⟩ := mem_closure.mp hi
  exact mem_closure.mpr ⟨s, hs, h.tail ⟨none, hj, rfl⟩⟩

theorem mem_crossed {anchors : List Anchor} :
    i ∈ a.follow (fun l => anchors.any fun m => l = .anchor m) set ↔
      ∃ s ∈ set, ∃ m ∈ anchors, a.Edge s (some (.anchor m)) i := by
  rw [mem_follow]
  refine exists_congr fun s => and_congr_right fun _ => ?_
  constructor
  · rintro ⟨⟨l, _⟩, ht, hl, rfl⟩
    simp only [List.any_eq_true, decide_eq_true_eq] at hl
    obtain ⟨m, hm, rfl⟩ := hl
    exact ⟨m, hm, mem_transitionsOf.mp ht⟩
  · rintro ⟨m, hm, h⟩
    exact ⟨⟨.anchor m, i⟩, mem_transitionsOf.mpr h, by simpa using hm, rfl⟩

theorem mem_growThrough {anchors : List Anchor} (hset : a.Closed set) :
    i ∈ a.growThrough set anchors ↔ ∃ s ∈ set, ReflTransGen
      (Silent a.Edge (anchors.contains .textStart) (anchors.contains .textEnd)) s i := by
  have hsilent : (fun k j => j ∈ a.silentOf anchors k) =
      Silent a.Edge (anchors.contains .textStart) (anchors.contains .textEnd) := by
    funext k j
    exact propext mem_silentOf
  have hout (k : Nat) (hk : a.size ≤ k) : a.silentOf anchors k = [] := by
    simp [silentOf, epsilonsOf_of_size_le hk, transitionsOf_of_size_le hk]
  have hgrow : i ∈ a.growThrough set anchors ↔ i ∈ set ∨ i ∈ reach a.size (a.silentOf anchors)
      (a.follow (fun l => anchors.any fun m => l = .anchor m) set) := by
    unfold growThrough
    dsimp only
    split
    · next h =>
      rw [mem_reach hout, Std.ExtTreeSet.isEmpty_iff.mp h]
      simp
    · exact Std.ExtTreeSet.mem_union_iff
  rw [hgrow, mem_reach hout, hsilent]
  constructor
  · rintro (h | ⟨t, ht, h⟩)
    · exact ⟨i, h, .refl⟩
    · obtain ⟨s, hs, m, hm, he⟩ := mem_crossed.mp ht
      refine ⟨s, hs, .head ⟨some (.anchor m), he, ?_⟩ h⟩
      cases m <;> simpa [crossable] using hm
  · rintro ⟨s, hs, h⟩
    -- The set is left by its first anchor, since it is closed under epsilon edges.
    induction h using ReflTransGen.head_induction_on with
    | refl => exact .inl hs
    | head hst h ih =>
      obtain ⟨x, he, hc⟩ := hst
      match x with
      | none => exact ih (hset _ hs _ he)
      | some (.bytes _ _) => simp [crossable] at hc
      | some (.anchor m) =>
        refine .inr ⟨_, mem_crossed.mpr ⟨_, hs, m, ?_, he⟩, h⟩
        cases m <;> simpa [crossable] using hc

theorem closed_growThrough {anchors : List Anchor} (hset : a.Closed set) :
    a.Closed (a.growThrough set anchors) := by
  intro i hi j hj
  obtain ⟨s, hs, h⟩ := (mem_growThrough hset).mp hi
  exact (mem_growThrough hset).mpr ⟨s, hs, h.tail ⟨none, hj, rfl⟩⟩

end Automaton

end PatternAutomata
