import PatternAutomata.Automaton.Boolean

/-!
# Budgets that only refuse

Two outcomes of the same construction under different budgets: where the smaller budget suffices,
the larger one makes no difference, whether the construction succeeds or fails for another reason.
-/
namespace PatternAutomata

section
variable {ε ε' α β : Type} {refused : ε → Prop} {x y : Except ε α}

/-- The second outcome is the first one, unless that is a refusal. -/
def SameUnless (refused : ε → Prop) (x y : Except ε α) : Prop :=
  (∃ err, x = .error err ∧ refused err) ∨ y = x

namespace SameUnless

theorem refl (refused : ε → Prop) (x : Except ε α) : SameUnless refused x x := .inr rfl

theorem refuse {err : ε} (h : refused err) (y : Except ε α) : SameUnless refused (.error err) y :=
  .inl ⟨err, rfl, h⟩

theorem bind {f g : α → Except ε β} (h : SameUnless refused x y)
    (hfg : ∀ v, x = .ok v → SameUnless refused (f v) (g v)) :
    SameUnless refused (x >>= f) (y >>= g) := by
  rcases h with ⟨err, rfl, herr⟩ | rfl
  · exact refuse herr _
  · cases y with
    | error err => exact refl refused _
    | ok v => exact hfg v rfl

theorem map (f : α → β) (h : SameUnless refused x y) : SameUnless refused (x.map f) (y.map f) := by
  rcases h with ⟨err, rfl, herr⟩ | rfl
  · exact refuse herr _
  · exact refl refused _

theorem mapError {refused' : ε' → Prop} (f : ε → ε') (hf : ∀ err, refused err → refused' (f err))
    (h : SameUnless refused x y) : SameUnless refused' (x.mapError f) (y.mapError f) := by
  rcases h with ⟨err, rfl, herr⟩ | rfl
  · exact refuse (hf err herr) _
  · exact refl refused' _

/-- A check against a limit, and the same check against a larger one. -/
theorem exceed (err : Nat → ε) {n m : Nat} (h : n ≤ m) (herr : refused (err n)) (k : Nat)
    (x : Except ε α) : SameUnless refused (if n < k then .error (err n) else x)
      (if m < k then .error (err m) else x) := by
  by_cases hlarge : n < k
  · rw [if_pos hlarge]
    exact refuse herr _
  · rw [if_neg hlarge, if_neg (by omega)]
    exact refl refused x

end SameUnless
end

variable {limit limit' : Nat}

/-- Whether a construction is given up because a budget is spent. -/
def BuildError.Spends (limit : Nat) (err : BuildError) : Prop := err = .tooManyStates limit

namespace Numbering
variable {κ : Type} (space : KeySpace κ)

theorem visit_raise (h : limit ≤ limit') (s : Numbering κ) (key : κ) :
    SameUnless (BuildError.Spends limit) (s.visit space limit key) (s.visit space limit' key) := by
  unfold visit
  dsimp only
  cases space.dangling key with
  | true => exact .refl _ _
  | false =>
    cases s.numbers[space.code key]? with
    | some number => exact .refl _ _
    | none =>
      by_cases hfull : limit ≤ s.keys.size
      · simp only [if_pos hfull]
        exact .inl ⟨_, rfl, rfl⟩
      · have hroom : ¬ limit' ≤ s.keys.size := by omega
        simp only [if_neg hfull, if_neg hroom]
        exact .refl _ _

theorem visitRow_cons (limit : Nat) (key : κ) (n : Nat) (row : List (κ × Nat)) (s : Numbering κ) :
    visitRow space limit ((key, n) :: row) s =
      s.visit space limit key >>= fun found =>
        (visitRow space limit row found.2).map fun rest => ((found.1, n) :: rest.1, rest.2) := by
  rw [visitRow]
  cases s.visit space limit key with
  | error => rfl
  | ok found =>
    dsimp only [bind, Except.bind]
    cases visitRow space limit row found.2 <;> rfl

theorem visitRow_raise (h : limit ≤ limit') (row : List (κ × Nat)) (s : Numbering κ) :
    SameUnless (BuildError.Spends limit) (visitRow space limit row s)
      (visitRow space limit' row s) := by
  induction row generalizing s with
  | nil => exact .refl _ _
  | cons k row ih =>
    rw [visitRow_cons, visitRow_cons]
    exact (visit_raise space h s k.1).bind fun found _ => (ih found.2).map _

theorem writeRows_of_lt (limit : Nat) {i : Nat} {s : Numbering κ} (states : Array State)
    (hi : i < s.keys.size) : writeRows space limit i s states =
      visitRow space limit (space.row s.keys[i].1) s >>= fun row =>
        writeRows space limit (i + 1) row.2
          (states.push { transitions := rowTransitions (expandRuns row.1) }) := by
  rw [writeRows, dif_pos hi]
  split
  · next hrow =>
    rw [hrow]
    rfl
  · next hrow =>
    rw [hrow]
    rfl

theorem writeRows_raise (h : limit ≤ limit') (i : Nat) (s : Numbering κ) (states : Array State) :
    SameUnless (BuildError.Spends limit) (writeRows space limit i s states)
      (writeRows space limit' i s states) := by
  induction i, s, states using writeRows.induct space limit with
  | case1 i s states hi err hrow =>
    rw [writeRows_of_lt space limit states hi, writeRows_of_lt space limit' states hi]
    refine (visitRow_raise space h _ s).bind fun row hok => ?_
    rw [hrow] at hok
    cases hok
  | case2 i s states hi row s' hrow ih =>
    rw [writeRows_of_lt space limit states hi, writeRows_of_lt space limit' states hi]
    refine (visitRow_raise space h _ s).bind fun row' hok => ?_
    obtain rfl := Except.ok.inj (hrow.symm.trans hok)
    exact ih
  | case3 i s states hi =>
    rw [writeRows, writeRows, dif_neg hi, dif_neg hi]
    exact .refl _ _

theorem run_eq_map (limit : Nat) (start : Numbering κ) : run space limit start =
    (writeRows space limit 0 start #[]).map fun table => toAutomaton table.1 table.2 := by
  unfold run
  cases writeRows space limit 0 start #[] <;> rfl

theorem run_raise (h : limit ≤ limit') (start : Numbering κ) :
    SameUnless (BuildError.Spends limit) (run space limit start) (run space limit' start) := by
  rw [run_eq_map, run_eq_map]
  exact (writeRows_raise space h 0 start #[]).map _

end Numbering

namespace Automaton

theorem determinizeUpTo_raise (h : limit ≤ limit') (a : Automaton) :
    SameUnless (BuildError.Spends limit) (a.determinizeUpTo limit) (a.determinizeUpTo limit') := by
  unfold determinizeUpTo
  dsimp only
  split
  · exact .refl _ _
  · exact Numbering.run_raise _ h _

theorem complementUpTo_raise (h : limit ≤ limit') (a : Automaton) :
    SameUnless (BuildError.Spends limit) (a.complementUpTo limit) (a.complementUpTo limit') :=
  (determinizeUpTo_raise h a).map flip

theorem productUpTo_raise (h : limit ≤ limit') (a b : Automaton) :
    SameUnless (BuildError.Spends limit) (productUpTo a b limit) (productUpTo a b limit') :=
  Numbering.run_raise _ h _

theorem intersectUpTo_eq_bind (a b : Automaton) (limit : Nat) :
    a.intersectUpTo b limit = a.determinizeUpTo limit >>= fun da =>
      b.determinizeUpTo limit >>= fun db => (productUpTo da db limit).map prune := by
  unfold intersectUpTo
  cases a.determinizeUpTo limit with
  | error => rfl
  | ok da => cases b.determinizeUpTo limit <;> rfl

theorem intersectUpTo_raise (h : limit ≤ limit') (a b : Automaton) :
    SameUnless (BuildError.Spends limit) (a.intersectUpTo b limit) (a.intersectUpTo b limit') := by
  rw [intersectUpTo_eq_bind, intersectUpTo_eq_bind]
  exact (determinizeUpTo_raise h a).bind fun da _ => (determinizeUpTo_raise h b).bind fun db _ =>
    (productUpTo_raise h da db).map prune

end Automaton

end PatternAutomata
