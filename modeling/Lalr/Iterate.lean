/-! Loops as single steps. A fixpoint is computed by repeating a step while there is more to
do; the number of steps allowed is computed from the input by each caller, so that the bound
of a loop can be stated beside what the loop computes. -/
namespace Lalr

/-- Repeat `step` while there is more to do, at most `fuel` times. -/
def iterate (more : σ → Bool) (step : σ → σ) : Nat → σ → σ
  | 0, s => s
  | fuel + 1, s => if more s then iterate more step fuel (step s) else s

/-- As `iterate`, with a step that may fail. A failure ends the loop. -/
def iterateExcept (more : σ → Bool) (step : σ → Except ε σ) : Nat → σ → Except ε σ
  | 0, s => .ok s
  | fuel + 1, s =>
    if more s then
      match step s with
      | .error e => .error e
      | .ok next => iterateExcept more step fuel next
    else .ok s

variable {more : σ → Bool}

/-- What every step keeps, the loop keeps. -/
theorem iterate_invariant {step : σ → σ} {P : σ → Prop}
    (keep : ∀ s, P s → more s = true → P (step s)) (fuel : Nat) (s : σ) (hs : P s) :
    P (iterate more step fuel s) := by
  induction fuel generalizing s with
  | zero => exact hs
  | succ fuel ih =>
    rw [iterate]
    split
    next h => exact ih _ (keep _ hs h)
    next => exact hs

theorem iterateExcept_invariant {step : σ → Except ε σ} {P : σ → Prop}
    (keep : ∀ s t, P s → more s = true → step s = .ok t → P t) (fuel : Nat) (s : σ)
    (hs : P s) {t : σ} (ht : iterateExcept more step fuel s = .ok t) : P t := by
  induction fuel generalizing s with
  | zero => cases ht; exact hs
  | succ fuel ih =>
    rw [iterateExcept] at ht
    split at ht
    next h =>
      split at ht
      next => cases ht
      next next hn => exact ih _ (keep _ _ hs h hn) ht
    next => cases ht; exact hs

/-- A loop fails at a step, which was taken from what every step keeps. -/
theorem exists_of_iterateExcept_eq_error {step : σ → Except ε σ} {P : σ → Prop}
    (keep : ∀ s t, P s → more s = true → step s = .ok t → P t) (fuel : Nat) (s : σ) (hs : P s)
    {e : ε} (failed : iterateExcept more step fuel s = .error e) :
    ∃ t, P t ∧ more t = true ∧ step t = .error e := by
  induction fuel generalizing s with
  | zero => cases failed
  | succ fuel ih =>
    rw [iterateExcept] at failed
    split at failed
    next h =>
      split at failed
      next here =>
        cases failed
        exact ⟨s, hs, h, here⟩
      next next hn => exact ih _ (keep _ _ hs h hn) failed
    next => cases failed

/-- A loop whose steps decrease `measure` is done once `measure` steps are allowed. -/
theorem more_iterate_eq_false {step : σ → σ} {P : σ → Prop} (measure : σ → Nat)
    (keep : ∀ s, P s → more s = true → P (step s) ∧ measure (step s) < measure s)
    (fuel : Nat) (s : σ) (hs : P s) (enough : measure s ≤ fuel) :
    more (iterate more step fuel s) = false := by
  induction fuel generalizing s with
  | zero =>
    rw [iterate, Bool.eq_false_iff]
    intro h
    have := (keep _ hs h).2
    omega
  | succ fuel ih =>
    rw [iterate]
    split
    next h =>
      obtain ⟨kept, less⟩ := keep _ hs h
      exact ih _ kept (by omega)
    next h => simpa using h

/-- A loop that is allowed enough steps is done, and keeps what its steps keep. -/
theorem iterate_done {step : σ → σ} {P : σ → Prop} (measure : σ → Nat)
    (keep : ∀ s, P s → more s = true → P (step s) ∧ measure (step s) < measure s)
    {fuel : Nat} {s : σ} (hs : P s) (enough : measure s ≤ fuel) :
    P (iterate more step fuel s) ∧ more (iterate more step fuel s) = false :=
  ⟨iterate_invariant (fun s h ongoing => (keep s h ongoing).1) fuel s hs,
    more_iterate_eq_false measure keep fuel s hs enough⟩

theorem more_iterateExcept_eq_false {step : σ → Except ε σ} {P : σ → Prop} (measure : σ → Nat)
    (keep : ∀ s t, P s → more s = true → step s = .ok t → P t ∧ measure t < measure s)
    (positive : ∀ s, P s → more s = true → 0 < measure s)
    (fuel : Nat) (s : σ) (hs : P s) (enough : measure s ≤ fuel) {t : σ}
    (ht : iterateExcept more step fuel s = .ok t) : more t = false := by
  induction fuel generalizing s with
  | zero =>
    cases ht
    rw [Bool.eq_false_iff]
    intro h
    have := positive _ hs h
    omega
  | succ fuel ih =>
    rw [iterateExcept] at ht
    split at ht
    next h =>
      split at ht
      next => cases ht
      next next hn =>
        obtain ⟨kept, less⟩ := keep _ _ hs h hn
        exact ih _ kept (by omega) ht
    next h => cases ht; simpa using h

/-- The loop takes some number of steps, none of them when it was done. -/
theorem iterate_eq_repeat (more : σ → Bool) (step : σ → σ) (fuel : Nat) (s : σ) :
    ∃ n, n ≤ fuel ∧ iterate more step fuel s = n.repeat step s ∧
      ∀ k, k < n → more (k.repeat step s) = true := by
  induction fuel generalizing s with
  | zero => exact ⟨0, Nat.le_refl _, rfl, fun _ h => absurd h (by omega)⟩
  | succ fuel ih =>
    rw [iterate]
    split
    next h =>
      obtain ⟨n, le, eq, ongoing⟩ := ih (step s)
      have shift (k : Nat) : k.repeat step (step s) = (k + 1).repeat step s := by
        induction k with
        | zero => rfl
        | succ k ihk => rw [Nat.repeat, ihk]; rfl
      refine ⟨n + 1, by omega, by rw [eq, shift], fun k hk => ?_⟩
      cases k with
      | zero => exact h
      | succ k => rw [← shift]; exact ongoing k (by omega)
    next => exact ⟨0, by omega, rfl, fun _ h => absurd h (by omega)⟩

theorem map_eq_ok {x : Except ε α} {f : α → β} {b : β} (h : x.map f = .ok b) :
    ∃ a, x = .ok a ∧ f a = b := by
  cases x with
  | error e => cases h
  | ok a => exact ⟨a, rfl, Except.ok.inj h⟩

theorem map_eq_error {x : Except ε α} {f : α → β} {e : ε} (h : x.map f = .error e) :
    x = .error e := by
  cases x with
  | error e' => cases h; rfl
  | ok a => cases h

theorem bind_eq_ok {x : Except ε α} {f : α → Except ε β} {b : β} (h : x >>= f = .ok b) :
    ∃ a, x = .ok a ∧ f a = .ok b := by
  cases x with
  | error e => cases h
  | ok a => exact ⟨a, rfl, h⟩

end Lalr
