import Lalr.Iterate
import Lalr.OrderedMap

/-! Loops whose steps look things up. A step that misses what it looks up ends the loop with
nothing; one that always finds it does the same as a step that cannot miss. -/
namespace Lalr

variable {more : σ → Bool}

/-- As `iterate`, with steps that may miss something. -/
def iterate? (more : σ → Bool) (step? : σ → Option σ) : Nat → σ → Option σ
  | 0, s => some s
  | fuel + 1, s => if more s then (step? s).bind (iterate? more step? fuel) else some s

def iterateExcept? (more : σ → Bool) (step? : σ → Option (Except ε σ)) :
    Nat → σ → Option (Except ε σ)
  | 0, s => some (.ok s)
  | fuel + 1, s =>
    if more s then
      (step? s).bind fun
        | .error e => some (.error e)
        | .ok next => iterateExcept? more step? fuel next
    else some (.ok s)

/-- If steps find what they look up as long as `P` holds, and keep it, then so does the loop. -/
theorem iterate?_eq {step? : σ → Option σ} {step : σ → σ} {P : σ → Prop}
    (keep : ∀ s, P s → more s = true → step? s = some (step s) ∧ P (step s)) (fuel : Nat) {s : σ}
    (hs : P s) : iterate? more step? fuel s = some (iterate more step fuel s) := by
  induction fuel generalizing s with
  | zero => rfl
  | succ fuel ih =>
    rw [iterate?, iterate]
    split
    · next ongoing =>
      obtain ⟨found, kept⟩ := keep s hs ongoing
      rw [found, Option.bind_some, ih kept]
    · rfl

theorem iterateExcept?_eq {step? : σ → Option (Except ε σ)} {step : σ → Except ε σ}
    {P : σ → Prop} (keep : ∀ s, P s → more s = true →
      step? s = some (step s) ∧ ∀ t, step s = .ok t → P t) (fuel : Nat) {s : σ} (hs : P s) :
    iterateExcept? more step? fuel s = some (iterateExcept more step fuel s) := by
  induction fuel generalizing s with
  | zero => rfl
  | succ fuel ih =>
    rw [iterateExcept?, iterateExcept]
    split
    · next ongoing =>
      obtain ⟨found, kept⟩ := keep s hs ongoing
      rw [found, Option.bind_some]
      cases next : step s with
      | error e => rfl
      | ok t => exact ih (kept t next)
    · rfl

theorem foldlM_eq {f? : σ → α → Option σ} {f : σ → α → σ} {P : σ → Prop} {xs : List α}
    (keep : ∀ s, ∀ x ∈ xs, P s → f? s x = some (f s x) ∧ P (f s x)) {s : σ} (hs : P s) :
    xs.foldlM f? s = some (xs.foldl f s) ∧ P (xs.foldl f s) := by
  induction xs generalizing s with
  | nil => exact ⟨rfl, hs⟩
  | cons x rest ih =>
    obtain ⟨found, kept⟩ := keep s x (List.mem_cons_self ..) hs
    rw [List.foldlM_cons, found, List.foldl_cons]
    exact ih (fun t y member => keep t y (List.mem_cons_of_mem _ member)) kept

theorem mapM_eq {f? : α → Option β} {f : α → β} {xs : List α}
    (found : ∀ x ∈ xs, f? x = some (f x)) : xs.mapM f? = some (xs.map f) := by
  induction xs with
  | nil => rfl
  | cons x rest ih =>
    rw [List.mapM_cons, found x (List.mem_cons_self ..),
      ih fun y member => found y (List.mem_cons_of_mem _ member)]
    rfl

theorem filterM_eq {α : Type} {p? : α → Option Bool} {p : α → Bool} {xs : List α}
    (found : ∀ x ∈ xs, p? x = some (p x)) : xs.filterM p? = some (xs.filter p) := by
  have passed (acc : List α) : xs.filterAuxM p? acc = some ((xs.filter p).reverse ++ acc) := by
    induction xs generalizing acc with
    | nil => rfl
    | cons x rest ih =>
      rw [List.filterAuxM, found x (List.mem_cons_self ..), List.filter_cons]
      simp only [bind, Option.bind_some]
      rw [ih fun y member => found y (List.mem_cons_of_mem _ member)]
      cases p x <;> simp
  rw [List.filterM, passed]
  simp

theorem filterMapM_eq {f? : α → Option (Option β)} {f : α → Option β} {xs : List α}
    (found : ∀ x ∈ xs, f? x = some (f x)) : xs.filterMapM f? = some (xs.filterMap f) := by
  induction xs with
  | nil => rfl
  | cons x rest ih =>
    rw [List.filterMapM_cons, found x (List.mem_cons_self ..),
      ih fun y member => found y (List.mem_cons_of_mem _ member), List.filterMap_cons]
    cases f x <;> rfl

theorem findM?_eq {p? : α → Option Bool} {p : α → Bool} {xs : List α}
    (found : ∀ x ∈ xs, p? x = some (p x)) : xs.findM? p? = some (xs.find? p) := by
  induction xs with
  | nil => rfl
  | cons x rest ih =>
    rw [List.findM?, found x (List.mem_cons_self ..), List.find?_cons]
    cases p x with
    | false => exact ih fun y member => found y (List.mem_cons_of_mem _ member)
    | true => rfl

def OrderedMap.mapValues? {κ : Type u} {α : Type v} {β : Type w} [DecidableEq κ]
    (f? : κ → α → Option β) (m : OrderedMap κ α) : Option (OrderedMap κ β) :=
  (m.toList.mapM fun e => (f? e.1 e.2).map (e.1, ·)).map .ofList

theorem OrderedMap.mapValues?_eq {κ : Type u} {α : Type v} {β : Type w} [DecidableEq κ]
    {f? : κ → α → Option β} {f : κ → α → β} {m : OrderedMap κ α}
    (found : ∀ k a, m.get? k = some a → f? k a = some (f k a)) :
    m.mapValues? f? = some (m.mapValues f) := by
  have entries : m.toList.mapM (fun e => (f? e.1 e.2).map (e.1, ·)) =
      some (m.mapValues f).toList := by
    refine mapM_eq fun e member => ?_
    rw [found e.1 e.2 (OrderedMap.mem_toList_iff.1 member), Option.map_some]
  have same : OrderedMap.ofList (m.mapValues f).toList = m.mapValues f := by
    have toList := OrderedMap.toList_ofList (m.mapValues f).nodup
    cases listed : OrderedMap.ofList (m.mapValues f).toList
    rw [listed] at toList
    subst toList
    rfl
  rw [mapValues?, entries, Option.map_some, same]

end Lalr
