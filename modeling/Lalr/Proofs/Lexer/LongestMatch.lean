import Lalr.Lexer.Dfa

/-! What deterministic automata accept, and that their longest matches are the longest words
accepted. -/
namespace Lalr.Lexer.Dfa

variable {d : Dfa} {i j length : Nat} {b : UInt8} {u v w input : List UInt8} {t : TerminalId}
  {best : Option (TerminalId × Nat)}

def run (d : Dfa) (i : Nat) : List UInt8 → Option Nat
  | [] => some i
  | b :: rest => (d.next i b).bind fun j => d.run j rest

def token (d : Dfa) (i : Nat) (w : List UInt8) : Option TerminalId :=
  (d.run i w).bind fun j => (d.state j).accept

theorem run_append : d.run i (u ++ v) = (d.run i u).bind fun j => d.run j v := by
  induction u generalizing i with
  | nil => rfl
  | cons b rest ih =>
    rw [List.cons_append, run, run, Option.bind_assoc]
    exact congrArg _ (funext fun j => ih)

theorem run_singleton : d.run i [b] = d.next i b := by
  simp [run]

theorem token_eq_join : d.token i w = ((d.run i w).map fun j => (d.state j).accept).join := by
  rw [token, ← Option.bind_id_eq_join, Option.bind_map]
  rfl

theorem token_append : d.token i (u ++ v) = (d.run i u).bind fun j => d.token j v := by
  simp only [token, run_append, Option.bind_assoc]

theorem token_cons (there : d.next i b = some j) : d.token i (b :: w) = d.token j w := by
  simp only [token, run, there, Option.bind_some, token]

theorem token_cons_of_next_eq_none (stuck : d.next i b = none) : d.token i (b :: w) = none := by
  simp only [token, run, stuck, Option.bind_none, Option.bind_none]

/-- Where a byte leads to an accepting state, the bytes read so far are the best match. -/
theorem matchFrom_cons (there : d.next i b = some j) (rest : List UInt8) :
    d.matchFrom i length best (b :: rest) = d.matchFrom j (length + 1)
      (((d.state j).accept.map fun t => (t, length + 1)).or best) rest := by
  rw [matchFrom, there]
  dsimp only
  cases (d.state j).accept with
  | some t => rfl
  | none => rfl

/-- The longest prefix of `input` that is accepted and not empty has `l` bytes and the token
`t`. -/
structure IsLongest (d : Dfa) (i : Nat) (input : List UInt8) (t : TerminalId) (l : Nat) :
    Prop where
  pos : 1 ≤ l
  le : l ≤ input.length
  accepted : d.token i (input.take l) = some t
  longest : ∀ m, l < m → m ≤ input.length → d.token i (input.take m) = none

def NoMatch (d : Dfa) (i : Nat) (input : List UInt8) : Prop :=
  ∀ m, 1 ≤ m → m ≤ input.length → d.token i (input.take m) = none

/-- A run ends with the longest match, or with the best one before it if there is none. -/
theorem matchFrom_spec (d : Dfa) (i length : Nat) (best : Option (TerminalId × Nat))
    (input : List UInt8) :
    (∃ t l, d.IsLongest i input t l ∧ d.matchFrom i length best input = some (t, length + l)) ∨
      d.NoMatch i input ∧ d.matchFrom i length best input = best := by
  induction input generalizing i length best with
  | nil =>
    refine .inr ⟨fun m pos le => ?_, rfl⟩
    exact absurd pos (by simpa using le)
  | cons b rest ih =>
    cases there : d.next i b with
    | none =>
      refine .inr ⟨fun m pos _ => ?_, by rw [matchFrom, there]⟩
      obtain ⟨m, rfl⟩ := Nat.exists_eq_add_of_le' pos
      exact token_cons_of_next_eq_none there
    | some j =>
      -- Prefixes of the rest are prefixes of the input behind the first byte.
      have shift (m : Nat) : d.token i ((b :: rest).take (m + 1)) = d.token j (rest.take m) :=
        token_cons there
      have first : d.token i ((b :: rest).take 1) = (d.state j).accept := shift 0
      rw [matchFrom_cons there]
      rcases ih j (length + 1) (((d.state j).accept.map fun t => (t, length + 1)).or best) with
        ⟨t, l, h, result⟩ | ⟨unmatched, result⟩
      · refine .inl ⟨t, l + 1, ⟨by omega, Nat.succ_le_succ h.le, ?_, fun m less le => ?_⟩, ?_⟩
        · simp only [shift, h.accepted]
        · obtain ⟨m, rfl⟩ := Nat.exists_eq_add_of_le' (Nat.zero_lt_of_lt less)
          rw [shift]
          exact h.longest m (Nat.lt_of_succ_lt_succ less) (Nat.le_of_succ_le_succ le)
        · simp only [result, Nat.add_assoc, Nat.add_comm 1]
      · rw [result]
        have later (m : Nat) (less : 1 < m) (le : m ≤ (b :: rest).length) :
            d.token i ((b :: rest).take m) = none := by
          obtain ⟨m, rfl⟩ := Nat.exists_eq_add_of_le' (Nat.le_of_lt less)
          rw [shift]
          exact unmatched m (Nat.le_of_lt_succ less) (Nat.le_of_succ_le_succ le)
        cases accepts : (d.state j).accept with
        | some t =>
          exact .inl ⟨t, 1, ⟨Nat.le_refl 1, by simp, first.trans accepts, later⟩, rfl⟩
        | none =>
          refine .inr ⟨fun m pos le => ?_, rfl⟩
          rcases Nat.lt_or_eq_of_le pos with less | rfl
          · exact later m less le
          · exact first.trans accepts

/-- An automaton without states matches nothing. -/
theorem longestMatch_eq_matchFrom (d : Dfa) (input : List UInt8) :
    d.longestMatch input = d.matchFrom 0 0 none input := by
  rw [longestMatch]
  split
  · next empty =>
    have stuck (b : UInt8) : d.next 0 b = none := by
      rw [next, state, Array.isEmpty_iff.1 empty]
      rfl
    cases input with
    | nil => rfl
    | cons b rest => rw [matchFrom, stuck]
  · rfl

theorem IsLongest.unique {t' : TerminalId} {l l' : Nat} (first : d.IsLongest i input t l)
    (second : d.IsLongest i input t' l') : t = t' ∧ l = l' := by
  have le {t t' : TerminalId} {l l' : Nat} (one : d.IsLongest i input t l)
      (other : d.IsLongest i input t' l') : l ≤ l' := by
    apply Nat.le_of_not_lt
    intro less
    have := one.accepted
    rw [other.longest l less one.le] at this
    cases this
  obtain rfl := Nat.le_antisymm (le first second) (le second first)
  exact ⟨Option.some.inj (first.accepted.symm.trans second.accepted), rfl⟩

theorem IsLongest.not_noMatch {l : Nat} (h : d.IsLongest i input t l) : ¬ d.NoMatch i input := by
  intro unmatched
  have := h.accepted
  rw [unmatched l h.pos h.le] at this
  cases this

theorem longestMatch_eq_some_iff {l : Nat} :
    d.longestMatch input = some (t, l) ↔ d.IsLongest 0 input t l := by
  rw [longestMatch_eq_matchFrom]
  rcases matchFrom_spec d 0 0 none input with ⟨t', l', h, result⟩ | ⟨unmatched, result⟩
  · rw [result, Nat.zero_add]
    constructor
    · rintro ⟨⟩
      exact h
    · intro h'
      obtain ⟨rfl, rfl⟩ := h.unique h'
      rfl
  · rw [result]
    exact ⟨nofun, fun h => absurd unmatched h.not_noMatch⟩

theorem longestMatch_eq_none_iff : d.longestMatch input = none ↔ d.NoMatch 0 input := by
  rw [longestMatch_eq_matchFrom]
  rcases matchFrom_spec d 0 0 none input with ⟨t, l, h, result⟩ | ⟨unmatched, result⟩
  · rw [result]
    exact ⟨nofun, fun unmatched => absurd unmatched h.not_noMatch⟩
  · exact ⟨fun _ => unmatched, fun _ => result⟩

/-- How many bytes matches cover. -/
@[simp]
def covered : List (TerminalId × Nat) → Nat
  | [] => 0
  | (_, length) :: rest => length + covered rest

/-- As many matches as there are bytes are enough: a scan stops where nothing is matched. -/
theorem longestMatch_drop_scanFrom {fuel : Nat} (enough : input.length ≤ fuel) :
    d.longestMatch (input.drop (covered (scan.scanFrom d fuel input))) = none := by
  induction fuel generalizing input with
  | zero =>
    obtain rfl := List.eq_nil_of_length_eq_zero (Nat.le_zero.1 enough)
    exact longestMatch_eq_none_iff.2 fun m pos le => absurd pos (by simpa using le)
  | succ fuel ih =>
    rw [scan.scanFrom]
    cases found : d.longestMatch input with
    | none => exact found
    | some first =>
      obtain ⟨t, l⟩ := first
      have pos := (longestMatch_eq_some_iff.1 found).pos
      rw [covered, ← List.drop_drop]
      refine ih ?_
      rw [List.length_drop]
      omega

theorem longestMatch_drop_scan (d : Dfa) (input : List UInt8) :
    d.longestMatch (input.drop (covered (d.scan input))) = none :=
  longestMatch_drop_scanFrom (Nat.le_refl _)

end Lalr.Lexer.Dfa
