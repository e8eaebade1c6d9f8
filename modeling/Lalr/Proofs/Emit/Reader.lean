import Lalr.Emit.Render
import Mathlib.Data.List.Basic
import Mathlib.Tactic.IntervalCases

/-! Reading emitted text back: numerals, string literals, lists and the rows of a table, each taken
from the front of a text. What was written out is read back as it was. -/
namespace Lalr.Emit

/-- Takes a value from the front of a text and leaves the rest. -/
abbrev Reader := StateT (List Char) Option

namespace Reader

variable {α β : Type}

def expect (text : String) : Reader Unit := fun cs =>
  (cs.dropPrefix? text.toList).map ((), ·)

def accepts (text : String) : Reader Bool := fun cs =>
  match cs.dropPrefix? text.toList with
  | some rest => some (true, rest)
  | none => some (false, cs)

def remaining : Reader Nat := fun cs => some (cs.length, cs)

/-- The value of a digit, and 16 for everything else. -/
def digit (c : Char) : Nat :=
  if 48 ≤ c.toNat ∧ c.toNat ≤ 57 then c.toNat - 48
  else if 97 ≤ c.toNat ∧ c.toNat ≤ 102 then c.toNat - 87
  else 16

def numeral (base : Nat) : Reader Nat := fun cs =>
  let digits := cs.takeWhile (digit · < base)
  if digits.isEmpty then none
  else some (digits.foldl (fun n c => base * n + digit c) 0, cs.drop digits.length)

def number : Reader Nat := numeral 10

def word : Reader UInt16 := do
  let n ← number
  if n < UInt16.size then return .ofNat n else failure

def pairOf (first : Reader α) (second : Reader β) : Reader (α × β) := do
  expect "("
  let a ← first
  expect ", "
  let b ← second
  expect ")"
  return (a, b)

def optionOf (item : Reader α) : Reader (Option α) := do
  if ← accepts "None" then return none
  else
    expect "Some("
    let a ← item
    expect ")"
    return some a

def itemsFrom (item : Reader α) : Nat → Reader (List α)
  | 0 => failure
  | fuel + 1 => do
    if ← accepts "]" then return []
    else
      expect ", "
      let first ← item
      let others ← itemsFrom item fuel
      return first :: others

/-- A list, from behind its opening bracket. It has no more items than characters. -/
def listOf (item : Reader α) : Reader (List α) := do
  if ← accepts "]" then return []
  else
    let first ← item
    let fuel ← remaining
    let others ← itemsFrom item fuel
    return first :: others

def rowsFrom (mark : Nat → String) (item : Reader α) : Nat → Nat → Reader (List (List α))
  | 0, _ => failure
  | fuel + 1, i => do
    if ← accepts "];\n" then return []
    else
      expect (mark i)
      let row ← listOf item
      expect ",\n"
      let others ← rowsFrom mark item fuel (i + 1)
      return row :: others

def rowsOf (mark : Nat → String) (item : Reader α) : Reader (List (List α)) := do
  let fuel ← remaining
  rowsFrom mark item fuel 0

def escape : Reader Char
  | '"' :: cs => some ('"', cs)
  | '\\' :: cs => some ('\\', cs)
  | 'n' :: cs => some ('\n', cs)
  | 'r' :: cs => some ('\r', cs)
  | 't' :: cs => some ('\t', cs)
  | '0' :: cs => some (Char.ofNat 0, cs)
  | 'u' :: '\x7b' :: cs => do
    let (code, cs) ← numeral 16 cs
    let (_, cs) ← expect "\x7d" cs
    return (Char.ofNat code, cs)
  | _ => none

def charsFrom : Nat → Reader (List Char)
  | fuel + 1, c :: cs =>
    if c = '"' then some ([], cs)
    else do
      let (c, cs) ← if c = '\\' then escape cs else some (c, cs)
      let (others, cs) ← charsFrom fuel cs
      return (c :: others, cs)
  | _, _ => none

def literal : Reader String := do
  expect "\""
  let fuel ← remaining
  let cs ← charsFrom fuel
  return .ofList cs

def value? (r : Reader α) (text : String) : Option α :=
  match r text.toList with
  | some (a, []) => some a
  | _ => none

def Delimited (text : List Char) : Prop := ∀ c ∈ text.head?, digit c = 16

/-- The text is read as this value, whatever follows it, unless that continues a numeral. -/
def Reads (r : Reader α) (text : List Char) (a : α) : Prop :=
  ∀ rest, Delimited rest → r (text ++ rest) = some (a, rest)

def Refuses (r : Reader α) : Prop := ∀ rest, r (']' :: rest) = none

variable {r : Reader α} {f : α → Reader β} {s t : List Char} {a : α} {b : β}

theorem Delimited.append (hs : Delimited s) (ht : Delimited t) : Delimited (s ++ t) := by
  cases s with
  | nil => exact ht
  | cons c cs => exact hs

theorem Reads.value?_eq {text : String} (h : Reads r text.toList a) : r.value? text = some a := by
  have all := h [] (by simp [Delimited])
  rw [List.append_nil] at all
  rw [value?, all]

theorem Reads.pure (a : α) : Reads (Pure.pure a : Reader α) [] a := fun _ _ => rfl

theorem Reads.bind (first : Reads r s a) (second : Reads (f a) t b) (delimited : Delimited t) :
    Reads (r >>= f) (s ++ t) b := by
  intro rest behind
  change (r (s ++ t ++ rest)).bind (fun x => f x.1 x.2) = _
  rw [List.append_assoc, first _ (delimited.append behind), Option.bind_some, second rest behind]

theorem Reads.map (h : Reads r s a) (g : α → β) : Reads (g <$> r) s (g a) := by
  intro rest behind
  change (r (s ++ rest)).bind (fun x => some (g x.1, x.2)) = _
  rw [h rest behind, Option.bind_some]

theorem expect_append (w : String) (rest : List Char) :
    expect w (w.toList ++ rest) = some ((), rest) := by
  rw [expect, List.dropPrefix?_append_of_beq _ (by simp), Option.map_some]

theorem accepts_append (w : String) (rest : List Char) :
    accepts w (w.toList ++ rest) = some (true, rest) := by
  rw [accepts, List.dropPrefix?_append_of_beq _ (by simp)]

/-- A text that begins with another character is not taken. -/
theorem accepts_of_ne {w : String} {c d : Char} {cs ds : List Char}
    (begins : w.toList = c :: cs) (other : d ≠ c) :
    accepts w (d :: ds) = some (false, d :: ds) := by
  rw [accepts, begins, List.dropPrefix?]
  simp [other]

theorem Reads.expect_bind {w : String} {g : Unit → Reader β} (h : Reads (g ()) t b) :
    Reads (expect w >>= g) (w.toList ++ t) b := by
  intro rest behind
  change (expect w (w.toList ++ t ++ rest)).bind (fun x => g x.1 x.2) = _
  rw [List.append_assoc, expect_append, Option.bind_some, h rest behind]

theorem Reads.accepts_bind {w : String} {g : Bool → Reader β} (h : Reads (g true) t b) :
    Reads (accepts w >>= g) (w.toList ++ t) b := by
  intro rest behind
  change (accepts w (w.toList ++ t ++ rest)).bind (fun x => g x.1 x.2) = _
  rw [List.append_assoc, accepts_append, Option.bind_some, h rest behind]

theorem Reads.skips_bind {w : String} {g : Bool → Reader β} {c d : Char} {cs : List Char}
    (begins : w.toList = c :: cs) (other : d ≠ c) (h : Reads (g false) (d :: t) b) :
    Reads (accepts w >>= g) (d :: t) b := by
  intro rest behind
  change (accepts w (d :: (t ++ rest))).bind (fun x => g x.1 x.2) = _
  rw [accepts_of_ne begins other, Option.bind_some]
  exact h rest behind

/-- As much fuel as there are characters is enough for what needs no more. -/
theorem Reads.remaining_bind {g : Nat → Reader β} (h : ∀ n, t.length ≤ n → Reads (g n) t b) :
    Reads (remaining >>= g) t b := by
  intro rest behind
  refine h _ ?_ rest behind
  rw [List.length_append]
  omega

/-- A value that is followed by a text that ends numerals. -/
theorem Reads.then_expect {w : String} {g : α → Unit → Reader β} {c : Char} {cs : List Char}
    (begins : w.toList = c :: cs) (ends : digit c = 16) (first : Reads r s a)
    (second : Reads (g a ()) t b) :
    Reads (r >>= fun a => expect w >>= g a) (s ++ (w.toList ++ t)) b := by
  refine first.bind second.expect_bind ?_
  rw [begins]
  intro d head
  cases head
  exact ends

theorem expect_refuses {w : String} {g : Unit → Reader β} {c : Char} {cs : List Char}
    (begins : w.toList = c :: cs) (other : c ≠ ']') : Refuses (expect w >>= g) := by
  intro rest
  change (expect w (']' :: rest)).bind (fun x => g x.1 x.2) = none
  rw [expect, begins, List.dropPrefix?]
  simp [other.symm]

theorem accepts_refuses {w : String} {g : Bool → Reader β} {c : Char} {cs : List Char}
    (begins : w.toList = c :: cs) (other : c ≠ ']') (h : Refuses (g false)) :
    Refuses (accepts w >>= g) := by
  intro rest
  change (accepts w (']' :: rest)).bind (fun x => g x.1 x.2) = none
  rw [accepts_of_ne begins other.symm, Option.bind_some]
  exact h rest

section Numeral

theorem digit_digitChar {d : Nat} (small : d < 16) : digit (Nat.digitChar d) = d := by
  interval_cases d <;> rfl

variable {base n : Nat}

/-- The digits of a number are read back as the number. -/
theorem toDigits_value (large : 1 < base) (small : base ≤ 16) (n : Nat) :
    (∀ c ∈ Nat.toDigits base n, digit c < base) ∧
      (Nat.toDigits base n).foldl (fun n c => base * n + digit c) 0 = n := by
  induction n using Nat.strongRecOn with
  | ind n ih =>
    by_cases less : n < base
    · rw [Nat.toDigits_of_lt_base less]
      have value := digit_digitChar (less.trans_le small)
      simp [value, less]
    · have rest := ih (n / base) (Nat.div_lt_self (by omega) large)
      have last := Nat.mod_lt n (Nat.zero_lt_of_lt large)
      have value := digit_digitChar (last.trans_le small)
      rw [Nat.toDigits_of_base_le large (by omega)]
      constructor
      · intro c member
        rw [List.mem_append, List.mem_singleton] at member
        rcases member with member | rfl
        · exact rest.1 c member
        · exact value.trans_lt last
      · rw [List.foldl_append, rest.2, List.foldl_cons, List.foldl_nil, value]
        exact Nat.div_add_mod n base

theorem takeWhile_append_of_delimited {digits rest : List Char} (small : base ≤ 16)
    (all : ∀ c ∈ digits, digit c < base) (behind : Delimited rest) :
    (digits ++ rest).takeWhile (digit · < base) = digits := by
  rw [List.takeWhile_append_of_pos (by simpa using all)]
  cases rest with
  | nil => simp
  | cons c cs =>
    have other : digit c = 16 := behind c rfl
    rw [List.takeWhile_cons_of_neg (by simp [other, small]), List.append_nil]

theorem Reads.numeral (large : 1 < base) (small : base ≤ 16) (n : Nat) :
    Reads (numeral base) (Nat.toDigits base n) n := by
  obtain ⟨digits, value⟩ := toDigits_value large small n
  intro rest behind
  rw [Reader.numeral, takeWhile_append_of_delimited small digits behind]
  simp [Nat.toDigits_ne_nil, value]

theorem Reads.number (n : Nat) : Reads number (toString n).toList n := by
  rw [show toString n = Nat.repr n from rfl, Nat.toList_repr]
  exact .numeral (by decide) (by decide) n

theorem Reads.word (w : UInt16) : Reads word (toString w.toNat).toList w := by
  intro rest behind
  change (Reader.number ((toString w.toNat).toList ++ rest)).bind _ = _
  rw [Reads.number _ rest behind, Option.bind_some]
  have small : w.toNat < UInt16.size := w.toNat_lt
  change (if w.toNat < UInt16.size then _ else _ : Reader UInt16) rest = _
  rw [if_pos small, UInt16.ofNat_toNat]
  rfl

theorem numeral_refuses (small : base ≤ 16) : Refuses (numeral base) := by
  intro rest
  have none : ¬ digit ']' < base := by
    rw [show digit ']' = 16 from rfl]
    omega
  simp [numeral, none]

end Numeral

theorem Refuses.bind (h : Refuses r) : Refuses (r >>= f) := by
  intro rest
  change (r (']' :: rest)).bind _ = none
  rw [h rest, Option.bind_none]

theorem Refuses.begins (refuses : Refuses r) (h : Reads r s a) :
    ∃ c cs, s = c :: cs ∧ c ≠ ']' := by
  cases s with
  | nil =>
    have nothing := h [']'] (fun c head => by cases head; rfl)
    rw [List.nil_append, refuses] at nothing
    cases nothing
  | cons c cs =>
    refine ⟨c, cs, rfl, fun bracket => ?_⟩
    have nothing := h [] (by simp [Delimited])
    rw [bracket, List.cons_append, refuses] at nothing
    cases nothing

theorem Reads.pairOf {first : Reader α} {second : Reader β} {a b : String} {x : α} {y : β}
    (left : Reads first a.toList x) (right : Reads second b.toList y) :
    Reads (pairOf first second) (Emit.pair a b).toList (x, y) := by
  have text : (Emit.pair a b).toList =
      "(".toList ++ (a.toList ++ (", ".toList ++ (b.toList ++ (")".toList ++ [])))) := by
    simp [Emit.pair]
  rw [text]
  refine .expect_bind (.then_expect rfl rfl left (.then_expect rfl rfl right (.pure _)))

theorem pairOf_refuses {first : Reader α} {second : Reader β} : Refuses (pairOf first second) :=
  expect_refuses rfl (by decide)

theorem Reads.optionOf {item : Reader α} {number : α → Nat} {o : Option α}
    (h : ∀ a ∈ o, Reads item (toString (number a)).toList a) :
    Reads (optionOf item) (optionalNumber (o.map number)).toList o := by
  cases o with
  | none =>
    have text : (optionalNumber none).toList = "None".toList ++ [] := rfl
    rw [Option.map_none, text]
    exact .accepts_bind (.pure none)
  | some a =>
    have text : (optionalNumber (some (number a))).toList =
        'S' :: ("ome(".toList ++ ((toString (number a)).toList ++ (")".toList ++ []))) := by
      simp [optionalNumber]
    rw [Option.map_some, text]
    refine .skips_bind rfl (by decide) ?_
    exact .expect_bind (w := "Some(") (.then_expect rfl rfl (h a rfl) (.pure _))

theorem optionOf_refuses {item : Reader α} : Refuses (optionOf item) := by
  refine accepts_refuses rfl (by decide) ?_
  exact expect_refuses (w := "Some(") rfl (by decide)

section List

variable {item : Reader α} {text : α → String} {xs : List α}

def following (texts : List String) : List Char :=
  texts.flatMap (fun t => ", ".toList ++ t.toList) ++ "]".toList

theorem toList_commaSeparated (t : String) (ts : List String) :
    (commaSeparated (t :: ts)).toList ++ "]".toList = t.toList ++ following ts := by
  induction ts generalizing t with
  | nil => simp [commaSeparated, following]
  | cons u us ih =>
    rw [commaSeparated, String.intercalate_cons_cons, ← commaSeparated, String.toList_append,
      String.toList_append, List.append_assoc, List.append_assoc, ih]
    simp [following]

theorem delimited_following (texts : List String) : Delimited (following texts) := by
  cases texts <;> (intro c head; cases head; rfl)

theorem length_lt_following (texts : List String) : texts.length < (following texts).length := by
  induction texts with
  | nil => decide
  | cons t ts ih => simp [following] at ih ⊢; omega

theorem Reads.itemsFrom (h : ∀ x ∈ xs, Reads item (text x).toList x) {fuel : Nat}
    (enough : xs.length < fuel) :
    Reads (itemsFrom item fuel) (following (xs.map text)) xs := by
  induction xs generalizing fuel with
  | nil =>
    obtain ⟨fuel, rfl⟩ := Nat.exists_eq_succ_of_ne_zero (Nat.ne_zero_of_lt enough)
    exact .accepts_bind (t := []) (.pure [])
  | cons x xs ih =>
    obtain ⟨fuel, rfl⟩ := Nat.exists_eq_succ_of_ne_zero (Nat.ne_zero_of_lt enough)
    have others := ih (fun y member => h y (List.mem_cons_of_mem x member))
      (Nat.lt_of_succ_lt_succ enough)
    have split : following ((x :: xs).map text) =
        ", ".toList ++ ((text x).toList ++ (following (xs.map text) ++ [])) := by
      simp [following]
    rw [split]
    refine .skips_bind (c := ']') rfl (by decide) (.expect_bind (w := ", ") ?_)
    refine (h x List.mem_cons_self).bind (others.bind (.pure _) (by simp [Delimited])) ?_
    rw [List.append_nil]
    exact delimited_following _

/-- A list of items, none of which begins with a bracket. -/
theorem Reads.listOf (xs : List α) (refuses : Refuses item)
    (h : ∀ x ∈ xs, Reads item (text x).toList x) :
    Reads (listOf item) ((commaSeparated (xs.map text)).toList ++ "]".toList) xs := by
  cases xs with
  | nil => exact .accepts_bind (t := []) (.pure [])
  | cons x xs =>
    have first := h x List.mem_cons_self
    have others := fun y member => h y (List.mem_cons_of_mem x member)
    have length := length_lt_following (xs.map text)
    rw [List.length_map] at length
    have all : Reads (item >>= fun a => remaining >>= fun fuel =>
        Reader.itemsFrom item fuel >>= fun others => Pure.pure (a :: others))
        ((text x).toList ++ (following (xs.map text) ++ [])) (x :: xs) := by
      refine first.bind (.remaining_bind fun fuel enough => ?_) ?_
      · rw [List.append_nil] at enough
        exact (Reads.itemsFrom others (length.trans_le enough)).bind (.pure _) (by simp [Delimited])
      · rw [List.append_nil]
        exact delimited_following _
    rw [List.map_cons, toList_commaSeparated, ← List.append_nil (following _)]
    obtain ⟨c, cs, begins, other⟩ := refuses.begins first
    rw [begins, List.cons_append] at all ⊢
    exact .skips_bind (c := ']') rfl other all

variable {mark : Nat → String} {xss : List (List α)}

def lines (mark : Nat → String) (i : Nat) (rows : List (List String)) : List Char :=
  (rows.zipIdx i).flatMap (fun e => (mark e.2).toList ++
    ((commaSeparated e.1).toList ++ "],\n".toList)) ++ "];\n".toList

theorem length_lt_lines (mark : Nat → String) (i : Nat) (rows : List (List String)) :
    rows.length < (lines mark i rows).length := by
  induction rows generalizing i with
  | nil => exact (by decide : 0 < "];\n".toList.length)
  | cons row rows ih =>
    have others := ih (i + 1)
    simp [lines] at others ⊢
    omega

theorem Reads.rowsFrom (marked : ∀ i, ∃ cs, (mark i).toList = ' ' :: cs)
    (refuses : Refuses item)
    (h : ∀ xs ∈ xss, ∀ x ∈ xs, Reads item (text x).toList x) {fuel : Nat}
    (enough : xss.length < fuel) (i : Nat) :
    Reads (rowsFrom mark item fuel i) (lines mark i (xss.map (·.map text))) xss := by
  induction xss generalizing fuel i with
  | nil =>
    obtain ⟨fuel, rfl⟩ := Nat.exists_eq_succ_of_ne_zero (Nat.ne_zero_of_lt enough)
    exact .accepts_bind (t := []) (.pure [])
  | cons xs xss ih =>
    obtain ⟨fuel, rfl⟩ := Nat.exists_eq_succ_of_ne_zero (Nat.ne_zero_of_lt enough)
    obtain ⟨cs, begins⟩ := marked i
    have first := Reads.listOf xs refuses (h xs List.mem_cons_self)
    have others := ih (fun ys member => h ys (List.mem_cons_of_mem xs member))
      (Nat.lt_of_succ_lt_succ enough) (i + 1)
    have split : lines mark i ((xs :: xss).map (·.map text)) = (mark i).toList ++
        (((commaSeparated (xs.map text)).toList ++ "]".toList) ++ (",\n".toList ++
          (lines mark (i + 1) (xss.map (·.map text)) ++ []))) := by
      simp [lines]
    rw [split, begins, List.cons_append]
    refine .skips_bind (c := ']') rfl (by decide) ?_
    rw [← List.cons_append, ← begins]
    exact .expect_bind (.then_expect rfl rfl first (others.bind (.pure _) (by simp [Delimited])))

/-- The lines of a table are read back row by row, and each has the mark of its number. -/
theorem Reads.rowsOf (marked : ∀ i, ∃ cs, (mark i).toList = ' ' :: cs) (refuses : Refuses item)
    (h : ∀ xs ∈ xss, ∀ x ∈ xs, Reads item (text x).toList x) :
    Reads (rowsOf mark item) (lines mark 0 (xss.map (·.map text))) xss := by
  refine .remaining_bind fun fuel enough => .rowsFrom marked refuses h ?_ 0
  have length := length_lt_lines mark 0 (xss.map (·.map text))
  rw [List.length_map] at length
  exact length.trans_le enough

end List

section Literal

open Text

/-- Hexadecimal digits between braces. -/
theorem escape_hexadecimal (c : Char) (rest : List Char) :
    escape ('u' :: '\x7b' :: ((hexadecimal c.toNat).toList ++ '\x7d' :: rest)) = some (c, rest) := by
  have code : numeral 16 ((hexadecimal c.toNat).toList ++ '\x7d' :: rest) =
      some (c.toNat, '\x7d' :: rest) := by
    rw [hexadecimal, String.toList_ofList]
    exact Reads.numeral (by decide) (by decide) _ _ fun d head => by cases head; rfl
  have close : expect "\x7d" ('\x7d' :: rest) = some ((), rest) := expect_append "\x7d" rest
  rw [escape, code]
  simp [close]

/-- A character stands for itself, unless an escape sequence stands for it. -/
theorem escapedChar_cases (c : Char) :
    (escapedChar c).toList = [c] ∧ c ≠ '"' ∧ c ≠ '\\' ∨
      ∃ e, (escapedChar c).toList = '\\' :: e ∧
        ∀ rest, escape (e ++ rest) = some (c, rest) := by
  unfold escapedChar
  split
  · next same => exact .inr ⟨['"'], rfl, fun _ => by rw [same]; rfl⟩
  split
  · next same => exact .inr ⟨['\\'], rfl, fun _ => by rw [same]; rfl⟩
  split
  · next same => exact .inr ⟨['n'], rfl, fun _ => by rw [same]; rfl⟩
  split
  · next same => exact .inr ⟨['r'], rfl, fun _ => by rw [same]; rfl⟩
  split
  · next same => exact .inr ⟨['t'], rfl, fun _ => by rw [same]; rfl⟩
  split
  · next same =>
    refine .inr ⟨['0'], rfl, fun _ => ?_⟩
    rw [← Char.ofNat_toNat c, same]
    rfl
  split
  · refine .inr ⟨'u' :: '\x7b' :: ((hexadecimal c.toNat).toList ++ ['\x7d']), ?_, fun rest => ?_⟩
    · simp
    · simpa using escape_hexadecimal c rest
  · next quote backslash _ _ _ _ _ => exact .inl ⟨by simp, quote, backslash⟩

theorem charsFrom_eq (cs : List Char) {fuel : Nat} (enough : cs.length < fuel) (rest : List Char) :
    charsFrom fuel (cs.flatMap (fun c => (escapedChar c).toList) ++ '"' :: rest) =
      some (cs, rest) := by
  induction cs generalizing fuel with
  | nil =>
    obtain ⟨fuel, rfl⟩ := Nat.exists_eq_succ_of_ne_zero (Nat.ne_zero_of_lt enough)
    rfl
  | cons c cs ih =>
    obtain ⟨fuel, rfl⟩ := Nat.exists_eq_succ_of_ne_zero (Nat.ne_zero_of_lt enough)
    have others := ih (Nat.lt_of_succ_lt_succ enough)
    rw [List.flatMap_cons, List.append_assoc]
    rcases escapedChar_cases c with ⟨plain, quote, backslash⟩ | ⟨e, escaped, value⟩
    · rw [plain, List.singleton_append, charsFrom, if_neg quote, if_neg backslash]
      change (charsFrom fuel _).bind _ = _
      rw [others, Option.bind_some]
      rfl
    · rw [escaped, List.cons_append, charsFrom, if_neg (by decide), if_pos rfl]
      change (escape _).bind (fun x => (charsFrom fuel x.2).bind _) = _
      rw [value, Option.bind_some, others, Option.bind_some]
      rfl

theorem length_le_escaped (cs : List Char) :
    cs.length ≤ (cs.flatMap fun c => (escapedChar c).toList).length := by
  induction cs with
  | nil => rfl
  | cons c cs ih =>
    rw [List.flatMap_cons, List.length_append, List.length_cons]
    rcases escapedChar_cases c with ⟨plain, -⟩ | ⟨e, escaped, -⟩
    · simp only [plain, List.length_singleton]
      omega
    · simp only [escaped, List.length_cons]
      omega

theorem Reads.literal (s : String) : Reads literal (quoted s).toList s := by
  have text : (quoted s).toList =
      "\"".toList ++ (s.toList.flatMap (fun c => (escapedChar c).toList) ++ "\"".toList) := by
    simp [quoted, String.toList_join, List.flatMap_map]
  rw [text]
  refine .expect_bind (.remaining_bind fun fuel enough => fun rest _ => ?_)
  have length := length_le_escaped s.toList
  rw [List.length_append, show "\"".toList.length = 1 from rfl] at enough
  rw [List.append_assoc]
  change (charsFrom fuel _).bind _ = _
  rw [show "\"".toList ++ rest = '"' :: rest from rfl, charsFrom_eq s.toList (by omega) rest,
    Option.bind_some]
  change some (String.ofList s.toList, rest) = _
  rw [String.ofList_toList]

theorem literal_refuses : Refuses literal := expect_refuses rfl (by decide)

end Literal

end Reader
end Lalr.Emit
