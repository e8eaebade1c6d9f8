import Lalr.Pipeline
import Lalr.Proofs.Emit.Template
import Lalr.Proofs.First.Returned
import Mathlib.Algebra.Group.Nat.Even
import Mathlib.Data.List.DropRight

/-! Rendering against a scan of the template that looks for a placeholder at each place and goes
on by one character where there is none. Rendering skips both of two `#` that begin no placeholder,
the second of which may be the first of one that does. The results are the same for templates in
which an even number of `#` stands directly before each placeholder. -/
namespace Lalr.Emit

variable {c : Char} {cs rest after : List Char} {q : Placeholder}

def Placeholder.text (q : Placeholder) : List Char := '#' :: '#' :: (q.name.toList ++ ['#', '#'])

/-- The placeholder that a text begins with, its letters in any case. -/
def placeholderAt? (cs : List Char) : Option Placeholder :=
  Placeholder.all.find? fun q => (cs.take q.text.length).map Placeholder.upper == q.text

/-- The parts of a template, looked for at each place: where there is a placeholder, it is taken
as a whole, elsewhere one character. -/
def scan : List Char → List Segment
  | [] => []
  | c :: cs =>
    match placeholderAt? (c :: cs) with
    | some q => .placeholder q :: scan ((c :: cs).drop q.text.length)
    | none => .char c :: scan cs
termination_by cs => cs.length
decreasing_by
  · simp only [List.length_drop, List.length_cons, Placeholder.text]
    omega
  · simp

def Parts.fill (p : Parts) (parts : List Segment) : String := String.join (parts.map p.segmentText)

def hashes (parts : List Segment) : Nat := (parts.rtakeWhile (· = .char '#')).length

/-- An even number of `#` stands directly before each placeholder. -/
def EvenHashes (parts : List Segment) : Prop :=
  ∀ front q back, parts = front ++ .placeholder q :: back → Even (hashes front)

namespace Placeholder

theorem upper_eq_hash (h : upper c = '#') : c = '#' := by
  unfold upper at h
  split at h
  · next small =>
    have letters : ∀ n ∈ List.range' 97 26, Char.ofNat (n - 32) ≠ '#' := by decide
    exact absurd h (letters c.toNat (by rw [List.mem_range'_1]; omega))
  · exact h

theorem isNameChar_of_upper (h : isNameChar (upper c) = true) : isNameChar c = true := by
  unfold upper at h
  split at h
  · next small => simp [isNameChar, Text.isAsciiLetter, small]
  · exact h

theorem isNameChar_of_mem_name (q : Placeholder) : ∀ c ∈ q.name.toList, isNameChar c = true := by
  have all : q.name.toList.all isNameChar = true := by cases q <;> decide
  exact List.all_eq_true.1 all

theorem ofName?_eq_some_iff {name : List Char} :
    ofName? name = some q ↔ name.map upper = q.name.toList := by
  constructor
  · intro found
    have holds := List.find?_some (show all.find? _ = some q from found)
    exact (beq_iff_eq.1 holds).symm
  · intro same
    rw [ofName?, same]
    cases q <;> rfl

end Placeholder

/-- A placeholder is read if its name in any case and two `#` come next. -/
theorem placeholder?_eq_some_iff : placeholder? cs = some (q, rest) ↔
    ∃ name, cs = name ++ '#' :: '#' :: rest ∧ name.map Placeholder.upper = q.name.toList := by
  constructor
  · intro found
    unfold placeholder? at found
    dsimp only at found
    split at found
    · next left eq =>
      obtain ⟨q', known, same⟩ := Option.map_eq_some_iff.1 found
      cases same
      refine ⟨cs.takeWhile isNameChar, ?_, Placeholder.ofName?_eq_some_iff.1 known⟩
      rw [← eq]
      exact (List.prefix_iff_eq_append.1 (List.takeWhile_prefix _)).symm
    · cases found
  · rintro ⟨name, rfl, same⟩
    have letters : ∀ c ∈ name, isNameChar c = true := by
      intro c member
      apply Placeholder.isNameChar_of_upper
      exact q.isNameChar_of_mem_name _ (same ▸ List.mem_map_of_mem member)
    have front : (name ++ '#' :: '#' :: rest).takeWhile isNameChar = name := by
      rw [List.takeWhile_append_of_pos letters]
      simp [isNameChar, Text.isAsciiLetter]
    unfold placeholder?
    dsimp only
    rw [front, List.drop_left]
    simp [Placeholder.ofName?_eq_some_iff.2 same]

/-- Where the scan finds a placeholder, reading behind its first two `#` finds it as well. -/
theorem exists_of_placeholderAt? (found : placeholderAt? cs = some q) :
    ∃ after, cs = '#' :: '#' :: after ∧ placeholder? after = some (q, cs.drop q.text.length) := by
  unfold placeholderAt? at found
  have holds := List.find?_some found
  have begins : (cs.take q.text.length).map Placeholder.upper = q.text := beq_iff_eq.1 holds
  rw [Placeholder.text, List.map_eq_cons_iff] at begins
  obtain ⟨a, as, front, first, begins⟩ := begins
  obtain ⟨b, bs, rfl, second, begins⟩ := List.map_eq_cons_iff.1 begins
  obtain ⟨name, ds, rfl, same, begins⟩ := List.map_eq_append_iff.1 begins
  obtain ⟨d, es, rfl, third, begins⟩ := List.map_eq_cons_iff.1 begins
  obtain ⟨e, fs, rfl, fourth, begins⟩ := List.map_eq_cons_iff.1 begins
  obtain rfl := List.map_eq_nil_iff.1 begins
  obtain rfl := Placeholder.upper_eq_hash first
  obtain rfl := Placeholder.upper_eq_hash second
  obtain rfl := Placeholder.upper_eq_hash third
  obtain rfl := Placeholder.upper_eq_hash fourth
  refine ⟨name ++ '#' :: '#' :: cs.drop q.text.length, ?_,
    placeholder?_eq_some_iff.2 ⟨name, rfl, same⟩⟩
  rw [← Placeholder.text] at front
  have whole := List.take_append_drop q.text.length cs
  rw [front] at whole
  simpa using whole.symm

/-- What is found behind two `#`, the scan finds at the first of them. -/
theorem placeholderAt?_of_placeholder? (found : placeholder? after = some (q, rest)) :
    placeholderAt? ('#' :: '#' :: after) = some q ∧
      ('#' :: '#' :: after).drop q.text.length = rest := by
  obtain ⟨name, rfl, same⟩ := placeholder?_eq_some_iff.1 found
  have length : q.text.length = name.length + 4 := by
    simp [Placeholder.text, ← same]
  have begins : (('#' :: '#' :: (name ++ '#' :: '#' :: rest)).take q.text.length).map
      Placeholder.upper = q.text := by
    have split : '#' :: '#' :: (name ++ '#' :: '#' :: rest) =
        ('#' :: '#' :: (name ++ ['#', '#'])) ++ rest := by simp
    rw [split, List.take_left' (by simp [length]), Placeholder.text, ← same]
    simp [Placeholder.upper]
  cases known : placeholderAt? ('#' :: '#' :: (name ++ '#' :: '#' :: rest)) with
  | none =>
    have absent := List.find?_eq_none.1 known q (by cases q <;> decide)
    exact absurd (beq_iff_eq.2 begins) absent
  | some q' =>
    obtain ⟨after, eq, found'⟩ := exists_of_placeholderAt? known
    cases eq
    obtain ⟨rfl, left⟩ : q = q' ∧ rest = _ := by simpa using found.symm.trans found'
    exact ⟨rfl, left.symm⟩

theorem scan_of_some (found : placeholder? after = some (q, rest)) :
    scan ('#' :: '#' :: after) = .placeholder q :: scan rest := by
  obtain ⟨here, behind⟩ := placeholderAt?_of_placeholder? found
  rw [scan, here]
  dsimp only
  rw [behind]

theorem scan_of_none (absent : placeholderAt? (c :: cs) = none) :
    scan (c :: cs) = .char c :: scan cs := by
  rw [scan, absent]

/-- How the parts that rendering reads go along with those of the scan: two `#` are read together,
and only where the second of them begins a placeholder do the parts differ. -/
inductive Beside : List Segment → List Segment → Prop where
  | nil : Beside [] []
  | placeholder (q : Placeholder) : Beside s t → Beside (.placeholder q :: s) (.placeholder q :: t)
  | char {c : Char} : c ≠ '#' → Beside s t → Beside (.char c :: s) (.char c :: t)
  | pair : Beside s t → Beside (.char '#' :: .char '#' :: s) (.char '#' :: .char '#' :: t)
  | last : Beside [.char '#'] [.char '#']
  | single {c : Char} : c ≠ '#' → Beside s t →
      Beside (.char '#' :: .char c :: s) (.char '#' :: .char c :: t)
  | hidden (q : Placeholder) :
      Beside (.char '#' :: .char '#' :: s) (.char '#' :: .placeholder q :: t)

theorem placeholderAt?_eq_none (other : ∀ after, cs ≠ '#' :: '#' :: after) :
    placeholderAt? cs = none := by
  cases found : placeholderAt? cs with
  | none => rfl
  | some q =>
    obtain ⟨after, eq, -⟩ := exists_of_placeholderAt? found
    exact absurd eq (other after)

theorem segments_of_other (other : ∀ after, c :: cs ≠ '#' :: '#' :: after) :
    segments (c :: cs) = .char c :: segments cs := by
  rw [segments]
  rintro after rfl rfl
  exact other after rfl

theorem segments_beside_scan (cs : List Char) : Beside (segments cs) (scan cs) := by
  fun_induction segments cs with
  | case1 after q left found ih =>
    rw [scan_of_some found]
    exact .placeholder q ih
  | case2 after absent ih =>
    have first : placeholderAt? ('#' :: '#' :: after) = none := by
      cases found : placeholderAt? ('#' :: '#' :: after) with
      | none => rfl
      | some q =>
        obtain ⟨_, eq, found'⟩ := exists_of_placeholderAt? found
        cases eq
        cases absent.symm.trans found'
    rw [scan_of_none first]
    cases found : placeholderAt? ('#' :: after) with
    | none =>
      rw [scan_of_none found]
      exact .pair ih
    | some q =>
      rw [scan, found]
      exact .hidden q
  | case3 c cs other ih =>
    have alone : placeholderAt? (c :: cs) = none := placeholderAt?_eq_none fun after eq => by
      cases eq
      exact other after rfl rfl
    rw [scan_of_none alone]
    by_cases hash : c = '#'
    · subst hash
      cases cs with
      | nil =>
        rw [segments, scan]
        exact .last
      | cons d cs =>
        have different : d ≠ '#' := fun same => other cs rfl (by rw [same])
        have apart : ∀ after, d :: cs ≠ '#' :: '#' :: after := fun after eq => by
          cases eq
          exact different rfl
        rw [segments_of_other apart, scan_of_none (placeholderAt?_eq_none apart)] at ih ⊢
        generalize segments cs = s, scan cs = t at ih ⊢
        cases ih with
        | char _ behind => exact .single different behind
        | _ => exact absurd rfl different
    · exact .char hash ih
  | case4 =>
    rw [scan]
    exact .nil

variable {s t block front parts : List Segment} {p : Parts}

/-- In front of an even number of `#`, nothing changes the parity at the end. -/
theorem even_hashes_append (even : Even (hashes block)) :
    Even (hashes (block ++ front)) ↔ Even (hashes front) := by
  unfold hashes List.rtakeWhile at *
  rw [List.reverse_append, List.takeWhile_append]
  split
  · next whole =>
    rw [List.length_reverse] at even ⊢
    rw [List.length_append, Nat.even_add, iff_true_right even, List.length_reverse,
      List.length_reverse, whole, List.length_reverse]
  · rfl

theorem EvenHashes.append_iff (block : List Segment) (here : EvenHashes block) (even : Even (hashes block)) :
    EvenHashes (block ++ parts) ↔ EvenHashes parts := by
  constructor
  · intro h front q back split
    have whole := h (block ++ front) q back (by rw [split, List.append_assoc])
    exact (even_hashes_append even).1 whole
  · intro h front q back split
    rcases List.append_eq_append_iff.1 split with ⟨mid, rfl, rest⟩ | ⟨mid, rfl, rest⟩
    · exact (even_hashes_append even).2 (h mid q back rest)
    · cases mid with
      | nil =>
        rw [List.append_nil] at *
        exact even
      | cons x mid =>
        cases rest
        exact here front q mid rfl

theorem evenHashes_chars (cs : List Char) : EvenHashes (cs.map .char) := by
  intro front q back split
  have member : Segment.placeholder q ∈ cs.map Segment.char := by simp [split]
  simp at member

theorem evenHashes_cons_placeholder : EvenHashes (.placeholder q :: parts) ↔ EvenHashes parts := by
  refine EvenHashes.append_iff [.placeholder q] (fun front q' back split => ?_) ?_
  · cases front with
    | nil => simp [hashes]
    | cons x front => simp at split
  · simp [hashes, List.rtakeWhile]

theorem evenHashes_cons_char (other : c ≠ '#') :
    EvenHashes (.char c :: parts) ↔ EvenHashes parts :=
  EvenHashes.append_iff [.char c] (evenHashes_chars [c])
    (by simp [hashes, List.rtakeWhile, other])

theorem evenHashes_cons_pair :
    EvenHashes (.char '#' :: .char '#' :: parts) ↔ EvenHashes parts :=
  EvenHashes.append_iff [.char '#', .char '#'] (evenHashes_chars ['#', '#'])
    ⟨1, by simp [hashes, List.rtakeWhile]⟩

theorem evenHashes_cons_single (other : c ≠ '#') :
    EvenHashes (.char '#' :: .char c :: parts) ↔ EvenHashes parts :=
  EvenHashes.append_iff [.char '#', .char c] (evenHashes_chars ['#', c])
    (by simp [hashes, List.rtakeWhile, other])

theorem Beside.eq_of_evenHashes (h : Beside s t) (even : EvenHashes t) : s = t := by
  induction h with
  | nil => rfl
  | placeholder q _ ih => rw [ih (evenHashes_cons_placeholder.1 even)]
  | char other _ ih => rw [ih ((evenHashes_cons_char other).1 even)]
  | pair _ ih => rw [ih (evenHashes_cons_pair.1 even)]
  | last => rfl
  | single other _ ih => rw [ih ((evenHashes_cons_single other).1 even)]
  | hidden q =>
    have one := even [.char '#'] q _ rfl
    simp [hashes, List.rtakeWhile] at one

/-- No expansion is empty or begins with `#`. -/
def Parts.Visible (p : Parts) : Prop :=
  ∀ q, ∃ c, (p.expand q).toList.head? = some c ∧ c ≠ '#'

theorem Parts.fill_append (s t : List Segment) : p.fill (s ++ t) = p.fill s ++ p.fill t := by
  simp [Parts.fill]

theorem Parts.fill_cancel (block : List Segment) (same : p.fill (block ++ s) = p.fill (block ++ t)) :
    p.fill s = p.fill t := by
  rw [fill_append, fill_append] at same
  have lists := congrArg String.toList same
  rw [String.toList_append, String.toList_append] at lists
  exact String.toList_inj.1 (List.append_cancel_left lists)

theorem Beside.evenHashes_of_fill (h : Beside s t) (visible : p.Visible)
    (same : p.fill s = p.fill t) : EvenHashes t := by
  induction h with
  | nil => exact evenHashes_chars []
  | placeholder q _ ih =>
    exact evenHashes_cons_placeholder.2 (ih (p.fill_cancel [.placeholder q] same))
  | @char _ _ c other _ ih =>
    exact (evenHashes_cons_char other).2 (ih (p.fill_cancel [.char c] same))
  | pair _ ih =>
    exact evenHashes_cons_pair.2 (ih (p.fill_cancel [.char '#', .char '#'] same))
  | last => exact evenHashes_chars ['#']
  | @single _ _ c other _ ih =>
    exact (evenHashes_cons_single other).2
      (ih (p.fill_cancel [.char '#', .char c] same))
  | hidden q =>
    have behind := p.fill_cancel [.char '#'] same
    obtain ⟨c, first, other⟩ := visible q
    have heads := congrArg (fun text => text.toList.head?) behind
    simp [Parts.fill, Parts.segmentText, List.head?_append, first] at heads
    exact absurd heads.symm other

theorem Parts.render_eq_fill (template : String) :
    p.render template = p.fill (segments template.toList) := render_eq template

def codeEverywhere : List Declaration :=
  [.terminal "A" none, .nonterminal "S", .rule ⟨1⟩ [.terminal ⟨3⟩] none, .token ⟨3⟩ "a",
    .terminalAction ⟨3⟩ "x", .action ⟨1⟩ "y", .header "h", .footer "f"]

/-- The parts that a run of all stages gives for a grammar. -/
structure Parts.Generated (p : Parts) : Prop where
  returned : p.grammar.Returned
  table : (generate p.grammar true).table = some p.table
  dfa : (generate p.grammar true).dfa = some p.dfa

theorem head?_append_left {a b : String} (first : a.toList.head? = some c) :
    (a ++ b).toList.head? = some c := by
  rw [String.toList_append, List.head?_append, first, Option.some_or]

theorem head?_tables (p : Parts) : p.tables.toList.head? = some 's' := by
  unfold Parts.tables
  dsimp only
  iterate 12 refine head?_append_left ?_
  decide +kernel

theorem head?_dfaTables (p : Parts) : p.dfaTables.toList.head? = some 's' := by
  unfold Parts.dfaTables
  dsimp only
  iterate 8 refine head?_append_left ?_
  decide +kernel

theorem head?_labels (p : Parts) : p.labels.toList.head? = some 's' := by
  unfold Parts.labels
  dsimp only
  iterate 5 refine head?_append_left ?_
  decide +kernel

theorem exists_visible : ∃ p : Parts,
    p.grammar = (Builder.initial.declareAll codeEverywhere).2.finish ∧ p.Generated ∧
      p.Visible := by
  let g := (Builder.initial.declareAll codeEverywhere).2.finish
  have done : ((generate g true).table.isSome && (generate g true).dfa.isSome) = true := by
    decide +kernel
  obtain ⟨⟨table, filled⟩, dfa, built⟩ := by
    simpa [Option.isSome_iff_exists] using done
  have header : (g.header.getD "pub type Value = ();").toList.head? = some 'h' := by decide +kernel
  have footer : (g.footer.getD "").toList.head? = some 'f' := by decide +kernel
  have errorToken : (toString TerminalId.error.raw.toNat).toList.head? = some '1' := by decide
  have endOfInput : (toString TerminalId.endOfInput.raw.toNat).toList.head? = some '0' := by decide
  have whitespace : (toString TerminalId.whitespace.raw.toNat).toList.head? = some '2' := by decide
  have terminalActions : (String.join (g.terminals.values.filterMap fun t =>
      t.action.map (Parts.arm t.name t.id.raw.toNat))).toList.head? = some '/' := by
    decide +kernel
  have ruleActions : (String.join (g.rules.values.filterMap fun rule =>
      rule.action.map (Parts.arm (g.ruleText rule) rule.id.raw.toNat))).toList.head? =
        some '/' := by
    decide +kernel
  refine ⟨⟨g, table, dfa⟩, rfl, ⟨.steps codeEverywhere, filled, built⟩, fun q => ?_⟩
  cases q with
  | header => exact ⟨'h', header, by decide⟩
  | footer => exact ⟨'f', footer, by decide⟩
  | tables => exact ⟨'s', head?_tables _, by decide⟩
  | dfa => exact ⟨'s', head?_dfaTables _, by decide⟩
  | labels => exact ⟨'s', head?_labels _, by decide⟩
  | terminalActions => exact ⟨'/', terminalActions, by decide⟩
  | actions => exact ⟨'/', ruleActions, by decide⟩
  | errorToken => exact ⟨'1', errorToken, by decide⟩
  | endOfInput => exact ⟨'0', endOfInput, by decide⟩
  | whitespace => exact ⟨'2', whitespace, by decide⟩

/-- Rendering gives what the scan gives exactly for templates in which an even number of `#` stands
directly before each placeholder, be it asked for all parts or for those of finished runs. -/
theorem render_eq_fill_scan_iff (template : String) :
    ((∀ p : Parts, p.render template = p.fill (scan template.toList)) ↔
      EvenHashes (scan template.toList)) ∧
    ((∀ p : Parts, p.Generated → p.render template = p.fill (scan template.toList)) ↔
      EvenHashes (scan template.toList)) := by
  have beside := segments_beside_scan template.toList
  have enough (even : EvenHashes (scan template.toList)) (p : Parts) :
      p.render template = p.fill (scan template.toList) := by
    rw [Parts.render_eq_fill, beside.eq_of_evenHashes even]
  obtain ⟨p, -, generated, visible⟩ := exists_visible
  have needed (same : p.render template = p.fill (scan template.toList)) :
      EvenHashes (scan template.toList) :=
    beside.evenHashes_of_fill visible (by rw [← Parts.render_eq_fill, same])
  exact ⟨⟨fun same => needed (same p), enough⟩,
    ⟨fun same => needed (same p generated), fun even p _ => enough even p⟩⟩

/-- A placeholder behind one more `#` is kept as text, though the scan finds it. -/
theorem render_hides_endOfInput : ∃ p : Parts,
    p.grammar = (Builder.initial.declareAll codeEverywhere).2.finish ∧ p.Generated ∧
      p.render "###EOF##" = "###EOF##" ∧ p.fill (scan "###EOF##".toList) = "#0" := by
  obtain ⟨p, grammar, generated, -⟩ := exists_visible
  have characters : "###EOF##".toList = ['#', '#', '#', 'E', 'O', 'F', '#', '#'] := by decide
  have read : segments ['#', '#', '#', 'E', 'O', 'F', '#', '#'] =
      ['#', '#', '#', 'E', 'O', 'F', '#', '#'].map .char := by
    rw [segments_of_none (by decide), segments_of_other (by simp), segments_of_other (by simp),
      segments_of_other (by simp), segments_of_other (by simp), segments_of_none (by decide),
      segments]
    rfl
  have found : scan ['#', '#', '#', 'E', 'O', 'F', '#', '#'] =
      [.char '#', .placeholder .endOfInput] := by
    have name : placeholder? ['E', 'O', 'F', '#', '#'] = some (.endOfInput, []) := by decide
    rw [scan_of_none (by decide), scan_of_some name, scan]
  refine ⟨p, grammar, generated, ?_, ?_⟩
  · rw [Parts.render_eq_fill, characters, read]
    rfl
  · rw [characters, found]
    rfl

end Lalr.Emit
