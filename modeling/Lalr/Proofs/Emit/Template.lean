import Lalr.Emit.Render
import Mathlib.Data.List.TakeWhile

/-! Rendering of templates. Whatever stands around a placeholder, its expansion stands in its
place; and the lines of a template are read one by one. -/
namespace Lalr.Emit

namespace Parts

variable {p : Parts}

def segmentText (p : Parts) : Segment → String
  | .char c => c.toString
  | .placeholder q => p.expand q

theorem render_eq (template : String) :
    p.render template = String.join ((segments template.toList).map p.segmentText) := by
  have step (out : String) (segment : Segment) : (match segment with
      | .char c => out.push c
      | .placeholder name => out ++ p.expand name) = out ++ p.segmentText segment := by
    cases segment with
    | char c => exact String.push_eq_append c
    | placeholder q => rfl
  have all (parts : List Segment) (out : String) :
      parts.foldl (fun out segment => out ++ p.segmentText segment) out =
        out ++ String.join (parts.map p.segmentText) := by
    induction parts generalizing out with
    | nil => simp
    | cons segment parts ih => simp [ih, String.append_assoc]
  have folded := all (segments template.toList) ""
  rw [String.empty_append] at folded
  rw [← folded, render]
  congr 1
  funext out segment
  exact step out segment

/-- Wherever a template has a placeholder, its expansion stands. -/
theorem render_of_placeholder {template : String} {front back : List Segment} {q : Placeholder}
    (split : segments template.toList = front ++ .placeholder q :: back) :
    p.render template = String.join (front.map p.segmentText) ++ p.expand q ++
      String.join (back.map p.segmentText) := by
  rw [render_eq, split]
  simp [segmentText, String.append_assoc]

end Parts

section Segments

variable {cs rest : List Char} {q : Placeholder}

/-- No placeholder goes on behind the end of a line. -/
theorem placeholder?_newline (cs rest : List Char) : placeholder? (cs ++ '\n' :: rest) =
    (placeholder? cs).map fun e => (e.1, e.2 ++ '\n' :: rest) := by
  have name : (cs ++ '\n' :: rest).takeWhile isNameChar = cs.takeWhile isNameChar := by
    induction cs with
    | nil => rfl
    | cons c cs ih => simp only [List.cons_append, List.takeWhile_cons, ih]
  have short : (cs.takeWhile isNameChar).length ≤ cs.length := (List.takeWhile_prefix _).length_le
  unfold placeholder?
  dsimp only
  rw [name, List.drop_append_of_le_length short]
  generalize cs.drop (cs.takeWhile isNameChar).length = left
  match left with
  | [] => rfl
  | [c] => by_cases hash : c = '#' <;> simp [hash]
  | c :: d :: left =>
    by_cases hash : c = '#' ∧ d = '#'
    · obtain ⟨rfl, rfl⟩ := hash
      simp [Option.map_map, Function.comp_def]
    · have other (tail rest : List Char) : c :: d :: tail ≠ '#' :: '#' :: rest := by
        rintro ⟨⟩
        exact hash ⟨rfl, rfl⟩
      -- This lets `split` decide the match on the line alone.
      have alone := other left
      split
      · next eq => exact absurd eq (other _ _)
      · rfl

theorem segments_of_some (found : placeholder? cs = some (q, rest)) :
    segments ('#' :: '#' :: cs) = .placeholder q :: segments rest := by
  rw [segments]
  split
  · next found' =>
    cases found.symm.trans found'
    rfl
  · next absent => cases found.symm.trans absent

theorem segments_of_none (absent : placeholder? cs = none) :
    segments ('#' :: '#' :: cs) = .char '#' :: .char '#' :: segments cs := by
  rw [segments]
  split
  · next found => cases absent.symm.trans found
  · rfl

/-- The parts of a line, and those of the lines behind it. -/
theorem segments_newline (cs rest : List Char) :
    segments (cs ++ '\n' :: rest) = segments cs ++ .char '\n' :: segments rest := by
  fun_induction segments cs with
  | case1 after q left found ih =>
    have found' := placeholder?_newline after rest
    rw [found, Option.map_some] at found'
    rw [List.cons_append, List.cons_append, segments_of_some found', ih, List.cons_append]
  | case2 after absent ih =>
    have absent' := placeholder?_newline after rest
    rw [absent, Option.map_none] at absent'
    rw [List.cons_append, List.cons_append, segments_of_none absent', ih, List.cons_append,
      List.cons_append]
  | case3 c cs other ih =>
    rw [List.cons_append, segments, ih, List.cons_append]
    rintro after rfl eq
    cases cs with
    | nil => cases eq
    | cons d cs =>
      cases eq
      exact other _ rfl rfl
  | case4 =>
    rw [List.nil_append, segments]
    · rfl
    · exact nofun

/-- A placeholder is found behind its name. -/
theorem placeholder?_name (q : Placeholder) (rest : List Char) :
    placeholder? (q.name.toList ++ '#' :: '#' :: rest) = some (q, rest) := by
  cases q <;> rfl

theorem mem_segments (q : Placeholder) {before : List Char} (plain : '#' ∉ before)
    (rest : List Char) : .placeholder q ∈
      segments (before ++ '#' :: '#' :: (q.name.toList ++ '#' :: '#' :: rest)) := by
  induction before with
  | nil =>
    rw [List.nil_append, segments_of_some (placeholder?_name q rest)]
    exact List.mem_cons_self
  | cons c before ih =>
    rw [List.mem_cons, not_or] at plain
    rw [List.cons_append, segments]
    · exact List.mem_cons_of_mem _ (ih plain.2)
    · rintro after rfl
      exact absurd rfl plain.1

end Segments

theorem segments_lines (lines : List String) :
    segments (String.join (lines.map (· ++ "\n"))).toList =
      lines.flatMap fun line => segments line.toList ++ [.char '\n'] := by
  induction lines with
  | nil => rw [List.map_nil, String.join_nil, String.toList_empty, segments, List.flatMap_nil]
  | cons line lines ih =>
    rw [List.map_cons, String.join_cons, String.toList_append, String.toList_append,
      List.append_assoc, List.flatMap_cons, ← ih, List.append_assoc]
    exact segments_newline line.toList _

def Placeholder.margins : Placeholder → String × String
  | terminalActions | actions => ("        ", "")
  | errorToken => ("const ERROR_TOKEN: u16 = ", ";")
  | endOfInput => ("const EOF: u16 = ", ";")
  | whitespace => ("const WHITESPACE: u16 = ", ";")
  | _ => ("", "")

def Placeholder.line (q : Placeholder) : String :=
  q.margins.1 ++ ("##" ++ (q.name ++ ("##" ++ q.margins.2)))

/-- The default template has every placeholder. -/
theorem exists_split_default (q : Placeholder) : ∃ front back,
    segments defaultTemplate.toList = front ++ .placeholder q :: back := by
  have member : q.line ∈ defaultTemplateLines := by cases q <;> decide
  have plain : '#' ∉ q.margins.1.toList := by cases q <;> decide
  have here : .placeholder q ∈ segments q.line.toList := by
    simpa [Placeholder.line] using mem_segments q plain q.margins.2.toList
  rw [defaultTemplate, segments_lines]
  exact List.append_of_mem (List.mem_flatMap.2 ⟨q.line, member, List.mem_append_left _ here⟩)

end Lalr.Emit
