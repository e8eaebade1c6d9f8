import Lalr.CommandLine.Path
import Mathlib.Data.List.TakeDrop

/-! Extensions of paths. A path that is given an extension either ends in a name with this
extension or has no last name, and what it takes the place of is the old extension. -/
namespace Lalr.CommandLine

variable {path name extension stem old : String} {names before : List String}

theorem not_mem_splitOn [BEq α] [LawfulBEq α] {x : α} {xs l : List α} (member : l ∈ xs.splitOn x) :
    x ∉ l := by
  induction xs generalizing l with
  | nil => simp_all
  | cons a xs ih =>
    rw [List.splitOn_cons_eq_if_modifyHead] at member
    split at member
    · rcases List.mem_cons.1 member with rfl | member
      · exact List.not_mem_nil
      · exact ih member
    · next other =>
      cases rest : xs.splitOn x with
      | nil => exact absurd rest (List.splitOn_ne_nil x xs)
      | cons first more =>
        rw [rest, List.modifyHead_cons] at member
        rcases List.mem_cons.1 member with rfl | member
        · rw [List.mem_cons, not_or]
          exact ⟨fun same => other (beq_iff_eq.2 same.symm), ih (rest ▸ List.mem_cons_self)⟩
        · exact ih (rest ▸ List.mem_cons_of_mem _ member)

/-- No part of a path has a slash. -/
theorem slash_not_mem_of_mem_parts (member : name ∈ parts path) : '/' ∉ name.toList := by
  obtain ⟨l, there, rfl⟩ := List.mem_map.1 member
  rw [String.toList_ofList]
  exact not_mem_splitOn there

theorem parts_ne_nil (path : String) : parts path ≠ [] :=
  fun none => List.splitOn_ne_nil _ _ (List.map_eq_nil_iff.1 none)

theorem parts_intercalate (plain : ∀ n ∈ names, '/' ∉ n.toList) (some : names ≠ []) :
    parts ("/".intercalate names) = names := by
  rw [parts, String.toList_intercalate]
  have slash : "/".toList = ['/'] := by decide
  rw [slash, List.splitOn_intercalate]
  · simp [Function.comp_def]
  · rintro _ member
    obtain ⟨n, there, rfl⟩ := List.mem_map.1 member
    exact plain n there
  · simpa using some

/-- The stem of a name is the beginning of the name. -/
theorem splitName_isPrefix (name : String) : (splitName name).1.toList <+: name.toList := by
  unfold splitName
  rw [List.span_eq_takeWhile_dropWhile]
  cases behind : name.toList.reverse.dropWhile (· != '.') with
  | nil => exact List.prefix_rfl
  | cons dot front =>
    dsimp only
    split
    · exact List.prefix_rfl
    · rw [String.toList_ofList, ← List.reverse_suffix, List.reverse_reverse]
      exact (List.suffix_cons dot front).trans (behind ▸ List.dropWhile_suffix _)

theorem lastName?_eq_some (split : parts path = before ++ [name]) (idle : isIdle name = false)
    (up : isUp name = false) : lastName? path = some (before, name) := by
  rw [lastName?, split, List.reverse_append, List.reverse_singleton, List.singleton_append,
    List.dropWhile_cons_of_neg (by simp [idle])]
  simp [up]

/-- The last name and what is in front of it are parts of the path. -/
theorem mem_parts_of_lastName? (last : lastName? path = some (before, name)) :
    ∀ n ∈ before ++ [name], n ∈ parts path := by
  intro n member
  rw [lastName?] at last
  cases rest : (parts path).reverse.dropWhile isIdle with
  | nil => simp [rest] at last
  | cons ending front =>
    rw [rest] at last
    dsimp only at last
    split at last
    · cases last
    · cases last
      have suffix : name :: front <:+ (parts path).reverse := rest ▸ List.dropWhile_suffix _
      have there : n ∈ name :: front := by simpa [or_comm] using member
      exact List.mem_reverse.1 (suffix.subset there)

/-- The last name has the extension that was given to the path. -/
theorem parts_setExtension (plain : '/' ∉ extension.toList)
    (last : lastName? path = some (before, name)) :
    parts (setExtension path extension) = before ++ [(splitName name).1 ++ "." ++ extension] := by
  have inside := mem_parts_of_lastName? last
  rw [setExtension, last]
  refine parts_intercalate (fun n member => ?_) (by simp)
  rcases List.mem_append.1 member with there | there
  · exact slash_not_mem_of_mem_parts (inside n (List.mem_append_left _ there))
  · rw [List.mem_singleton.1 there, String.toList_append, String.toList_append]
    have stem : '/' ∉ (splitName name).1.toList := fun slash =>
      slash_not_mem_of_mem_parts (inside name (by simp)) ((splitName_isPrefix name).subset slash)
    have dot : ".".toList = ['.'] := by decide
    simp [stem, dot, plain]

/-- A path with an extension that ends in a name ends in a name with this extension. -/
theorem exists_stem_of_withExtension (plain : '/' ∉ extension.toList)
    (split : parts (withExtension path extension) = before ++ [name]) (idle : isIdle name = false)
    (up : isUp name = false) : ∃ stem, name = stem ++ "." ++ extension := by
  rw [withExtension] at split
  generalize String.ofList (path.toList.take (path.length - extensionLength path)) = cut at split
  cases last : lastName? cut with
  | none =>
    have same : setExtension cut extension = cut := by rw [setExtension, last]
    rw [same] at split
    cases last.symm.trans (lastName?_eq_some split idle up)
  | some p =>
    obtain ⟨inFront, old⟩ := p
    have names := split.symm.trans (parts_setExtension plain last)
    exact ⟨_, List.singleton_inj.1 (List.append_inj' names rfl).2⟩

theorem intercalate_parts (path : String) : "/".intercalate (parts path) = path := by
  have slash : "/".toList = ['/'] := by decide
  rw [← String.toList_inj, String.toList_intercalate, slash, parts, List.map_map]
  simp only [Function.comp_def, String.toList_ofList, List.map_id_fun', id]
  exact List.intercalate_splitOn '/'

theorem intercalate_concat_append (before : List String) (a b : String) :
    "/".intercalate (before ++ [a ++ b]) = "/".intercalate (before ++ [a]) ++ b := by
  by_cases none : before = []
  · subst none
    simp
  · rw [String.intercalate_append_of_ne_nil none (by simp),
      String.intercalate_append_of_ne_nil none (by simp), String.intercalate_singleton,
      String.intercalate_singleton]
    simp only [String.append_assoc]

/-- The last dot of a name divides it. -/
theorem splitName_append (visible : stem ≠ "") (plain : '.' ∉ old.toList) :
    splitName (stem ++ "." ++ old) = (stem, some old) := by
  have dot : ".".toList = ['.'] := by decide
  have reversed : (stem ++ "." ++ old).toList.reverse =
      old.toList.reverse ++ '.' :: stem.toList.reverse := by
    simp [dot]
  have behind : ∀ c ∈ old.toList.reverse, (c != '.') = true := by
    intro c member
    rw [bne_iff_ne]
    rintro rfl
    exact plain (List.mem_reverse.1 member)
  have some : stem.toList.reverse.isEmpty = false := by
    rw [← Bool.not_eq_true, List.isEmpty_iff, List.reverse_eq_nil_iff, String.toList_eq_nil_iff]
    exact visible
  rw [splitName, reversed, List.span_eq_takeWhile_dropWhile,
    List.takeWhile_append_of_pos behind, List.dropWhile_append_of_pos behind,
    List.takeWhile_cons_of_neg (by simp), List.dropWhile_cons_of_neg (by simp)]
  simp [some]

/-- A stem and an extension make up a proper name. -/
theorem proper_of_stem (visible : stem ≠ "") (current : stem ≠ ".") :
    isIdle (stem ++ "." ++ old) = false ∧ isUp (stem ++ "." ++ old) = false := by
  have dot : ".".toList = ['.'] := by decide
  have dots : "..".toList = ['.', '.'] := by decide
  have spelled : (stem ++ "." ++ old).toList = stem.toList ++ '.' :: old.toList := by
    simp [dot]
  cases chars : stem.toList with
  | nil => exact absurd (String.toList_eq_nil_iff.1 chars) visible
  | cons c rest =>
    rw [chars, List.cons_append] at spelled
    constructor
    · rw [isIdle, Bool.or_eq_false_iff, beq_eq_false_iff_ne, beq_eq_false_iff_ne]
      constructor <;> intro same <;> simp [same, dot] at spelled
    · rw [isUp, beq_eq_false_iff_ne]
      intro same
      rw [same, dots, List.cons.injEq] at spelled
      obtain ⟨rfl, rest'⟩ := spelled
      cases rest with
      | nil => exact current (String.toList_inj.1 (chars.trans dot.symm))
      | cons c' rest => simp at rest'

/-- Another extension takes the place of the extension of the last name. -/
theorem parts_withExtension (split : parts path = before ++ [stem ++ "." ++ old])
    (visible : stem ≠ "") (current : stem ≠ ".") (plain : '.' ∉ old.toList)
    (plain' : '/' ∉ extension.toList) :
    parts (withExtension path extension) = before ++ [stem ++ "." ++ extension] := by
  have last {p ending : String} (h : parts p = before ++ [stem ++ "." ++ ending]) :
      lastName? p = some (before, stem ++ "." ++ ending) :=
    lastName?_eq_some h (proper_of_stem visible current).1 (proper_of_stem visible current).2
  have length : extensionLength path = old.toList.length := by
    rw [extensionLength, last split]
    simp [splitName_append visible plain, String.length_toList]
  -- What is cut off is the extension, and a dot stays at the end.
  have spelled : path.toList =
      ("/".intercalate (before ++ [stem ++ "." ++ ""])).toList ++ old.toList := by
    rw [← String.toList_append, String.append_empty, ← intercalate_concat_append, ← split,
      intercalate_parts]
  have cut : String.ofList (path.toList.take (path.length - extensionLength path)) =
      "/".intercalate (before ++ [stem ++ "." ++ ""]) := by
    rw [length, ← String.length_toList, spelled, List.length_append, Nat.add_sub_cancel,
      List.take_left, String.ofList_toList]
  have slashes : ∀ n ∈ before ++ [stem ++ "." ++ ""], '/' ∉ n.toList := by
    intro n member slash
    rcases List.mem_append.1 member with inFront | atEnd
    · have member : n ∈ parts path := by simp [split, inFront]
      exact slash_not_mem_of_mem_parts member slash
    · rw [List.mem_singleton.1 atEnd] at slash
      have member : stem ++ "." ++ old ∈ parts path := by simp [split]
      apply slash_not_mem_of_mem_parts member
      rw [String.toList_append]
      exact List.mem_append_left _ (by simpa using slash)
  rw [withExtension, cut, parts_setExtension plain' (last (parts_intercalate slashes (by simp))),
    splitName_append visible (by simp)]

end Lalr.CommandLine
