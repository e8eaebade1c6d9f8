import Lalr.CommandLine.FileSystem
import Lalr.Iterate
import Lalr.Proofs.CommandLine.Path
import Mathlib.Tactic.SplitIfs

/-! What paths lead to and what writing changes. A file that is written lies in a directory that
was there before, so writing changes neither directories nor the places of other paths. -/
namespace Lalr.CommandLine.FileSystem

variable {fs fs' fs'' : FileSystem} {place around other : Place} {path name : String}
  {content : ByteArray} {front back : List String} {paths more : List String} {access : Access}

/-- Everything lies in directories, and `/dev/null` is the only device. -/
structure Ordinary (fs : FileSystem) : Prop where
  tree : ∀ place node, fs.nodes.get? place = some node → fs.isDirectory place.dropLast = true
  device : ∀ place, fs.nodes.get? place = some .null → place = ["dev", "null"]

/-- The path ends in the name of something that is or can be in a directory. -/
structure Names (fs : FileSystem) (path : String) (around : Place) (name : String) : Prop where
  walk : ∃ before, parts path = before ++ [name] ∧
    fs.walk (fs.start path) (before ++ [""]) = .ok around
  idle : isIdle name = false
  up : isUp name = false
  short : name.utf8ByteSize ≤ nameLimit
  shortPath : path.utf8ByteSize ≤ pathLimit

theorem isDirectory_iff : fs.isDirectory place = true ↔ fs.nodes.get? place = some .directory := by
  unfold isDirectory
  split <;> simp_all

section OfFiles

variable {files : List (String × ByteArray)} {node : Node}

/-- What there is besides the files themselves. -/
theorem cases_of_get?_ofFiles (there : (ofFiles place files).nodes.get? other = some node) :
    (node = .directory ∧ ((∃ n, other = place.take n) ∨ ∃ name, other = [name])) ∨
      (node = .null ∧ other = ["dev", "null"]) ∨
      ∃ name content, node = .file content ∧ other = place ++ [name] := by
  have member := OrderedMap.mem_of_get?_ofList there
  simp only [List.mem_append, List.mem_map, List.mem_singleton, Prod.mk.injEq, Prod.exists]
    at member
  rcases member with ((⟨n, -, rfl, rfl⟩ | ⟨name, -, rfl, rfl⟩) | ⟨rfl, rfl⟩) |
    ⟨name, content, -, rfl, rfl⟩
  · exact .inl ⟨rfl, .inl ⟨n, rfl⟩⟩
  · exact .inl ⟨rfl, .inr ⟨name, rfl⟩⟩
  · exact .inr (.inl ⟨rfl, rfl⟩)
  · exact .inr (.inr ⟨name, content, rfl, rfl⟩)

/-- Nothing is put in the place of a directory. -/
theorem isDirectory_ofFiles (inside : place ≠ []) (clear : ¬ ["dev", "null"] <+: place)
    (is : (∃ n, other = place.take n) ∨ other = ["dev"]) :
    (ofFiles place files).isDirectory other = true := by
  have declared : other ∈ (ofFiles place files).nodes.keys := by
    simp only [ofFiles, OrderedMap.mem_keys_ofList, List.map_append, List.map_map, List.mem_append,
      List.mem_map, List.mem_range]
    rcases is with ⟨n, rfl⟩ | rfl
    · refine .inl (.inl (.inl ⟨min n place.length, by omega, ?_⟩))
      exact List.take_eq_take_min.symm
    · exact .inl (.inl (.inr ⟨"dev", by decide, rfl⟩))
  obtain ⟨node, there⟩ := OrderedMap.mem_keys_iff.1 declared
  rcases cases_of_get?_ofFiles there with ⟨rfl, -⟩ | ⟨rfl, rfl⟩ | ⟨name, content, rfl, rfl⟩
  · exact isDirectory_iff.2 there
  · rcases is with ⟨n, eq⟩ | eq
    · exact absurd (eq ▸ List.take_prefix n place) clear
    · cases eq
  · rcases is with ⟨n, eq⟩ | eq
    · have := congrArg List.length eq
      simp at this
      omega
    · rcases List.append_eq_singleton_iff.1 eq with ⟨none, -⟩ | ⟨-, none⟩
      · exact absurd none inside
      · cases none

/-- Files in a directory are all there is, unless the directory is inside a device. -/
theorem ofFiles_ordinary (inside : place ≠ []) (clear : ¬ ["dev", "null"] <+: place) :
    (ofFiles place files).Ordinary := by
  constructor
  case tree =>
    intro other node there
    refine isDirectory_ofFiles inside clear ?_
    rcases cases_of_get?_ofFiles there with
      ⟨-, ⟨n, rfl⟩ | ⟨name, rfl⟩⟩ | ⟨-, rfl⟩ | ⟨name, content, -, rfl⟩
    · exact .inl ⟨_, by rw [List.dropLast_eq_take, List.take_take]⟩
    · exact .inl ⟨0, rfl⟩
    · exact .inr rfl
    · exact .inl ⟨place.length, by simp⟩
  case device =>
    intro other there
    rcases cases_of_get?_ofFiles there with ⟨⟨⟩, -⟩ | ⟨-, rfl⟩ | ⟨_, _, ⟨⟩, -⟩
    rfl

end OfFiles

def content? (fs : FileSystem) (place : Place) : Option ByteArray :=
  match fs.nodes.get? place with
  | some (.file content) => some content
  | _ => none

theorem content?_eq_some_iff :
    fs.content? place = some content ↔ fs.nodes.get? place = some (.file content) := by
  unfold content?
  split
  · next there => simp [there]
  · next none =>
    constructor
    · rintro ⟨⟩
    · exact fun there => absurd there (none content)

theorem walk_append :
    fs.walk place (front ++ back) = (fs.walk place front).bind (fs.walk · back) := by
  induction front generalizing place with
  | nil => rfl
  | cons part rest ih =>
    rw [List.cons_append, walk, walk]
    split_ifs
    all_goals first
      | rfl
      | exact ih

theorem walk_idle (idle : isIdle name = true) : fs.walk place [name] =
    if fs.isDirectory place then .ok place else .error .notDirectory := by
  cases directory : fs.isDirectory place <;> simp [walk, directory, idle]

/-- An empty part at the end says that there has to be a directory. -/
theorem walk_concat_empty : fs.walk place (front ++ [""]) = .ok around ↔
    fs.walk place front = .ok around ∧ fs.isDirectory around = true := by
  rw [walk_append]
  cases fs.walk place front with
  | error e => simp [Except.bind]
  | ok reached =>
    rw [Except.bind, walk_idle (by decide)]
    split_ifs with directory
    · constructor
      · rintro ⟨⟩
        exact ⟨rfl, directory⟩
      · exact fun h => h.1
    · constructor
      · rintro ⟨⟩
      · rintro ⟨⟨⟩, there⟩
        exact absurd there directory

theorem isDirectory_of_walk (reached : fs.walk place (front ++ [""]) = .ok around) :
    fs.isDirectory place = true := by
  by_contra stuck
  rw [Bool.not_eq_true] at stuck
  cases front <;> simp [walk, stuck] at reached

/-- Towards a directory, a name may be followed if there is a directory behind it. -/
theorem walk_cons : fs.walk place (name :: (front ++ [""])) = .ok around ↔
    fs.isDirectory place = true ∧
      (if isIdle name then fs.walk place (front ++ [""]) = .ok around
      else if isUp name then fs.walk place.dropLast (front ++ [""]) = .ok around
      else name.utf8ByteSize ≤ nameLimit ∧
        fs.walk (place ++ [name]) (front ++ [""]) = .ok around) := by
  rw [walk]
  cases directory : fs.isDirectory place
  · simp
  · simp only [Bool.not_true, Bool.false_eq_true, if_false, true_and]
    split_ifs with idle up long known
    · rfl
    · rfl
    · simp [Nat.not_le_of_lt long]
    · simp [Nat.le_of_not_lt long]
    · constructor
      · rintro ⟨⟩
      · rintro ⟨-, reached⟩
        have there := isDirectory_iff.1 (isDirectory_of_walk reached)
        exact absurd ((OrderedMap.contains_iff _ _).2 (OrderedMap.mem_keys_of_get? there)) known

theorem Names.directory (h : fs.Names path around name) : fs.isDirectory around = true := by
  obtain ⟨before, -, walked⟩ := h.walk
  exact (walk_concat_empty.1 walked).2

theorem Names.visible (h : fs.Names path around name) : name ≠ "" := by
  rintro rfl
  cases h.idle

/-- A path with a name in it is not empty. -/
theorem Names.isEmpty (h : fs.Names path around name) : path.isEmpty = false := by
  obtain ⟨before, split, -⟩ := h.walk
  rw [← Bool.not_eq_true, String.isEmpty_iff]
  rintro rfl
  have alone : before ++ [name] = [""] := split.symm
  rcases List.append_eq_singleton_iff.1 alone with ⟨-, last⟩ | ⟨-, last⟩
  · exact h.visible (List.singleton_inj.1 last)
  · cases last

theorem target_eq_ok_iff : fs.target path = .ok place ↔
    ∃ around name, fs.Names path around name ∧ place = around ++ [name] := by
  unfold target
  constructor
  · intro reached
    split_ifs at reached with long empty
    cases ends : (parts path).reverse with
    | nil => simp [ends] at reached
    | cons last before =>
      have split : parts path = before.reverse ++ [last] := by
        rw [← List.reverse_cons, ← ends, List.reverse_reverse]
      by_cases hidden : last = ""
      · -- A slash at the end is refused whatever stands in front of it.
        subst hidden
        split at reached
        · cases reached
        · obtain ⟨_, -, reached⟩ := bind_eq_ok reached
          simp [split] at reached
      · rw [ends, List.dropWhile_cons_of_neg (by simpa using hidden)] at reached
        obtain ⟨around, walked, reached⟩ := bind_eq_ok reached
        split_ifs at reached with special longName
        cases reached
        simp only [Bool.or_eq_true, not_or, Bool.not_eq_true] at special
        exact ⟨around, last, ⟨⟨_, split, walked⟩, special.1.1, special.1.2,
          Nat.le_of_not_lt longName, Nat.le_of_not_lt long⟩, rfl⟩
  · rintro ⟨around, name, names, rfl⟩
    obtain ⟨before, split, walked⟩ := names.walk
    rw [if_neg (Nat.not_lt_of_le names.shortPath), if_neg (by simp [names.isEmpty]), split,
      List.reverse_append, List.reverse_singleton, List.singleton_append,
      List.dropWhile_cons_of_neg (by simpa using names.visible)]
    dsimp only
    rw [List.reverse_reverse, walked, Except.bind,
      if_neg (by simp [names.idle, names.up, names.visible]), if_neg (Nat.not_lt_of_le names.short)]

/-- What can be written to can be found if it is there. -/
theorem find_of_target (reached : fs.target path = .ok place) :
    fs.find path = if fs.nodes.contains place then .ok place else .error .notFound := by
  obtain ⟨around, name, names, rfl⟩ := target_eq_ok_iff.1 reached
  obtain ⟨before, split, walked⟩ := names.walk
  obtain ⟨walked, directory⟩ := walk_concat_empty.1 walked
  rw [find, if_neg (Nat.not_lt_of_le names.shortPath), locate, if_neg (by simp [names.isEmpty]),
    split, walk_append, walked, Except.bind]
  simp [walk, directory, names.idle, names.up, Nat.not_lt_of_le names.short]

/-- Above a directory there is a directory. -/
theorem Ordinary.dropLast (ordinary : fs.Ordinary) (directory : fs.isDirectory place = true) :
    fs.isDirectory place.dropLast = true :=
  ordinary.tree place _ (isDirectory_iff.1 directory)

/-- A file that is found can be written to. -/
theorem target_of_find (ordinary : fs.Ordinary) (found : fs.find path = .ok place)
    (file : fs.nodes.get? place = some (.file content)) : fs.target path = .ok place := by
  have notDirectory : ¬ fs.isDirectory place = true := by
    rw [isDirectory_iff, file]
    rintro ⟨⟩
  unfold find locate at found
  split_ifs at found with long empty
  obtain ⟨before, name, split⟩ :=
    (List.eq_nil_or_concat (parts path)).resolve_left (parts_ne_nil path)
  rw [List.concat_eq_append] at split
  rw [split, walk_append] at found
  obtain ⟨around, walked, last⟩ := bind_eq_ok found
  rw [walk] at last
  split_ifs at last with noDirectory idle up short known
  all_goals
    have directory : fs.isDirectory around = true := by simpa using noDirectory
    cases last
  · exact absurd directory notDirectory
  · exact absurd (ordinary.dropLast directory) notDirectory
  · refine target_eq_ok_iff.2 ⟨around, name, ⟨⟨before, split, ?_⟩, ?_, ?_,
      Nat.le_of_not_lt short, Nat.le_of_not_lt long⟩, rfl⟩
    · exact walk_concat_empty.2 ⟨walked, directory⟩
    · simpa using idle
    · simpa using up

theorem get?_put : (fs.put place content).nodes.get? other =
    if other = place then some (.file content) else fs.nodes.get? other :=
  OrderedMap.get?_insert ..

theorem get?_put_self : (fs.put place content).nodes.get? place = some (.file content) :=
  get?_put.trans (if_pos rfl)

theorem get?_put_of_ne (different : other ≠ place) :
    (fs.put place content).nodes.get? other = fs.nodes.get? other :=
  get?_put.trans (if_neg different)

/-- Something stands in the way of an access to the place, whatever there is when it happens. -/
def Obstructed (fs : FileSystem) (access : Access) (place : Place) : Prop :=
  ∃ nodes obstacle, fs.obstacle nodes access place = some obstacle

/-- Everything gets through, or there is an obstacle and only a beginning gets through, if the file
is opened at all. -/
theorem transfer_cases (fs : FileSystem) (access : Access) (place : Place) (content : ByteArray) :
    fs.transfer access place content = .ok (content, .ok ()) ∨
    fs.Obstructed access place ∧ ∃ e, fs.transfer access place content = .error e ∨
      ∃ n < content.size, fs.transfer access place content = .ok (content.extract 0 n, .error e) := by
  rw [transfer]
  cases obstacle : fs.obstacle fs.nodes access place with
  | none => exact .inl rfl
  | some found =>
    cases found with
    | refusal cause => exact .inr ⟨⟨_, _, obstacle⟩, cause, .inl rfl⟩
    | shortage bytes cause =>
      dsimp only
      split_ifs with short
      · exact .inr ⟨⟨_, _, obstacle⟩, cause, .inr ⟨bytes, short, rfl⟩⟩
      · exact .inl rfl

/-- The path leads to a file, or to where one can be created. -/
structure Leads (fs : FileSystem) (path : String) (place : Place) : Prop where
  target : fs.target path = .ok place
  directory : fs.nodes.get? place ≠ some .directory
  device : fs.nodes.get? place ≠ some .null

inductive Writes (fs : FileSystem) (path : String) (content : ByteArray) :
    Except FileError Unit × FileSystem → Prop where
  | stuck {e : FileError} :
      (∀ place, fs.target path = .ok place → fs.nodes.get? place = some .directory) →
      Writes fs path content (.error e, fs)
  | device {place : Place} : fs.target path = .ok place → fs.nodes.get? place = some .null →
      Writes fs path content (.ok (), fs)
  | refused {place : Place} {e : FileError} : fs.Leads path place →
      fs.Obstructed .writing place → Writes fs path content (.error e, fs)
  | cut {place : Place} {n : Nat} {e : FileError} : fs.Leads path place →
      fs.Obstructed .writing place → n < content.size →
      Writes fs path content (.error e, fs.put place (content.extract 0 n))
  | done {place : Place} : fs.Leads path place →
      Writes fs path content (.ok (), fs.put place content)

theorem write_writes (fs : FileSystem) (path : String) (content : ByteArray) :
    Writes fs path content (fs.write path content) := by
  rw [write]
  cases reached : fs.target path with
  | error e => exact .stuck fun place reached' => by cases reached.symm.trans reached'
  | ok place =>
    dsimp only
    split
    · next directory =>
      refine .stuck fun place' reached' => ?_
      cases reached.symm.trans reached'
      exact directory
    · next null => exact .device reached null
    · next directory null =>
      have leads : fs.Leads path place := ⟨reached, directory, null⟩
      rcases transfer_cases fs .writing place content with
        all | ⟨obstructed, e, refused | ⟨n, short, cut⟩⟩
      · rw [all]
        exact .done leads
      · rw [refused]
        exact .refused leads obstructed
      · rw [cut]
        exact .cut leads obstructed short

/-- What copying can lead to. If it is stopped, the copy is a beginning of the file. -/
inductive Copies (fs : FileSystem) (source target : String) :
    Except FileError Unit × FileSystem → Prop where
  | stuck {e : FileError} : Copies fs source target (.error e, fs)
  | cut {place copy : Place} {content : ByteArray} {n : Nat} {e : FileError} :
      fs.find source = .ok place → fs.nodes.get? place = some (.file content) →
      fs.Leads target copy → fs.Obstructed .reading place ∨ fs.Obstructed .writing copy →
      Copies fs source target (.error e, fs.put copy (content.extract 0 n))
  | done {place : Place} {content : ByteArray} {fs' : FileSystem} :
      fs.find source = .ok place → fs.nodes.get? place = some (.file content) →
      Writes fs target content (.ok (), fs') → Copies fs source target (.ok (), fs')

theorem copy_copies (fs : FileSystem) (source target : String) :
    Copies fs source target (fs.copy source target) := by
  rw [copy]
  cases found : fs.find source with
  | error e => exact .stuck
  | ok place =>
    dsimp only
    split
    case h_2 => exact .stuck
    next content file =>
    rcases transfer_cases fs .reading place content with
      all | ⟨obstructed, e, refused | ⟨n, -, cut⟩⟩
    · rw [all]
      have written := write_writes fs target content
      dsimp only
      generalize fs.write target content = outcome at written
      cases written with
      | stuck _ => exact .stuck
      | device reached null => exact .done found file (.device reached null)
      | refused _ _ => exact .stuck
      | cut leads obstructed _ => exact .cut found file leads (.inr obstructed)
      | done leads => exact .done found file (.done leads)
    · rw [refused]
      exact .stuck
    · rw [cut]
      have written := write_writes fs target (content.extract 0 n)
      dsimp only
      generalize fs.write target (content.extract 0 n) = outcome at written
      cases written with
      | stuck _ => exact .stuck
      | device _ _ => exact .stuck
      | refused _ _ => exact .stuck
      | cut leads _ _ =>
        rw [ByteArray.extract_extract]
        exact .cut found file leads (.inl obstructed)
      | done leads => exact .cut found file leads (.inl obstructed)

/-- What writing at some of these paths leaves as it was. -/
structure Frame (paths : List String) (fs fs' : FileSystem) : Prop where
  current : fs'.current = fs.current
  obstacle : fs'.obstacle = fs.obstacle
  directories : ∀ place, fs'.isDirectory place = fs.isDirectory place
  other : ∀ place, (∀ path ∈ paths, fs.target path ≠ .ok place) →
    fs'.nodes.get? place = fs.nodes.get? place
  ordinary : fs.Ordinary → fs'.Ordinary

namespace Frame

theorem refl : Frame paths fs fs := ⟨rfl, rfl, fun _ => rfl, fun _ _ => rfl, id⟩

theorem walk (h : Frame paths fs fs') :
    fs'.walk place (front ++ [""]) = .ok around ↔ fs.walk place (front ++ [""]) = .ok around := by
  induction front generalizing place with
  | nil => rw [List.nil_append, walk_idle (by decide), walk_idle (by decide), h.directories]
  | cons part rest ih => rw [List.cons_append, walk_cons, walk_cons, h.directories, ih, ih, ih]

/-- Paths lead where they did. -/
theorem target (h : Frame paths fs fs') :
    fs'.target path = .ok place ↔ fs.target path = .ok place := by
  have start : fs'.start path = fs.start path := by rw [start, start, h.current]
  have names (around : Place) (name : String) :
      fs'.Names path around name ↔ fs.Names path around name := by
    constructor
    all_goals
      rintro ⟨walked, idle, up, short, shortPath⟩
      refine ⟨?_, idle, up, short, shortPath⟩
      simpa only [start, h.walk] using walked
  simp only [target_eq_ok_iff, names]

/-- So do obstacles stand where they did. -/
theorem obstructed (h : Frame paths fs fs') :
    fs'.Obstructed access place ↔ fs.Obstructed access place := by
  rw [Obstructed, Obstructed, h.obstacle]

theorem trans (first : Frame paths fs fs') (second : Frame paths fs' fs'') :
    Frame paths fs fs'' where
  current := second.current.trans first.current
  obstacle := second.obstacle.trans first.obstacle
  directories place := (second.directories place).trans (first.directories place)
  other place away := by
    rw [second.other place fun path member => first.target.not.2 (away path member),
      first.other place away]
  ordinary := second.ordinary ∘ first.ordinary

theorem mono (h : Frame paths fs fs') (sub : paths ⊆ more) : Frame more fs fs' :=
  { h with other := fun place away => h.other place fun path member => away path (sub member) }

end Frame

theorem frame_put (leads : fs.Leads path place) : Frame [path] fs (fs.put place content) := by
  have directories (other : Place) :
      (fs.put place content).isDirectory other = fs.isDirectory other := by
    rw [Bool.eq_iff_iff, isDirectory_iff, isDirectory_iff, get?_put]
    split_ifs with same
    · subst same
      simp [leads.directory]
    · rfl
  constructor
  case current => rfl
  case obstacle => rfl
  case directories => exact directories
  case other =>
    intro other away
    refine get?_put_of_ne ?_
    rintro rfl
    exact away path List.mem_cons_self leads.target
  case ordinary =>
    refine fun ordinary => ⟨fun other node there => ?_, fun other there => ?_⟩
    · rw [directories]
      rw [get?_put] at there
      split_ifs at there with same
      · obtain ⟨around, name, names, rfl⟩ := target_eq_ok_iff.1 leads.target
        rw [same, List.dropLast_concat]
        exact names.directory
      · exact ordinary.tree other node there
    · rw [get?_put] at there
      split_ifs at there with same
      · cases there
      · exact ordinary.device other there

/-- So it is even if not everything could be written. -/
theorem frame_write (fs : FileSystem) (path : String) (content : ByteArray) :
    Frame [path] fs (fs.write path content).2 := by
  have written := write_writes fs path content
  generalize fs.write path content = outcome at written
  cases written with
  | stuck _ => exact .refl
  | device _ _ => exact .refl
  | refused _ _ => exact .refl
  | cut leads _ _ => exact frame_put leads
  | done leads => exact frame_put leads

end Lalr.CommandLine.FileSystem
