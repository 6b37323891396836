import FourVin.Command.Directory
import FourVin.LabelTable
import Mathlib.Data.List.TakeWhile

/-!
Paths that are plain file names. Such a path is looked up in the working directory and nowhere
else, so that reading and writing are operations on the files by name. Replacing the extension of a
name gives a name, except for a name of the form `..x`: it loses its extension and is left as the
directory above.
-/
namespace FourVin

namespace Path

/-- The path is the name of a file, in the directory where it is looked up. -/
def IsName (path : String) : Prop := path ≠ "" ∧ '/' ∉ path.toList ∧ path ≠ "." ∧ path ≠ ".."

instance : DecidablePred IsName := fun path =>
  inferInstanceAs (Decidable (path ≠ "" ∧ '/' ∉ path.toList ∧ path ≠ "." ∧ path ≠ ".."))

theorem forall_mem_reverse_ne {text : List Char} {c : Char} (h : c ∉ text) :
    ∀ x ∈ text.reverse, decide (x ≠ c) = true := by
  intro x hx
  rw [decide_eq_true_iff]
  rintro rfl
  exact h (List.mem_reverse.mp hx)

theorem split_of_not_mem {text : List Char} (h : '/' ∉ text) : split text = [text] := by
  induction text with
  | nil => rfl
  | cons c rest ih =>
    simp only [List.mem_cons, not_or] at h
    simp [split, ih h.2, Ne.symm h.1]

theorem names_of_isName {path : String} (h : IsName path) : names path = [path] := by
  have hne : path.toList ≠ [] := by simpa using h.1
  simp [names, split_of_not_mem h.2.1, hne]

theorem isAbsolute_of_isName {path : String} (h : IsName path) : isAbsolute path = false := by
  simp only [isAbsolute, decide_eq_false_iff_not]
  exact fun hhead => h.2.1 (List.mem_of_head? hhead)

theorem endsInSlash_of_isName {path : String} (h : IsName path) : endsInSlash path = false := by
  simp only [endsInSlash, decide_eq_false_iff_not]
  exact fun hlast => h.2.1 (List.mem_of_getLast? hlast)

/-- The extension of a name is what stands behind its last point, if anything stands before that
point. -/
structure Parts (name front extension : String) : Prop where
  name_eq : name = front ++ "." ++ extension
  front_ne : front ≠ ""
  point : '.' ∉ extension.toList

/-- The name `output` is the name `input` with another extension, or with one where `input` has
none. -/
def ExtensionReplaced (extension input output : String) : Prop :=
  (∃ front old, Parts input front old ∧ output = front ++ "." ++ extension) ∨
    (∀ front old, ¬ Parts input front old) ∧ output = input ++ "." ++ extension

theorem stem_of_point {front extension : List Char} (h : '.' ∉ extension) :
    stem (front ++ '.' :: extension) =
      if front = [] then '.' :: extension else front := by
  have hdrop : (front ++ '.' :: extension).reverse.dropWhile (· ≠ '.') = '.' :: front.reverse := by
    rw [List.reverse_append, List.reverse_cons, List.append_assoc,
      List.dropWhile_append_of_pos (forall_mem_reverse_ne h)]
    simp
  rw [stem, hdrop]
  cases front <;> simp

theorem stem_of_not_mem {name : List Char} (h : '.' ∉ name) : stem name = name := by
  have hdrop : name.reverse.dropWhile (· ≠ '.') = [] :=
    List.dropWhile_eq_nil_iff.mpr (forall_mem_reverse_ne h)
  rw [stem, hdrop]
  rfl

theorem stem_of_parts {name front extension : String} (h : Parts name front extension) :
    stem name.toList = front.toList := by
  have hne : front.toList ≠ [] := by simpa using h.front_ne
  have hname : name.toList = front.toList ++ '.' :: extension.toList := by simp [h.name_eq]
  rw [hname, stem_of_point h.point, if_neg hne]

/-- A name without an extension has no point, or none but the one in front. -/
theorem stem_eq_self {name : String} (h : ∀ front extension, ¬ Parts name front extension) :
    stem name.toList = name.toList := by
  by_cases hpoint : '.' ∈ name.toList
  · -- The last point of the name is the first one from behind.
    obtain ⟨behind, before, hreverse, hbehind⟩ :=
      List.eq_append_cons_of_mem (List.mem_reverse.mpr hpoint)
    have hname : name.toList = before.reverse ++ '.' :: behind.reverse := by
      rw [← List.reverse_reverse name.toList, hreverse]
      simp
    have hextension : '.' ∉ behind.reverse := by simpa using hbehind
    rw [hname, stem_of_point hextension]
    split
    · next hfront => rw [hfront, List.nil_append]
    · next hfront =>
      refine absurd ⟨?_, ?_, ?_⟩ (h (String.ofList before.reverse) (String.ofList behind.reverse))
      · rw [← String.toList_inj, hname]
        simp
      · simpa using hfront
      · simpa using hextension
  · exact stem_of_not_mem hpoint

theorem splitName_of_not_mem {name : List Char} (h : '/' ∉ name) : splitName name = ([], name) := by
  have htake : name.reverse.takeWhile (· ≠ '/') = name.reverse :=
    List.takeWhile_eq_self_iff.mpr (forall_mem_reverse_ne h)
  rw [splitName, htake, List.reverse_reverse, Nat.sub_self, List.take_zero]

/-- Replacing the extension of a name gives the name with the other extension, or leaves dots. -/
theorem withExtension_of_isName {input : String} (extension : String) (h : IsName input) :
    withExtension input extension = ".." ∨
      ExtensionReplaced extension input (withExtension input extension) := by
  simp only [withExtension, splitName_of_not_mem h.2.1, List.nil_append]
  by_cases hparts : ∃ front old, Parts input front old
  · obtain ⟨front, old, hparts⟩ := hparts
    have hstem := stem_of_parts hparts
    have hne : stem input.toList ≠ input.toList := by
      rw [hstem, hparts.name_eq]
      simp
    rw [trunk, if_neg hne, hstem]
    split
    · next hdots =>
      have hfront : front.toList = ['.'] := by
        simpa [isDots, hparts.front_ne, List.append_eq_cons_iff] using hdots
      rw [hfront]
      exact .inl rfl
    · refine .inr (.inl ⟨front, old, hparts, ?_⟩)
      rw [String.ofList_toList]
  · simp only [not_exists] at hparts
    have hstem := stem_eq_self hparts
    rw [trunk, if_pos hstem, hstem, String.ofList_toList]
    have hdots : isDots input.toList = false := by
      simpa [isDots, ← String.toList_inj] using h.2.2
    rw [hdots]
    exact .inr (.inr ⟨hparts, rfl⟩)

theorem isName_of_point {front extension : String} (hne : front ≠ "") (hslash : '/' ∉ front.toList)
    (hextension : IsName extension) : IsName (front ++ "." ++ extension) := by
  have hfront : 0 < front.toList.length := List.length_pos_iff.mpr (by simpa using hne)
  have hbehind : 0 < extension.toList.length :=
    List.length_pos_iff.mpr (by simpa using hextension.1)
  have hlong : 2 < (front ++ "." ++ extension).toList.length := by
    simp only [String.toList_append, List.length_append, show ".".toList.length = 1 from rfl]
    omega
  refine ⟨?_, by simp [hslash, hextension.2.1], ?_, ?_⟩
  all_goals
    intro heq
    rw [heq] at hlong
    exact absurd hlong (by decide)

theorem ExtensionReplaced.isName {extension input output : String}
    (h : ExtensionReplaced extension input output) (hinput : IsName input)
    (hextension : IsName extension) : IsName output := by
  obtain ⟨front, old, hparts, rfl⟩ | ⟨-, rfl⟩ := h
  · have hslash : '/' ∉ front.toList := fun hmem => hinput.2.1 (by simp [hparts.name_eq, hmem])
    exact isName_of_point hparts.front_ne hslash hextension
  · exact isName_of_point hinput.1 hinput.2.1 hextension

/-- A name that keeps its extension has it already. -/
theorem ExtensionReplaced.parts {extension name : String}
    (h : ExtensionReplaced extension name name) : ∃ front, Parts name front extension := by
  obtain ⟨front, old, hparts, hname⟩ | ⟨-, hname⟩ := h
  · have hold : old = extension := by
      rw [hparts.name_eq] at hname
      exact (String.append_right_inj _).mp hname
    exact ⟨front, hold ▸ hparts⟩
  · have hlength := congrArg (fun s => s.toList.length) hname
    simp at hlength

end Path

namespace Directory

def WellNamed (d : Directory) : Prop := ∀ f ∈ d.files, f.1.utf8ByteSize ≤ Path.maxNameSize

def HoldsText (d : Directory) (name text : String) : Prop :=
  ∃ content, d.find? name = some content ∧ String.fromUTF8? content = some text

variable {d : Directory} {path name text : String}

theorem HoldsText.eq {text' : String} (h : d.HoldsText name text) (h' : d.HoldsText name text') :
    text = text' := by
  obtain ⟨content, hfind, htext⟩ := h
  obtain ⟨content', hfind', htext'⟩ := h'
  rw [hfind, Option.some.injEq] at hfind'
  rw [← hfind', htext, Option.some.injEq] at htext'
  exact htext'

theorem WellNamed.size_le (hd : d.WellNamed) {content : ByteArray}
    (h : d.find? name = some content) : name.utf8ByteSize ≤ Path.maxNameSize := by
  obtain ⟨before, behind, hfiles, -⟩ := List.lookup_eq_some_iff.mp h
  exact hd (name, content) (by simp [hfiles])

/-- Files are entered by name like labels into a table. -/
theorem find?_insert (d : Directory) (name : String) (content : ByteArray) (other : String) :
    (d.insert name content).find? other = if other = name then some content else d.find? other :=
  LabelTable.find?_insert ⟨d.files⟩ name other content

/-- A path that is a name leads to the working directory, unless it is too long. -/
theorem locate_of_isName (d : Directory) (h : Path.IsName path) :
    d.locate path =
      if path.utf8ByteSize > Path.maxSize then .error .nameTooLong else .ok (.working, path) := by
  have hempty : path.isEmpty = false := String.isEmpty_eq_false_iff.mpr h.1
  simp only [locate, hempty, Path.names_of_isName h, Path.isAbsolute_of_isName h,
    Bool.false_eq_true, if_false]
  split <;> rfl

theorem entry?_of_isName (d : Directory) (h : Path.IsName name) :
    d.entry? .working name =
      if name.utf8ByteSize > Path.maxNameSize then .error .nameTooLong
      else .ok ((d.find? name).map .file) := by
  rw [ entry?, if_neg h.2.2.1, if_neg h.2.2.2]
  rfl

/-- The limit for paths adds nothing to the limit for names. -/
theorem locate_bind_of_isName {α : Type} (d : Directory) (h : Path.IsName path)
    {f : Place × String → Except FileFault α}
    (hlong : path.utf8ByteSize > Path.maxNameSize → f (.working, path) = .error .nameTooLong) :
    d.locate path >>= f = f (.working, path) := by
  rw [locate_of_isName d h]
  split
  · next hpath =>
    have hsizes : Path.maxNameSize < Path.maxSize := by decide
    exact (hlong (Nat.lt_trans hsizes hpath)).symm
  · rfl

theorem readText_of_isName (d : Directory) (h : Path.IsName path) :
    d.readText path =
      if path.utf8ByteSize > Path.maxNameSize then .error .nameTooLong
      else
        match d.find? path with
        | none => .error .notFound
        | some content =>
          match String.fromUTF8? content with
          | some text => .ok text
          | none => .error .notText := by
  rw [readText, locate_bind_of_isName d h]
  all_goals
    simp only [bind, Except.bind, entry?_of_isName d h, Path.endsInSlash_of_isName h]
  · by_cases hname : path.utf8ByteSize > Path.maxNameSize
    · simp only [if_pos hname]
    · simp only [if_neg hname]
      cases d.find? path <;> rfl
  · intro hname
    simp only [if_pos hname]

theorem readText_eq_ok_iff (hd : d.WellNamed) (h : Path.IsName path) :
    d.readText path = .ok text ↔ d.HoldsText path text := by
  rw [readText_of_isName d h]
  constructor
  · intro hread
    split at hread
    · cases hread
    · split at hread
      · cases hread
      · next content hfind =>
        split at hread
        · next htext =>
          cases hread
          exact ⟨content, hfind, htext⟩
        · cases hread
  · rintro ⟨content, hfind, htext⟩
    rw [if_neg (Nat.not_lt.mpr (hd.size_le hfind)), hfind]
    simp only [htext]

theorem writeText_of_isName (d : Directory) (h : Path.IsName path) (text : String) :
    d.writeText path text =
      if path.utf8ByteSize > Path.maxNameSize then .error .nameTooLong
      else .ok (d.insert path text.toUTF8) := by
  rw [writeText, locate_bind_of_isName d h]
  all_goals
    simp only [bind, Except.bind, entry?_of_isName d h, Path.endsInSlash_of_isName h,
      Bool.false_eq_true, if_false]
  · by_cases hname : path.utf8ByteSize > Path.maxNameSize
    · simp only [if_pos hname]
    · simp only [if_neg hname]
      cases d.find? path <;> rfl
  · intro hname
    simp only [if_pos hname]

/-- The directory above is no file. -/
theorem writeText_parent (d : Directory) (text : String) :
    d.writeText ".." text = .error .isDirectory := rfl

end Directory

end FourVin
