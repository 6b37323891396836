import FourVin.Text.Blank
import Mathlib.Data.List.DropRight

/-!
Lines of a text, and the white space at the ends of a line. The line with a given index is the piece
of that index when the text is split at its line feeds. So the line on which a place lies is what
stands between the last line feed in front of the place and the next one behind it, and its index
is the number of line feeds in front.
-/
namespace FourVin.Text

theorem getElem?_zero_splitOn (text : List Char) :
    (text.splitOn '\n')[0]? = some (text.takeWhile (· ≠ '\n')) := by
  induction text with
  | nil => rfl
  | cons c rest ih =>
    rw [List.splitOn_cons_eq_if_modifyHead]
    by_cases hc : c = '\n'
    · simp [hc]
    · simpa [hc] using ih

theorem length_splitOn (text : List Char) :
    (text.splitOn '\n').length = text.count '\n' + 1 := by
  induction text with
  | nil => rfl
  | cons c rest ih =>
    rw [List.splitOn_cons_eq_if_modifyHead]
    by_cases hc : c = '\n'
    · simp [hc, ih]
    · simp [hc, ih]

theorem line_eq_getElem? (n : Nat) (text : List Char) :
    line n text = ((text.splitOn '\n')[n]?).getD [] := by
  fun_induction line n text with
  | case1 n => cases n <;> rfl
  | case2 rest => simp [List.splitOn_cons_eq_if_modifyHead]
  | case3 c rest hc ih =>
    simp [List.splitOn_cons_eq_if_modifyHead, hc, ih, getElem?_zero_splitOn]
  | case4 n rest ih => simp [List.splitOn_cons_eq_if_modifyHead, ih]
  | case5 n c rest hc ih => simp [List.splitOn_cons_eq_if_modifyHead, hc, ih]

/-- The line of a place between two parts of a text. -/
theorem getElem?_splitOn_append (front back : List Char) :
    ((front ++ back).splitOn '\n')[front.count '\n']? =
      some (front.rtakeWhile (· ≠ '\n') ++ back.takeWhile (· ≠ '\n')) := by
  induction front using List.reverseRecOn generalizing back with
  | nil => exact getElem?_zero_splitOn back
  | append_singleton front c ih =>
    rw [List.append_assoc, List.singleton_append]
    by_cases hc : c = '\n'
    · subst hc
      -- The place is at the front of a line, and the lines before it are those of `front`.
      have hlength : (front.splitOn '\n').length ≤ (front ++ ['\n']).count '\n' := by
        simp [length_splitOn]
      rw [List.splitOn_append_cons_self, List.getElem?_append_right hlength]
      simpa [length_splitOn] using getElem?_zero_splitOn back
    · have hplace := ih (c :: back)
      simpa [hc, List.rtakeWhile_concat_pos] using hplace

/-- The text `shown` is `text` without the white space at its ends, which is `lead` and `trail`. -/
structure Trims (text lead shown trail : List Char) : Prop where
  split : text = lead ++ shown ++ trail
  blankLead : ∀ c ∈ lead, isWhiteSpace c = true
  blankTrail : ∀ c ∈ trail, isWhiteSpace c = true
  first : ∀ c ∈ shown.head?, isWhiteSpace c = false
  last : ∀ c ∈ shown.getLast?, isWhiteSpace c = false

theorem trim_eq_rdropWhile (text : List Char) :
    trim text = (text.dropWhile isWhiteSpace).rdropWhile isWhiteSpace := rfl

/-- Trimming takes the white space off both ends, and nothing else. -/
theorem trims_trim (text : List Char) :
    Trims text (text.takeWhile isWhiteSpace) (trim text)
      ((text.dropWhile isWhiteSpace).rtakeWhile isWhiteSpace) := by
  rw [trim_eq_rdropWhile]
  refine ⟨?_, List.all_eq_true.mp List.all_takeWhile, ?_, ?_, ?_⟩
  · rw [List.append_assoc, List.rdropWhile_append_rtakeWhile, List.takeWhile_append_dropWhile]
  · exact fun c hc => List.mem_rtakeWhile_imp hc
  · intro c hc
    have hhead := List.head?_dropWhile_not isWhiteSpace text
    obtain ⟨rest, hrest⟩ := List.rdropWhile_prefix isWhiteSpace (text.dropWhile isWhiteSpace)
    obtain ⟨shown, hshown⟩ := List.head?_eq_some_iff.mp hc
    rw [← hrest, hshown] at hhead
    simpa using hhead
  · intro c hc
    have hne : (text.dropWhile isWhiteSpace).rdropWhile isWhiteSpace ≠ [] := by
      intro hnil
      simp [hnil] at hc
    have hlast := List.rdropWhile_last_not _ _ hne
    rw [List.getLast?_eq_some_getLast hne, Option.mem_some_iff] at hc
    simpa [hc] using hlast

theorem takeWhile_append_cons_neg {p : Char → Bool} {front back : List Char} {c : Char}
    (hc : p c = false) : (front ++ c :: back).takeWhile p = front.takeWhile p := by
  induction front with
  | nil => simp [hc]
  | cons b front ih => simp [List.takeWhile_cons, ih]

/-- Of a text that is trimmed, what is no white space is shown, and is moved to the front by the
length of the lead. -/
theorem Trims.getElem?_shown {text lead shown trail : List Char} (h : Trims text lead shown trail)
    {i : Nat} {c : Char} (hc : text[i]? = some c) (hblank : isWhiteSpace c = false) :
    lead.length ≤ i ∧ shown[i - lead.length]? = some c := by
  have hnot : ∀ {blanks : List Char} {k : Nat}, (∀ c ∈ blanks, isWhiteSpace c = true) →
      blanks[k]? ≠ some c := by
    intro blanks k hblanks hk
    rw [hblanks c (List.mem_of_getElem? hk)] at hblank
    cases hblank
  rw [h.split, List.append_assoc, List.getElem?_append] at hc
  split at hc
  · exact absurd hc (hnot h.blankLead)
  · rw [List.getElem?_append] at hc
    split at hc
    · exact ⟨by omega, hc⟩
    · exact absurd hc (hnot h.blankTrail)

end FourVin.Text
