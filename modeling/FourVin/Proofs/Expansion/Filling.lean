import FourVin.Proofs.Program.Soundness
import FourVin.Template

/-!
Filling a template is simultaneous substitution. The placeholders are replaced index by index, the
highest first, and every replacement looks through a text that already holds operands. Still each
of them finds the placeholders of its index and nothing else: operands bring no placeholder along
and complete none, the digits of a placeholder end before its neighbour begins, and a placeholder
that begins with the digits of a lower one has been replaced before.

`piecesFrom` takes a template apart, `Piece.filled` says what each piece becomes, and
`replace_filled` that one replacement brings the pieces of one more index in.
-/
namespace FourVin

namespace Template

inductive Piece where
  | kept (c : Char)
  | operand (index : Nat)

/-- The pieces of a template behind its first `skip` characters. A percent sign and all the digits
behind it are the place of an operand. -/
def piecesFrom : Nat → List Char → List Piece
  | _, [] => []
  | skip + 1, _ :: rest => piecesFrom skip rest
  | 0, c :: rest =>
    let digits := rest.takeWhile Char.isDigit
    if c = '%' ∧ digits ≠ [] then
      .operand (Nat.ofDigitChars 10 digits 0) :: piecesFrom digits.length rest
    else .kept c :: piecesFrom 0 rest

def Piece.filled (operands : List String) (least : Nat) : Piece → List Char
  | kept c => [c]
  | operand index =>
    if least ≤ index then (operands[index]?.map String.toList).getD (placeholder index)
    else placeholder index

/-- The template with the operands from the index `least` on in their places, all put in at once. -/
def fillAtOnce (template : String) (operands : List String) (least : Nat) : String :=
  String.ofList ((piecesFrom 0 template.toList).flatMap (Piece.filled operands least))

/-- The text is none, or its first character is neither a digit nor a percent sign. -/
def Apart (rest : List Char) : Prop := ∀ c ∈ rest.head?, c.isDigit = false ∧ c ≠ '%'

/-- No percent sign of the text stands before a digit or at the end. -/
def Inert : List Char → Prop
  | [] => True
  | c :: rest => (c = '%' → ∃ d ∈ rest.head?, d.isDigit = false) ∧ Inert rest

/-- Every percent sign of the template stands before something else than a digit or another one, or
it begins a placeholder: the digits behind it are the numeral of an index below `count`, and no
percent sign follows them. -/
def Regular (count : Nat) : List Char → Prop
  | [] => True
  | c :: rest =>
    (c = '%' → Apart rest ∨
      ∃ index < count, rest.takeWhile Char.isDigit = Nat.toDigits 10 index ∧
        (rest.dropWhile Char.isDigit).head? ≠ some '%') ∧
    Regular count rest

instance (rest : List Char) : Decidable (Apart rest) :=
  Option.decidableForallMem rest.head?

instance decidableInert : (text : List Char) → Decidable (Inert text)
  | [] => .isTrue trivial
  | c :: rest =>
    have := decidableInert rest
    have : Decidable (∃ d ∈ rest.head?, d.isDigit = false) := Option.decidableExistsMem rest.head?
    inferInstanceAs (Decidable ((c = '%' → ∃ d ∈ rest.head?, d.isDigit = false) ∧ Inert rest))

instance decidableRegular (count : Nat) : (text : List Char) → Decidable (Regular count text)
  | [] => .isTrue trivial
  | _ :: rest =>
    have := decidableRegular count rest
    inferInstanceAs (Decidable (_ ∧ _))

theorem isDigit_of_mem_toDigits {index : Nat} {c : Char} (h : c ∈ Nat.toDigits 10 index) :
    c.isDigit = true :=
  Nat.isDigit_of_mem_toDigits (by decide) (by decide) h

/-- A numeral that begins with another one denotes at least as much. -/
theorem le_of_toDigits_prefix {i j : Nat} (h : Nat.toDigits 10 i <+: Nat.toDigits 10 j) :
    i ≤ j := by
  obtain ⟨digits, hdigits⟩ := h
  have hvalue : Nat.ofDigitChars 10 (Nat.toDigits 10 i ++ digits) 0 = j := by
    rw [hdigits, Nat.ofDigitChars_ten_toDigits]
  rw [Nat.ofDigitChars_append, Nat.ofDigitChars_ten_toDigits,
    Nat.ofDigitChars_eq_ofDigitChars_zero] at hvalue
  have hscale : i ≤ 10 ^ digits.length * i := Nat.le_mul_of_pos_left i (Nat.pow_pos (by decide))
  omega

theorem not_toDigits_prefix {index : Nat} {rest : List Char}
    (h : ∀ c ∈ rest.head?, c.isDigit = false) : ¬ Nat.toDigits 10 index <+: rest := by
  intro hprefix
  obtain ⟨c, digits, hdigits⟩ := List.exists_cons_of_ne_nil (Nat.toDigits_ne_nil (b := 10)
    (n := index))
  obtain ⟨behind, rfl⟩ := hprefix
  have hmem : c ∈ Nat.toDigits 10 index := by simp [hdigits]
  have hc : c.isDigit = true := isDigit_of_mem_toDigits hmem
  rw [h c (by simp [hdigits])] at hc
  cases hc

/-- Digits in front of a text that begins with none cannot run on into it. -/
theorem toDigits_prefix_of_append {i j : Nat} {rest : List Char}
    (hrest : ∀ c ∈ rest.head?, c.isDigit = false)
    (h : Nat.toDigits 10 i <+: Nat.toDigits 10 j ++ rest) :
    Nat.toDigits 10 i <+: Nat.toDigits 10 j := by
  obtain ⟨behind, hbehind⟩ := h
  rcases List.append_eq_append_iff.mp hbehind with ⟨more, hmore, -⟩ | ⟨excess, hexcess, hrest'⟩
  · exact ⟨more, hmore.symm⟩
  · cases excess with
    | nil => exact ⟨[], by rw [hexcess, List.append_nil, List.append_nil]⟩
    | cons c excess =>
      -- The numeral would run on into the text behind the other one.
      have hmem : c ∈ Nat.toDigits 10 i := by simp [hexcess]
      have hc : c.isDigit = true := isDigit_of_mem_toDigits hmem
      rw [hrest c (by simp [hrest'])] at hc
      cases hc

theorem inert_of_not_mem {text : List Char} (h : '%' ∉ text) : Inert text := by
  induction text with
  | nil => trivial
  | cons c text ih =>
    rw [List.mem_cons, not_or] at h
    exact ⟨fun hc => absurd hc.symm h.1, ih h.2⟩

theorem Regular.drop {count : Nat} {template : List Char} (h : Regular count template) (n : Nat) :
    Regular count (template.drop n) := by
  induction n generalizing template with
  | zero => exact h
  | succ n ih =>
    cases template with
    | nil => exact h
    | cons c rest => exact ih h.2

theorem replaceFrom_skip (pattern replacement : List Char) (skip : Nat) (text : List Char) :
    Text.replaceFrom pattern replacement skip text =
      Text.replace pattern replacement (text.drop skip) := by
  induction skip generalizing text with
  | zero => rfl
  | succ skip ih =>
    cases text with
    | nil => rfl
    | cons c rest => exact ih rest

section Replacement

variable {index : Nat} {replacement : List Char}

/-- A character is passed where no placeholder of the index begins. -/
theorem replace_cons {c : Char} {rest : List Char}
    (h : c = '%' → ¬ Nat.toDigits 10 index <+: rest) :
    Text.replace (placeholder index) replacement (c :: rest) =
      c :: Text.replace (placeholder index) replacement rest := by
  have hnot : ¬ (placeholder index).isPrefixOf (c :: rest) = true := by
    rw [List.isPrefixOf_iff_prefix, placeholder, List.cons_prefix_cons]
    rintro ⟨rfl, hdigits⟩
    exact h rfl hdigits
  rw [Text.replace, Text.replaceFrom, if_neg hnot]
  rfl

theorem replace_inert {text : List Char} (rest : List Char) (h : Inert text) :
    Text.replace (placeholder index) replacement (text ++ rest) =
      text ++ Text.replace (placeholder index) replacement rest := by
  induction text with
  | nil => rfl
  | cons c text ih =>
    rw [List.cons_append, replace_cons, ih h.2, List.cons_append]
    intro hc
    obtain ⟨d, hd, hdigit⟩ := h.1 hc
    apply not_toDigits_prefix
    cases text with
    | nil => cases hd
    | cons e text =>
      obtain rfl : e = d := by simpa using hd
      simpa using hdigit

theorem replace_placeholder (rest : List Char) :
    Text.replace (placeholder index) replacement (placeholder index ++ rest) =
      replacement ++ Text.replace (placeholder index) replacement rest := by
  have hprefix : (placeholder index).isPrefixOf ('%' :: (Nat.toDigits 10 index ++ rest)) = true :=
    List.isPrefixOf_iff_prefix.mpr (List.prefix_append (placeholder index) rest)
  have hlength : (placeholder index).length - 1 = (Nat.toDigits 10 index).length := rfl
  have hcons : placeholder index ++ rest = '%' :: (Nat.toDigits 10 index ++ rest) := rfl
  rw [hcons, Text.replace, Text.replaceFrom, if_pos hprefix, hlength, replaceFrom_skip,
    List.drop_left]

/-- The placeholder of a lower index is passed, for its digits do not begin with those of a higher
one. -/
theorem replace_lower_placeholder {lower : Nat} {rest : List Char} (h : lower < index)
    (hrest : ∀ c ∈ rest.head?, c.isDigit = false) :
    Text.replace (placeholder index) replacement (placeholder lower ++ rest) =
      placeholder lower ++ Text.replace (placeholder index) replacement rest := by
  have hdigits : Inert (Nat.toDigits 10 lower) := by
    apply inert_of_not_mem
    intro hmem
    exact absurd (isDigit_of_mem_toDigits hmem) (by decide)
  have hnot : ¬ Nat.toDigits 10 index <+: Nat.toDigits 10 lower ++ rest := by
    intro hprefix
    have hle := le_of_toDigits_prefix (toDigits_prefix_of_append hrest hprefix)
    omega
  have hcons : placeholder lower ++ rest = '%' :: (Nat.toDigits 10 lower ++ rest) := rfl
  rw [hcons, replace_cons fun _ => hnot, replace_inert rest hdigits]
  rfl

end Replacement

/-- A template with its pieces, where whatever follows a placeholder or a percent sign that stays is
apart from it. -/
inductive Splits (count : Nat) : List Char → List Piece → Prop
  | nil : Splits count [] []
  | kept {c : Char} {rest : List Char} {pieces : List Piece} : (c = '%' → Apart rest) →
      Splits count rest pieces → Splits count (c :: rest) (.kept c :: pieces)
  | operand {index : Nat} {rest : List Char} {pieces : List Piece} : index < count → Apart rest →
      Splits count rest pieces → Splits count (placeholder index ++ rest) (.operand index :: pieces)

/-- What stands behind the digits of a placeholder is apart from them. -/
theorem apart_dropWhile {rest : List Char} (h : (rest.dropWhile Char.isDigit).head? ≠ some '%') :
    Apart (rest.dropWhile Char.isDigit) := by
  intro c hc
  constructor
  · have hhead := List.head?_dropWhile_not Char.isDigit rest
    rw [hc] at hhead
    simpa using hhead
  · rintro rfl
    exact h hc

/-- A regular template is taken apart into its pieces. -/
theorem Regular.splits {count : Nat} (skip : Nat) (template : List Char)
    (h : Regular count (template.drop skip)) :
    Splits count (template.drop skip) (piecesFrom skip template) := by
  fun_induction piecesFrom skip template with
  | case1 skip => simpa using Splits.nil
  | case2 skip c rest ih => exact ih h
  | case3 c rest digits hdigits ih =>
    obtain ⟨rfl, hne⟩ := hdigits
    rcases h.1 rfl with hplain | ⟨index, hindex, hnumeral, hbehind⟩
    · -- The percent sign would stand before no digit.
      have hnone : rest.takeWhile Char.isDigit = [] := by
        cases rest with
        | nil => rfl
        | cons c rest => simp [(hplain c (by simp)).1]
      exact absurd hnone hne
    · have hdigits : digits = Nat.toDigits 10 index := hnumeral
      have hsplit : digits ++ rest.dropWhile Char.isDigit = rest := List.takeWhile_append_dropWhile
      have hdrop : rest.drop digits.length = rest.dropWhile Char.isDigit := by
        conv => lhs; rw [← hsplit]
        rw [List.drop_left]
      have hpieces := ih (h.2.drop digits.length)
      rw [hdrop] at hpieces
      have hindex' : Nat.ofDigitChars 10 digits 0 = index := by
        rw [hdigits, Nat.ofDigitChars_ten_toDigits]
      have htemplate : '%' :: rest = placeholder index ++ rest.dropWhile Char.isDigit := by
        rw [placeholder, ← hdigits, List.cons_append, hsplit]
      rw [List.drop_zero, hindex', htemplate]
      exact .operand hindex (apart_dropWhile hbehind) hpieces
  | case4 c rest digits hdigits ih =>
    refine .kept ?_ (ih h.2)
    intro hc
    rcases h.1 hc with hplain | ⟨index, -, hnumeral, -⟩
    · exact hplain
    · have hdigits' : digits = Nat.toDigits 10 index := hnumeral
      exact absurd ⟨hc, hdigits' ▸ Nat.toDigits_ne_nil⟩ hdigits

section Pieces

variable {operands : List String} {template : List Char} {pieces : List Piece}

/-- What is apart from a placeholder or a percent sign stays where it is. -/
theorem Splits.head?_filled {count : Nat} (h : Splits count template pieces)
    (hapart : Apart template) (least : Nat) :
    (pieces.flatMap (Piece.filled operands least)).head? = template.head? := by
  cases h with
  | nil => rfl
  | kept _ _ => rfl
  | operand _ _ _ => exact absurd rfl (hapart '%' rfl).2

/-- Putting in no operand gives the template back. -/
theorem Splits.filled_none (h : Splits operands.length template pieces) :
    pieces.flatMap (Piece.filled operands operands.length) = template := by
  induction h with
  | nil => rfl
  | kept _ _ ih => rw [List.flatMap_cons, ih, Piece.filled, List.singleton_append]
  | operand hindex _ _ ih =>
    rw [List.flatMap_cons, ih, Piece.filled, if_neg (Nat.not_le.mpr hindex)]

/-- Replacing the placeholders of one index puts in the operand of that index and changes nothing
else. -/
theorem Splits.replace_filled (h : Splits operands.length template pieces) {index : Nat}
    {text : String} (htext : operands[index]? = some text)
    (hinert : ∀ text ∈ operands, Inert text.toList) :
    Text.replace (placeholder index) text.toList
        (pieces.flatMap (Piece.filled operands (index + 1))) =
      pieces.flatMap (Piece.filled operands index) := by
  induction h with
  | nil => rfl
  | kept hapart hrest ih =>
    simp only [List.flatMap_cons, Piece.filled, List.singleton_append]
    rw [replace_cons, ih]
    rintro rfl
    apply not_toDigits_prefix
    rw [hrest.head?_filled (hapart rfl)]
    exact fun c hc => (hapart rfl c hc).1
  | @operand other rest pieces hother hapart hrest ih =>
    rw [List.flatMap_cons, List.flatMap_cons, ← ih]
    rcases Nat.lt_trichotomy other index with hlt | rfl | hgt
    · rw [Piece.filled, Piece.filled, if_neg (by omega), if_neg (by omega)]
      apply replace_lower_placeholder hlt
      rw [hrest.head?_filled hapart]
      exact fun c hc => (hapart c hc).1
    · rw [Piece.filled, Piece.filled, if_neg (by omega), if_pos (by omega), htext]
      exact replace_placeholder _
    · -- The operand is in its place already, and is passed as a whole.
      obtain ⟨filled, hfilled⟩ : ∃ text, operands[other]? = some text :=
        ⟨_, List.getElem?_eq_getElem hother⟩
      rw [Piece.filled, Piece.filled, if_pos (by omega), if_pos (by omega), hfilled]
      exact replace_inert _ (hinert filled (List.mem_of_getElem? hfilled))

/-- The operands from an index on, replaced one after the other, are in their places as if they had
been put in at once. -/
theorem Splits.fillFrom_eq (h : Splits operands.length template pieces)
    (hinert : ∀ text ∈ operands, Inert text.toList) {rest : List String} {index : Nat}
    (hindex : index ≤ operands.length) (hrest : operands.drop index = rest) :
    fillFrom template index rest = pieces.flatMap (Piece.filled operands index) := by
  induction rest generalizing index with
  | nil =>
    obtain rfl : index = operands.length := by
      have hle := List.drop_eq_nil_iff.mp hrest
      omega
    rw [fillFrom, h.filled_none]
  | cons text rest ih =>
    have htext : operands[index]? = some text := by
      rw [← List.head?_drop, hrest, List.head?_cons]
    have hlt : index < operands.length := (List.getElem?_eq_some_iff.mp htext).1
    have hbehind : operands.drop (index + 1) = rest := by
      rw [← List.drop_drop, hrest]
      rfl
    rw [fillFrom, ih hlt hbehind, h.replace_filled htext hinert]

end Pieces

end Template

/-- What is written for a value that can be read is inert. -/
theorem Value.inert_text {v : Value} (h : v.Spellable) : Template.Inert v.text.toList := by
  cases v with
  | register r => cases r <;> decide
  | integer n =>
    apply Template.inert_of_not_mem
    rw [text, Nat.toList_repr]
    intro hmem
    exact absurd (Template.isDigit_of_mem_toDigits hmem) (by decide)
  | float x =>
    obtain ⟨whole, fraction, htext, -, -, hwhole, hfraction, -⟩ :=
      Double.Denotable.floatText_reads h
    apply Template.inert_of_not_mem
    rw [text, String.toList_ofList, htext, List.mem_append, List.mem_cons]
    rintro (hmem | hpoint | hmem)
    · exact absurd (hwhole _ hmem) (by decide)
    · exact absurd hpoint (by decide)
    · exact absurd (hfraction _ hmem) (by decide)
  | label name =>
    obtain ⟨⟨c, cs, hname, hc, hcs⟩, -⟩ := h
    have htext : (Value.label name).text.toList = '$' :: c :: cs := by simp [text, hname]
    apply Template.inert_of_not_mem
    rw [htext, List.mem_cons, List.mem_cons]
    rintro (hdollar | hfirst | hmem)
    · exact absurd hdollar (by decide)
    · exact absurd (hfirst ▸ hc) (by decide)
    · exact absurd (hcs _ hmem) (by decide)

namespace Template

/-- Filling a regular template with inert operands puts them in their places all at once, and so
does every stage on the way, with the operands from some index on. The operands of a program that
has been read are inert. -/
theorem fill_is_simultaneous :
    (∀ (template : String) (operands : List Operand),
      Regular operands.length template.toList → (∀ op ∈ operands, Inert op.text.toList) →
      fill template (operands.map Operand.text) =
          fillAtOnce template (operands.map Operand.text) 0 ∧
        ∀ index ≤ operands.length,
          String.ofList
              (fillFrom template.toList index ((operands.map Operand.text).drop index)) =
            fillAtOnce template (operands.map Operand.text) index) ∧
    ∀ file source p, Program.ofSource file source = .ok p →
      ∀ ins ∈ p.instructions, ∀ op ∈ ins.operands, Inert op.text.toList := by
  constructor
  · intro template operands hregular hinert
    have hlength : (operands.map Operand.text).length = operands.length := List.length_map _
    have hsplits : Splits (operands.map Operand.text).length template.toList
        (piecesFrom 0 template.toList) := by
      rw [hlength]
      exact Regular.splits 0 template.toList hregular
    have hstage : ∀ index ≤ operands.length,
        String.ofList (fillFrom template.toList index ((operands.map Operand.text).drop index)) =
          fillAtOnce template (operands.map Operand.text) index := by
      intro index hindex
      rw [hsplits.fillFrom_eq (List.forall_mem_map.mpr hinert) (hlength ▸ hindex) rfl]
      rfl
    exact ⟨hstage 0 (Nat.zero_le _), hstage⟩
  · intro file source p hread ins hins op hop
    have hsound := (Program.sound_ofSource hread).2 _ (Program.mem_instructions_iff.mp hins)
    exact Value.inert_text (hsound.operands op hop).1

/-- Eleven operands, so that the numeral of one index begins that of another. -/
def elevenOperands : List Operand :=
  (List.range 11).map fun index =>
    ⟨if index = 1 then .register .rsp else .integer (UInt32.ofNat index), ⟨"", .start⟩⟩

theorem fill_is_simultaneous_elevenOperands :
    fill "ADD %10, %1, %RSP\n" (elevenOperands.map Operand.text) = "ADD 10, %RSP, %RSP\n" ∧
      String.ofList (fillFrom "ADD %10, %1, %RSP\n".toList 2
        ((elevenOperands.map Operand.text).drop 2)) = "ADD 10, %1, %RSP\n" ∧
      Program.ofSource "push" "PUSH %RSP\n" = .ok ⟨[.instruction
        ⟨"PUSH", [⟨.register .rsp, ⟨"push", ⟨1, 6⟩⟩⟩], ⟨"push", ⟨1, 1⟩⟩⟩]⟩ ∧
      Inert (Value.register .rsp).text.toList := by
  obtain ⟨hfill, hstage⟩ := fill_is_simultaneous.1 "ADD %10, %1, %RSP\n" elevenOperands
    (by decide) (by decide)
  have hread : Program.ofSource "push" "PUSH %RSP\n" = .ok ⟨[.instruction
      ⟨"PUSH", [⟨.register .rsp, ⟨"push", ⟨1, 6⟩⟩⟩], ⟨"push", ⟨1, 1⟩⟩⟩]⟩ := by
    decide +kernel
  have hinert := fill_is_simultaneous.2 "push" "PUSH %RSP\n" _ hread _ (List.mem_singleton.mpr rfl)
    ⟨.register .rsp, ⟨"push", ⟨1, 6⟩⟩⟩ (List.mem_singleton.mpr rfl)
  exact ⟨hfill.trans (by decide), (hstage 2 (by decide)).trans (by decide), hread, hinert⟩

end Template

end FourVin
