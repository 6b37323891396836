import FourVin.Proofs.Token.Lexing

/-!
Scanning line by line. No token and no gap reaches over a line feed, except a run of line feeds, so
what stands behind a line feed has no influence on the tokens before it. Where a scan begins has no
influence but on locations: further down in the file it yields the same tokens further down.
-/
namespace FourVin

open Text

theorem takeWhile_append_lineFeed {p : Char → Bool} (hp : p '\n' = false) (line rest : List Char) :
    (line ++ '\n' :: rest).takeWhile p = line.takeWhile p := by
  induction line with
  | nil => simp [hp]
  | cons c line ih => simp [List.takeWhile_cons, ih]

theorem dropWhile_append_lineFeed {p : Char → Bool} (hp : p '\n' = false) (line rest : List Char) :
    (line ++ '\n' :: rest).dropWhile p = line.dropWhile p ++ '\n' :: rest := by
  induction line with
  | nil => simp [hp]
  | cons c line ih =>
    rw [List.cons_append, List.dropWhile_cons, List.dropWhile_cons, ih]
    split <;> rfl

theorem getLast?_drop_ne {text : List Char} {c : Char} (h : text.getLast? ≠ some c) (n : Nat) :
    (text.drop n).getLast? ≠ some c := by
  rw [List.getLast?_drop]
  split
  · simp
  · exact h

namespace Rule

variable {line : List Char} (rest : List Char)

theorem wordLexeme_append_lineFeed : wordLexeme (line ++ '\n' :: rest) = wordLexeme line := by
  cases line with
  | nil => rfl
  | cons c line =>
    simp only [wordLexeme, List.cons_append, takeWhile_append_lineFeed (p := isWordChar) rfl]

theorem registerLexeme_append_lineFeed :
    registerLexeme (line ++ '\n' :: rest) = registerLexeme line := by
  cases line with
  | nil => rfl
  | cons c line =>
    by_cases hc : c = '%'
    · subst hc
      simp only [registerLexeme, List.cons_append,
        takeWhile_append_lineFeed (p := Char.isAlpha) rfl]
    · have hopens : opens .register c = false := by simp [opens, hc]
      have hnil : ∀ input, registerLexeme (c :: input) = [] :=
        fun input => lexeme_eq_nil_of_opens input hopens
      rw [List.cons_append, hnil, hnil]

theorem floatLexeme_append_lineFeed :
    floatLexeme (line ++ '\n' :: rest) = floatLexeme line := by
  have hdecimal : isDecimal '\n' = false := by decide
  unfold floatLexeme
  rw [takeWhile_append_lineFeed hdecimal, dropWhile_append_lineFeed hdecimal]
  cases line.dropWhile isDecimal with
  | nil => rfl
  | cons c behind =>
    by_cases hc : c = '.'
    · subst hc
      simp only [List.cons_append, takeWhile_append_lineFeed hdecimal]
    · rw [List.cons_append]
      split
      · next heq =>
        cases heq
        exact absurd rfl hc
      · split
        · next heq =>
          cases heq
          exact absurd rfl hc
        · rfl

theorem hexLexeme_append_lineFeed : hexLexeme (line ++ '\n' :: rest) = hexLexeme line := by
  match line with
  | [] => rfl
  | [c] =>
    rw [hexLexeme_eq_nil (by simp), hexLexeme_eq_nil (by simp)]
  | c :: d :: line =>
    by_cases hd : d = 'x'
    · subst hd
      by_cases hc : c = '0'
      · subst hc
        simp only [hexLexeme, List.cons_append, takeWhile_append_lineFeed (p := isHexDigit) rfl]
      · have hopens : opens .hex c = false := by simp [opens, hc]
        have hnil : ∀ input, hexLexeme (c :: input) = [] :=
          fun input => lexeme_eq_nil_of_opens input hopens
        rw [List.cons_append, hnil, hnil]
    · rw [hexLexeme_eq_nil (by simpa using hd), hexLexeme_eq_nil (by simpa using hd)]

/-- A lexeme at the front of a text that does not end with a line feed ends before the line feed
behind the text. -/
theorem lexeme_append_lineFeed (rule : Rule) (hne : line ≠ []) (hline : line.getLast? ≠ some '\n') :
    rule.lexeme (line ++ '\n' :: rest) = rule.lexeme line := by
  cases rule with
  | newlines =>
    have hlast : line.getLast hne ≠ '\n' := fun h => hline (h ▸ List.getLast?_eq_some_getLast hne)
    refine List.takeWhile_append.trans (if_neg fun h => hlast ?_)
    have hself := (List.takeWhile_prefix (· = '\n')).eq_of_length h
    have hall : line.all (· = '\n') = true := hself ▸ List.all_takeWhile
    simpa using List.all_eq_true.mp hall _ (List.getLast_mem hne)
  | word => exact wordLexeme_append_lineFeed rest
  | register => exact registerLexeme_append_lineFeed rest
  | float => exact floatLexeme_append_lineFeed rest
  | hex => exact hexLexeme_append_lineFeed rest
  | integer => exact takeWhile_append_lineFeed (by decide) line rest
  | mark =>
    obtain ⟨c, behind, rfl⟩ := List.exists_cons_of_ne_nil hne
    rfl

theorem first?_append_lineFeed (hne : line ≠ []) (hline : line.getLast? ≠ some '\n') :
    first? (line ++ '\n' :: rest) = first? line := by
  unfold first? applies
  simp only [lexeme_append_lineFeed rest _ hne hline]

end Rule

def Scan.append (s t : Scan) : Scan :=
  match s.failure with
  | none => ⟨s.tokens ++ t.tokens, t.failure⟩
  | some _ => s

theorem Scan.append_cons (t : Token) (s u : Scan) :
    Scan.append ⟨t :: s.tokens, s.failure⟩ u =
      ⟨t :: (s.append u).tokens, (s.append u).failure⟩ := by
  obtain ⟨tokens, failure⟩ := s
  cases failure <;> rfl

theorem Scan.append_of_failure_eq_none {s : Scan} (h : s.failure = none) (t : Scan) :
    s.append t = ⟨s.tokens ++ t.tokens, t.failure⟩ := by
  rw [append, h]

theorem Scan.failure_eq_none_of_append {s t : Scan} (h : (s.append t).failure = none) :
    s.failure = none := by
  cases hs : s.failure with
  | none => rfl
  | some d =>
    rw [append, hs] at h
    exact hs.symm.trans h

namespace Token

theorem comment_eq_nil {input : List Char} (h : input.take 2 ≠ ['/', '/']) :
    comment input = [] := by
  unfold comment
  split
  · exact absurd rfl h
  · rfl

theorem comment_append_lineFeed (line rest : List Char) :
    comment (line ++ '\n' :: rest) = comment line := by
  match line with
  | [] => rfl
  | [c] => rw [comment_eq_nil (by simp), comment_eq_nil (by simp)]
  | c :: d :: line =>
    by_cases h : c = '/' ∧ d = '/'
    · obtain ⟨rfl, rfl⟩ := h
      simp only [comment, List.cons_append, takeWhile_append_lineFeed (p := (· ≠ '\n')) rfl]
    · rw [comment_eq_nil (by simpa using h), comment_eq_nil (by simpa using h)]

theorem gap_append_lineFeed (line rest : List Char) :
    gap (line ++ '\n' :: rest) = gap line := by
  have hblank : isBlank '\n' = false := by decide
  rw [gap, takeWhile_append_lineFeed hblank, dropWhile_append_lineFeed hblank,
    comment_append_lineFeed, gap]

/-- What stands behind the gap in front of a line, when more lines follow. -/
theorem drop_gap_append_lineFeed (line rest : List Char) :
    (line ++ '\n' :: rest).drop (gap (line ++ '\n' :: rest)).length =
      line.drop (gap line).length ++ '\n' :: rest := by
  rw [gap_append_lineFeed]
  exact List.drop_append_of_le_length (gap_isPrefix line).length_le

/-- Text that does not end with a line feed, and a line feed behind it, are scanned one after the
other. -/
theorem scanFrom_append_lineFeed (file : String) (p : Position) (line rest : List Char)
    (hline : line.getLast? ≠ some '\n') :
    scanFrom file p (line ++ '\n' :: rest) =
      (scanFrom file p line).append (scanFrom file (p.advance line) ('\n' :: rest)) := by
  fun_induction scanFrom file p line with
  | case1 p line hfront =>
    -- The line is nothing but a gap.
    have hgap : gap line = line := by
      have h := List.prefix_iff_eq_append.mp (gap_isPrefix line)
      rwa [hfront, List.append_nil] at h
    rw [scanFrom_eq, scanFrom_eq file (p.advance line), drop_gap_append_lineFeed, hfront,
      gap_append_lineFeed, hgap, show gap ('\n' :: rest) = [] from gap_append_lineFeed [] rest]
    rfl
  | case2 p line start c behind hfront hrule =>
    have hbehind := hfront ▸ getLast?_drop_ne hline (gap line).length
    have hfirst := Rule.first?_append_lineFeed rest (List.cons_ne_nil c behind) hbehind
    rw [List.cons_append] at hfirst
    rw [scanFrom_eq, drop_gap_append_lineFeed, hfront, gap_append_lineFeed]
    simp only [List.cons_append, hfirst, hrule]
    rfl
  | case3 p line start c behind hfront rule hrule text cause hkind =>
    have hbehind := hfront ▸ getLast?_drop_ne hline (gap line).length
    have hfirst := Rule.first?_append_lineFeed rest (List.cons_ne_nil c behind) hbehind
    have htext := rule.lexeme_append_lineFeed rest (List.cons_ne_nil c behind) hbehind
    rw [List.cons_append] at hfirst htext
    rw [scanFrom_eq, drop_gap_append_lineFeed, hfront, gap_append_lineFeed]
    simp only [List.cons_append, hfirst, hrule, htext]
    rw [hkind]
    rfl
  | case4 p line start c behind hfront rule hrule text kind hkind hlt later ih =>
    have hbehind := hfront ▸ getLast?_drop_ne hline (gap line).length
    have hfirst := Rule.first?_append_lineFeed rest (List.cons_ne_nil c behind) hbehind
    have htext : rule.lexeme (c :: behind ++ '\n' :: rest) = text :=
      rule.lexeme_append_lineFeed rest (List.cons_ne_nil c behind) hbehind
    have hnext : (c :: behind ++ '\n' :: rest).drop text.length =
        (c :: behind).drop text.length ++ '\n' :: rest :=
      List.drop_append_of_le_length (Rule.lexeme_isPrefix rule (c :: behind)).length_le
    have hend : p.advance line = (start.advance text).advance ((c :: behind).drop text.length) := by
      rw [← Position.advance_append, List.prefix_iff_eq_append.mp (Rule.lexeme_isPrefix rule _),
        ← hfront, ← Position.advance_append, List.prefix_iff_eq_append.mp (gap_isPrefix line)]
    have hrest := ih (getLast?_drop_ne hbehind text.length)
    rw [← hend] at hrest
    rw [List.cons_append] at hfirst htext hnext
    rw [scanFrom_eq, drop_gap_append_lineFeed, hfront, gap_append_lineFeed]
    simp only [List.cons_append, hfirst, hrule, htext]
    rw [hkind]
    simp only [hnext]
    rw [show p.advance (gap line) = start from rfl, hrest, Scan.append_cons]

theorem lexes_newlines (n : Nat) {rest : List Char} (h : rest.head? ≠ some '\n') :
    Lexes .newline (List.replicate (n + 1) '\n') rest := by
  apply lexes_of_rule .newlines (by simp) _ rfl (by simp [Rule.before, Rule.all])
  apply Rule.takeWhile_append_stop
  · intro c hc
    simpa using List.eq_of_mem_replicate hc
  · intro c hc
    simp only [decide_eq_false_iff_not]
    rintro rfl
    exact h hc

end Token

def Position.down (lines : Nat) (p : Position) : Position := ⟨p.line + lines, p.column⟩

theorem Position.advance_down (lines : Nat) (p : Position) (text : List Char) :
    (p.down lines).advance text = (p.advance text).down lines := by
  induction text generalizing p with
  | nil => rfl
  | cons c rest ih =>
    have hstep : (p.down lines).step c = (p.step c).down lines := by
      unfold step
      split
      · simp only [down, Nat.add_right_comm]
      · rfl
    rw [advance_cons, hstep, ih, advance_cons]

/-- A text that ends with a line feed leads to the first column of a line. -/
theorem Position.advance_of_getLast? (p : Position) {text : List Char}
    (h : text.getLast? = some '\n') : p.advance text = ⟨p.line + text.count '\n', 1⟩ := by
  obtain ⟨front, rfl⟩ := List.getLast?_eq_some_iff.mp h
  rw [advance_lineFeed, List.count_append, List.count_singleton_self, Nat.add_assoc]

def Location.down (lines : Nat) (l : Location) : Location := ⟨l.file, l.position.down lines⟩

def Token.down (lines : Nat) (t : Token) : Token := ⟨t.kind, t.text, t.location.down lines⟩

def Scan.down (lines : Nat) (s : Scan) : Scan where
  tokens := s.tokens.map (Token.down lines)
  failure := s.failure.map fun d => ⟨d.location.down lines, d.cause⟩

namespace Token

theorem scanFrom_down (file : String) (lines : Nat) (p : Position) (input : List Char) :
    scanFrom file (p.down lines) input = (scanFrom file p input).down lines := by
  fun_induction scanFrom file p input with
  | case1 p input hfront => rw [scanFrom_eq, hfront]; rfl
  | case2 p input start c rest hfront hrule =>
    rw [scanFrom_eq, hfront]
    simp only [hrule, Position.advance_down]
    rfl
  | case3 p input start c rest hfront rule hrule text cause hkind =>
    rw [scanFrom_eq, hfront]
    simp only [hrule, Position.advance_down]
    rw [hkind]
    rfl
  | case4 p input start c rest hfront rule hrule text kind hkind hlt behind ih =>
    rw [scanFrom_eq, hfront]
    simp only [hrule, Position.advance_down]
    rw [hkind]
    exact congrArg (fun s : Scan => (⟨_ :: s.tokens, s.failure⟩ : Scan)) ih

end Token

end FourVin
