import FourVin.Proofs.Outcome
import FourVin.Proofs.Program.Content
import FourVin.Proofs.Token.Lexing
import FourVin.Program.Reading

/-!
The written form of a program reads as that program. Scanning and reading go together here:
`Passes` follows a text through both, from one stage of the reader to another, and is composed from
token to token, from operand to operand and from line to line. No list of tokens is built.
-/
namespace FourVin

theorem Token.ofSource_of_failure {file source : String}
    (h : (scanFrom file .start source.toList).failure = none) :
    Token.ofSource file source = .ok (scanFrom file .start source.toList).tokens := by
  unfold Token.ofSource Scan.ofSource
  split
  · next htokens => rw [htokens]
  · next hscan =>
    rw [hscan] at h
    cases h

namespace Program

open Token

/-- Read from stage `s` on, the text at `p` in front of `rest` leads to stage `s'` and completes
the declarations `out`. -/
structure Passes (file : String) (s : Stage) (p : Position) (text rest : List Char) (s' : Stage)
    (out : List Declaration) : Prop where
  failure : (scanFrom file p (text ++ rest)).failure =
    (scanFrom file (p.advance text) rest).failure
  declarations : ∀ eof, declarationsFrom s eof (scanFrom file p (text ++ rest)).tokens =
    (do
      let behind ← declarationsFrom s' eof (scanFrom file (p.advance text) rest).tokens
      return out ++ behind)

variable {file : String} {s s' s'' : Stage} {p : Position} {left right rest : List Char}
  {out out' : List Declaration}

theorem passes_nil (file : String) (s : Stage) (p : Position) (rest : List Char) :
    Passes file s p [] rest s [] := ⟨rfl, fun eof => by simp⟩

theorem Passes.trans (h : Passes file s p left (right ++ rest) s' out)
    (h' : Passes file s' (p.advance left) right rest s'' out') :
    Passes file s p (left ++ right) rest s'' (out ++ out') := by
  constructor
  · rw [List.append_assoc, h.failure, h'.failure, Position.advance_append]
  · intro eof
    rw [List.append_assoc, h.declarations, h'.declarations, Position.advance_append]
    simp

theorem passes_token {kind : Token.Kind} {text : List Char} (h : Lexes kind text rest)
    (hnext : s.next ⟨kind, String.ofList text, ⟨file, p⟩⟩ = some (s', out)) :
    Passes file s p text rest s' out := by
  constructor
  · rw [scanFrom_of_lexes file p h]
  · intro eof
    rw [scanFrom_of_lexes file p h, declarationsFrom, hnext]

theorem passes_space (file : String) (s : Stage) (p : Position) (rest : List Char) :
    Passes file s p [' '] rest s [] := by
  have h := scanFrom_blank file p rest (show isBlank ' ' = true by decide)
  constructor
  · exact congrArg Scan.failure h
  · intro eof
    rw [List.singleton_append, h]
    simp

theorem lexes_name {name : String} (h : IsName name) (hrest : Delimits rest) :
    Lexes (.name name) name.toList rest := by
  obtain ⟨⟨c, cs, hname, hc, hcs⟩, hmnemonic⟩ := h
  have hkind : Rule.wordKind name.toList = .name name := by simp [Rule.wordKind, hmnemonic]
  rw [← hkind, hname]
  exact lexes_word hc hcs hrest.not_wordChar

theorem lexes_mnemonic {mnemonic : String} (h : InstructionSet.isMnemonic mnemonic = true)
    (hrest : Delimits rest) : Lexes (.mnemonic mnemonic) mnemonic.toList rest := by
  obtain ⟨c, cs, hname, hc, hcs⟩ := isWord_of_isMnemonic h
  have hkind : Rule.wordKind mnemonic.toList = .mnemonic mnemonic := by simp [Rule.wordKind, h]
  rw [← hkind, hname]
  exact lexes_word hc hcs hrest.not_wordChar

def TakesOperand (s : Stage) (ins : Instruction) : Prop :=
  ∀ t, t.kind ≠ .newline → s.next t = (Stage.operandStart ins t).map (·, [])

theorem takesOperand_firstOperand (ins : Instruction) : TakesOperand (.firstOperand ins) ins := by
  intro t ht
  cases hkind : t.kind <;> simp_all [Stage.next]

theorem takesOperand_operand (ins : Instruction) : TakesOperand (.operand ins) ins := by
  intro t _
  simp [Stage.next]

theorem passes_value {ins : Instruction} {v : Value}
    (hs : TakesOperand s ins) (hv : v.Spellable) (hrest : Delimits rest) (file : String)
    (p : Position) :
    Passes file s p v.text.toList rest (Stage.withOperand ins v ⟨file, p⟩) [] := by
  cases v with
  | register r =>
    apply passes_token (lexes_register r hrest.not_alpha)
    rw [hs _ (by simp)]
    rfl
  | integer n =>
    have hlexes : Lexes (.integer n) n.toNat.repr.toList rest := by
      rw [Nat.toList_repr]
      exact lexes_integer Nat.toDigits_ne_nil
        (fun c hc => Nat.isDigit_of_mem_toDigits (by decide) (by decide) hc)
        Nat.ofDigitChars_ten_toDigits hrest
    apply passes_token hlexes
    rw [hs _ (by simp)]
    rfl
  | float x =>
    obtain ⟨whole, fraction, htext, hnil, -, hwhole, hfraction, hreads⟩ :=
      Double.Denotable.floatText_reads hv
    have hlexes : Lexes (.float x) (Value.floatText x) rest := by
      rw [htext] at hreads ⊢
      exact lexes_float hnil hwhole hfraction hreads hv.inRange hrest
    simp only [Value.text, String.toList_ofList]
    apply passes_token hlexes
    rw [hs _ (by simp)]
    rfl
  | label name =>
    have htext : (Value.label name).text.toList = ['$'] ++ name.toList := by
      simp [Value.text]
    have hdollar : Passes file s p ['$'] (name.toList ++ rest) (.operandName ins ⟨file, p⟩) [] := by
      apply passes_token (lexes_mark rfl)
      rw [hs _ (by simp)]
      rfl
    rw [htext]
    exact hdollar.trans (passes_token (lexes_name hv hrest) rfl)

theorem delimits_valuesText (values : List Value) (h : Delimits rest) :
    Delimits ((Content.valuesText ", " values).toList ++ rest) := by
  cases values with
  | nil => simpa [Content.valuesText] using h
  | cons v values =>
    intro c hc
    obtain rfl : ',' = c := by simpa [Content.valuesText] using hc
    decide

/-- The operands behind the first. -/
theorem passes_values (file : String) (ins : Instruction) (p : Position) {values : List Value}
    (hvalues : ∀ v ∈ values, v.Spellable) (hrest : Delimits rest) :
    Passes file (.separator ins) p (Content.valuesText ", " values).toList rest
      (.separator { ins with
        operands := ins.operands ++ Content.locateOperands file p ", " values }) [] := by
  induction values generalizing ins p with
  | nil =>
    simp only [Content.valuesText, Content.locateOperands, List.append_nil]
    exact passes_nil file _ p rest
  | cons v values ih =>
    have htext : (Content.valuesText ", " (v :: values)).toList =
        [','] ++ ([' '] ++ (v.text.toList ++ (Content.valuesText ", " values).toList)) := by
      simp [Content.valuesText]
    have hcomma : ∀ rest, Passes file (.separator ins) p [','] rest (.operand ins) [] :=
      fun _ => passes_token (lexes_mark rfl) rfl
    have hspace := passes_space file (.operand ins) (p.advance [','])
    have hvalue := passes_value (takesOperand_operand ins) (hvalues v (by simp))
      (delimits_valuesText values hrest) file ((p.advance [',']).advance [' '])
    have hbehind := ih { ins with operands := ins.operands ++ [⟨v, ⟨file, p.advance ", ".toList⟩⟩] }
      ((p.advance ", ".toList).advance v.text.toList)
      (fun w hw => hvalues w (List.mem_cons_of_mem v hw))
    simp only [List.append_assoc, List.singleton_append] at hbehind
    rw [htext]
    exact (hcomma _).trans ((hspace _).trans (hvalue.trans hbehind))

def Opens (s : Stage) : Prop := s = .lead ∨ s = .between

theorem passes_label (hs : Opens s) (file : String) (p : Position) {name : String}
    (hname : IsName name) (hrest : rest.head? ≠ some '\n') :
    Passes file s p ((Content.label name).text.toList ++ ['\n']) rest .between
      [.label name ⟨file, p⟩] := by
  have htext : (Content.label name).text.toList ++ ['\n'] =
      ['$'] ++ (name.toList ++ ([':'] ++ ['\n'])) := by
    simp [Content.text]
  have hdollar : ∀ rest, Passes file s p ['$'] rest (.labelName ⟨file, p⟩) [] := by
    intro rest
    apply passes_token (lexes_mark rfl)
    rcases hs with rfl | rfl <;> rfl
  have hword : ∀ q, Passes file (.labelName ⟨file, p⟩) q name.toList (':' :: '\n' :: rest)
      (.labelColon name ⟨file, p⟩) [] :=
    fun _ => passes_token (lexes_name hname (by simp [Delimits])) rfl
  have hcolon : ∀ q, Passes file (.labelColon name ⟨file, p⟩) q [':'] ('\n' :: rest)
      (.labelEnd name ⟨file, p⟩) [] := fun _ => passes_token (lexes_mark rfl) rfl
  have hnewline : ∀ q, Passes file (.labelEnd name ⟨file, p⟩) q ['\n'] rest .between
      [.label name ⟨file, p⟩] := fun _ => passes_token (lexes_newline hrest) rfl
  rw [htext]
  exact (hdollar _).trans ((hword _).trans ((hcolon _).trans (hnewline _)))

theorem passes_instruction (hs : Opens s) (file : String) (p : Position) {mnemonic : String}
    {values : List Value} (hmnemonic : InstructionSet.isMnemonic mnemonic = true)
    (hvalues : ∀ v ∈ values, v.Spellable) (hrest : rest.head? ≠ some '\n') :
    Passes file s p ((Content.instruction mnemonic values).text.toList ++ ['\n']) rest .between
      [(Content.instruction mnemonic values).locate file p] := by
  have hend : Delimits ('\n' :: rest) := by simp [Delimits]
  let opened : Instruction := ⟨mnemonic, [], ⟨file, p⟩⟩
  have hopen : ∀ rest, Delimits rest →
      Passes file s p mnemonic.toList rest (.firstOperand opened) [] := by
    intro rest hrest
    apply passes_token (lexes_mnemonic hmnemonic hrest)
    rcases hs with rfl | rfl <;> rfl
  cases values with
  | nil =>
    have hnewline : ∀ q, Passes file (.firstOperand opened) q ['\n'] rest .between
        [.instruction opened] := fun _ => passes_token (lexes_newline hrest) rfl
    have htext : (Content.instruction mnemonic []).text.toList = mnemonic.toList := by
      simp [Content.text, Content.valuesText]
    rw [htext]
    exact (hopen _ hend).trans (hnewline _)
  | cons v values =>
    have htext : (Content.instruction mnemonic (v :: values)).text.toList ++ ['\n'] =
        mnemonic.toList ++ ([' '] ++ (v.text.toList ++ (Content.valuesText ", " values).toList ++
          ['\n'])) := by
      simp [Content.text, Content.valuesText]
    let q := (p.advance mnemonic.toList).advance [' ']
    have hspace := passes_space file (.firstOperand opened) (p.advance mnemonic.toList)
    have hvalue := passes_value (takesOperand_firstOperand opened) (hvalues v (by simp))
      (delimits_valuesText values hend) file q
    have hbehind := passes_values file { opened with operands := [⟨v, ⟨file, q⟩⟩] }
      (q.advance v.text.toList) (fun w hw => hvalues w (List.mem_cons_of_mem v hw)) hend
    have hnewline : ∀ ins q, Passes file (.separator ins) q ['\n'] rest .between
        [.instruction ins] := fun _ _ => passes_token (lexes_newline hrest) rfl
    rw [htext]
    exact (hopen _ (by simp [Delimits])).trans
      ((hspace _).trans ((hvalue.trans hbehind).trans (hnewline _ _)))

theorem passes_content (hs : Opens s) (file : String) (p : Position) {c : Content}
    (hc : c.Spellable) (hrest : rest.head? ≠ some '\n') :
    Passes file s p (c.text.toList ++ ['\n']) rest .between [c.locate file p] := by
  cases c with
  | label name => exact passes_label hs file p hc hrest
  | instruction mnemonic values => exact passes_instruction hs file p hc.1 hc.2 hrest

theorem head?_listText {contents : List Content} (h : ∀ c ∈ contents, c.Spellable) :
    (Content.listText contents).toList.head? ≠ some '\n' := by
  cases contents with
  | nil => simp [Content.listText]
  | cons c rest =>
    rw [Content.toList_listText_cons]
    cases c with
    | label name => simp [Content.text]
    | instruction mnemonic values =>
      obtain ⟨hmnemonic, -⟩ := h (.instruction mnemonic values) (by simp)
      obtain ⟨c, cs, hword, hc, -⟩ := isWord_of_isMnemonic hmnemonic
      simp only [Content.text, String.toList_append, hword, List.cons_append, List.head?_cons]
      rintro ⟨⟩
      exact absurd hc (by decide)

/-- A line and those behind it. -/
theorem passes_listText_cons (hs : Opens s) (file : String) (p : Position) {c : Content}
    {contents : List Content} (hc : c.Spellable) (hcontents : ∀ d ∈ contents, d.Spellable)
    (hbehind : Passes file .between (p.advance (c.text.toList ++ ['\n']))
      (Content.listText contents).toList [] .between out) :
    Passes file s p (Content.listText (c :: contents)).toList [] .between
      (c.locate file p :: out) := by
  have hline := passes_content hs file p hc (head?_listText hcontents)
  rw [← List.append_nil (Content.listText contents).toList] at hline
  rw [Content.toList_listText_cons, List.append_cons]
  exact hline.trans hbehind

theorem passes_listText (file : String) (p : Position) {contents : List Content}
    (h : ∀ c ∈ contents, c.Spellable) :
    Passes file .between p (Content.listText contents).toList [] .between
      (Content.locateFrom file p contents) := by
  induction contents generalizing p with
  | nil => exact passes_nil file .between p []
  | cons c rest ih =>
    have hrest : ∀ d ∈ rest, d.Spellable := fun d hd => h d (List.mem_cons_of_mem c hd)
    exact passes_listText_cons (Or.inr rfl) file p (h c (List.mem_cons_self ..)) hrest (ih _ hrest)

/-- A source that leads behind its last declaration is read. -/
theorem ofSource_of_passes {source : String}
    (h : Passes file .lead .start source.toList [] .between out) :
    ofSource file source = .ok ⟨out⟩ := by
  obtain ⟨hfailure, hdeclarations⟩ := h
  rw [List.append_nil, scanFrom_nil] at hfailure hdeclarations
  rw [ofSource, Token.ofSource_of_failure hfailure, ok_bind, ofTokens, hdeclarations]
  simp [declarationsFrom, pure, Except.pure]

/-- The written form of spellable contents reads as these contents, each where it is written. -/
theorem ofSource_listText (file : String) {contents : List Content} (hne : contents ≠ [])
    (h : ∀ c ∈ contents, c.Spellable) :
    ofSource file (Content.listText contents) =
      .ok ⟨Content.locateFrom file .start contents⟩ := by
  obtain ⟨c, rest, rfl⟩ := List.exists_cons_of_ne_nil hne
  have hrest : ∀ d ∈ rest, d.Spellable := fun d hd => h d (List.mem_cons_of_mem c hd)
  exact ofSource_of_passes (passes_listText_cons (Or.inl rfl) file .start
    (h c (List.mem_cons_self ..)) hrest (passes_listText file _ hrest))

end Program

end FourVin
