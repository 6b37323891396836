import FourVin.Proofs.Program.Grammar
import FourVin.Proofs.Program.Soundness
import FourVin.Proofs.Program.WrittenForm

/-!
Reading accepts exactly the sentences of the grammar, and gives the program of the sentence.

That a sentence is accepted follows its tree: `Reads` is composed from token to token, from operand
to operand and from line to line. That nothing else is accepted follows the tokens: `Remains` says
what the grammar still asks for at each stage, and `remains_step` puts one more token in front.
-/
namespace FourVin.Program

open Grammar

/-- Read from stage `s` on, the tokens lead to stage `s'` and complete the declarations `out`,
whatever stands behind them. -/
def Reads (s : Stage) (tokens : List Token) (s' : Stage) (out : List Declaration) : Prop :=
  ∀ eof rest, declarationsFrom s eof (tokens ++ rest) =
    (do
      let behind ← declarationsFrom s' eof rest
      return out ++ behind)

variable {s s' s'' : Stage} {t : Token} {tokens rest left right : List Token}
  {out out' ds : List Declaration}

theorem reads_nil (s : Stage) : Reads s [] s [] := by
  intro eof rest
  simp

theorem Reads.trans (h : Reads s left s' out) (h' : Reads s' right s'' out') :
    Reads s (left ++ right) s'' (out ++ out') := by
  intro eof rest
  rw [List.append_assoc, h, h']
  simp

/-- What a token does is decided by its kind and its location. -/
theorem reads_token {kind : Token.Kind} (t : TokenOf kind)
    (h : s.next ⟨kind, t.1.text, t.1.location⟩ = some (s', out)) : Reads s [t.1] s' out := by
  have ht : ∀ u : Token, u.kind = kind → ⟨kind, u.text, u.location⟩ = u := by
    rintro u rfl
    rfl
  intro eof rest
  rw [List.singleton_append, declarationsFrom, ← ht t.1 t.2, h]

theorem reads_phrase {ins : Instruction} (hs : TakesOperand s ins) (a : OperandPhrase) :
    Reads s a.tokens (.separator { ins with operands := ins.operands ++ [a.operand] }) [] := by
  have hstart : ∀ {kind : Token.Kind} {s' : Stage} (t : TokenOf kind), kind ≠ .newline →
      Stage.operandStart ins ⟨kind, t.1.text, t.1.location⟩ = some s' → Reads s [t.1] s' [] := by
    intro kind s' t hkind hstart
    apply reads_token t
    rw [hs _ hkind, hstart]
    rfl
  cases a with
  | register r t => exact hstart t (by simp) rfl
  | integer n t => exact hstart t (by simp) rfl
  | hex n t => exact hstart t (by simp) rfl
  | float x t => exact hstart t (by simp) rfl
  | label name dollar t => exact (hstart dollar (by simp) rfl).trans (reads_token t rfl)

/-- The operands behind the first. -/
theorem reads_further (ins : Instruction) (further : List FurtherOperand) :
    Reads (.separator ins) (further.flatMap FurtherOperand.tokens)
      (.separator { ins with operands := ins.operands ++ further.map FurtherOperand.operand })
      [] := by
  induction further generalizing ins with
  | nil =>
    rw [List.map_nil, List.append_nil]
    exact reads_nil (.separator ins)
  | cons f further ih =>
    have hcomma : Reads (.separator ins) [f.comma.1] (.operand ins) [] := reads_token f.comma rfl
    have hoperand := reads_phrase (takesOperand_operand ins) f.phrase
    have hbehind := ih { ins with operands := ins.operands ++ [f.operand] }
    simp only [List.append_assoc, List.singleton_append] at hbehind
    exact (hcomma.trans hoperand).trans hbehind

/-- Line feeds behind a declaration or in front of the first one. -/
theorem reads_newlines (hs : Opens s) (newlines : List (TokenOf .newline)) :
    Reads s (newlines.map Subtype.val) s [] := by
  induction newlines with
  | nil => exact reads_nil s
  | cons t newlines ih =>
    have hnewline : Reads s [t.1] s [] := by
      apply reads_token t
      rcases hs with rfl | rfl <;> rfl
    exact hnewline.trans ih

theorem reads_lineEnd (e : LineEnd)
    (h : s.next ⟨.newline, e.first.1.text, e.first.1.location⟩ = some (.between, out)) :
    Reads s e.tokens .between out := by
  have hline := (reads_token e.first h).trans (reads_newlines (Or.inr rfl) e.further)
  rwa [List.append_nil] at hline

theorem reads_line (hs : Opens s) (l : Line) : Reads s l.tokens .between [l.declaration] := by
  cases l with
  | instruction mnemonic t operands lineEnd =>
    have hopen : Reads s [t.1] (.firstOperand ⟨mnemonic, [], t.1.location⟩) [] := by
      apply reads_token t
      rcases hs with rfl | rfl <;> rfl
    cases operands with
    | empty => exact hopen.trans (reads_lineEnd lineEnd rfl)
    | nonempty first further =>
      have hfirst := reads_phrase (takesOperand_firstOperand ⟨mnemonic, [], t.1.location⟩) first
      exact hopen.trans
        ((hfirst.trans (reads_further _ further)).trans (reads_lineEnd lineEnd rfl))
  | label name dollar t colon lineEnd =>
    have hdollar : Reads s [dollar.1] (.labelName dollar.1.location) [] := by
      apply reads_token dollar
      rcases hs with rfl | rfl <;> rfl
    have hname : Reads (.labelName dollar.1.location) [t.1]
        (.labelColon name dollar.1.location) [] := reads_token t rfl
    have hcolon : Reads (.labelColon name dollar.1.location) [colon.1]
        (.labelEnd name dollar.1.location) [] := reads_token colon rfl
    exact hdollar.trans (hname.trans (hcolon.trans (reads_lineEnd lineEnd rfl)))

theorem reads_lines (lines : List Line) :
    Reads .between (lines.flatMap Line.tokens) .between (lines.map Line.declaration) := by
  induction lines with
  | nil => exact reads_nil .between
  | cons l lines ih => exact (reads_line (Or.inr rfl) l).trans ih

theorem reads_sentence (x : Sentence) :
    Reads .lead x.tokens .between x.program.declarations :=
  (reads_newlines (Or.inl rfl) x.lead).trans
    ((reads_line (Or.inl rfl) x.first).trans (reads_lines x.further))

def Ends (d : Declaration) (tokens : List Token) (ds : List Declaration) : Prop :=
  ∃ (e : LineEnd) (lines : List Line), tokens = e.tokens ++ lines.flatMap Line.tokens ∧
    ds = d :: lines.map Line.declaration

/-- Commas and operands that complete the instruction of which `ins` has been read, and the end of
its line. -/
def OperandsEnd (ins : Instruction) (tokens : List Token) (ds : List Declaration) : Prop :=
  ∃ (further : List FurtherOperand) (behind : List Token),
    tokens = further.flatMap FurtherOperand.tokens ++ behind ∧
    Ends (.instruction { ins with
      operands := ins.operands ++ further.map FurtherOperand.operand }) behind ds

def Remains (s : Stage) (tokens : List Token) (ds : List Declaration) : Prop :=
  match s with
  | .lead => ∃ x : Sentence, tokens = x.tokens ∧ ds = x.program.declarations
  | .between => ∃ (newlines : List (TokenOf .newline)) (lines : List Line),
      tokens = newlines.map Subtype.val ++ lines.flatMap Line.tokens ∧
      ds = lines.map Line.declaration
  | .firstOperand ins => ∃ (operands : OperandList) (behind : List Token),
      tokens = operands.tokens ++ behind ∧
      Ends (.instruction { ins with operands := ins.operands ++ operands.operands }) behind ds
  | .operand ins => ∃ (a : OperandPhrase) (behind : List Token), tokens = a.tokens ++ behind ∧
      OperandsEnd { ins with operands := ins.operands ++ [a.operand] } behind ds
  | .operandName ins location => ∃ name, ∃ (t : TokenOf (.name name)) (behind : List Token),
      tokens = t.1 :: behind ∧
      OperandsEnd { ins with operands := ins.operands ++ [⟨.label name, location⟩] } behind ds
  | .separator ins => OperandsEnd ins tokens ds
  | .labelName location => ∃ name, ∃ (t : TokenOf (.name name)) (colon : TokenOf .colon)
      (behind : List Token), tokens = t.1 :: colon.1 :: behind ∧
      Ends (.label name location) behind ds
  | .labelColon name location => ∃ (colon : TokenOf .colon) (behind : List Token),
      tokens = colon.1 :: behind ∧ Ends (.label name location) behind ds
  | .labelEnd name location => Ends (.label name location) tokens ds

theorem ends_cons (d : Declaration) (hkind : t.kind = .newline)
    (h : Remains .between rest ds) : Ends d (t :: rest) (d :: ds) := by
  obtain ⟨newlines, lines, rfl, rfl⟩ := h
  exact ⟨⟨⟨t, hkind⟩, newlines⟩, lines, rfl, rfl⟩

/-- Lines from their first token on. -/
theorem exists_lines_of_opening (hopening : Stage.opening t = some s') (h : Remains s' rest ds) :
    ∃ (l : Line) (lines : List Line), t :: rest = (l :: lines).flatMap Line.tokens ∧
      ds = (l :: lines).map Line.declaration := by
  unfold Stage.opening at hopening
  split at hopening
  · next word hkind =>
    cases hopening
    obtain ⟨operands, behind, rfl, e, lines, rfl, rfl⟩ := h
    refine ⟨.instruction word ⟨t, hkind⟩ operands e, lines, ?_, rfl⟩
    simp [Line.tokens]
  · next hkind =>
    cases hopening
    obtain ⟨name, u, colon, behind, rfl, e, lines, rfl, rfl⟩ := h
    exact ⟨.label name ⟨t, hkind⟩ u colon e, lines, rfl, rfl⟩
  · cases hopening

/-- An operand from its first token on. -/
theorem remains_operand {ins : Instruction} (hstart : Stage.operandStart ins t = some s')
    (h : Remains s' rest ds) : Remains (.operand ins) (t :: rest) ds := by
  unfold Stage.operandStart at hstart
  cases hkind : t.kind with
  | register r =>
    simp only [hkind] at hstart
    cases hstart
    exact ⟨.register r ⟨t, hkind⟩, rest, rfl, h⟩
  | integer n =>
    simp only [hkind] at hstart
    cases hstart
    exact ⟨.integer n ⟨t, hkind⟩, rest, rfl, h⟩
  | hex n =>
    simp only [hkind] at hstart
    cases hstart
    exact ⟨.hex n ⟨t, hkind⟩, rest, rfl, h⟩
  | float x =>
    simp only [hkind] at hstart
    cases hstart
    exact ⟨.float x ⟨t, hkind⟩, rest, rfl, h⟩
  | dollar =>
    simp only [hkind] at hstart
    cases hstart
    obtain ⟨name, u, behind, rfl, hbehind⟩ := h
    exact ⟨.label name ⟨t, hkind⟩ u, behind, rfl, hbehind⟩
  | _ => simp only [hkind, reduceCtorEq] at hstart

theorem remains_firstOperand {ins : Instruction} (h : Remains (.operand ins) tokens ds) :
    Remains (.firstOperand ins) tokens ds := by
  obtain ⟨a, _, rfl, further, behind, rfl, hend⟩ := h
  refine ⟨.nonempty a further, behind, ?_, ?_⟩
  · simp [OperandList.tokens]
  · simpa [OperandList.operands] using hend

theorem remains_separator {ins : Instruction} (hkind : t.kind = .comma)
    (h : Remains (.operand ins) rest ds) : Remains (.separator ins) (t :: rest) ds := by
  obtain ⟨a, _, rfl, further, behind, rfl, hend⟩ := h
  refine ⟨⟨⟨t, hkind⟩, a⟩ :: further, behind, ?_, ?_⟩
  · simp [FurtherOperand.tokens]
  · simpa [FurtherOperand.operand] using hend

/-- One token in front of what the grammar allows at the stage behind it. -/
theorem remains_step (h : Stage.Step t s s' out) (hrest : Remains s' rest ds) :
    Remains s (t :: rest) (out ++ ds) := by
  cases h with
  | lead hkind =>
    obtain ⟨x, rfl, rfl⟩ := hrest
    exact ⟨{ x with lead := ⟨t, hkind⟩ :: x.lead }, rfl, rfl⟩
  | between hkind =>
    obtain ⟨newlines, lines, rfl, rfl⟩ := hrest
    exact ⟨⟨t, hkind⟩ :: newlines, lines, rfl, rfl⟩
  | opening hs hopening =>
    obtain ⟨l, lines, htokens, hds⟩ := exists_lines_of_opening hopening hrest
    rcases hs with rfl | rfl
    · exact ⟨⟨[], l, lines⟩, htokens, hds⟩
    · exact ⟨[], l :: lines, htokens, hds⟩
  | operand hs hstart =>
    have hoperand := remains_operand hstart hrest
    rcases hs with rfl | rfl
    · exact remains_firstOperand hoperand
    · exact hoperand
  | @operandName ins location word hkind => exact ⟨word, ⟨t, hkind⟩, rest, rfl, hrest⟩
  | comma hkind => exact remains_separator hkind hrest
  | @instructionEnd s ins hs hkind =>
    have hend := ends_cons (.instruction ins) hkind hrest
    rcases hs with rfl | rfl
    · exact ⟨.empty, t :: rest, rfl, by simpa [OperandList.operands] using hend⟩
    · exact ⟨[], t :: rest, rfl, by simpa using hend⟩
  | @labelName location word hkind =>
    obtain ⟨colon, behind, rfl, hend⟩ := hrest
    exact ⟨word, ⟨t, hkind⟩, colon, behind, rfl, hend⟩
  | labelColon hkind => exact ⟨⟨t, hkind⟩, rest, rfl, hrest⟩
  | @labelEnd name location hkind => exact ends_cons (.label name location) hkind hrest

/-- Only what the grammar allows is accepted. -/
theorem remains_of_declarationsFrom {eof : Location} (h : declarationsFrom s eof tokens = .ok ds) :
    Remains s tokens ds := by
  induction tokens generalizing s ds with
  | nil =>
    simp only [declarationsFrom] at h
    split at h
    · next hbetween =>
      cases h
      subst hbetween
      exact ⟨[], [], rfl, rfl⟩
    · cases h
  | cons t rest ih =>
    simp only [declarationsFrom] at h
    split at h
    · cases h
    · next s' completed hnext =>
      obtain ⟨behind, hbehind, heq⟩ := bind_eq_ok_iff.mp h
      cases heq
      exact remains_step (step_of_next hnext) (ih hbehind)

/-- The program of a sentence is read from its tokens. -/
theorem ofTokens_tokens (file : String) (x : Sentence) :
    ofTokens file x.tokens = .ok x.program := by
  have hread := reads_sentence x (endLocation file x.tokens) []
  rw [List.append_nil] at hread
  unfold ofTokens
  rw [hread]
  simp [declarationsFrom, Sentence.program]

theorem exists_sentence_of_ofTokens {file : String} {p : Program}
    (h : ofTokens file tokens = .ok p) : ∃ x : Sentence, x.tokens = tokens ∧ x.program = p := by
  obtain ⟨ds, hds, heq⟩ := bind_eq_ok_iff.mp h
  cases heq
  obtain ⟨x, rfl, rfl⟩ := remains_of_declarationsFrom hds
  exact ⟨x, rfl, rfl⟩

/-- Reading accepts the sentences of the grammar and nothing else. A sentence has one derivation,
and what is read is the program of that derivation. -/
theorem ofTokens_accepts_sentences (file : String) (tokens : List Token) :
    (∀ p, ofTokens file tokens = .ok p ↔ ∃ x : Sentence, x.tokens = tokens ∧ x.program = p) ∧
    ∀ x y : Sentence, x.tokens = tokens → y.tokens = tokens → x = y := by
  constructor
  · intro p
    constructor
    · exact exists_sentence_of_ofTokens
    · rintro ⟨x, rfl, rfl⟩
      exact ofTokens_tokens file x
  · intro x y hx hy
    exact Sentence.tokens_injective (hx.trans hy.symm)

def tokenAt (column : Nat) (kind : Token.Kind) : TokenOf kind :=
  ⟨⟨kind, "", ⟨"loop", ⟨1, column⟩⟩⟩, rfl⟩

def loopSentence : Sentence where
  lead := [tokenAt 1 .newline]
  first := .label "top" (tokenAt 2 .dollar) (tokenAt 3 (.name "top")) (tokenAt 4 .colon)
    ⟨tokenAt 5 .newline, [tokenAt 6 .newline]⟩
  further := [
    .instruction "ADD" (tokenAt 7 (.mnemonic "ADD"))
      (.nonempty (.register .ra (tokenAt 8 (.register .ra)))
        [⟨tokenAt 9 .comma, .hex 16 (tokenAt 10 (.hex 16))⟩])
      ⟨tokenAt 11 .newline, []⟩,
    .instruction "JMP" (tokenAt 12 (.mnemonic "JMP"))
      (.nonempty (.label "top" (tokenAt 13 .dollar) (tokenAt 14 (.name "top"))) [])
      ⟨tokenAt 15 .newline, []⟩]

def danglingComma : List Token :=
  [(tokenAt 1 (.mnemonic "ADD")).1, (tokenAt 2 (.register .ra)).1, (tokenAt 3 .comma).1,
    (tokenAt 4 .newline).1]

theorem ofTokens_accepts_sentences_loop :
    ofTokens "loop" loopSentence.tokens = .ok ⟨[
      .label "top" ⟨"loop", ⟨1, 2⟩⟩,
      .instruction ⟨"ADD", [⟨.register .ra, ⟨"loop", ⟨1, 8⟩⟩⟩, ⟨.integer 16, ⟨"loop", ⟨1, 10⟩⟩⟩],
        ⟨"loop", ⟨1, 7⟩⟩⟩,
      .instruction ⟨"JMP", [⟨.label "top", ⟨"loop", ⟨1, 13⟩⟩⟩], ⟨"loop", ⟨1, 12⟩⟩⟩]⟩ ∧
    (∀ x : Sentence, x.tokens = loopSentence.tokens → x = loopSentence) ∧
    ¬ ∃ x : Sentence, x.tokens = danglingComma := by
  refine ⟨?_, ?_, ?_⟩
  · exact ((ofTokens_accepts_sentences "loop" _).1 _).mpr ⟨loopSentence, rfl, rfl⟩
  · intro x hx
    exact (ofTokens_accepts_sentences "loop" _).2 x loopSentence hx rfl
  · rintro ⟨x, hx⟩
    have hread := ((ofTokens_accepts_sentences "loop" danglingComma).1 _).mpr ⟨x, hx, rfl⟩
    cases hread

end FourVin.Program
