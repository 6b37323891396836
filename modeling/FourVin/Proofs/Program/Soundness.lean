import FourVin.Proofs.Outcome
import FourVin.Proofs.Program.Content
import FourVin.Program.Reading

/-!
What reading guarantees. A program that has been read has at least one declaration, its contents
are spellable, and all its locations are in the file; a fault that stops the reading is in the file
too. The invariant is carried from the scan over the stages of the reader: `Stage.Step` says what
one token can do, and `sound_step` that this keeps the parts of declarations sound.
-/
namespace FourVin

/-- The causes that reading and checking can report. The others belong to later stages. -/
def Cause.Reportable : Cause → Prop
  | unknownMnemonic _ => False
  | inExpansion _ _ _ => False
  | unresolvedLabel _ => False
  | unencodable _ _ => False
  | _ => True

def Diagnostic.Reportable (file : String) (d : Diagnostic) : Prop :=
  d.location.file = file ∧ d.cause.Reportable

def Token.Kind.Spellable : Token.Kind → Prop
  | float x => x.Denotable
  | mnemonic word => InstructionSet.isMnemonic word = true
  | name word => IsName word
  | _ => True

def Token.Sound (file : String) (t : Token) : Prop :=
  t.location.file = file ∧ t.kind.Spellable

namespace Rule

theorem isWord_wordLexeme {input : List Char} (h : wordLexeme input ≠ []) :
    IsWord (String.ofList (wordLexeme input)) := by
  cases input with
  | nil => exact absurd rfl h
  | cons c rest =>
    by_cases hc : c.isAlpha = true
    · refine ⟨c, rest.takeWhile isWordChar, by simp [wordLexeme, hc], hc, ?_⟩
      intro d hd
      exact List.all_eq_true.mp List.all_takeWhile d hd
    · exact absurd (by simp [wordLexeme, hc]) h

theorem spellable_of_kind {rule : Rule} {input : List Char} {kind : Token.Kind}
    (hne : rule.lexeme input ≠ []) (h : rule.kind (rule.lexeme input) = .ok kind) :
    kind.Spellable := by
  cases rule with
  | newlines =>
    cases h
    trivial
  | word =>
    have hword := isWord_wordLexeme hne
    simp only [Rule.kind, wordKind] at h
    split at h
    · next hmnemonic =>
      cases h
      exact hmnemonic
    · next hmnemonic =>
      cases h
      exact ⟨hword, by simpa using hmnemonic⟩
  | register =>
    simp only [Rule.kind, registerKind] at h
    split at h
    · cases h
      trivial
    · cases h
  | float =>
    simp only [Rule.kind, floatKind] at h
    split at h
    · split at h
      · cases h
      · next hrange =>
        cases h
        exact Double.denotable_ofDecimal _ (by simpa using hrange)
    · cases h
  | hex =>
    simp only [Rule.kind, hexKind] at h
    split at h
    · cases h
      trivial
    · cases h
  | integer =>
    simp only [Rule.kind, integerKind] at h
    split at h
    · cases h
      trivial
    · cases h
  | mark =>
    simp only [Rule.kind, markKind] at h
    split at h
    · next hmark =>
      cases h
      obtain ⟨c, -, hc⟩ := Option.bind_eq_some_iff.mp hmark
      unfold markOf? at hc
      split at hc <;> cases hc <;> trivial
    · cases h

theorem reportable_of_kind {rule : Rule} {text : List Char} {cause : Cause}
    (h : rule.kind text = .error cause) : cause.Reportable := by
  unfold Rule.kind registerKind floatKind hexKind integerKind markKind at h
  dsimp only at h
  repeat' split at h
  all_goals cases h
  all_goals trivial

end Rule

namespace Token

theorem sound_scanFrom (file : String) (p : Position) (input : List Char) :
    (∀ t ∈ (scanFrom file p input).tokens, t.Sound file) ∧
      ∀ d ∈ (scanFrom file p input).failure, d.Reportable file := by
  fun_induction scanFrom file p input with
  | case1 p input hfront => simp
  | case2 p input start c rest hfront hrule =>
    simp [Diagnostic.Reportable, Cause.Reportable]
  | case3 p input start c rest hfront rule hrule text cause hkind =>
    simp [Diagnostic.Reportable, Rule.reportable_of_kind hkind]
  | case4 p input start c rest hfront rule hrule text kind hkind hlt behind ih =>
    refine ⟨?_, ih.2⟩
    intro t ht
    rcases List.mem_cons.mp ht with rfl | ht
    · exact ⟨rfl, Rule.spellable_of_kind (Rule.lexeme_ne_nil_of_first? hrule) hkind⟩
    · exact ih.1 t ht

end Token

structure Instruction.Sound (file : String) (ins : Instruction) : Prop where
  mnemonic : InstructionSet.isMnemonic ins.mnemonic = true
  location : ins.location.file = file
  operands : ∀ op ∈ ins.operands, op.value.Spellable ∧ op.location.file = file

def Declaration.Sound (file : String) : Declaration → Prop
  | label name location => IsName name ∧ location.file = file
  | instruction ins => ins.Sound file

theorem Declaration.Sound.spellable {file : String} {d : Declaration} (h : d.Sound file) :
    d.content.Spellable := by
  cases d with
  | label name location => exact h.1
  | instruction ins =>
    refine ⟨h.mnemonic, ?_⟩
    intro v hv
    obtain ⟨op, hop, rfl⟩ := List.mem_map.mp hv
    exact (h.operands op hop).1

namespace Program

def Stage.Sound (file : String) : Stage → Prop
  | lead => True
  | between => True
  | firstOperand ins => ins.Sound file
  | operand ins => ins.Sound file
  | operandName ins location => ins.Sound file ∧ location.file = file
  | separator ins => ins.Sound file
  | labelName location => location.file = file
  | labelColon name location => IsName name ∧ location.file = file
  | labelEnd name location => IsName name ∧ location.file = file

variable {file : String} {s s' : Stage} {t : Token} {out : List Declaration}

theorem sound_opening (ht : t.Sound file) (h : Stage.opening t = some s) : s.Sound file := by
  unfold Stage.opening at h
  split at h
  · next word hkind =>
    cases h
    have hword : t.kind.Spellable := ht.2
    rw [hkind] at hword
    exact ⟨hword, ht.1, by simp⟩
  · cases h
    exact ht.1
  · cases h

theorem sound_withOperand {ins : Instruction} {v : Value} {location : Location}
    (hins : ins.Sound file) (hv : v.Spellable) (hlocation : location.file = file) :
    (Stage.withOperand ins v location).Sound file := by
  refine ⟨hins.mnemonic, hins.location, ?_⟩
  intro op hop
  rcases List.mem_append.mp hop with hop | hop
  · exact hins.operands op hop
  · obtain rfl := List.mem_singleton.mp hop
    exact ⟨hv, hlocation⟩

theorem sound_operandStart {ins : Instruction} (hins : ins.Sound file) (ht : t.Sound file)
    (h : Stage.operandStart ins t = some s) : s.Sound file := by
  obtain ⟨hfile, hkind⟩ := ht
  unfold Stage.operandStart at h
  cases hk : t.kind with
  | register r =>
    simp only [hk] at h
    cases h
    exact sound_withOperand hins trivial hfile
  | integer n =>
    simp only [hk] at h
    cases h
    exact sound_withOperand hins trivial hfile
  | hex n =>
    simp only [hk] at h
    cases h
    exact sound_withOperand hins trivial hfile
  | float x =>
    rw [hk] at hkind
    simp only [hk] at h
    cases h
    exact sound_withOperand hins hkind hfile
  | dollar =>
    simp only [hk] at h
    cases h
    exact ⟨hins, hfile⟩
  | _ => simp only [hk, reduceCtorEq] at h

inductive Stage.Step (t : Token) : Stage → Stage → List Declaration → Prop
  | lead : t.kind = .newline → Step t lead lead []
  | between : t.kind = .newline → Step t between between []
  | opening {s s' : Stage} : s = lead ∨ s = between → opening t = some s' → Step t s s' []
  | operand {s s' : Stage} {ins : Instruction} : s = firstOperand ins ∨ s = operand ins →
      operandStart ins t = some s' → Step t s s' []
  | operandName {ins : Instruction} {location : Location} {word : String} : t.kind = .name word →
      Step t (operandName ins location) (withOperand ins (.label word) location) []
  | comma {ins : Instruction} : t.kind = .comma → Step t (separator ins) (operand ins) []
  | instructionEnd {s : Stage} {ins : Instruction} : s = firstOperand ins ∨ s = separator ins →
      t.kind = .newline → Step t s between [.instruction ins]
  | labelName {location : Location} {word : String} : t.kind = .name word →
      Step t (labelName location) (labelColon word location) []
  | labelColon {name : String} {location : Location} : t.kind = .colon →
      Step t (labelColon name location) (labelEnd name location) []
  | labelEnd {name : String} {location : Location} : t.kind = .newline →
      Step t (labelEnd name location) between [.label name location]

theorem step_of_next (h : s.next t = some (s', out)) : Stage.Step t s s' out := by
  have hmap : ∀ {o : Option Stage}, o.map (·, ([] : List Declaration)) = some (s', out) →
      o = some s' ∧ out = [] := by
    intro o ho
    obtain ⟨r, rfl, heq⟩ := Option.map_eq_some_iff.mp ho
    cases heq
    exact ⟨rfl, rfl⟩
  unfold Stage.next at h
  split at h
  · next hkind =>
    cases h
    exact .lead hkind
  · obtain ⟨hopening, rfl⟩ := hmap h
    exact .opening (Or.inl rfl) hopening
  · next hkind =>
    cases h
    exact .between hkind
  · obtain ⟨hopening, rfl⟩ := hmap h
    exact .opening (Or.inr rfl) hopening
  · next hkind =>
    cases h
    exact .instructionEnd (Or.inl rfl) hkind
  · obtain ⟨hstart, rfl⟩ := hmap h
    exact .operand (Or.inl rfl) hstart
  · obtain ⟨hstart, rfl⟩ := hmap h
    exact .operand (Or.inr rfl) hstart
  · next hkind =>
    cases h
    exact .operandName hkind
  · next hkind =>
    cases h
    exact .instructionEnd (Or.inr rfl) hkind
  · next hkind =>
    cases h
    exact .comma hkind
  · next hkind =>
    cases h
    exact .labelName hkind
  · next hkind =>
    cases h
    exact .labelColon hkind
  · next hkind =>
    cases h
    exact .labelEnd hkind
  · cases h

/-- One token keeps the parts of declarations sound, and what it completes is sound. -/
theorem sound_step (hs : s.Sound file) (ht : t.Sound file) (h : Stage.Step t s s' out) :
    s'.Sound file ∧ ∀ d ∈ out, d.Sound file := by
  obtain ⟨hfile, hspellable⟩ := ht
  cases h with
  | lead hkind => exact ⟨hs, by simp⟩
  | between hkind => exact ⟨hs, by simp⟩
  | opening _ hopening => exact ⟨sound_opening ⟨hfile, hspellable⟩ hopening, by simp⟩
  | operand hstage hstart =>
    rcases hstage with rfl | rfl
    · exact ⟨sound_operandStart hs ⟨hfile, hspellable⟩ hstart, by simp⟩
    · exact ⟨sound_operandStart hs ⟨hfile, hspellable⟩ hstart, by simp⟩
  | operandName hkind =>
    rw [hkind] at hspellable
    exact ⟨sound_withOperand hs.1 hspellable hs.2, by simp⟩
  | comma hkind => exact ⟨hs, by simp⟩
  | instructionEnd hstage hkind =>
    rcases hstage with rfl | rfl
    · exact ⟨trivial, List.forall_mem_singleton.mpr hs⟩
    · exact ⟨trivial, List.forall_mem_singleton.mpr hs⟩
  | labelName hkind =>
    rw [hkind] at hspellable
    exact ⟨⟨hspellable, hs⟩, by simp⟩
  | labelColon hkind => exact ⟨hs, by simp⟩
  | labelEnd hkind => exact ⟨trivial, List.forall_mem_singleton.mpr hs⟩

/-- A line ends only where its declaration is handed out. -/
theorem between_of_step (h : Stage.Step t s .between out) : s = .between ∨ out ≠ [] := by
  generalize hs' : Stage.between = s' at h
  cases h with
  | lead | operandName | comma | labelName | labelColon => cases hs'
  | between => exact Or.inl rfl
  | opening _ hopening =>
    subst hs'
    unfold Stage.opening at hopening
    split at hopening <;> cases hopening
  | operand _ hstart =>
    subst hs'
    unfold Stage.operandStart at hstart
    cases hk : t.kind <;> simp only [hk] at hstart <;> cases hstart
  | instructionEnd | labelEnd => exact Or.inr (by simp)

theorem sound_declarationsFrom {eof : Location} {tokens : List Token} {ds : List Declaration}
    (hs : s.Sound file) (htokens : ∀ t ∈ tokens, t.Sound file)
    (h : declarationsFrom s eof tokens = .ok ds) :
    (∀ d ∈ ds, d.Sound file) ∧ (s = .between ∨ ds ≠ []) := by
  induction tokens generalizing s ds with
  | nil =>
    simp only [declarationsFrom] at h
    split at h
    · next hbetween =>
      cases h
      exact ⟨by simp, Or.inl hbetween⟩
    · cases h
  | cons t rest ih =>
    simp only [declarationsFrom] at h
    split at h
    · cases h
    · next s' completed hnext =>
      obtain ⟨behind, hbehind, heq⟩ := bind_eq_ok_iff.mp h
      cases heq
      have hstep := step_of_next hnext
      obtain ⟨hs', hcompleted⟩ := sound_step hs (htokens t (List.mem_cons_self ..)) hstep
      obtain ⟨hds, hne⟩ := ih hs' (fun u hu => htokens u (List.mem_cons_of_mem t hu)) hbehind
      constructor
      · intro d hd
        rcases List.mem_append.mp hd with hd | hd
        · exact hcompleted d hd
        · exact hds d hd
      · rcases hne with rfl | hne
        · rcases between_of_step hstep with rfl | hout
          · exact Or.inl rfl
          · exact Or.inr (by simp [hout])
        · exact Or.inr (by simp [hne])

theorem reportable_declarationsFrom {eof : Location} {tokens : List Token} {d : Diagnostic}
    (heof : eof.file = file) (htokens : ∀ t ∈ tokens, t.Sound file)
    (h : declarationsFrom s eof tokens = .error d) : d.Reportable file := by
  induction tokens generalizing s with
  | nil =>
    simp only [declarationsFrom] at h
    split at h
    · cases h
    · cases h
      exact ⟨heof, trivial⟩
  | cons t rest ih =>
    simp only [declarationsFrom] at h
    split at h
    · cases h
      exact ⟨(htokens t (List.mem_cons_self ..)).1, trivial⟩
    · rcases bind_eq_error_iff.mp h with hbehind | ⟨behind, -, heq⟩
      · exact ih (fun u hu => htokens u (List.mem_cons_of_mem t hu)) hbehind
      · cases heq

theorem file_endLocation {tokens : List Token} (h : ∀ t ∈ tokens, t.Sound file) :
    (endLocation file tokens).file = file := by
  unfold endLocation
  split
  · next t ht => exact (h t (List.mem_of_getLast? ht)).1
  · rfl

theorem sound_tokens {source : String} {tokens : List Token}
    (h : Token.ofSource file source = .ok tokens) : ∀ t ∈ tokens, t.Sound file := by
  have hscan := (Token.sound_scanFrom file .start source.toList).1
  unfold Token.ofSource Scan.ofSource at h
  split at h
  · next heq =>
    cases h
    rwa [heq] at hscan
  · cases h

/-- A program that has been read has a declaration, and all of them can be read from the file. -/
theorem sound_ofSource {source : String} {p : Program} (h : ofSource file source = .ok p) :
    p.declarations ≠ [] ∧ ∀ d ∈ p.declarations, d.Sound file := by
  obtain ⟨tokens, htokens, hread⟩ := bind_eq_ok_iff.mp h
  obtain ⟨ds, hds, heq⟩ := bind_eq_ok_iff.mp hread
  cases heq
  obtain ⟨hsound, hne⟩ := sound_declarationsFrom (s := .lead) trivial (sound_tokens htokens) hds
  exact ⟨hne.resolve_left (by simp), hsound⟩

theorem reportable_ofSource {source : String} {d : Diagnostic}
    (h : ofSource file source = .error d) : d.Reportable file := by
  rcases bind_eq_error_iff.mp h with hscan | ⟨tokens, htokens, hread⟩
  · unfold Token.ofSource Scan.ofSource at hscan
    split at hscan
    · cases hscan
    · next heq =>
      cases hscan
      have hfailure := (Token.sound_scanFrom file .start source.toList).2
      rw [heq] at hfailure
      exact hfailure d rfl
  · have hsound := sound_tokens htokens
    rcases bind_eq_error_iff.mp hread with hds | ⟨ds, -, heq⟩
    · exact reportable_declarationsFrom (file_endLocation hsound) hsound hds
    · cases heq

end Program

end FourVin
