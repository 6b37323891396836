import FourVin.Proofs.Outcome
import FourVin.Proofs.Program.WrittenForm

/-!
What of a token sequence matters to the reader. Blank lines do not: a line feed changes nothing in
front of the first declaration and behind another line feed. Nor do the spelling of an integer and
the locations of tokens, which only reach the locations of declarations and of faults. So two token
sequences with the same skeleton read as programs of the same content, or fail with faults of one
kind.
-/
namespace FourVin

namespace Token

/-- The kind of a token, with no regard to the radix of an integer. -/
def Kind.plain : Kind → Kind
  | .hex n => .integer n
  | k => k

theorem Kind.plain_plain (k : Kind) : k.plain.plain = k.plain := by
  cases k <;> rfl

/-- The tokens without the line feeds that stand behind a line feed. The flag tells whether one
stands in front of the first token. -/
def condense : Bool → List Token → List Token
  | _, [] => []
  | behindNewline, t :: rest =>
    if t.kind = .newline then
      if behindNewline then condense true rest else t :: condense true rest
    else t :: condense false rest

/-- The kinds of the tokens, with each run of line feeds as one and none of them in front, and
integers of either radix alike. -/
def skeleton (tokens : List Token) : List Kind := (condense true tokens).map fun t => t.kind.plain

end Token

def Operand.relocate (g : Location → Location) (op : Operand) : Operand := ⟨op.value, g op.location⟩

def Instruction.relocate (g : Location → Location) (ins : Instruction) : Instruction :=
  ⟨ins.mnemonic, ins.operands.map (Operand.relocate g), g ins.location⟩

def Declaration.relocate (g : Location → Location) : Declaration → Declaration
  | label name location => .label name (g location)
  | instruction ins => .instruction (ins.relocate g)

theorem Declaration.content_relocate (g : Location → Location) (d : Declaration) :
    (d.relocate g).content = d.content := by
  cases d with
  | label name location => rfl
  | instruction ins =>
    simp [relocate, content, Instruction.relocate, Instruction.values, Operand.relocate]

namespace Program

open Token

def Stage.relocate (g : Location → Location) : Stage → Stage
  | lead => lead
  | between => between
  | firstOperand ins => firstOperand (ins.relocate g)
  | operand ins => operand (ins.relocate g)
  | operandName ins location => operandName (ins.relocate g) (g location)
  | separator ins => separator (ins.relocate g)
  | labelName location => labelName (g location)
  | labelColon name location => labelColon name (g location)
  | labelEnd name location => labelEnd name (g location)

/-- The reader looks at the plain kind of a token and at its location. -/
theorem next_plain (s : Stage) (t : Token) (text : String) :
    s.next ⟨t.kind.plain, text, t.location⟩ = s.next t := by
  obtain ⟨kind, spelling, location⟩ := t
  cases s <;> cases kind <;> rfl

variable {g : Location → Location} {s s' : Stage} {t u : Token} {tokens others : List Token}
  {out : List Declaration}

theorem relocate_withOperand (g : Location → Location) (ins : Instruction) (v : Value)
    (location : Location) :
    (Stage.withOperand ins v location).relocate g =
      Stage.withOperand (ins.relocate g) v (g location) := by
  simp [Stage.withOperand, Stage.relocate, Instruction.relocate, Operand.relocate]

theorem operandStart_relocate (g : Location → Location) (ins : Instruction) (kind : Token.Kind)
    (text : String) (location : Location) :
    Stage.operandStart (ins.relocate g) ⟨kind, text, g location⟩ =
      (Stage.operandStart ins ⟨kind, text, location⟩).map (Stage.relocate g) := by
  cases kind with
  | register | integer | hex | float =>
    exact congrArg some (relocate_withOperand g ins _ location).symm
  | _ => rfl

theorem TakesOperand.next_relocate {ins : Instruction} (hs : TakesOperand s ins)
    (hs' : TakesOperand (s.relocate g) (ins.relocate g)) {kind : Token.Kind}
    (hkind : kind ≠ .newline) (text : String) (location : Location) :
    (s.relocate g).next ⟨kind, text, g location⟩ =
      (s.next ⟨kind, text, location⟩).map fun r =>
        (r.1.relocate g, r.2.map (Declaration.relocate g)) := by
  rw [hs _ hkind, hs' _ hkind, operandStart_relocate, Option.map_map, Option.map_map]
  rfl

/-- Locations go through one step of the reader as they are. -/
theorem next_relocate (g : Location → Location) (s : Stage) (kind : Token.Kind) (text : String)
    (location : Location) :
    (s.relocate g).next ⟨kind, text, g location⟩ =
      (s.next ⟨kind, text, location⟩).map fun r =>
        (r.1.relocate g, r.2.map (Declaration.relocate g)) := by
  cases s with
  | firstOperand ins =>
    by_cases hkind : kind = .newline
    · subst hkind
      rfl
    · exact (takesOperand_firstOperand ins).next_relocate (takesOperand_firstOperand _) hkind _ _
  | operand ins =>
    by_cases hkind : kind = .newline
    · subst hkind
      rfl
    · exact (takesOperand_operand ins).next_relocate (takesOperand_operand _) hkind _ _
  | operandName ins dollar =>
    cases kind with
    | name word =>
      exact congrArg (fun s => some (s, [])) (relocate_withOperand g ins (.label word) dollar).symm
    | _ => rfl
  | _ => cases kind <;> rfl

/-- The tokens have the same plain kinds, and the locations of the others are those of the first,
changed by `g`. -/
def Respelled (g : Location → Location) (t u : Token) : Prop :=
  u.kind.plain = t.kind.plain ∧ u.location = g t.location

theorem next_respelled (s : Stage) (h : Respelled g t u) :
    (s.relocate g).next u =
      (s.next t).map fun r => (r.1.relocate g, r.2.map (Declaration.relocate g)) := by
  rw [← next_plain _ u "", h.1, h.2, next_relocate, next_plain]

theorem relocate_eq_between_iff : s.relocate g = .between ↔ s = .between := by
  cases s <;> simp [Stage.relocate]

/-- Tokens that are spelled in another way, at other places, read as the same declarations at the
other places. -/
theorem endAlike_declarationsFrom (eof : Location) (h : List.Forall₂ (Respelled g) tokens others) :
    EndAlike (Diagnostic.Alike fun l m => m = g l)
      (fun ds es => es = ds.map (Declaration.relocate g))
      (declarationsFrom s eof tokens) (declarationsFrom (s.relocate g) (g eof) others) := by
  induction h generalizing s with
  | nil =>
    simp only [declarationsFrom, relocate_eq_between_iff]
    split
    · exact .ok rfl
    · exact .error ⟨rfl, rfl⟩
  | @cons t u _ _ htu _ ih =>
    simp only [declarationsFrom, next_respelled s htu]
    cases s.next t with
    | none => exact .error ⟨rfl, htu.2⟩
    | some r =>
      obtain ⟨s', completed⟩ := r
      refine ih.bind ?_
      rintro ds _ rfl
      exact .ok (by simp)

/-- A line feed leads to where a declaration can begin. -/
theorem opens_of_newline (hkind : t.kind = .newline) (h : s.next t = some (s', out)) :
    Opens s' := by
  obtain ⟨kind, text, location⟩ := t
  obtain rfl : kind = .newline := hkind
  cases s with
  | lead =>
    cases h
    exact .inl rfl
  | between | firstOperand | separator | labelEnd =>
    cases h
    exact .inr rfl
  | _ => cases h

/-- Where a declaration can begin, a line feed changes nothing. -/
theorem next_newline (hs : Opens s) (hkind : t.kind = .newline) : s.next t = some (s, []) := by
  obtain ⟨kind, text, location⟩ := t
  obtain rfl : kind = .newline := hkind
  rcases hs with rfl | rfl <;> rfl

/-- The reader does not see blank lines. -/
theorem declarationsFrom_condense (eof : Location) {behindNewline : Bool}
    (hs : behindNewline = true → Opens s) (tokens : List Token) :
    declarationsFrom s eof (condense behindNewline tokens) = declarationsFrom s eof tokens := by
  induction tokens generalizing s behindNewline with
  | nil => rfl
  | cons t rest ih =>
    by_cases hkind : t.kind = .newline
    -- The flag is set behind a line feed, where the stage is one that a line feed does not change.
    · cases behindNewline with
      | true => simp [condense, hkind, declarationsFrom, next_newline (hs rfl) hkind, ih hs]
      | false =>
        simp only [condense, hkind, if_true, Bool.false_eq_true, if_false, declarationsFrom]
        cases hnext : s.next t with
        | none => rfl
        | some r => simp only [ih fun _ => opens_of_newline hkind hnext]
    · simp only [condense, hkind, if_false, declarationsFrom]
      cases hnext : s.next t with
      | none => rfl
      | some r =>
        have hopens : false = true → Opens r.1 := fun h => absurd h Bool.false_ne_true
        simp only [ih hopens]

def standardTokens (place : Location) (kinds : List Token.Kind) : List Token :=
  kinds.map fun k => ⟨k, "", place⟩

theorem forall₂_standardTokens (place : Location) (tokens : List Token) :
    List.Forall₂ (Respelled fun _ => place) (condense true tokens)
      (standardTokens place (skeleton tokens)) := by
  rw [standardTokens, skeleton, List.map_map, List.forall₂_map_right_iff, List.forall₂_same]
  intro t _
  exact ⟨t.kind.plain_plain, rfl⟩

/-- Reading a token sequence ends like reading its skeleton. -/
theorem endAlike_skeleton (eof place : Location) (tokens : List Token) :
    EndAlike (Diagnostic.Alike fun _ _ => True)
      (fun ds es => es.map Declaration.content = ds.map Declaration.content)
      (declarationsFrom .lead eof tokens)
      (declarationsFrom .lead place (standardTokens place (skeleton tokens))) := by
  have hread := endAlike_declarationsFrom (s := .lead) eof (forall₂_standardTokens place tokens)
  rw [declarationsFrom_condense eof fun _ => .inl rfl] at hread
  refine hread.imp ?_ ?_
  · exact fun d e h => ⟨h.1, trivial⟩
  · rintro ds _ rfl
    simp [Function.comp_def, Declaration.content_relocate]

/-- Token sequences of the same skeleton read as programs of the same content, or fail with faults
of one kind. -/
theorem endAlike_ofTokens (file : String) (h : skeleton tokens = skeleton others) :
    EndAlike (Diagnostic.Alike fun _ _ => True) (fun p q => p.contents = q.contents)
      (ofTokens file tokens) (ofTokens file others) := by
  have hread := endAlike_skeleton (endLocation file tokens) ⟨file, .start⟩ tokens
  have hread' := endAlike_skeleton (endLocation file others) ⟨file, .start⟩ others
  rw [← h] at hread'
  refine (hread.join hread' ?_ ?_).bind fun ds es hds => .ok hds
  · exact fun d e c hd he => ⟨hd.1.trans he.1.symm, trivial⟩
  · exact fun ds es cs hds hes => hds.symm.trans hes

theorem ofSource_of_tokens {file source : String} {tokens : List Token}
    (h : Token.ofSource file source = .ok tokens) :
    ofSource file source = ofTokens file tokens := by
  rw [ofSource, h, ok_bind]

end Program

end FourVin
