import FourVin.Token.Rule

/-!
Scanning a source text into tokens. Between two tokens stands a gap: blanks, then possibly a
comment that runs to the end of its line. `scanFrom` passes the gap, takes the lexeme of the first
rule that applies, and goes on behind it. A scan keeps the tokens before its failure.
-/
namespace FourVin

/-- The tokens of a text in order, and the fault that stopped the scan, if one did. -/
structure Scan where
  tokens : List Token
  failure : Option Diagnostic

namespace Token

def isBlank (c : Char) : Bool := c = ' ' || c = '\t' || c = '\r'

/-- Two slashes and all that follows on their line; empty where no comment begins. -/
def comment : List Char → List Char
  | '/' :: '/' :: rest => '/' :: '/' :: rest.takeWhile (· ≠ '\n')
  | _ => []

def gap (input : List Char) : List Char :=
  input.takeWhile isBlank ++ comment (input.dropWhile isBlank)

theorem comment_isPrefix (input : List Char) : comment input <+: input := by
  unfold comment
  split
  · exact List.cons_prefix_cons.mpr
      ⟨rfl, List.cons_prefix_cons.mpr ⟨rfl, List.takeWhile_prefix _⟩⟩
  · exact List.nil_prefix

/-- A gap stands at the front of the text. -/
theorem gap_isPrefix (input : List Char) : gap input <+: input := by
  have h := comment_isPrefix (input.dropWhile isBlank)
  rw [← List.prefix_append_right_inj (input.takeWhile isBlank),
    List.takeWhile_append_dropWhile] at h
  exact h

/-- Behind the gap and a lexeme there is less left than before. -/
theorem length_behind_lt {input front : List Char} {rule : Rule}
    (hfront : input.drop (gap input).length = front) (hrule : Rule.first? front = some rule) :
    (front.drop (rule.lexeme front).length).length < input.length := by
  have hpos := List.length_pos_iff.mpr (Rule.lexeme_ne_nil_of_first? hrule)
  have hle := (Rule.lexeme_isPrefix rule front).length_le
  have hlen := congrArg List.length hfront
  rw [List.length_drop] at hlen ⊢
  omega

def scanFrom (file : String) (p : Position) (input : List Char) : Scan :=
  let start := p.advance (gap input)
  match hfront : input.drop (gap input).length with
  | [] => ⟨[], none⟩
  | c :: rest =>
    match hrule : Rule.first? (c :: rest) with
    | none => ⟨[], some ⟨⟨file, start⟩, .unexpectedCharacter c⟩⟩
    | some rule =>
      let text := rule.lexeme (c :: rest)
      match rule.kind text with
      | .error cause => ⟨[], some ⟨⟨file, start⟩, cause⟩⟩
      | .ok kind =>
        have := length_behind_lt hfront hrule
        let behind := scanFrom file (start.advance text) ((c :: rest).drop text.length)
        ⟨⟨kind, String.ofList text, ⟨file, start⟩⟩ :: behind.tokens, behind.failure⟩
termination_by input.length
decreasing_by assumption

end Token

namespace Scan

def ofSource (file source : String) : Scan := Token.scanFrom file .start source.toList

/-- What the scan yields on the call with the given index, counted from zero: its tokens, then its
failure, and nothing afterwards. -/
def item? (s : Scan) (index : Nat) : Option (Except Diagnostic Token) :=
  match s.tokens[index]? with
  | some token => some (.ok token)
  | none => if index = s.tokens.length then s.failure.map .error else none

end Scan

def Token.ofSource (file source : String) : Except Diagnostic (List Token) :=
  match Scan.ofSource file source with
  | ⟨tokens, none⟩ => .ok tokens
  | ⟨_, some failure⟩ => .error failure

end FourVin
