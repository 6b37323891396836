import FourVin.Proofs.Program.Acceptance
import FourVin.Proofs.Program.Skeleton

/-!
Where reading fails. Kinds of tokens are viable when they begin some sentence. The reader gets
through exactly the viable sequences: from every stage a sentence can be completed, and a token
without a next stage is one that no sentence has there. So the token that is reported is the first
one that cannot be continued, and the end is reported where a sentence has begun and is not
complete.
-/
namespace FourVin

namespace Grammar

def IsSentence (kinds : List Token.Kind) : Prop :=
  ∃ x : Sentence, kinds = x.tokens.map Token.kind

/-- The kinds of tokens that begin a sentence. -/
def Viable (kinds : List Token.Kind) : Prop :=
  ∃ x : Sentence, kinds <+: x.tokens.map Token.kind

end Grammar

namespace Program

open Grammar

def Stage.behind (s : Stage) : List Token → Option Stage
  | [] => some s
  | t :: rest => (s.next t).bind fun r => r.1.behind rest

/-- The reader gets from stage `s` to the token `t`, and no further. -/
def Stage.StopsAt (s : Stage) (tokens : List Token) (t : Token) : Prop :=
  ∃ before after s', tokens = before ++ t :: after ∧ s.behind before = some s' ∧ s'.next t = none

def Stage.completion : Stage → List Token.Kind
  | lead => [.mnemonic "NOP", .newline]
  | between => []
  | firstOperand _ => [.newline]
  | operand _ => [.register .ra, .newline]
  | operandName _ _ => [.name "a", .newline]
  | separator _ => [.newline]
  | labelName _ => [.name "a", .colon, .newline]
  | labelColon _ _ => [.colon, .newline]
  | labelEnd _ _ => [.newline]

variable {s : Stage} {t : Token} {tokens others left right : List Token}
  {eof place : Location} {ds : List Declaration} {e : Diagnostic}

theorem behind_append (s : Stage) (left right : List Token) :
    s.behind (left ++ right) = (s.behind left).bind fun s' => s'.behind right := by
  induction left generalizing s with
  | nil => rfl
  | cons t left ih =>
    rw [List.cons_append, Stage.behind, Stage.behind, Option.bind_assoc]
    congr 1
    funext r
    exact ih r.1

/-- Tokens are accepted when the reader gets through the first of them and accepts the others. -/
theorem exists_declarationsFrom_append_iff :
    (∃ ds, declarationsFrom s eof (left ++ right) = .ok ds) ↔
      ∃ s', s.behind left = some s' ∧ ∃ ds, declarationsFrom s' eof right = .ok ds := by
  induction left generalizing s with
  | nil => simp [Stage.behind]
  | cons t left ih =>
    rw [List.cons_append, declarationsFrom, Stage.behind]
    cases s.next t with
    | none => simp
    | some r =>
      obtain ⟨s', completed⟩ := r
      rw [Option.bind_some, ← ih]
      simp only [bind_eq_ok_iff]
      constructor
      · rintro ⟨_, ds, hds, -⟩
        exact ⟨ds, hds⟩
      · rintro ⟨ds, hds⟩
        exact ⟨_, ds, hds, rfl⟩

theorem exists_declarationsFrom_iff (eof : Location) :
    (∃ ds, declarationsFrom s eof tokens = .ok ds) ↔ s.behind tokens = some .between := by
  rw [← List.append_nil tokens, exists_declarationsFrom_append_iff, List.append_nil]
  constructor
  · rintro ⟨s', hs', ds, hds⟩
    simp only [declarationsFrom] at hds
    split at hds
    · next hbetween => rw [hs', hbetween]
    · cases hds
  · intro h
    exact ⟨.between, h, [], rfl⟩

theorem stopsAt_cons {u : Token} :
    s.StopsAt (u :: tokens) t ↔
      (s.next u = none ∧ t = u) ∨ ∃ r, s.next u = some r ∧ r.1.StopsAt tokens t := by
  constructor
  · rintro ⟨before, after, s', hsplit, hbehind, hnone⟩
    cases before with
    | nil =>
      cases hsplit
      cases hbehind
      exact .inl ⟨hnone, rfl⟩
    | cons v before =>
      cases hsplit
      obtain ⟨r, hr, hbehind⟩ := Option.bind_eq_some_iff.mp hbehind
      exact .inr ⟨r, hr, before, after, s', rfl, hbehind, hnone⟩
  · rintro (⟨hnone, rfl⟩ | ⟨r, hr, before, after, s', rfl, hbehind, hnone⟩)
    · exact ⟨[], tokens, s, rfl, rfl, hnone⟩
    · exact ⟨u :: before, after, s', rfl, Option.bind_eq_some_iff.mpr ⟨r, hr, hbehind⟩, hnone⟩

/-- Reading fails at a token without a next stage, or at the end within a declaration. -/
theorem declarationsFrom_eq_error_iff :
    declarationsFrom s eof tokens = .error e ↔
      (∃ t, s.StopsAt tokens t ∧ e = ⟨t.location, .unexpectedToken t.shown⟩) ∨
      ∃ s', s.behind tokens = some s' ∧ s' ≠ .between ∧ e = ⟨eof, .unexpectedEnd⟩ := by
  induction tokens generalizing s with
  | nil =>
    have hstops : ∀ t, ¬ s.StopsAt [] t := by
      rintro t ⟨before, after, s', hsplit, -⟩
      simp at hsplit
    by_cases hs : s = .between
    · subst hs
      simp [declarationsFrom, Stage.behind, hstops]
    · simp [declarationsFrom, Stage.behind, hstops, hs, eq_comm]
  | cons u rest ih =>
    simp only [declarationsFrom, Stage.behind, stopsAt_cons]
    cases s.next u with
    | none => simp [eq_comm]
    | some r =>
      obtain ⟨next, completed⟩ := r
      dsimp only
      rw [bind_pure_eq_error_iff, ih]
      simp

@[simp] theorem kinds_standardTokens (place : Location) (kinds : List Token.Kind) :
    (standardTokens place kinds).map Token.kind = kinds := by
  simp [standardTokens, Function.comp_def]

theorem exists_completion (s : Stage) (eof place : Location) :
    ∃ ds, declarationsFrom s eof (standardTokens place s.completion) = .ok ds := by
  cases s <;> exact ⟨_, rfl⟩

/-- Whether tokens are accepted is told by their kinds. -/
theorem exists_declarationsFrom_of_kinds (h : tokens.map Token.kind = others.map Token.kind)
    (hothers : declarationsFrom .lead place others = .ok ds) :
    ∃ ds, declarationsFrom .lead eof tokens = .ok ds := by
  have hstandard : ∀ (tokens : List Token) (eof : Location),
      EndAlike (Diagnostic.Alike fun l m => m = place)
        (fun ds es => es = ds.map (Declaration.relocate fun _ => place))
        (declarationsFrom .lead eof tokens)
        (declarationsFrom .lead place (standardTokens place (tokens.map Token.kind))) := by
    intro tokens eof
    refine endAlike_declarationsFrom (s := .lead) eof ?_
    rw [standardTokens, List.map_map, List.forall₂_map_right_iff, List.forall₂_same]
    exact fun t _ => ⟨rfl, rfl⟩
  have htokens := hstandard tokens eof
  have hsame := hstandard others place
  rw [← h, hothers] at hsame
  rcases htokens.exists_error_or_ok with ⟨d, c, -, hc, -⟩ | ⟨ds, -, hds, -⟩
  · rw [hc] at hsame
    cases hsame
  · exact ⟨ds, hds⟩

theorem isSentence_iff :
    IsSentence (tokens.map Token.kind) ↔ Stage.lead.behind tokens = some .between := by
  rw [← exists_declarationsFrom_iff ⟨"", .start⟩]
  constructor
  · rintro ⟨x, hx⟩
    obtain ⟨ds, hds, -⟩ := bind_eq_ok_iff.mp (ofTokens_tokens "" x)
    exact exists_declarationsFrom_of_kinds hx hds
  · rintro ⟨ds, hds⟩
    obtain ⟨x, rfl, -⟩ := remains_of_declarationsFrom hds
    exact ⟨x, rfl⟩

/-- The reader gets through the tokens that begin a sentence, and through no others. -/
theorem viable_iff :
    Viable (tokens.map Token.kind) ↔ ∃ s, Stage.lead.behind tokens = some s := by
  let place : Location := ⟨"", .start⟩
  constructor
  · rintro ⟨x, rest, hx⟩
    have hsentence : IsSentence ((tokens ++ standardTokens place rest).map Token.kind) :=
      ⟨x, by rw [List.map_append, kinds_standardTokens, hx]⟩
    rw [isSentence_iff, behind_append, Option.bind_eq_some_iff] at hsentence
    obtain ⟨s, hs, -⟩ := hsentence
    exact ⟨s, hs⟩
  · rintro ⟨s, hs⟩
    obtain ⟨ds, hds⟩ := exists_completion s place place
    have haccepted : Stage.lead.behind (tokens ++ standardTokens place s.completion) =
        some .between := by
      rw [← exists_declarationsFrom_iff place, exists_declarationsFrom_append_iff]
      exact ⟨s, hs, ds, hds⟩
    obtain ⟨x, hx⟩ := isSentence_iff.mpr haccepted
    rw [List.map_append] at hx
    exact ⟨x, _, hx⟩

theorem not_viable_concat_iff (h : Stage.lead.behind tokens = some s) :
    ¬ Viable ((tokens ++ [t]).map Token.kind) ↔ s.next t = none := by
  rw [viable_iff, behind_append, h, Option.bind_some, Stage.behind]
  cases s.next t <;> simp [Stage.behind]

/-- Reading fails at the first token that no sentence has behind those before it, or at the end of
tokens that begin a sentence and are none. -/
theorem ofTokens_fails_behind_viable (file : String) (tokens : List Token) (e : Diagnostic) :
    ofTokens file tokens = .error e ↔
      (∃ before t after, tokens = before ++ t :: after ∧
        e = ⟨t.location, .unexpectedToken t.shown⟩ ∧
        Viable (before.map Token.kind) ∧ ¬ Viable ((before ++ [t]).map Token.kind)) ∨
      (e = ⟨(tokens.getLast?.map Token.location).getD ⟨file, ⟨1, 1⟩⟩, .unexpectedEnd⟩ ∧
        Viable (tokens.map Token.kind) ∧ ¬ IsSentence (tokens.map Token.kind)) := by
  have hend : endLocation file tokens =
      (tokens.getLast?.map Token.location).getD ⟨file, ⟨1, 1⟩⟩ := by
    unfold endLocation
    cases tokens.getLast? <;> rfl
  rw [ofTokens, bind_pure_eq_error_iff, declarationsFrom_eq_error_iff, hend]
  refine or_congr ?_ ?_
  · constructor
    · rintro ⟨t, ⟨before, after, s, hsplit, hs, hnext⟩, he⟩
      have hnot := (not_viable_concat_iff hs).mpr hnext
      exact ⟨before, t, after, hsplit, he, viable_iff.mpr ⟨s, hs⟩, hnot⟩
    · rintro ⟨before, t, after, hsplit, he, hviable, hnot⟩
      obtain ⟨s, hs⟩ := viable_iff.mp hviable
      exact ⟨t, ⟨before, after, s, hsplit, hs, (not_viable_concat_iff hs).mp hnot⟩, he⟩
  · rw [viable_iff, isSentence_iff]
    constructor
    · rintro ⟨s, hs, hne, he⟩
      exact ⟨he, ⟨s, hs⟩, by simpa [hs] using hne⟩
    · rintro ⟨he, ⟨s, hs⟩, hne⟩
      exact ⟨s, hs, by simpa [hs] using hne, he⟩

-- The line feed behind a comma is at fault, and not the comma.
example : ofTokens "loop" danglingComma =
    .error ⟨⟨"loop", ⟨1, 4⟩⟩, .unexpectedToken "\\n"⟩ := rfl

end Program

end FourVin
