import FourVin.Token
import Mathlib.Logic.Basic

/-!
The grammar of programs by its trees

    sentence := newline* line+
    line     := mnemonic (operand (',' operand)*)? newline+
              | '$' name ':' newline+
    operand  := register | integer | hex | float | '$' name

A tree has tokens for leaves, each of the kind that its place asks for, so that every tree is a
derivation. `tokens` reads off the leaves, and `program` the program that a tree stands for, in
which every part has the location of its first token. No token sequence has two trees.
-/
namespace FourVin.Grammar

abbrev TokenOf (kind : Token.Kind) : Type := { t : Token // t.kind = kind }

inductive OperandPhrase where
  | register (r : Register) (t : TokenOf (.register r))
  | integer (n : UInt32) (t : TokenOf (.integer n))
  | hex (n : UInt32) (t : TokenOf (.hex n))
  | float (x : Double) (t : TokenOf (.float x))
  | label (name : String) (dollar : TokenOf .dollar) (t : TokenOf (.name name))

structure FurtherOperand where
  comma : TokenOf .comma
  phrase : OperandPhrase

inductive OperandList where
  | empty
  | nonempty (first : OperandPhrase) (further : List FurtherOperand)

structure LineEnd where
  first : TokenOf .newline
  further : List (TokenOf .newline)

inductive Line where
  | instruction (mnemonic : String) (t : TokenOf (.mnemonic mnemonic))
      (operands : OperandList) (lineEnd : LineEnd)
  | label (name : String) (dollar : TokenOf .dollar) (t : TokenOf (.name name))
      (colon : TokenOf .colon) (lineEnd : LineEnd)

structure Sentence where
  lead : List (TokenOf .newline)
  first : Line
  further : List Line

namespace OperandPhrase

def tokens : OperandPhrase → List Token
  | register _ t => [t.1]
  | integer _ t => [t.1]
  | hex _ t => [t.1]
  | float _ t => [t.1]
  | label _ dollar t => [dollar.1, t.1]

def operand : OperandPhrase → Operand
  | register r t => ⟨.register r, t.1.location⟩
  | integer n t => ⟨.integer n, t.1.location⟩
  | hex n t => ⟨.integer n, t.1.location⟩
  | float x t => ⟨.float x, t.1.location⟩
  | label name dollar _ => ⟨.label name, dollar.1.location⟩

end OperandPhrase

namespace FurtherOperand

def tokens (f : FurtherOperand) : List Token := f.comma.1 :: f.phrase.tokens

def operand (f : FurtherOperand) : Operand := f.phrase.operand

end FurtherOperand

namespace OperandList

def tokens : OperandList → List Token
  | empty => []
  | nonempty first further => first.tokens ++ further.flatMap FurtherOperand.tokens

def operands : OperandList → List Operand
  | empty => []
  | nonempty first further => first.operand :: further.map FurtherOperand.operand

end OperandList

def LineEnd.tokens (e : LineEnd) : List Token := e.first.1 :: e.further.map Subtype.val

namespace Line

def tokens : Line → List Token
  | instruction _ t operands lineEnd => t.1 :: (operands.tokens ++ lineEnd.tokens)
  | label _ dollar t colon lineEnd => dollar.1 :: t.1 :: colon.1 :: lineEnd.tokens

def declaration : Line → Declaration
  | instruction mnemonic t operands _ => .instruction ⟨mnemonic, operands.operands, t.1.location⟩
  | label name dollar _ _ _ => .label name dollar.1.location

end Line

namespace Sentence

def tokens (s : Sentence) : List Token :=
  s.lead.map Subtype.val ++ (s.first :: s.further).flatMap Line.tokens

def program (s : Sentence) : Program := ⟨(s.first :: s.further).map Line.declaration⟩

end Sentence

def Begins (P : Token → Prop) (tokens : List Token) : Prop := ∀ t ∈ tokens.head?, P t

theorem begins_cons {P : Token → Prop} {t : Token} {rest : List Token} :
    Begins P (t :: rest) ↔ P t := by
  simp [Begins]

/-- Items in a row can be told apart when each begins with a token that cannot follow the row, and
can be told from what follows it. -/
theorem flatMap_append_cancel {α : Type} {f : α → List Token} {P Q : Token → Prop}
    (hbegins : ∀ a, ∃ t rest, f a = t :: rest ∧ P t ∧ Q t)
    (hcancel : ∀ a b r s, Begins Q r → Begins Q s → f a ++ r = f b ++ s → a = b ∧ r = s)
    {xs ys : List α} {r s : List Token} (hr : Begins (fun t => ¬ P t ∧ Q t) r)
    (hs : Begins (fun t => ¬ P t ∧ Q t) s) (h : xs.flatMap f ++ r = ys.flatMap f ++ s) :
    xs = ys ∧ r = s := by
  have hrow : ∀ (zs : List α) {r : List Token}, Begins (fun t => ¬ P t ∧ Q t) r →
      Begins Q (zs.flatMap f ++ r) := by
    intro zs r hr
    cases zs with
    | nil => exact fun t ht => (hr t ht).2
    | cons z zs =>
      obtain ⟨t, rest, hz, -, hQ⟩ := hbegins z
      rw [List.flatMap_cons, hz]
      exact begins_cons.mpr hQ
  induction xs generalizing ys with
  | nil =>
    cases ys with
    | nil => exact ⟨rfl, h⟩
    | cons y ys =>
      obtain ⟨t, rest, hy, hP, -⟩ := hbegins y
      rw [List.flatMap_nil, List.nil_append, List.flatMap_cons, hy] at h
      rw [h] at hr
      exact absurd hP (begins_cons.mp hr).1
  | cons x xs ih =>
    cases ys with
    | nil =>
      obtain ⟨t, rest, hx, hP, -⟩ := hbegins x
      rw [List.flatMap_nil, List.nil_append, List.flatMap_cons, hx] at h
      rw [← h] at hs
      exact absurd hP (begins_cons.mp hs).1
    | cons y ys =>
      rw [List.flatMap_cons, List.flatMap_cons, List.append_assoc, List.append_assoc] at h
      obtain ⟨rfl, hrest⟩ := hcancel x y _ _ (hrow xs hr) (hrow ys hs) h
      obtain ⟨rfl, hrs⟩ := ih hrest
      exact ⟨rfl, hrs⟩

/-- Two tokens of known kinds are told apart by their kinds. -/
theorem TokenOf.kind_eq {j k : Token.Kind} {t : TokenOf j} {u : TokenOf k} (h : t.1 = u.1) :
    j = k := by
  rw [← t.2, ← u.2, h]

namespace OperandPhrase

/-- An operand can be told from what follows it: the kind of its first token tells its form. -/
theorem append_cancel {a b : OperandPhrase} {r s : List Token}
    (h : a.tokens ++ r = b.tokens ++ s) : a = b ∧ r = s := by
  cases a <;> cases b <;> obtain ⟨ht, hrest⟩ := List.cons.inj h <;> cases TokenOf.kind_eq ht
  -- Two forms begin with tokens of two kinds, so only pairs of one form are left.
  case label.label name dollar t name' dollar' t' =>
    obtain ⟨hname, hrs⟩ := List.cons.inj hrest
    cases TokenOf.kind_eq hname
    obtain rfl : dollar = dollar' := Subtype.ext ht
    obtain rfl : t = t' := Subtype.ext hname
    exact ⟨rfl, hrs⟩
  all_goals
    cases Subtype.ext ht
    exact ⟨rfl, hrest⟩

theorem begins_tokens (a : OperandPhrase) :
    ∃ t rest, a.tokens = t :: rest ∧ t.kind ≠ .newline := by
  cases a with
  | register r t => exact ⟨t.1, [], rfl, by simp [t.2]⟩
  | integer n t => exact ⟨t.1, [], rfl, by simp [t.2]⟩
  | hex n t => exact ⟨t.1, [], rfl, by simp [t.2]⟩
  | float x t => exact ⟨t.1, [], rfl, by simp [t.2]⟩
  | label name dollar t => exact ⟨dollar.1, [t.1], rfl, by simp [dollar.2]⟩

end OperandPhrase

theorem FurtherOperand.append_cancel {a b : FurtherOperand} {r s : List Token}
    (h : a.tokens ++ r = b.tokens ++ s) : a = b ∧ r = s := by
  obtain ⟨comma, phrase⟩ := a
  obtain ⟨comma', phrase'⟩ := b
  obtain ⟨hcomma, hrest⟩ := List.cons.inj h
  obtain rfl : comma = comma' := Subtype.ext hcomma
  obtain ⟨rfl, hrs⟩ := OperandPhrase.append_cancel hrest
  exact ⟨rfl, hrs⟩

namespace OperandList

theorem further_append_cancel {a b : List FurtherOperand} {r s : List Token}
    (hr : Begins (fun t => t.kind = .newline) r) (hs : Begins (fun t => t.kind = .newline) s)
    (h : a.flatMap FurtherOperand.tokens ++ r = b.flatMap FurtherOperand.tokens ++ s) :
    a = b ∧ r = s := by
  have hstop : ∀ {r : List Token}, Begins (fun t => t.kind = .newline) r →
      Begins (fun t => ¬ t.kind = .comma ∧ True) r := by
    intro r hr t ht
    simp [hr t ht]
  refine flatMap_append_cancel (P := fun t => t.kind = .comma) (Q := fun _ => True) ?_ ?_
    (hstop hr) (hstop hs) h
  · intro f
    exact ⟨f.comma.1, f.phrase.tokens, rfl, f.comma.2, trivial⟩
  · intro a b r s _ _ h
    exact FurtherOperand.append_cancel h

/-- What begins like an operand does not begin with a line feed. -/
theorem nonempty_append_ne {first : OperandPhrase} {further : List FurtherOperand}
    {r s : List Token} (hr : Begins (fun t => t.kind = .newline) r) :
    (nonempty first further).tokens ++ s ≠ r := by
  rintro rfl
  obtain ⟨t, rest, ht, hkind⟩ := first.begins_tokens
  rw [tokens, ht] at hr
  exact hkind (begins_cons.mp hr)

/-- A list of operands can be told from the line feed that follows it. -/
theorem append_cancel {a b : OperandList} {r s : List Token}
    (hr : Begins (fun t => t.kind = .newline) r) (hs : Begins (fun t => t.kind = .newline) s)
    (h : a.tokens ++ r = b.tokens ++ s) : a = b ∧ r = s := by
  cases a with
  | empty =>
    cases b with
    | empty => exact ⟨rfl, h⟩
    | nonempty first further => exact absurd h.symm (nonempty_append_ne hr)
  | nonempty first further =>
    cases b with
    | empty => exact absurd h (nonempty_append_ne hs)
    | nonempty first' further' =>
      rw [tokens, tokens, List.append_assoc, List.append_assoc] at h
      obtain ⟨rfl, hfurther⟩ := OperandPhrase.append_cancel h
      obtain ⟨rfl, hrs⟩ := further_append_cancel hr hs hfurther
      exact ⟨rfl, hrs⟩

end OperandList

/-- A run of line feeds ends where no further one follows. -/
theorem newlines_append_cancel {a b : List (TokenOf .newline)} {r s : List Token}
    (hr : Begins (fun t => t.kind ≠ .newline) r) (hs : Begins (fun t => t.kind ≠ .newline) s)
    (h : a.map Subtype.val ++ r = b.map Subtype.val ++ s) : a = b ∧ r = s := by
  have hstop : ∀ {r : List Token}, Begins (fun t => t.kind ≠ .newline) r →
      Begins (fun t => ¬ t.kind = .newline ∧ True) r := by
    intro r hr t ht
    exact ⟨hr t ht, trivial⟩
  rw [List.map_eq_flatMap, List.map_eq_flatMap] at h
  refine flatMap_append_cancel (P := fun t => t.kind = .newline) (Q := fun _ => True) ?_ ?_
    (hstop hr) (hstop hs) h
  · intro t
    exact ⟨t.1, [], rfl, t.2, trivial⟩
  · intro a b r s _ _ h
    obtain ⟨hab, hrs⟩ := List.cons.inj h
    exact ⟨Subtype.ext hab, hrs⟩

namespace LineEnd

theorem append_cancel {a b : LineEnd} {r s : List Token}
    (hr : Begins (fun t => t.kind ≠ .newline) r) (hs : Begins (fun t => t.kind ≠ .newline) s)
    (h : a.tokens ++ r = b.tokens ++ s) : a = b ∧ r = s := by
  obtain ⟨first, further⟩ := a
  obtain ⟨first', further'⟩ := b
  obtain ⟨hfirst, hfurther⟩ := List.cons.inj h
  obtain rfl : first = first' := Subtype.ext hfirst
  obtain ⟨rfl, hrs⟩ := newlines_append_cancel hr hs hfurther
  exact ⟨rfl, hrs⟩

theorem begins_tokens (e : LineEnd) (r : List Token) :
    Begins (fun t => t.kind = .newline) (e.tokens ++ r) := begins_cons.mpr e.first.2

end LineEnd

namespace Line

theorem begins_tokens (l : Line) : ∃ t rest, l.tokens = t :: rest ∧ t.kind ≠ .newline := by
  cases l with
  | instruction mnemonic t operands lineEnd => exact ⟨t.1, _, rfl, by simp [t.2]⟩
  | label name dollar t colon lineEnd => exact ⟨dollar.1, _, rfl, by simp [dollar.2]⟩

/-- A line can be told from the next one. -/
theorem append_cancel {a b : Line} {r s : List Token}
    (hr : Begins (fun t => t.kind ≠ .newline) r) (hs : Begins (fun t => t.kind ≠ .newline) s)
    (h : a.tokens ++ r = b.tokens ++ s) : a = b ∧ r = s := by
  cases a with
  | instruction mnemonic t operands lineEnd =>
    cases b with
    | instruction mnemonic' t' operands' lineEnd' =>
      simp only [tokens, List.cons_append, List.append_assoc, List.cons.injEq] at h
      obtain ⟨ht, hrest⟩ := h
      cases TokenOf.kind_eq ht
      obtain rfl : t = t' := Subtype.ext ht
      obtain ⟨rfl, hend⟩ :=
        OperandList.append_cancel (lineEnd.begins_tokens r) (lineEnd'.begins_tokens s) hrest
      obtain ⟨rfl, hrs⟩ := LineEnd.append_cancel hr hs hend
      exact ⟨rfl, hrs⟩
    | label name dollar t' colon lineEnd' => cases TokenOf.kind_eq (List.cons.inj h).1
  | label name dollar t colon lineEnd =>
    cases b with
    | instruction mnemonic t' operands lineEnd' => cases TokenOf.kind_eq (List.cons.inj h).1
    | label name' dollar' t' colon' lineEnd' =>
      simp only [tokens, List.cons_append, List.cons.injEq] at h
      obtain ⟨hdollar, ht, hcolon, hend⟩ := h
      cases TokenOf.kind_eq ht
      obtain rfl : dollar = dollar' := Subtype.ext hdollar
      obtain rfl : t = t' := Subtype.ext ht
      obtain rfl : colon = colon' := Subtype.ext hcolon
      obtain ⟨rfl, hrs⟩ := LineEnd.append_cancel hr hs hend
      exact ⟨rfl, hrs⟩

end Line

namespace Sentence

theorem lines_injective {xs ys : List Line} (h : xs.flatMap Line.tokens = ys.flatMap Line.tokens) :
    xs = ys := by
  have hend : Begins (fun t => ¬ t.kind ≠ .newline ∧ t.kind ≠ .newline) [] := by simp [Begins]
  rw [← List.append_nil (xs.flatMap _), ← List.append_nil (ys.flatMap _)] at h
  refine (flatMap_append_cancel (Q := fun t => t.kind ≠ .newline) ?_ ?_ hend hend h).1
  · intro l
    obtain ⟨t, rest, ht, hkind⟩ := l.begins_tokens
    exact ⟨t, rest, ht, hkind, hkind⟩
  · intro a b r s hr hs h
    exact Line.append_cancel hr hs h

/-- No token sequence has two trees. -/
theorem tokens_injective : Function.Injective tokens := by
  rintro ⟨lead, first, further⟩ ⟨lead', first', further'⟩ h
  have hbegins : ∀ (first : Line) further,
      Begins (fun t => t.kind ≠ .newline) ((first :: further).flatMap Line.tokens) := by
    intro first further
    obtain ⟨t, rest, ht, hkind⟩ := first.begins_tokens
    rw [List.flatMap_cons, ht]
    exact begins_cons.mpr hkind
  obtain ⟨rfl, hlines⟩ := newlines_append_cancel (hbegins _ _) (hbegins _ _) h
  cases lines_injective hlines
  rfl

end Sentence

end FourVin.Grammar
