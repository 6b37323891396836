import FourVin.Proofs.Token.Tiling

/-!
The order of places in a text: by line, and within a line by column. Every character moves a
position on, a line feed to a later line and any other by the bytes it takes. So a prefix of a text
is known from the position behind it, and the tokens of a scan stand one behind the other.
-/
namespace FourVin

namespace Position

def Before (p q : Position) : Prop := p.line < q.line ∨ p.line = q.line ∧ p.column < q.column

instance (p q : Position) : Decidable (p.Before q) :=
  inferInstanceAs (Decidable (p.line < q.line ∨ p.line = q.line ∧ p.column < q.column))

variable {p q r : Position}

theorem Before.trans (hpq : p.Before q) (hqr : q.Before r) : p.Before r := by
  unfold Before at *
  omega

instance : IsTrans Position Before := ⟨fun _ _ _ => Before.trans⟩

theorem Before.ne (h : p.Before q) : p ≠ q := by
  intro heq
  subst heq
  unfold Before at h
  omega

theorem before_step (p : Position) (c : Char) : p.Before (p.step c) := by
  have hsize := c.utf8Size_pos
  by_cases hc : c = '\n'
  · simp [Before, step, hc]
  · simp [Before, step, hc, hsize]

theorem before_advance (p : Position) {text : List Char} (h : text ≠ []) :
    p.Before (p.advance text) := by
  induction text generalizing p with
  | nil => exact absurd rfl h
  | cons c rest ih =>
    by_cases hrest : rest = []
    · subst hrest
      exact before_step p c
    · exact (before_step p c).trans (ih _ hrest)

/-- What stands before a place stands before all that follows. -/
theorem Before.advance (h : p.Before q) (text : List Char) : p.Before (q.advance text) := by
  by_cases htext : text = []
  · rw [htext, advance_nil]
    exact h
  · exact h.trans (before_advance q htext)

/-- Two prefixes of a text with the same position behind them are the same prefix. -/
theorem eq_of_behind_eq {front other : List Char} {text : List Char} (hfront : front <+: text)
    (hother : other <+: text)
    (h : behind (String.ofList front) = behind (String.ofList other)) : front = other := by
  have hextends : ∀ {short long : List Char}, short <+: long →
      behind (String.ofList short) = behind (String.ofList long) → short = long := by
    rintro short long ⟨more, rfl⟩ heq
    rw [← advance_start, ← advance_start, advance_append] at heq
    by_contra hne
    exact (before_advance _ fun hmore => hne (by rw [hmore, List.append_nil])).ne heq
  rcases List.prefix_or_prefix_of_prefix hfront hother with hle | hle
  · exact hextends hle h
  · exact (hextends hle h.symm).symm

end Position

namespace Token

/-- The tokens of a scan stand behind one another, and behind all that stands before its input. -/
theorem isChain_scanFrom (file : String) (p : Position) (input : List Char) :
    ∀ q : Position, q.Before p →
      (q :: (scanFrom file p input).tokens.map (·.location.position)).IsChain Position.Before := by
  fun_induction scanFrom file p input with
  | case1 p input hfront => exact fun q h => List.IsChain.singleton q
  | case2 p input start c rest hfront hrule => exact fun q h => List.IsChain.singleton q
  | case3 p input start c rest hfront rule hrule text cause hkind =>
    exact fun q h => List.IsChain.singleton q
  | case4 p input start c rest hfront rule hrule text kind hkind hlt behind ih =>
    intro q h
    have htext : start.Before (start.advance text) :=
      start.before_advance (Rule.lexeme_ne_nil_of_first? hrule)
    exact List.isChain_cons_cons.mpr ⟨h.advance (gap input), ih start htext⟩

theorem pairwise_before {file source : String} {tokens : List Token}
    (h : ofSource file source = .ok tokens) :
    (tokens.map Token.location).Pairwise fun a b => a.position.Before b.position := by
  have hchain := isChain_scanFrom file .start source.toList ⟨0, 0⟩ (by decide)
  unfold ofSource Scan.ofSource at h
  split at h
  · next heq =>
    cases h
    rw [heq] at hchain
    have hpairwise := (List.isChain_iff_pairwise.mp hchain).of_cons
    rw [List.pairwise_map] at hpairwise ⊢
    exact hpairwise
  · cases h

end Token

end FourVin
