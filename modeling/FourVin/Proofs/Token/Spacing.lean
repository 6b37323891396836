import FourVin.Proofs.Program.WrittenForm
import FourVin.Proofs.Token.Faults
import FourVin.Proofs.Token.LongestMatch

/-!
Spacing does not reach the tokens. In a source two tokens may touch, and then the first one ends
where its rule can take no more. Set apart by blanks, the texts of the tokens are scanned as the
same tokens, however many blanks there are.

No text of a token has a blank in it. So a text that a rule describes is the longest match in front
of a blank, whatever stood behind it where it was first cut out, and its kind depends on the text
alone.
-/
namespace FourVin

def Text.Blanks (text : String) : Prop := ∀ c ∈ text.toList, c = ' ' ∨ c = '\t' ∨ c = '\r'

theorem Text.Blanks.isBlank_of_mem {text : String} (h : Blanks text) :
    ∀ c ∈ text.toList, Token.isBlank c = true := by
  intro c hc
  rcases h c hc with rfl | rfl | rfl <;> rfl

/-- Blanks to set texts apart with: some in front of the first text and some behind each of them.
Between two texts there is at least one. -/
structure Spacing where
  lead : String
  behind : List String
  blanks : ∀ gap ∈ lead :: behind, Text.Blanks gap
  apart : ∀ gap ∈ behind.dropLast, gap ≠ ""

def Spacing.around (s : Spacing) (texts : List String) : String :=
  s.lead ++ String.join (List.zipWith (· ++ ·) texts s.behind)

namespace Rule

theorem holds_eq_false_of_isBlank {c : Char} (rule : Rule) (h : Token.isBlank c = true) :
    rule.holds c = false := by
  have hc : c = ' ' ∨ c = '\t' ∨ c = '\r' := by simpa [Token.isBlank, or_assoc] using h
  rcases hc with rfl | rfl | rfl <;> cases rule <;> decide

/-- A text at the front of an input that cannot hold what stands behind `text` ends before it. -/
theorem prefix_of_head?_not_mem {text rest other : List Char} (h : other <+: text ++ rest)
    (hrest : ∀ c ∈ rest.head?, c ∉ other) : other <+: text := by
  rcases List.prefix_or_prefix_of_prefix h (List.prefix_append text rest) with hle | ⟨more, rfl⟩
  · exact hle
  · cases more with
    | nil => simp
    | cons c more =>
      obtain ⟨behind, rfl⟩ := (List.prefix_append_right_inj text).mp h
      exact absurd (List.mem_append_right text List.mem_cons_self) (hrest c rfl)

/-- In front of a blank, or at the end, a text that a rule describes is the longest match. -/
theorem Describes.longestMatch_append {rule : Rule} {text rest : List Char}
    (h : rule.Describes text) (hrest : ∀ c ∈ rest.head?, Token.isBlank c = true) :
    LongestMatch (text ++ rest) rule text := by
  have hwithin : ∀ {other : Rule} {front : List Char}, front <+: text ++ rest →
      other.Describes front → front <+: text := by
    intro other front hfront hother
    refine prefix_of_head?_not_mem hfront ?_
    intro c hc
    exact hother.not_mem (holds_eq_false_of_isBlank other (hrest c hc))
  refine ⟨List.prefix_append text rest, h, ?_, ?_⟩
  · intro other shorter hshorter hother
    exact (hwithin hshorter hother).length_le
  · intro other same hsame hother hlength
    obtain rfl : same = text := (hwithin hsame hother).eq_of_length hlength
    exact Option.some.inj ((first?_of_describes hother).symm.trans (first?_of_describes h))

end Rule

namespace Token

/-- The token has a text of some rule and the kind that the rule gives to it. -/
def WellSpelled (t : Token) : Prop :=
  ∃ rule : Rule, rule.Describes t.text.toList ∧ rule.kind t.text.toList = .ok t.kind

theorem wellSpelled_of_ofSource {file source : String} {tokens : List Token}
    (h : ofSource file source = .ok tokens) : ∀ t ∈ tokens, t.WellSpelled := by
  intro t ht
  obtain ⟨front, input, -, hcut⟩ := cut_of_ofSource h t ht
  cases hcut with
  | @cut rule kind hrule hkind =>
    refine ⟨rule, ?_, ?_⟩
    · simpa using Rule.describes_of_first? hrule
    · simpa using hkind

/-- The text of a token is read as the token again in front of a blank and at the end. -/
theorem WellSpelled.lexes {t : Token} (h : t.WellSpelled) {rest : List Char}
    (hrest : ∀ c ∈ rest.head?, isBlank c = true) : Lexes t.kind t.text.toList rest := by
  obtain ⟨rule, hdescribes, hkind⟩ := h
  obtain ⟨hfirst, hlexeme⟩ :=
    Rule.first?_eq_some_iff_longestMatch.mpr (hdescribes.longestMatch_append hrest)
  exact ⟨rule, hfirst, hlexeme, hkind⟩

theorem scanFrom_blanks (file : String) (p : Position) {blanks : List Char} (rest : List Char)
    (h : ∀ c ∈ blanks, isBlank c = true) :
    scanFrom file p (blanks ++ rest) = scanFrom file (p.advance blanks) rest := by
  induction blanks generalizing p with
  | nil => rfl
  | cons c blanks ih =>
    obtain ⟨hc, hblanks⟩ := List.forall_mem_cons.mp h
    rw [List.cons_append, scanFrom_blank file p _ hc, ih _ hblanks, Position.advance_cons]

end Token

namespace Spacing

theorem isBlank_lead (s : Spacing) : ∀ c ∈ s.lead.toList, Token.isBlank c = true :=
  (s.blanks s.lead List.mem_cons_self).isBlank_of_mem

theorem toList_around_nil (s : Spacing) : (s.around []).toList = s.lead.toList := by
  simp [around, String.join]

/-- What stands behind the first text is spaced too, and it begins with a blank unless it is
empty. -/
theorem exists_tail (s : Spacing) (text : String) (texts : List String)
    (hcount : s.behind.length = texts.length + 1) :
    ∃ next : Spacing, next.behind.length = texts.length ∧
      (s.around (text :: texts)).toList =
        s.lead.toList ++ (text.toList ++ (next.around texts).toList) ∧
      ∀ c ∈ (next.around texts).toList.head?, Token.isBlank c = true := by
  obtain ⟨lead, behind, hblanks, hapart⟩ := s
  cases behind with
  | nil => cases hcount
  | cons gap gaps =>
    have hlength : gaps.length = texts.length := by simpa using hcount
    have hbehind := (List.forall_mem_cons.mp hblanks).2
    -- The blanks behind the first text may be missing only where no text follows.
    cases gaps with
    | nil =>
      obtain rfl : texts = [] := List.length_eq_zero_iff.mp hlength.symm
      refine ⟨⟨gap, [], hbehind, by simp⟩, rfl, by simp [around, String.join], ?_⟩
      intro c hc
      rw [toList_around_nil] at hc
      exact isBlank_lead _ c (List.mem_of_mem_head? hc)
    | cons other gaps =>
      rw [List.dropLast_cons_cons] at hapart
      obtain ⟨hne, hrest⟩ := List.forall_mem_cons.mp hapart
      refine ⟨⟨gap, other :: gaps, hbehind, hrest⟩, hlength, by simp [around], ?_⟩
      intro c hc
      rw [around, String.toList_append,
        List.head?_append_of_ne_nil _ (by simpa using hne)] at hc
      exact isBlank_lead _ c (List.mem_of_mem_head? hc)

end Spacing

namespace Token

/-- The texts of tokens, set apart by blanks, are scanned as tokens of the same kinds and texts. -/
theorem scanFrom_around (file : String) (p : Position) (s : Spacing) {tokens : List Token}
    (hcount : s.behind.length = tokens.length) (htokens : ∀ t ∈ tokens, t.WellSpelled) :
    ∃ others, scanFrom file p (s.around (tokens.map Token.text)).toList = ⟨others, none⟩ ∧
      others.map Token.kind = tokens.map Token.kind ∧
      others.map Token.text = tokens.map Token.text := by
  induction tokens generalizing s p with
  | nil =>
    have hscan := scanFrom_blanks file p [] s.isBlank_lead
    rw [List.append_nil, scanFrom_nil, ← Spacing.toList_around_nil] at hscan
    exact ⟨[], hscan, rfl, rfl⟩
  | cons t tokens ih =>
    obtain ⟨ht, htokens⟩ := List.forall_mem_cons.mp htokens
    obtain ⟨next, hnext, haround, hhead⟩ :=
      s.exists_tail t.text (tokens.map Token.text) (by simpa using hcount)
    obtain ⟨others, hscan, hkinds, htexts⟩ :=
      ih ((p.advance s.lead.toList).advance t.text.toList) next (by simpa using hnext) htokens
    refine ⟨⟨t.kind, t.text, ⟨file, p.advance s.lead.toList⟩⟩ :: others, ?_, ?_, ?_⟩
    · rw [List.map_cons, haround, scanFrom_blanks file p _ s.isBlank_lead,
        scanFrom_of_lexes file _ (ht.lexes hhead), hscan, String.ofList_toList]
    · rw [List.map_cons, List.map_cons, hkinds]
    · rw [List.map_cons, List.map_cons, htexts]

/-- The texts of the tokens of a source, in order and set apart by any blanks, have tokens of the
same kinds and texts. -/
theorem ofSource_spaced_texts {file source : String} {tokens : List Token}
    (h : ofSource file source = .ok tokens) (otherFile : String) (s : Spacing)
    (hcount : s.behind.length = tokens.length) :
    ∃ others, ofSource otherFile (s.around (tokens.map Token.text)) = .ok others ∧
      others.map Token.kind = tokens.map Token.kind ∧
      others.map Token.text = tokens.map Token.text := by
  obtain ⟨others, hscan, hsame⟩ :=
    scanFrom_around otherFile .start s hcount (wellSpelled_of_ofSource h)
  refine ⟨others, ?_, hsame⟩
  rw [ofSource_of_failure (by rw [hscan]), hscan]

/-- Tokens that touch: a register and a word, a zero and a word, a float behind them. -/
def gluedSource : String := "%RSPX:0x.5// end\n\n0x1F"

def gluedTokens : List Token :=
  [⟨.register .rsp, "%RSP", ⟨"t", ⟨1, 1⟩⟩⟩, ⟨.name "X", "X", ⟨"t", ⟨1, 5⟩⟩⟩,
   ⟨.colon, ":", ⟨"t", ⟨1, 6⟩⟩⟩, ⟨.integer 0, "0", ⟨"t", ⟨1, 7⟩⟩⟩,
   ⟨.name "x", "x", ⟨"t", ⟨1, 8⟩⟩⟩, ⟨.float ⟨0x3FE0000000000000⟩, ".5", ⟨"t", ⟨1, 9⟩⟩⟩,
   ⟨.newline, "\n\n", ⟨"t", ⟨1, 17⟩⟩⟩, ⟨.hex 31, "0x1F", ⟨"t", ⟨3, 1⟩⟩⟩]

def gluedSpacing : Spacing where
  lead := "\t"
  behind := [" ", "  ", "\r", " ", "\t", " \r", " ", ""]
  blanks := by simp [Text.Blanks]
  apart := by simp

theorem ofSource_spaced_texts_glued :
    ofSource "t" gluedSource = .ok gluedTokens ∧
      gluedSpacing.behind.length = gluedTokens.length ∧
      gluedSpacing.around (gluedTokens.map Token.text) =
        "\t%RSP X  :\r0 x\t.5 \r\n\n 0x1F" ∧
      ∃ others, ofSource "t" "\t%RSP X  :\r0 x\t.5 \r\n\n 0x1F" = .ok others ∧
        others.map Token.kind = gluedTokens.map Token.kind ∧
        others.map Token.text = gluedTokens.map Token.text := by
  have htokens : ofSource "t" gluedSource = .ok gluedTokens := by decide +kernel
  have htext : gluedSpacing.around (gluedTokens.map Token.text) =
      "\t%RSP X  :\r0 x\t.5 \r\n\n 0x1F" := by decide +kernel
  have hspaced := ofSource_spaced_texts htokens "t" gluedSpacing rfl
  rw [htext] at hspaced
  exact ⟨htokens, rfl, htext, hspaced⟩

end Token

end FourVin
