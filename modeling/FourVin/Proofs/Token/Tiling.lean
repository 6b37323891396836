import FourVin.Token.Scan
import Mathlib.Data.List.DropRight
import Mathlib.Data.List.Forall2

/-!
Where tokens stand. The tokens of a scan are cut out of the source by spans of bytes, one behind the
other, and only blanks and comments stand between them. A token is located where its span begins,
and so is the fault that stops a scan: at the line that the line feeds in front of it count, and at
the column that the bytes since the last line feed count.

A scan moves a position along, and never looks back. `tiles_scanFrom` ties its position to the text
in front of it, and carries this from one token to the next.
-/
namespace FourVin

structure Span where
  start : Nat
  stop : Nat
  deriving DecidableEq

structure Span.Cuts (s : Span) (source front text back : String) : Prop where
  split : source = front ++ text ++ back
  start : s.start = front.utf8ByteSize
  stop : s.stop = (front ++ text).utf8ByteSize

/-- The position behind a text, counted out: a line for every line feed, and a column for every byte
behind the last line feed. -/
def Position.behind (front : String) : Position where
  line := 1 + front.toList.count '\n'
  column := 1 + (String.ofList (front.toList.rtakeWhile (· ≠ '\n'))).utf8ByteSize

/-- Blanks and comments in front of `rest`. A comment runs up to a line feed or to the end. -/
inductive Skipped : List Char → List Char → Prop
  | nil (rest : List Char) : Skipped [] rest
  | blank {c : Char} {text rest : List Char} : c = ' ' ∨ c = '\t' ∨ c = '\r' →
      Skipped text rest → Skipped (c :: text) rest
  | comment {body text rest : List Char} : '\n' ∉ body →
      (text ++ rest = [] ∨ (text ++ rest).head? = some '\n') →
      Skipped text rest → Skipped ('/' :: '/' :: (body ++ text)) rest

def Skips (source : String) (start stop : Nat) : Prop :=
  ∃ front text back, Span.Cuts ⟨start, stop⟩ source front text back ∧
    Skipped text.toList back.toList

/-- The token is what the span holds, and it is located at the first byte of the span. -/
def Token.Fills (file source : String) (t : Token) (s : Span) : Prop :=
  s.start < s.stop ∧ ∃ front back, s.Cuts source front t.text back ∧
    t.location = ⟨file, .behind front⟩

def Diagnostic.StandsAt (file source : String) (d : Diagnostic) (offset : Nat) : Prop :=
  ∃ front back, source = front ++ back ∧ back ≠ "" ∧ offset = front.utf8ByteSize ∧
    d.location = ⟨file, .behind front⟩

/-- The spans behind `last` hold the tokens of a scan, in order, with gaps in front of them. Behind
the last of them there is a gap up to the end or up to the fault. -/
structure Scan.Tiles (file source : String) (last : Span) (scan : Scan) (spans : List Span) :
    Prop where
  tokens : List.Forall₂ (Token.Fills file source) scan.tokens spans
  ordered : (last :: spans).Pairwise fun a b => a.stop ≤ b.start
  gaps : (last :: spans).IsChain fun a b => Skips source a.stop b.start
  complete : scan.failure = none → Skips source (spans.getLastD last).stop source.utf8ByteSize
  stopped : ∀ d, scan.failure = some d → ∃ offset,
    Skips source (spans.getLastD last).stop offset ∧ d.StandsAt file source offset

namespace Position

theorem line_behind (front : List Char) :
    (behind (String.ofList front)).line = front.count '\n' + 1 := by
  simp [behind, Nat.add_comm]

theorem column_behind (front : List Char) :
    (behind (String.ofList front)).column =
      (String.ofList (front.rtakeWhile (· ≠ '\n'))).utf8ByteSize + 1 := by
  simp [behind, Nat.add_comm]

theorem behind_concat (front : List Char) (c : Char) :
    behind (String.ofList (front ++ [c])) = (behind (String.ofList front)).step c := by
  by_cases hc : c = '\n'
  · simp [behind, step, hc, Nat.add_comm]
  · simp [behind, step, hc, Nat.add_assoc]

/-- Moving a position along a text counts out the text. -/
theorem advance_start (front : List Char) : start.advance front = behind (String.ofList front) := by
  induction front using List.reverseRecOn with
  | nil => rfl
  | append_singleton front c ih => rw [advance_append, ih, behind_concat, advance_cons, advance_nil]

end Position

namespace Token

theorem skipped_blanks {blanks text rest : List Char} (hblanks : ∀ c ∈ blanks, isBlank c = true)
    (h : Skipped text rest) : Skipped (blanks ++ text) rest := by
  induction blanks with
  | nil => exact h
  | cons c blanks ih =>
    obtain ⟨hc, hblanks⟩ := List.forall_mem_cons.mp hblanks
    exact .blank (by simpa [isBlank, or_assoc] using hc) (ih hblanks)

theorem skipped_comment {input rest : List Char} (h : comment input ++ rest = input) :
    Skipped (comment input) rest := by
  unfold comment at h ⊢
  split at h
  · next behind =>
    have hrest : rest = behind.dropWhile (· ≠ '\n') := by
      have hsplit := List.takeWhile_append_dropWhile (p := (· ≠ '\n')) (l := behind)
      simp only [List.cons_append, List.cons.injEq, true_and] at h
      exact List.append_cancel_left (h.trans hsplit.symm)
    have hbody : '\n' ∉ behind.takeWhile (· ≠ '\n') := by
      intro hmem
      simpa using List.all_eq_true.mp List.all_takeWhile _ hmem
    have hstop : rest = [] ∨ rest.head? = some '\n' := by
      have hhead := List.head?_dropWhile_not (· ≠ '\n') behind
      rw [← hrest] at hhead
      cases rest with
      | nil => exact .inl rfl
      | cons c _ => exact .inr (by simpa using hhead)
    have hskipped : Skipped ('/' :: '/' :: (behind.takeWhile (· ≠ '\n') ++ [])) rest :=
      .comment hbody hstop (.nil rest)
    simpa using hskipped
  · exact .nil rest

/-- The gap at the front of a text consists of blanks and comments. -/
theorem skipped_gap {input rest : List Char} (h : gap input ++ rest = input) :
    Skipped (gap input) rest := by
  have hcomment : comment (input.dropWhile isBlank) ++ rest = input.dropWhile isBlank := by
    have hsplit := List.takeWhile_append_dropWhile (p := isBlank) (l := input)
    rw [gap, List.append_assoc] at h
    exact List.append_cancel_left (h.trans hsplit.symm)
  exact skipped_blanks (List.all_eq_true.mp List.all_takeWhile) (skipped_comment hcomment)

end Token

namespace Scan

variable {file source : String}

theorem le_of_skips {start stop : Nat} (h : Skips source start stop) : start ≤ stop := by
  obtain ⟨front, text, back, hcuts, -⟩ := h
  have hstart : start = front.utf8ByteSize := hcuts.start
  have hstop : stop = (front ++ text).utf8ByteSize := hcuts.stop
  rw [String.utf8ByteSize_append] at hstop
  omega

theorem Tiles.cons {last s : Span} {t : Token} {tokens : List Token}
    {failure : Option Diagnostic} {spans : List Span} (hgap : Skips source last.stop s.start)
    (ht : t.Fills file source s) (h : Tiles file source s ⟨tokens, failure⟩ spans) :
    Tiles file source last ⟨t :: tokens, failure⟩ (s :: spans) where
  tokens := .cons ht h.tokens
  ordered := by
    have hle := le_of_skips hgap
    have hlt := ht.1
    refine List.pairwise_cons.mpr ⟨?_, h.ordered⟩
    intro b hb
    rcases List.mem_cons.mp hb with rfl | hb
    · exact hle
    · have hbehind := (List.pairwise_cons.mp h.ordered).1 b hb
      omega
  gaps := List.isChain_cons_cons.mpr ⟨hgap, h.gaps⟩
  complete := by
    rw [List.getLastD_cons]
    exact h.complete
  stopped := by
    rw [List.getLastD_cons]
    exact h.stopped

theorem tiles_end {last : Span} (h : Skips source last.stop source.utf8ByteSize) :
    Tiles file source last ⟨[], none⟩ [] where
  tokens := .nil
  ordered := List.pairwise_singleton _ _
  gaps := List.IsChain.singleton _
  complete := fun _ => h
  stopped := by simp

theorem tiles_fault {last : Span} {d : Diagnostic} {offset : Nat}
    (hgap : Skips source last.stop offset) (hd : d.StandsAt file source offset) :
    Tiles file source last ⟨[], some d⟩ [] where
  tokens := .nil
  ordered := List.pairwise_singleton _ _
  gaps := List.IsChain.singleton _
  complete := by simp
  stopped := by
    rintro _ ⟨⟩
    exact ⟨offset, hgap, hd⟩

theorem append_gap (front input : List Char) :
    front ++ Token.gap input ++ input.drop (Token.gap input).length = front ++ input := by
  rw [List.append_assoc, List.prefix_iff_eq_append.mp (Token.gap_isPrefix input)]

theorem skips_gap (front input : List Char) :
    Skips (String.ofList (front ++ input)) (String.ofList front).utf8ByteSize
      (String.ofList (front ++ Token.gap input)).utf8ByteSize := by
  refine ⟨String.ofList front, String.ofList (Token.gap input),
    String.ofList (input.drop (Token.gap input).length), ⟨?_, rfl, ?_⟩, ?_⟩
  · rw [← String.ofList_append, ← String.ofList_append, append_gap]
  · rw [← String.ofList_append]
  · simpa using Token.skipped_gap (List.prefix_iff_eq_append.mp (Token.gap_isPrefix input))

theorem standsAt_front (file : String) (front : List Char) {rest : List Char} (cause : Cause)
    (hrest : rest ≠ []) :
    Diagnostic.StandsAt file (String.ofList (front ++ rest))
      ⟨⟨file, Position.start.advance front⟩, cause⟩ (String.ofList front).utf8ByteSize := by
  refine ⟨String.ofList front, String.ofList rest, String.ofList_append, ?_, rfl, ?_⟩
  · simpa using hrest
  · rw [Position.advance_start]

theorem fills_front (file : String) (front : List Char) {text : List Char} (rest : List Char)
    (kind : Token.Kind) (htext : text ≠ []) :
    Token.Fills file (String.ofList (front ++ text ++ rest))
      ⟨kind, String.ofList text, ⟨file, Position.start.advance front⟩⟩
      ⟨(String.ofList front).utf8ByteSize, (String.ofList (front ++ text)).utf8ByteSize⟩ := by
  have hpos : (String.ofList text).utf8ByteSize ≠ 0 := by simpa using htext
  refine ⟨?_, String.ofList front, String.ofList rest, ⟨?_, rfl, ?_⟩, ?_⟩
  · simp only [String.ofList_append, String.utf8ByteSize_append]
    omega
  · rw [← String.ofList_append, ← String.ofList_append]
  · rw [← String.ofList_append]
  · rw [Position.advance_start]

/-- A fault behind the gap ends the tiling. -/
theorem tiles_gap_fault (file : String) (front : List Char) {input rest : List Char} {c : Char}
    (cause : Cause) (hfront : input.drop (Token.gap input).length = c :: rest) {last : Span}
    (hlast : last.stop = (String.ofList front).utf8ByteSize) :
    Tiles file (String.ofList (front ++ input)) last
      ⟨[], some ⟨⟨file, (Position.start.advance front).advance (Token.gap input)⟩, cause⟩⟩
      [] := by
  have hfault := standsAt_front file (front ++ Token.gap input) cause (List.cons_ne_nil c rest)
  rw [← hfront, append_gap, Position.advance_append] at hfault
  exact tiles_fault (hlast ▸ skips_gap front input) hfault

/-- A scan that begins behind `front`, with the position that belongs there, tiles what follows. -/
theorem tiles_scanFrom (file : String) (p : Position) (front input : List Char)
    (hp : p = Position.start.advance front) (last : Span)
    (hlast : last.stop = (String.ofList front).utf8ByteSize) :
    ∃ spans,
      Tiles file (String.ofList (front ++ input)) last (Token.scanFrom file p input) spans := by
  fun_induction Token.scanFrom file p input generalizing front last with
  | case1 p input hfront =>
    -- Nothing is left behind the gap, so it runs up to the end of the source.
    have hgap := hlast ▸ skips_gap front input
    have hend := append_gap front input
    rw [hfront, List.append_nil] at hend
    rw [hend] at hgap
    exact ⟨[], tiles_end hgap⟩
  | case2 p input start c rest hfront hrule =>
    subst hp
    exact ⟨[], tiles_gap_fault file front (.unexpectedCharacter c) hfront hlast⟩
  | case3 p input start c rest hfront rule hrule text cause hkind =>
    subst hp
    exact ⟨[], tiles_gap_fault file front cause hfront hlast⟩
  | case4 p input start c rest hfront rule hrule text kind hkind hlt behind ih =>
    subst hp
    have hrest : text ++ (c :: rest).drop text.length = c :: rest :=
      List.prefix_iff_eq_append.mp (Rule.lexeme_isPrefix rule (c :: rest))
    have hsource : front ++ Token.gap input ++ text ++ (c :: rest).drop text.length =
        front ++ input := by
      rw [List.append_assoc _ text, hrest, ← hfront, append_gap]
    have htoken := fills_front file (front ++ Token.gap input) ((c :: rest).drop text.length) kind
      (Rule.lexeme_ne_nil_of_first? hrule)
    rw [Position.advance_append, hsource] at htoken
    -- The rest of the scan has everything up to the end of this lexeme in front of it.
    obtain ⟨spans, hspans⟩ := ih (front ++ Token.gap input ++ text)
      (by rw [Position.advance_append, Position.advance_append])
      ⟨(String.ofList (front ++ Token.gap input)).utf8ByteSize,
        (String.ofList (front ++ Token.gap input ++ text)).utf8ByteSize⟩ rfl
    rw [hsource] at hspans
    exact ⟨_, Tiles.cons (hlast ▸ skips_gap front input) htoken hspans⟩

/-- The tokens of a source tile it up to its end or its first fault: they are cut out of it one
behind the other, with only blanks and comments between them, and each is located where it begins,
and so is the fault. -/
theorem ofSource_tiles_source (file source : String) :
    ∃ spans, (ofSource file source).Tiles file source ⟨0, 0⟩ spans := by
  have htiles := tiles_scanFrom file .start [] source.toList rfl ⟨0, 0⟩ (by simp)
  rwa [List.nil_append, String.ofList_toList] at htiles

-- A comment with a letter of two bytes is a gap of six, and the fault stands on the second line.
example :
    (ofSource "a" "JMP // é\n\t?").failure = some ⟨⟨"a", 2, 2⟩, .unexpectedCharacter '?'⟩ ∧
      (ofSource "a" "JMP // é\n\t?").Tiles "a" "JMP // é\n\t?" ⟨0, 0⟩ [⟨0, 3⟩, ⟨9, 10⟩] := by
  have htokens : (ofSource "a" "JMP // é\n\t?").tokens =
      [⟨.mnemonic "JMP", "JMP", ⟨"a", 1, 1⟩⟩, ⟨.newline, "\n", ⟨"a", 1, 10⟩⟩] := by
    decide +kernel
  have hfailure : (ofSource "a" "JMP // é\n\t?").failure =
      some ⟨⟨"a", 2, 2⟩, .unexpectedCharacter '?'⟩ := by
    decide +kernel
  have hcomment : Skipped ('/' :: '/' :: ([' ', 'é'] ++ [])) ['\n', '\t', '?'] :=
    .comment (by decide) (.inr rfl) (.nil _)
  have hgap : Skips "JMP // é\n\t?" 10 11 :=
    ⟨"JMP // é\n", "\t", "?", ⟨by decide, rfl, rfl⟩, .blank (.inr (.inl rfl)) (.nil _)⟩
  refine ⟨hfailure, ?_⟩
  generalize ofSource "a" "JMP // é\n\t?" = scan at htokens hfailure ⊢
  cases scan with
  | mk tokens failure =>
    cases htokens
    cases hfailure
    refine Tiles.cons ?_ ?_ (Tiles.cons ?_ ?_ (tiles_fault hgap ?_))
    · exact ⟨"", "", "JMP // é\n\t?", ⟨by decide, rfl, rfl⟩, .nil _⟩
    · exact ⟨by decide, "", " // é\n\t?", ⟨by decide, rfl, rfl⟩, by decide⟩
    · exact ⟨"JMP", " // é", "\n\t?", ⟨by decide, rfl, rfl⟩, .blank (.inl rfl) hcomment⟩
    · exact ⟨by decide, "JMP // é", "\t?", ⟨by decide, rfl, rfl⟩, by decide⟩
    · exact ⟨"JMP // é\n\t", "?", by decide, by decide, rfl, by decide⟩

end Scan

end FourVin
