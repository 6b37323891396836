import FourVin.Proofs.Program.Acceptance
import FourVin.Proofs.Program.Skeleton
import FourVin.Proofs.Token.Lines
import Mathlib.Data.List.Induction

/-!
Reading one source text behind another. A text that reads as a program and ends with a line feed
leaves the reader behind a declaration, whatever follows, also when the line feeds around the seam
make up one token. From there the second text reads as it does from its own beginning, further down
in the file.
-/
namespace FourVin

theorem exists_trailing_lineFeeds (text : List Char) :
    ∃ (line : List Char) (n : Nat), text = line ++ List.replicate n '\n' ∧
      line.getLast? ≠ some '\n' := by
  induction text using List.reverseRecOn with
  | nil => exact ⟨[], 0, rfl, by simp⟩
  | append_singleton text c ih =>
    by_cases hc : c = '\n'
    · obtain ⟨line, n, rfl, hline⟩ := ih
      exact ⟨line, n + 1, by rw [hc, List.replicate_succ', List.append_assoc], hline⟩
    · exact ⟨text ++ [c], 0, by simp, by simpa using hc⟩

theorem exists_leading_lineFeeds (text : List Char) :
    ∃ (n : Nat) (behind : List Char), text = List.replicate n '\n' ++ behind ∧
      behind.head? ≠ some '\n' := by
  induction text with
  | nil => exact ⟨0, [], rfl, by simp⟩
  | cons c text ih =>
    by_cases hc : c = '\n'
    · obtain ⟨n, behind, rfl, hbehind⟩ := ih
      exact ⟨n + 1, behind, by rw [hc, List.replicate_succ, List.cons_append], hbehind⟩
    · exact ⟨0, c :: text, rfl, by simpa using hc⟩

namespace Program

open Token Grammar

variable {file : String} {s s' : Stage} {p : Position} {t u : Token} {left right : List Token}
  {eof : Location} {out ds : List Declaration}

/-- Tokens that are accepted with others behind them lead to a stage from which the others are. -/
theorem exists_reads_of_append (h : declarationsFrom s eof (left ++ right) = .ok ds) :
    ∃ s' out behind, Reads s left s' out ∧ declarationsFrom s' eof right = .ok behind ∧
      ds = out ++ behind := by
  induction left generalizing s ds with
  | nil => exact ⟨s, [], ds, reads_nil s, h, rfl⟩
  | cons t left ih =>
    simp only [List.cons_append, declarationsFrom] at h
    split at h
    · cases h
    · next s' completed hnext =>
      obtain ⟨ds', hds', heq⟩ := bind_eq_ok_iff.mp h
      cases heq
      obtain ⟨s'', out, behind, hreads, hbehind, rfl⟩ := ih hds'
      have hstep : Reads s [t] s' completed := reads_token (⟨t, rfl⟩ : TokenOf t.kind) hnext
      exact ⟨s'', completed ++ out, behind, hstep.trans hreads, hbehind, by simp⟩

/-- The last token that is accepted leads behind a declaration. -/
theorem next_of_singleton (h : declarationsFrom s eof [t] = .ok ds) :
    s.next t = some (.between, ds) := by
  simp only [declarationsFrom] at h
  split at h
  · cases h
  · next s' completed hnext =>
    split at h
    · next hs' =>
      cases h
      rw [hnext, hs', List.append_nil]
    · cases h

/-- Of a line feed the reader looks at nothing but the kind. -/
theorem next_eq_of_newline (s : Stage) (ht : t.kind = .newline) (hu : u.kind = .newline) :
    s.next t = s.next u := by
  obtain ⟨kind, text, location⟩ := t
  obtain ⟨kind', text', location'⟩ := u
  obtain rfl : kind = .newline := ht
  obtain rfl : kind' = .newline := hu
  cases s <;> rfl

/-- Text that does not end with a line feed, in front of one. -/
theorem passes_of_reads {line : List Char} (hline : line.getLast? ≠ some '\n')
    (hfailure : (scanFrom file p line).failure = none)
    (hreads : Reads s (scanFrom file p line).tokens s' out) (rest : List Char) :
    Passes file s p line ('\n' :: rest) s' out := by
  have hscan := scanFrom_append_lineFeed file p line rest hline
  rw [Scan.append_of_failure_eq_none hfailure] at hscan
  constructor
  · rw [hscan]
  · intro eof
    rw [hscan]
    exact hreads eof _

/-- Line feeds do the same however many more follow. -/
theorem passes_lineFeeds (n : Nat) (ht : t.kind = .newline) (hnext : s.next t = some (s', out))
    (rest : List Char) : Passes file s p (List.replicate (n + 1) '\n') rest s' out := by
  obtain ⟨m, behind, rfl, hbehind⟩ := exists_leading_lineFeeds rest
  -- All the line feeds are one token, in front of what the text behind them leads to.
  have hall : Passes file s p (List.replicate (n + 1 + m) '\n') behind s' out := by
    rw [Nat.add_right_comm]
    exact passes_token (lexes_newlines (n + m) hbehind)
      (hnext ▸ next_eq_of_newline s rfl ht)
  have hfurther : Passes file s' (p.advance (List.replicate (n + 1) '\n'))
      (List.replicate m '\n') behind s' [] := by
    cases m with
    | zero => exact passes_nil file s' _ behind
    | succ m =>
      exact passes_token (lexes_newlines m hbehind)
        (next_newline (opens_of_newline ht hnext) rfl)
  have hadvance : p.advance (List.replicate (n + 1 + m) '\n') =
      (p.advance (List.replicate (n + 1) '\n')).advance (List.replicate m '\n') := by
    rw [← Position.advance_append, List.replicate_append_replicate]
  constructor
  · rw [← List.append_assoc, List.replicate_append_replicate, hall.failure, hfurther.failure,
      hadvance]
  · intro eof
    rw [← List.append_assoc, List.replicate_append_replicate, hall.declarations,
      hfurther.declarations, hadvance]
    simp

/-- Text that ends with a line feed and is accepted leads behind its last declaration, whatever
follows. -/
theorem passes_of_declarationsFrom {text : List Char} (hend : text.getLast? = some '\n')
    (hfailure : (scanFrom file p text).failure = none)
    (hread : declarationsFrom s eof (scanFrom file p text).tokens = .ok ds) (rest : List Char) :
    Passes file s p text rest .between ds := by
  obtain ⟨line, n, rfl, hline⟩ := exists_trailing_lineFeeds text
  cases n with
  | zero => exact absurd (by simpa using hend) hline
  | succ n =>
    have hlexes : Lexes .newline (List.replicate (n + 1) '\n') [] := lexes_newlines n (by simp)
    have hnewlines := scanFrom_of_lexes file (p.advance line) hlexes
    rw [List.append_nil, scanFrom_nil] at hnewlines
    have hscan := scanFrom_append_lineFeed file p line (List.replicate n '\n') hline
    rw [← List.replicate_succ, hnewlines] at hscan
    rw [hscan] at hfailure hread
    have hfront := Scan.failure_eq_none_of_append hfailure
    rw [Scan.append_of_failure_eq_none hfront] at hread
    obtain ⟨s', out, behind, hreads, hbehind, rfl⟩ := exists_reads_of_append hread
    have hnext := next_of_singleton hbehind
    have hline := passes_of_reads hline hfront hreads (List.replicate n '\n' ++ rest)
    rw [← List.cons_append, ← List.replicate_succ] at hline
    exact hline.trans (passes_lineFeeds n rfl hnext rest)

/-- Tokens that are accepted lead behind a declaration, whatever follows. -/
theorem reads_of_declarationsFrom (h : declarationsFrom s eof left = .ok ds) :
    Reads s left .between ds := by
  rw [← List.append_nil left] at h
  obtain ⟨s', out, behind, hreads, hbehind, rfl⟩ := exists_reads_of_append h
  simp only [declarationsFrom] at hbehind
  split at hbehind
  · next hs' =>
    cases hbehind
    rwa [← hs', List.append_nil]
  · cases hbehind

theorem Reads.declarationsFrom_eq (h : Reads s left .between ds) (eof : Location) :
    declarationsFrom s eof left = .ok ds := by
  have hread := h eof []
  rw [List.append_nil] at hread
  rw [hread]
  simp [declarationsFrom]

/-- Where a program begins and where it goes on, the same is accepted in front of the same. -/
theorem Reads.between_of_lead (h : Reads .lead left .between ds) :
    Reads .between left .between ds := by
  suffices hread : declarationsFrom .between ⟨"", .start⟩ left = .ok ds from
    reads_of_declarationsFrom hread
  replace h := h.declarationsFrom_eq ⟨"", .start⟩
  induction left generalizing ds with
  | nil => cases h
  | cons t rest ih =>
    by_cases hkind : t.kind = .newline
    · rw [declarationsFrom, next_newline (.inl rfl) hkind] at h
      rw [declarationsFrom, next_newline (.inr rfl) hkind]
      obtain ⟨behind, hbehind, heq⟩ := bind_eq_ok_iff.mp h
      simp only [ih hbehind, ok_bind, heq]
    · have hnext : Stage.next .between t = Stage.next .lead t := by
        obtain ⟨kind, text, location⟩ := t
        cases kind with
        | newline => exact absurd rfl hkind
        | _ => rfl
      rwa [declarationsFrom, hnext]

/-- The same tokens further down read as the same declarations further down. -/
theorem Reads.down (lines : Nat) (h : Reads .between left .between ds) :
    Reads .between (left.map (Token.down lines)) .between
      (ds.map (Declaration.relocate (Location.down lines))) := by
  have htokens : List.Forall₂ (Respelled (Location.down lines)) left
      (left.map (Token.down lines)) := by
    rw [List.forall₂_map_right_iff, List.forall₂_same]
    exact fun t _ => ⟨rfl, rfl⟩
  have hread := endAlike_declarationsFrom (s := .between) ⟨"", .start⟩ htokens
  rw [h.declarationsFrom_eq] at hread
  obtain ⟨d, e, hd, -⟩ | ⟨ds', es, hds, hes, rfl⟩ := hread.exists_error_or_ok
  · cases hd
  · cases hds
    exact reads_of_declarationsFrom hes

/-- A source is read as the program that all its tokens complete. -/
theorem ofSource_eq_ok_iff {source : String} {p : Program} :
    ofSource file source = .ok p ↔
      (scanFrom file .start source.toList).failure = none ∧
      Reads .lead (scanFrom file .start source.toList).tokens .between p.declarations := by
  constructor
  · intro h
    obtain ⟨tokens, htokens, hread⟩ := bind_eq_ok_iff.mp h
    obtain ⟨ds, hds, heq⟩ := bind_eq_ok_iff.mp hread
    cases heq
    unfold Token.ofSource Scan.ofSource at htokens
    split at htokens
    · next hscan =>
      cases htokens
      rw [hscan]
      exact ⟨rfl, reads_of_declarationsFrom hds⟩
    · cases htokens
  · rintro ⟨hfailure, hreads⟩
    rw [ofSource_of_tokens (ofSource_of_failure hfailure), ofTokens, hreads.declarationsFrom_eq]
    rfl

/-- A source text that ends with a line feed, and one behind it, read as the declarations of the
first and then those of the second, with each of their locations as many lines further down as the
first has line feeds. -/
theorem ofSource_append {left right : String} {p q : Program}
    (hleft : ofSource file left = .ok p) (hright : ofSource file right = .ok q)
    (hend : left.toList.getLast? = some '\n') :
    ofSource file (left ++ right) = .ok ⟨p.declarations ++
      q.declarations.map (Declaration.relocate (Location.down (left.toList.count '\n')))⟩ := by
  obtain ⟨hfailure, hreads⟩ := ofSource_eq_ok_iff.mp hleft
  obtain ⟨hfailure', hreads'⟩ := ofSource_eq_ok_iff.mp hright
  have hpasses := passes_of_declarationsFrom hend hfailure
    (hreads.declarationsFrom_eq ⟨file, .start⟩) right.toList
  have hseam : Position.start.advance left.toList =
      Position.start.down (left.toList.count '\n') := Position.advance_of_getLast? _ hend
  rw [ofSource_eq_ok_iff, String.toList_append]
  constructor
  · rw [hpasses.failure, hseam, scanFrom_down]
    simp [Scan.down, hfailure']
  · refine reads_of_declarationsFrom ((hpasses.declarations ⟨file, .start⟩).trans ?_)
    rw [hseam, scanFrom_down, Scan.down,
      (hreads'.between_of_lead.down _).declarationsFrom_eq]
    rfl

def upperSource : String := "\n  ADD %RA, 0x10, %RB // sum\n\n\n"

def lowerSource : String := "\n$top:\n\tJMP $top\n"

/-- Line feeds stand on both sides of the seam. -/
theorem ofSource_append_upperSource :
    ofSource "joined" (upperSource ++ lowerSource) = .ok ⟨[
      .instruction ⟨"ADD", [⟨.register .ra, ⟨"joined", ⟨2, 7⟩⟩⟩, ⟨.integer 16, ⟨"joined", ⟨2, 12⟩⟩⟩,
        ⟨.register .rb, ⟨"joined", ⟨2, 18⟩⟩⟩], ⟨"joined", ⟨2, 3⟩⟩⟩,
      .label "top" ⟨"joined", ⟨6, 1⟩⟩,
      .instruction ⟨"JMP", [⟨.label "top", ⟨"joined", ⟨7, 6⟩⟩⟩], ⟨"joined", ⟨7, 2⟩⟩⟩]⟩ := by
  have hupper : ofSource "joined" upperSource = .ok ⟨[
      .instruction ⟨"ADD", [⟨.register .ra, ⟨"joined", ⟨2, 7⟩⟩⟩, ⟨.integer 16, ⟨"joined", ⟨2, 12⟩⟩⟩,
        ⟨.register .rb, ⟨"joined", ⟨2, 18⟩⟩⟩], ⟨"joined", ⟨2, 3⟩⟩⟩]⟩ := by decide +kernel
  have hlower : ofSource "joined" lowerSource = .ok ⟨[
      .label "top" ⟨"joined", ⟨2, 1⟩⟩,
      .instruction ⟨"JMP", [⟨.label "top", ⟨"joined", ⟨3, 6⟩⟩⟩], ⟨"joined", ⟨3, 2⟩⟩⟩]⟩ := by
    decide +kernel
  have hlines : upperSource.toList.count '\n' = 4 := by decide +kernel
  have hjoined := ofSource_append hupper hlower (by decide +kernel)
  rwa [hlines] at hjoined

end Program

end FourVin
