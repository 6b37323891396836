import FourVin.Proofs.Assembler.Checked
import FourVin.Proofs.Program.Skeleton
import FourVin.Proofs.Symbols.Renaming

/-!
Layout and spelling do not reach the image. Sources whose tokens have the same skeleton are read as
programs of the same content, and everything behind the reader sees no more than that: the checks,
which also see locations, only hand these on to their faults, and expansion and encoding go by the
content.
-/
namespace FourVin.Assembler

open Token

/-- Programs of the same content assemble to the same image, or fail with faults of one kind. -/
theorem endAlike_assemble_of_contents (a : Assembler) {source other : String} {p q : Program}
    (hp : Program.ofSource a.file source = .ok p) (hq : Program.ofSource a.file other = .ok q)
    (hcontents : p.contents = q.contents) :
    EndAlike (Diagnostic.Alike fun _ _ => True) Eq (a.assemble source) (a.assemble other) := by
  rcases (Symbols.endAlike_ofProgram_of_contents hcontents).exists_error_or_ok with
    ⟨d, e, hd, he, hfault⟩ | ⟨s, t, hs, ht, -⟩
  · rw [assemble_eq_error_of_check hp hd, assemble_eq_error_of_check hq he]
    exact .error hfault
  · obtain ⟨p', -, hp', -, hsource⟩ := a.assemble_of_checked hp hs
    obtain ⟨q', -, hq', -, hother⟩ := a.assemble_of_checked hq ht
    rw [hsource, hother, hp', hq', hcontents]
    exact .ok rfl

/-- Sources whose tokens have the same skeleton assemble to the same image, or fail with faults of
one kind. -/
theorem assemble_of_skeleton (a : Assembler) {source other : String} {tokens others : List Token}
    (hsource : Token.ofSource a.file source = .ok tokens)
    (hother : Token.ofSource a.file other = .ok others)
    (hskeleton : skeleton tokens = skeleton others) :
    (∃ image, a.assemble source = .ok image ∧ a.assemble other = .ok image) ∨
      ∃ d e, a.assemble source = .error d ∧ a.assemble other = .error e ∧
        d.cause.SameVariant e.cause := by
  have hread := Program.endAlike_ofTokens a.file hskeleton
  rw [← Program.ofSource_of_tokens hsource, ← Program.ofSource_of_tokens hother] at hread
  rcases hread.exists_error_or_ok with ⟨d, e, hd, he, hfault⟩ | ⟨p, q, hp, hq, hcontents⟩
  · exact .inr ⟨d, e, assemble_eq_error_of_read hd, assemble_eq_error_of_read he, hfault.1⟩
  · rcases (a.endAlike_assemble_of_contents hp hq hcontents).exists_error_or_ok with
      ⟨d, e, hd, he, hfault⟩ | ⟨image, _, himage, himage', rfl⟩
    · exact .inr ⟨d, e, hd, he, hfault.1⟩
    · exact .inl ⟨image, himage, himage'⟩

/-- A source with every freedom of layout and spelling: blank lines in front and between, comments,
tabs, integers in hexadecimal and with leading zeros. -/
def spacedSource : String :=
  "\n // count down\n\n  MOV %RA ,0x0010\n\n$top :\t// again\n SUB %RA,0001\n\tPUSH $top\n \n\n"

def plainSource : String := "MOV %RA, 16\n$top:\nSUB %RA, 1\nPUSH $top\n"

def spelledAlike (file source other : String) : Except Diagnostic Bool := do
  let tokens ← Token.ofSource file source
  let others ← Token.ofSource file other
  return skeleton tokens = skeleton others

theorem exists_tokens_of_spelledAlike {file source other : String}
    (h : spelledAlike file source other = .ok true) :
    ∃ tokens others, Token.ofSource file source = .ok tokens ∧
      Token.ofSource file other = .ok others ∧ skeleton tokens = skeleton others := by
  obtain ⟨tokens, htokens, hrest⟩ := bind_eq_ok_iff.mp h
  obtain ⟨others, hothers, hend⟩ := bind_eq_ok_iff.mp hrest
  exact ⟨tokens, others, htokens, hothers, of_decide_eq_true (Except.ok.inj hend)⟩

theorem assemble_of_skeleton_spacedSource :
    (∃ image, default.assemble spacedSource = .ok image ∧
      default.assemble plainSource = .ok image ∧ image.bytes.length = 32) ∧
    ∃ d e, default.assemble (spacedSource ++ "JMP $ end // nowhere\n") = .error d ∧
      default.assemble (plainSource ++ "JMP $end\n") = .error e ∧
      e.cause = .undeclaredLabel "end" ∧ d.cause.SameVariant e.cause := by
  constructor
  · have halike : spelledAlike "<input>" spacedSource plainSource = .ok true := by
      decide +kernel
    obtain ⟨tokens, others, htokens, hothers, hskeleton⟩ := exists_tokens_of_spelledAlike halike
    have himage : (do
        let image ← default.assemble plainSource
        return image.bytes.length) = Except.ok 32 := by decide +kernel
    obtain ⟨image, hplain, hlength⟩ := bind_eq_ok_iff.mp himage
    rcases assemble_of_skeleton default htokens hothers hskeleton with
      ⟨image', hspaced, hsame⟩ | ⟨d, e, -, he, -⟩
    · rw [hsame] at hplain
      cases hplain
      exact ⟨image, hspaced, hsame, Except.ok.inj hlength⟩
    · rw [he] at hplain
      cases hplain
  · have halike : spelledAlike "<input>" (spacedSource ++ "JMP $ end // nowhere\n")
        (plainSource ++ "JMP $end\n") = .ok true := by
      decide +kernel
    obtain ⟨tokens, others, htokens, hothers, hskeleton⟩ := exists_tokens_of_spelledAlike halike
    have hfault : default.assemble (plainSource ++ "JMP $end\n") =
        .error ⟨⟨"<input>", ⟨5, 5⟩⟩, .undeclaredLabel "end"⟩ := by decide +kernel
    rcases assemble_of_skeleton default htokens hothers hskeleton with
      ⟨image, -, hsame⟩ | ⟨d, e, hd, he, hvariant⟩
    · rw [hsame] at hfault
      cases hfault
    · rw [he] at hfault
      cases hfault
      exact ⟨d, _, hd, he, rfl, hvariant⟩

end FourVin.Assembler
