import FourVin.Proofs.Assembler.Checked
import FourVin.Proofs.Image.Renaming

/-!
The names of labels do not matter. A program with its labels renamed, each to a name that a source
can spell and no two to one, passes the checks when the program does. The snippets of its
instructions then hold the new names and read back as before, so that both programs expand in step,
and their images differ in names only.
-/
namespace FourVin

namespace Content

variable {f : String → String}

theorem standsFor?_rename (f : String → String) (c : Content) :
    (c.rename f).standsFor? = c.standsFor?.map (List.map (rename f)) := by
  cases c with
  | label name => rfl
  | instruction mnemonic values =>
    match values with
    | [] => rfl
    | [v] =>
      simp only [rename, standsFor?, List.map_cons, List.map_nil]
      split
      · rfl
      · split <;> rfl
    | v :: w :: rest => rfl

theorem primitives_rename (f : String → String) (c : Content) :
    (c.rename f).primitives = c.primitives.map (rename f) := by
  unfold primitives
  rw [standsFor?_rename]
  cases c.standsFor? with
  | none => rfl
  | some contents => rfl

theorem flatMap_primitives_rename (f : String → String) (contents : List Content) :
    (contents.map (rename f)).flatMap primitives =
      (contents.flatMap primitives).map (rename f) := by
  simp only [List.flatMap_map, List.map_flatMap, primitives_rename]

/-- What a content stands for has no names but those of the content. -/
theorem mem_names_of_mem_primitives {c d : Content} {name : String} (hd : d ∈ c.primitives)
    (hname : name ∈ d.names) : name ∈ c.names := by
  rw [names, List.mem_append] at hname ⊢
  rcases hname with hdeclared | hused
  · left
    rw [← declared?_primitives, List.mem_filterMap]
    exact ⟨d, hd, by simpa using hdeclared⟩
  · right
    rw [← used_primitives, List.mem_flatMap]
    exact ⟨d, hd, hused⟩

theorem Spellable.rename {c : Content} (h : c.Spellable)
    (hf : ∀ name ∈ c.names, IsName (f name)) : (c.rename f).Spellable := by
  cases c with
  | label name => exact hf name (by simp [names, declared?])
  | instruction mnemonic values =>
    refine ⟨h.1, List.forall_mem_map.mpr ?_⟩
    intro v hv
    cases v with
    | label name => exact hf name (List.mem_append_right _ (List.mem_filterMap.mpr ⟨_, hv, rfl⟩))
    | _ => exact h.2 _ hv

/-- Renamed contents that pass the checks are as complete as before. -/
theorem Complete.rename {contents : List Content} (h : Complete contents)
    (hf : ∀ c ∈ contents, ∀ name ∈ c.names, IsName (f name))
    (hchecked : WellFormed (contents.map (rename f))) : Complete (contents.map (rename f)) where
  nonempty := by simpa using h.nonempty
  spellable := List.forall_mem_map.mpr fun c hc => (h.spellable c hc).rename (hf c hc)
  wellFormed := hchecked

end Content

namespace Program

variable {file source : String} {f : String → String} {p : Program}

theorem exists_image (h : Content.Complete p.contents) (layout : Layout) :
    ∃ q, p.expand = .ok q ∧ Image.ofProgram layout q =
      .ok (Content.image layout (p.contents.flatMap Content.primitives)) := by
  obtain ⟨q, hexpand, hcontents⟩ := contents_expand h
  have hq : Content.WellFormed q.contents := hcontents ▸ h.primitives.wellFormed
  exact ⟨q, hexpand, hcontents ▸ Image.ofProgram_of_wellFormed hq layout⟩

theorem mem_labelNames {c : Content} (hc : c ∈ p.contents) {name : String}
    (hname : name ∈ c.names) : name ∈ p.labelNames :=
  List.mem_flatMap.mpr ⟨c, hc, hname⟩

/-- What passes the checks under its own names and under others has the same image, but for the
names. -/
theorem exists_image_rename {s t : Symbols} (hread : ofSource file source = .ok p)
    (hf : Set.InjOn f {name | name ∈ p.labelNames})
    (hnames : ∀ name ∈ p.labelNames, IsName (f name)) (hs : Symbols.ofProgram p = .ok s)
    (ht : Symbols.ofProgram (p.rename f) = .ok t) (layout : Layout) :
    ∃ q r image other, p.expand = .ok q ∧ Image.ofProgram layout q = .ok image ∧
      (p.rename f).expand = .ok r ∧ Image.ofProgram layout r = .ok other ∧
      image.Renamed f other := by
  have hp : Content.Complete p.contents := complete_of_checked hread hs
  have hwellFormed := (Symbols.exists_ofProgram_iff _).mp ⟨t, ht⟩
  -- Expansion reads the new names as text, which is why they have to be spellable.
  have hrenamed : Content.Complete (p.rename f).contents := by
    rw [contents_rename] at hwellFormed ⊢
    exact hp.rename (fun c hc name hname => hnames name (mem_labelNames hc hname)) hwellFormed
  obtain ⟨q, hexpand, himage⟩ := exists_image hp layout
  obtain ⟨r, hexpand', himage'⟩ := exists_image hrenamed layout
  refine ⟨q, r, _, _, hexpand, himage, hexpand', himage', ?_⟩
  rw [contents_rename, Content.flatMap_primitives_rename]
  refine Content.renamed_image hf layout ?_
  intro d hd name hname
  obtain ⟨c, hc, hmem⟩ := List.mem_flatMap.mp hd
  exact mem_labelNames hc (Content.mem_names_of_mem_primitives hmem hname)

/-- Renaming the labels of a program keeps the verdict of the checks, with the kind and the place of
its fault. A program that passes them expands and is encoded as before, with the names changed in
its label table. -/
theorem image_rename (hread : ofSource file source = .ok p)
    (hf : Set.InjOn f {name | name ∈ p.labelNames})
    (hnames : ∀ name ∈ p.labelNames, IsName (f name)) (layout : Layout) :
    ((∃ s t, Symbols.ofProgram p = .ok s ∧ Symbols.ofProgram (p.rename f) = .ok t) ∨
      ∃ d e, Symbols.ofProgram p = .error d ∧ Symbols.ofProgram (p.rename f) = .error e ∧
        d.cause.SameVariant e.cause ∧ d.location = e.location) ∧
    ∀ s, Symbols.ofProgram p = .ok s →
      ∃ q r image other, p.expand = .ok q ∧ Image.ofProgram layout q = .ok image ∧
        (p.rename f).expand = .ok r ∧ Image.ofProgram layout r = .ok other ∧
        image.Renamed f other := by
  rcases (Symbols.endAlike_ofProgram_rename hf).exists_error_or_ok with
    ⟨d, e, hd, he, hvariant, hlocation⟩ | ⟨s, t, hs, ht, -⟩
  · refine ⟨.inr ⟨d, e, hd, he, hvariant, hlocation⟩, ?_⟩
    intro s hs
    rw [hd] at hs
    cases hs
  · exact ⟨.inl ⟨s, t, hs, ht⟩, fun s hs => exists_image_rename hread hf hnames hs ht layout⟩

/-- A label is declared before it is used, and another is used before it is declared, by an
instruction that stands for others. -/
def crossedSource : String := "$top:\nPUSH $end\nJMP $top\n$end:\nSTOP\n"

def crossed (name : String) : String := if name = "top" then "end" else "RSP"

theorem exists_image_crossedSource :
    ∃ p s q image, ofSource "crossed" crossedSource = .ok p ∧ Symbols.ofProgram p = .ok s ∧
      p.expand = .ok q ∧ Image.ofProgram .legacy q = .ok image ∧
      p.labelNames = ["top", "end", "top", "end"] ∧ image.bytes.length = 29 ∧
      image.labels = ⟨[("top", 0), ("end", 6)]⟩ := by
  have hsource : (do
      let p ← ofSource "crossed" crossedSource
      let _ ← Symbols.ofProgram p
      let q ← p.expand
      let image ← Image.ofProgram .legacy q
      return (p.labelNames, image.bytes.length, image.labels)) =
      Except.ok (["top", "end", "top", "end"], 29, ⟨[("top", 0), ("end", 6)]⟩) := by
    decide +kernel
  obtain ⟨p, hread, hrest⟩ := bind_eq_ok_iff.mp hsource
  obtain ⟨s, hs, hrest⟩ := bind_eq_ok_iff.mp hrest
  obtain ⟨q, hexpand, hrest⟩ := bind_eq_ok_iff.mp hrest
  obtain ⟨image, himage, hend⟩ := bind_eq_ok_iff.mp hrest
  obtain ⟨hnames, hfacts⟩ := Prod.mk.inj (Except.ok.inj hend)
  obtain ⟨hlength, hlabels⟩ := Prod.mk.inj hfacts
  exact ⟨p, s, q, image, hread, hs, hexpand, himage, hnames, hlength, hlabels⟩

theorem image_rename_crossedSource :
    ∃ p q r image other, ofSource "crossed" crossedSource = .ok p ∧
      p.labelNames = ["top", "end", "top", "end"] ∧
      p.expand = .ok q ∧ Image.ofProgram .legacy q = .ok image ∧
      (p.rename crossed).expand = .ok r ∧ Image.ofProgram .legacy r = .ok other ∧
      image.Renamed crossed other ∧ image.bytes.length = 29 ∧
      image.labels = ⟨[("top", 0), ("end", 6)]⟩ ∧ other.labels = ⟨[("end", 0), ("RSP", 6)]⟩ := by
  obtain ⟨p, s, q, image, hread, hs, hexpand, himage, hlabelNames, hlength, hlabels⟩ :=
    exists_image_crossedSource
  have hf : Set.InjOn crossed {name | name ∈ p.labelNames} := by
    have hapart : ∀ a ∈ ["top", "end", "top", "end"], ∀ b ∈ ["top", "end", "top", "end"],
        crossed a = crossed b → a = b := by decide
    rw [hlabelNames]
    exact fun a ha b hb => hapart a ha b hb
  have hnames : ∀ name ∈ p.labelNames, IsName (crossed name) := by
    intro name hname
    unfold crossed
    split
    · exact ⟨⟨'e', ['n', 'd'], rfl, rfl, List.all_eq_true.mp rfl⟩, rfl⟩
    · exact ⟨⟨'R', ['S', 'P'], rfl, rfl, List.all_eq_true.mp rfl⟩, rfl⟩
  obtain ⟨q', r, image', other, hexpand', himage', hexpanded, hother, hrenamed⟩ :=
    (image_rename hread hf hnames .legacy).2 s hs
  cases hexpand.symm.trans hexpand'
  cases himage.symm.trans himage'
  refine ⟨p, q, r, image, other, hread, hlabelNames, hexpand, himage, hexpanded, hother, hrenamed,
    hlength, hlabels, ?_⟩
  rw [hrenamed.labels, hlabels]
  decide

end Program

end FourVin
