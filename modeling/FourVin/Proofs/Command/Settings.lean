import FourVin.Command.Arguments
import FourVin.Proofs.Outcome

/-!
What arguments ask for. `Spells` says which settings arguments spell, one behind the other: letters
may share a dash, the value of `-o` stands behind it or in the next argument, and two dashes make
inputs of all that follows. A run is asked for exactly when the settings name one input and no
setting is repeated but the level of detail, which counts.
-/
namespace FourVin.Command

inductive Setting where
  | input (file : String)
  /-- The option `-o`, which may lack its value. -/
  | output (file : Option String)
  | verbose
  | expandOnly
  | alignNullary
  | printListing
  deriving DecidableEq

namespace Setting

def ofLetter? : Char → Option Setting
  | 'v' => some verbose
  | 'e' => some expandOnly
  | 'a' => some alignNullary
  | 'd' => some printListing
  | _ => none

def AreLetters (letters : List Char) (flags : List Setting) : Prop :=
  letters.map ofLetter? = flags.map some

def input? : Setting → Option String
  | input file => some file
  | _ => none

def output? : Setting → Option (Option String)
  | output file => some file
  | _ => none

end Setting

/-- An argument with something behind a dash is no name of a file. -/
def isOption (argument : String) : Bool :=
  match argument.toList with
  | '-' :: _ :: _ => true
  | _ => false

theorem isOption_cases {argument : String} (h : isOption argument = true) :
    argument = "--" ∨ (∃ c name, argument.toList = '-' :: '-' :: c :: name) ∨
      ∃ c letters, argument.toList = '-' :: c :: letters ∧ c ≠ '-' := by
  unfold isOption at h
  split at h
  · next c letters heq =>
    by_cases hc : c = '-'
    · subst hc
      cases letters with
      | nil => exact .inl (String.toList_inj.mp heq)
      | cons c name => exact .inr (.inl ⟨c, name, heq⟩)
    · exact .inr (.inr ⟨c, letters, heq, hc⟩)
  · cases h

inductive Spells : List String → List Setting → Prop
  | nil : Spells [] []
  | input {argument : String} {rest : List String} {settings : List Setting} :
      isOption argument = false → Spells rest settings →
      Spells (argument :: rest) (.input argument :: settings)
  | letters {argument : String} {rest : List String} {letters : List Char}
      {flags settings : List Setting} :
      argument.toList = '-' :: letters → letters ≠ [] → Setting.AreLetters letters flags →
      Spells rest settings → Spells (argument :: rest) (flags ++ settings)
  /-- The value of `-o` is the rest of its argument, less equals signs in front of it. -/
  | attached {argument : String} {rest : List String} {letters value : List Char}
      {flags settings : List Setting} :
      argument.toList = '-' :: (letters ++ 'o' :: value) → value ≠ [] →
      Setting.AreLetters letters flags → Spells rest settings →
      Spells (argument :: rest)
        (flags ++ .output (some (String.ofList (value.dropWhile (· = '=')))) :: settings)
  /-- The value of `-o` is the next argument. -/
  | next {argument file : String} {rest : List String} {letters : List Char}
      {flags settings : List Setting} :
      argument.toList = '-' :: (letters ++ ['o']) → Setting.AreLetters letters flags →
      isOption file = false → Spells rest settings →
      Spells (argument :: file :: rest) (flags ++ .output (some file) :: settings)
  /-- The value of `-o` is missing, since an option is not taken for it. -/
  | missing {argument : String} {rest : List String} {letters : List Char}
      {flags settings : List Setting} :
      argument.toList = '-' :: (letters ++ ['o']) → Setting.AreLetters letters flags →
      (∀ next ∈ rest.head?, isOption next = true) → Spells rest settings →
      Spells (argument :: rest) (flags ++ .output none :: settings)
  | long {argument : String} {rest : List String} {name : List Char} {settings : List Setting} :
      argument.toList = '-' :: '-' :: name → Tally.longName argument.toList = "align-nullary" →
      Spells rest settings → Spells (argument :: rest) (.alignNullary :: settings)
  | inputs (files : List String) : Spells ("--" :: files) (files.map .input)

structure Arguments.GivenBy (a : Arguments) (settings : List Setting) : Prop where
  input : settings.filterMap Setting.input? = [a.input]
  output : settings.filterMap Setting.output? = a.output.toList.map some
  verbosity : settings.count .verbose = a.verbosity
  expandOnly : settings.count .expandOnly = a.expandOnly.toNat
  alignNullary : settings.count .alignNullary = a.alignNullary.toNat
  printListing : settings.count .printListing = a.printListing.toNat

namespace Tally

def take (t : Tally) : Setting → Except Stop Tally
  | .input file => t.addInput file
  | .output file => .ok { t with outputs := t.outputs + 1, output := file.or t.output }
  | .verbose => t.addFlag 'v'
  | .expandOnly => t.addFlag 'e'
  | .alignNullary => t.addFlag 'a'
  | .printListing => t.addFlag 'd'

theorem addFlag_of_letter (t : Tally) {c : Char} {s : Setting} (h : Setting.ofLetter? c = some s) :
    t.addFlag c = t.take s := by
  unfold Setting.ofLetter? at h
  split at h <;> cases h <;> rfl

theorem addShort_cons_of_letter (t : Tally) {c : Char} {s : Setting} (rest : List Char)
    (h : Setting.ofLetter? c = some s) :
    t.addShort (c :: rest) = t.take s >>= fun t => t.addShort rest := by
  have hc : c ≠ 'o' := by
    rintro rfl
    cases h
  rw [addShort, addFlag_of_letter t h]
  exact hc

theorem addShort_append (t : Tally) {letters : List Char} {flags : List Setting}
    (h : Setting.AreLetters letters flags) (behind : List Char) :
    t.addShort (letters ++ behind) = flags.foldlM take t >>= fun t => t.addShort behind := by
  induction letters generalizing t flags with
  | nil =>
    obtain rfl : flags = [] := by simpa [Setting.AreLetters] using h.symm
    rfl
  | cons c rest ih =>
    obtain ⟨s, others, rfl, hs, hothers⟩ := List.map_eq_cons_iff.mp h.symm
    rw [List.cons_append, addShort_cons_of_letter t _ hs.symm, List.foldlM_cons]
    simp only [ih _ hothers.symm, bind_assoc]

theorem exists_letter_of_addFlag {t t' : Tally} {c : Char} (h : t.addFlag c = .ok t') :
    ∃ s, Setting.ofLetter? c = some s := by
  unfold addFlag at h
  split at h
  case h_1 | h_2 | h_3 | h_4 => exact ⟨_, rfl⟩
  all_goals cases h

/-- Combined options are letters, and behind them perhaps `-o`. -/
theorem exists_letters_of_addShort {t : Tally} {letters : List Char} {next : Tally × Bool}
    (h : t.addShort letters = .ok next) :
    ∃ front flags behind, letters = front ++ behind ∧ Setting.AreLetters front flags ∧
      (behind = [] ∨ ∃ value, behind = 'o' :: value) := by
  induction letters generalizing t with
  | nil => exact ⟨[], [], [], rfl, rfl, .inl rfl⟩
  | cons c rest ih =>
    by_cases ho : c = 'o'
    · exact ⟨[], [], c :: rest, rfl, rfl, .inr ⟨rest, by rw [ho]⟩⟩
    · rw [addShort] at h
      · obtain ⟨t, hflag, h⟩ := bind_eq_ok_iff.mp h
        obtain ⟨s, hs⟩ := exists_letter_of_addFlag hflag
        obtain ⟨front, flags, behind, rfl, hflags, hbehind⟩ := ih h
        refine ⟨c :: front, s :: flags, behind, rfl, ?_, hbehind⟩
        rw [Setting.AreLetters, List.map_cons, List.map_cons, hs, hflags]
      · exact ho

section

variable (t : Tally) {argument : String} (rest : List String) (waiting : Bool)

theorem addFrom_file (h : isOption argument = false) :
    t.addFrom waiting (argument :: rest) =
      if waiting then { t with output := some argument }.addFrom false rest
      else t.addInput argument >>= fun t => t.addFrom false rest := by
  unfold isOption at h
  rw [addFrom]
  split at h
  · cases h
  · next hfile =>
    split
    · next heq => exact absurd heq (hfile _ _)
    · next heq => exact absurd heq (hfile _ _)
    · next heq => exact absurd heq (hfile _ _)
    · rfl

theorem addFrom_short {c : Char} {letters : List Char}
    (h : argument.toList = '-' :: c :: letters) (hc : c ≠ '-') :
    t.addFrom waiting (argument :: rest) =
      t.addShort (c :: letters) >>= fun next => next.1.addFrom next.2 rest := by
  rw [addFrom, h]
  simp [hc]

theorem addFrom_long {c : Char} {name : List Char}
    (h : argument.toList = '-' :: '-' :: c :: name) :
    t.addFrom waiting (argument :: rest) =
      t.addLong argument.toList >>= fun t => t.addFrom false rest := by
  rw [addFrom, h]
  rfl

/-- Letters are taken one by one, and then what stands behind them. -/
theorem addFrom_letters {letters behind : List Char} {flags settings : List Setting}
    (h : argument.toList = '-' :: (letters ++ behind)) (hflags : Setting.AreLetters letters flags)
    (hne : letters ++ behind ≠ []) (hdash : behind.head? ≠ some '-')
    (hbehind : ∀ t : Tally, (t.addShort behind >>= fun next => next.1.addFrom next.2 rest) =
      settings.foldlM take t) :
    t.addFrom waiting (argument :: rest) = (flags ++ settings).foldlM take t := by
  obtain ⟨c, others, hcons⟩ := List.exists_cons_of_ne_nil hne
  have hc : c ≠ '-' := by
    rintro rfl
    cases letters with
    | nil => exact hdash (by simpa using congrArg List.head? hcons)
    | cons c rest =>
      cases hcons
      obtain ⟨s, others, rfl, hs, -⟩ := List.map_eq_cons_iff.mp hflags.symm
      cases hs
  rw [addFrom_short t rest waiting (hcons ▸ h) hc, ← hcons, addShort_append t hflags, bind_assoc,
    List.foldlM_append]
  simp only [hbehind]

end

theorem addFrom_option (t : Tally) {argument : String} (rest : List String) (waiting : Bool)
    (h : isOption argument = true) :
    t.addFrom waiting (argument :: rest) = t.addFrom false (argument :: rest) := by
  obtain rfl | ⟨c, name, hname⟩ | ⟨c, letters, hletters, hc⟩ := isOption_cases h
  · rfl
  · rw [addFrom_long _ _ _ hname, addFrom_long _ _ _ hname]
  · rw [addFrom_short _ _ _ hletters hc, addFrom_short _ _ _ hletters hc]

theorem addInputs_eq_foldlM (t : Tally) (files : List String) :
    t.addInputs files = (files.map Setting.input).foldlM take t := by
  induction files generalizing t with
  | nil => rfl
  | cons file rest ih =>
    rw [addInputs, List.map_cons, List.foldlM_cons]
    simp only [ih]
    rfl

theorem addLong_eq_ok_iff {t t' : Tally} {argument : List Char} :
    t.addLong argument = .ok t' ↔
      longName argument = "align-nullary" ∧ t.take .alignNullary = .ok t' := by
  unfold addLong
  split
  · next h => simp [h, take, addFlag]
  · next h => simp [h]
  · next h => simp [h]
  · next hother _ _ => simpa using fun h => absurd h hother

end Tally

/-- Reading arguments is taking the settings that they spell. -/
theorem Spells.addFrom_eq {arguments : List String} {settings : List Setting}
    (h : Spells arguments settings) (t : Tally) :
    t.addFrom false arguments = settings.foldlM Tally.take t := by
  induction h generalizing t with
  | nil => rfl
  | input hfile _ ih =>
    rw [Tally.addFrom_file _ _ _ hfile, List.foldlM_cons]
    simp only [ih]
    rfl
  | @letters _ _ letters flags _ hletters hne hflags _ ih =>
    rw [← List.append_nil letters] at hletters hne
    exact Tally.addFrom_letters _ _ _ hletters hflags hne (by simp) ih
  | attached hletters hvalue hflags _ ih =>
    refine Tally.addFrom_letters _ _ _ hletters hflags (by simp) (by simp) fun t => ?_
    rw [Tally.addShort, if_neg (mt List.isEmpty_iff.mp hvalue), List.foldlM_cons]
    exact ih _
  | next hletters hflags hfile _ ih =>
    refine Tally.addFrom_letters _ _ _ hletters hflags (by simp) (by simp) fun t => ?_
    rw [Tally.addShort, if_pos List.isEmpty_nil, List.foldlM_cons]
    exact (Tally.addFrom_file _ _ _ hfile).trans (ih _)
  | @missing _ rest _ _ _ hletters hflags hoption _ ih =>
    refine Tally.addFrom_letters _ _ _ hletters hflags (by simp) (by simp) fun t => ?_
    rw [Tally.addShort, if_pos List.isEmpty_nil, List.foldlM_cons]
    refine Eq.trans ?_ (ih _)
    cases rest with
    | nil => rfl
    | cons next rest => exact Tally.addFrom_option _ _ _ (hoption next rfl)
  | @long argument _ name _ hdashes hname _ ih =>
    have hlong : t.addLong argument.toList = t.take .alignNullary :=
      Tally.addLong_eq_ok_iff.mpr ⟨hname, rfl⟩
    cases name with
    | nil => simp [hdashes, Tally.longName] at hname
    | cons c name =>
      rw [Tally.addFrom_long _ _ _ hdashes, hlong, List.foldlM_cons]
      simp only [ih]
  | inputs files => exact t.addInputs_eq_foldlM files

namespace Tally

section

variable {t t' : Tally} {argument : String} {rest : List String}

theorem exists_spells_short {c : Char} {letters : List Char}
    (hletters : argument.toList = '-' :: c :: letters)
    (h : t.addShort (c :: letters) >>= (fun next => next.1.addFrom next.2 rest) = .ok t')
    (ih : ∀ (t : Tally) (later : List String), later.length ≤ rest.length →
      t.addFrom false later = .ok t' → ∃ settings, Spells later settings) :
    ∃ settings, Spells (argument :: rest) settings := by
  obtain ⟨next, hnext, -⟩ := bind_eq_ok_iff.mp h
  obtain ⟨front, flags, behind, hsplit, hflags, hbehind⟩ := exists_letters_of_addShort hnext
  rw [hsplit] at hletters h
  rw [addShort_append t hflags, bind_assoc] at h
  obtain ⟨t, -, h⟩ := bind_eq_ok_iff.mp h
  rcases hbehind with rfl | ⟨value, rfl⟩
  · obtain ⟨settings, hsettings⟩ := ih _ rest (Nat.le_refl _) h
    rw [List.append_nil] at hletters hsplit
    exact ⟨_, .letters hletters (by simp [← hsplit]) hflags hsettings⟩
  · rw [addShort] at h
    by_cases hvalue : value = []
    · subst hvalue
      rw [if_pos List.isEmpty_nil, ok_bind] at h
      cases rest with
      | nil => exact ⟨_, .missing hletters hflags (by simp) .nil⟩
      | cons next rest =>
        cases hoption : isOption next with
        | false =>
          rw [addFrom_file _ _ _ hoption] at h
          obtain ⟨settings, hsettings⟩ := ih _ rest (by simp) h
          exact ⟨_, .next hletters hflags hoption hsettings⟩
        | true =>
          rw [addFrom_option _ _ _ hoption] at h
          obtain ⟨settings, hsettings⟩ := ih _ (next :: rest) (Nat.le_refl _) h
          exact ⟨_, .missing hletters hflags (by simpa using hoption) hsettings⟩
    · rw [if_neg (mt List.isEmpty_iff.mp hvalue), ok_bind] at h
      obtain ⟨settings, hsettings⟩ := ih _ rest (Nat.le_refl _) h
      exact ⟨_, .attached hletters hvalue hflags hsettings⟩

/-- Arguments that are read to their end spell settings. -/
theorem exists_spells {arguments : List String} (h : t.addFrom false arguments = .ok t') :
    ∃ settings, Spells arguments settings := by
  -- The value of an option takes a second argument, so the induction is on the number of them.
  induction hn : arguments.length using Nat.strongRecOn generalizing t arguments with
  | ind n ih =>
    subst hn
    cases arguments with
    | nil => exact ⟨[], .nil⟩
    | cons argument rest =>
      have ih : ∀ (t : Tally) (later : List String), later.length ≤ rest.length →
          t.addFrom false later = .ok t' → ∃ settings, Spells later settings :=
        fun t later hlater h => ih later.length (Nat.lt_succ_of_le hlater) h rfl
      cases hoption : isOption argument with
      | false =>
        rw [addFrom_file _ _ _ hoption] at h
        obtain ⟨t, -, h⟩ := bind_eq_ok_iff.mp h
        obtain ⟨settings, hsettings⟩ := ih t rest (Nat.le_refl _) h
        exact ⟨_, .input hoption hsettings⟩
      | true =>
        obtain rfl | ⟨c, name, hdashes⟩ | ⟨c, letters, hletters, hc⟩ := isOption_cases hoption
        · exact ⟨_, .inputs rest⟩
        · rw [addFrom_long _ _ _ hdashes] at h
          obtain ⟨t, hlong, h⟩ := bind_eq_ok_iff.mp h
          obtain ⟨settings, hsettings⟩ := ih t rest (Nat.le_refl _) h
          exact ⟨_, .long hdashes (addLong_eq_ok_iff.mp hlong).1 hsettings⟩
        · rw [addFrom_short _ _ _ hletters hc] at h
          exact exists_spells_short hletters h ih

end

structure Sums (t : Tally) (settings : List Setting) (t' : Tally) : Prop where
  input : t'.input.toList = t.input.toList ++ settings.filterMap Setting.input?
  output : t'.output = (settings.filterMap Setting.output?).foldl (fun o file => file.or o) t.output
  outputs : t'.outputs = t.outputs + (settings.filterMap Setting.output?).length
  verbosity : t'.verbosity = t.verbosity + settings.count .verbose
  expands : t'.expands = t.expands + settings.count .expandOnly
  aligns : t'.aligns = t.aligns + settings.count .alignNullary
  listings : t'.listings = t.listings + settings.count .printListing

variable {t t' : Tally} {settings : List Setting}

theorem addInput_eq_ok_iff {file : String} :
    t.addInput file = .ok t' ↔ t.input = none ∧ t' = { t with input := some file } := by
  unfold addInput
  cases t.input with
  | none => simp [eq_comm]
  | some other => simp

theorem count_cons_of_eq {m n : Nat} {s : Setting} {rest : List Setting}
    (h : m = n + 1 + rest.count s) : m = n + (s :: rest).count s := by
  rw [List.count_cons_self]
  omega

/-- The sums of a whole list from those of its first setting and of the rest. -/
theorem sums_of_foldlM (h : settings.foldlM take t = .ok t') : Sums t settings t' := by
  induction settings generalizing t with
  | nil =>
    cases h
    exact ⟨by simp, rfl, rfl, rfl, rfl, rfl, rfl⟩
  | cons s rest ih =>
    rw [List.foldlM_cons] at h
    obtain ⟨next, hnext, h⟩ := bind_eq_ok_iff.mp h
    obtain ⟨hinput, houtput, houtputs, hverbosity, hexpands, haligns, hlistings⟩ := ih h
    cases s with
    | input file =>
      obtain ⟨hnone, rfl⟩ := addInput_eq_ok_iff.mp hnext
      exact ⟨by simp [hinput, hnone, Setting.input?], houtput, houtputs, hverbosity, hexpands,
        haligns, hlistings⟩
    | output file =>
      cases hnext
      exact ⟨hinput, houtput, houtputs.trans (Nat.add_right_comm ..), hverbosity, hexpands, haligns,
        hlistings⟩
    | verbose =>
      cases hnext
      exact ⟨hinput, houtput, houtputs, count_cons_of_eq hverbosity, hexpands, haligns, hlistings⟩
    | expandOnly =>
      cases hnext
      exact ⟨hinput, houtput, houtputs, hverbosity, count_cons_of_eq hexpands, haligns, hlistings⟩
    | alignNullary =>
      cases hnext
      exact ⟨hinput, houtput, houtputs, hverbosity, hexpands, count_cons_of_eq haligns, hlistings⟩
    | printListing =>
      cases hnext
      exact ⟨hinput, houtput, houtputs, hverbosity, hexpands, haligns, count_cons_of_eq hlistings⟩

theorem exists_foldlM_take
    (h : (t.input.toList ++ settings.filterMap Setting.input?).length ≤ 1) :
    ∃ t', settings.foldlM take t = .ok t' := by
  induction settings generalizing t with
  | nil => exact ⟨t, rfl⟩
  | cons s rest ih =>
    rw [List.foldlM_cons]
    cases s with
    | input file =>
      have hnone : t.input = none := by
        cases hinput : t.input with
        | none => rfl
        | some other => simp [hinput, Setting.input?] at h
      obtain ⟨t', ht'⟩ := ih (t := { t with input := some file })
        (by simpa [hnone, Setting.input?] using h)
      exact ⟨t', by simpa [take, addInput, hnone] using ht'⟩
    | _ => exact ih h

theorem eq_toNat_iff {n : Nat} {b : Bool} : n = b.toNat ↔ n ≤ 1 ∧ decide (n = 1) = b := by
  cases b <;> simp <;> omega

/-- At most one `-o`, with its value. -/
theorem outputs_iff {outputs : List (Option String)} {output : Option String} :
    outputs = output.toList.map some ↔
      outputs.foldl (fun o file => file.or o) none = output ∧ outputs.length ≤ 1 ∧
        (outputs.length = 1 → output.isSome = true) := by
  match outputs with
  | [] => cases output <;> simp
  | [none] => cases output <;> simp
  | [some file] => cases output <;> simp
  | _ :: _ :: _ => cases output <;> simp

theorem request_eq_assemble_iff {a : Arguments} :
    t.request = .assemble a ↔
      t.input = some a.input ∧
      (t.output = a.output ∧ t.outputs ≤ 1 ∧ (t.outputs = 1 → a.output.isSome = true)) ∧
      t.verbosity = a.verbosity ∧ t.expands = a.expandOnly.toNat ∧
      t.aligns = a.alignNullary.toNat ∧ t.listings = a.printListing.toNat := by
  obtain ⟨input, output, verbosity, expandOnly, alignNullary, printListing⟩ := a
  simp only [eq_toNat_iff, request]
  cases t.input with
  | none => simp
  | some file =>
    dsimp only
    split
    · simp only [Request.assemble.injEq, Arguments.mk.injEq, Option.some.injEq]
      grind
    · simp only [reduceCtorEq, Option.some.injEq]
      grind

theorem Sums.request_eq_assemble_iff {a : Arguments} (h : Sums {} settings t) :
    t.request = .assemble a ↔ a.GivenBy settings := by
  have hinput : t.input = some a.input ↔ settings.filterMap Setting.input? = [a.input] := by
    have hsum := h.input
    rw [Option.toList_none, List.nil_append] at hsum
    rw [← hsum]
    cases t.input <;> simp
  have houtput : (t.output = a.output ∧ t.outputs ≤ 1 ∧
      (t.outputs = 1 → a.output.isSome = true)) ↔
      settings.filterMap Setting.output? = a.output.toList.map some := by
    rw [outputs_iff, h.output, h.outputs, Nat.zero_add]
  rw [Tally.request_eq_assemble_iff, hinput, houtput, h.verbosity, h.expands, h.aligns, h.listings]
  simp only [Nat.zero_add]
  constructor
  · rintro ⟨hinput, houtput, hverbosity, hexpands, haligns, hlistings⟩
    exact ⟨hinput, houtput, hverbosity, hexpands, haligns, hlistings⟩
  · intro h
    exact ⟨h.input, h.output, h.verbosity, h.expandOnly, h.alignNullary, h.printListing⟩

end Tally

/-- Arguments ask for a run exactly when they spell the settings of one: a single input, at most
one output, which has a value, and no other option twice but `-v`, which counts. -/
theorem Request.ofArguments_eq_assemble_iff {arguments : List String} {a : Arguments} :
    ofArguments arguments = .assemble a ↔
      ∃ settings, Spells arguments settings ∧ a.GivenBy settings := by
  constructor
  · intro h
    unfold ofArguments at h
    split at h
    · next t ht =>
      obtain ⟨settings, hspells⟩ := Tally.exists_spells ht
      rw [hspells.addFrom_eq] at ht
      exact ⟨settings, hspells, (Tally.sums_of_foldlM ht).request_eq_assemble_iff.mp h⟩
    · next stop _ => cases stop <;> cases h
  · rintro ⟨settings, hspells, hgiven⟩
    obtain ⟨t, ht⟩ : ∃ t, settings.foldlM Tally.take {} = .ok t :=
      Tally.exists_foldlM_take (by simp [hgiven.input])
    rw [ofArguments, hspells.addFrom_eq, ht]
    exact (Tally.sums_of_foldlM ht).request_eq_assemble_iff.mpr hgiven

example : Request.ofArguments ["-veo", "loop.hex", "--align-nullary", "loop.s", "-v"] =
    .assemble ⟨"loop.s", some "loop.hex", 2, true, true, false⟩ := by decide +kernel

-- An option is no value for `-o`.
example : Request.ofArguments ["loop.s", "-o", "-e"] = .rejected := by decide +kernel

end FourVin.Command
