import FourVin.Proofs.Binary.ReadBack
import FourVin.InstructionSet
import FourVin.Program
import FourVin.Token.Rule

/-!
Declarations without their locations. The written form of a program depends on this content alone,
and every declaration list can be laid out again from its content: `locateFrom` gives each part the
location that it has in the written form.

A content is spellable when some source text denotes it. Labels are then words that are not
mnemonics, mnemonics are those of the instruction set, and floats are those that literals denote.
-/
namespace FourVin

/-- A declaration without locations. -/
inductive Content where
  | label (name : String)
  | instruction (mnemonic : String) (values : List Value)
  deriving DecidableEq

namespace Instruction

def values (ins : Instruction) : List Value := ins.operands.map Operand.value

def content (ins : Instruction) : Content := .instruction ins.mnemonic ins.values

end Instruction

def Declaration.content : Declaration → Content
  | label name _ => .label name
  | instruction ins => .instruction ins.mnemonic ins.values

def Program.contents (p : Program) : List Content := p.declarations.map Declaration.content

theorem Declaration.label_mem_contents_iff {ds : List Declaration} {name : String} :
    .label name ∈ ds.map content ↔ ∃ location, .label name location ∈ ds := by
  rw [List.mem_map]
  constructor
  · rintro ⟨d, hd, hcontent⟩
    cases d with
    | label other location =>
      cases hcontent
      exact ⟨location, hd⟩
    | instruction ins => cases hcontent
  · rintro ⟨location, hd⟩
    exact ⟨_, hd, rfl⟩

namespace Program

@[simp] theorem instructions_label (name : String) (location : Location)
    (rest : List Declaration) :
    (mk (.label name location :: rest)).instructions = (mk rest).instructions := rfl

@[simp] theorem instructions_instruction (ins : Instruction) (rest : List Declaration) :
    (mk (.instruction ins :: rest)).instructions = ins :: (mk rest).instructions := rfl

theorem instructions_append (front behind : List Declaration) :
    (mk (front ++ behind)).instructions = (mk front).instructions ++ (mk behind).instructions :=
  List.filterMap_append

theorem contents_of_append {p : Program} {front behind : List Declaration}
    (h : p.declarations = front ++ behind) :
    p.contents = front.map Declaration.content ++ behind.map Declaration.content := by
  rw [contents, h, List.map_append]

theorem mem_instructions_iff {p : Program} {ins : Instruction} :
    ins ∈ p.instructions ↔ .instruction ins ∈ p.declarations := by
  unfold instructions
  rw [List.mem_filterMap]
  constructor
  · rintro ⟨d, hd, hins⟩
    cases d with
    | label name location => cases hins
    | instruction other =>
      cases hins
      exact hd
  · intro h
    exact ⟨_, h, rfl⟩

theorem mem_contents_of_mem_instructions {p : Program} {ins : Instruction}
    (h : ins ∈ p.instructions) : .instruction ins.mnemonic ins.values ∈ p.contents :=
  List.mem_map_of_mem (f := Declaration.content) (mem_instructions_iff.mp h)

end Program

namespace Content

def valuesText (separator : String) : List Value → String
  | [] => ""
  | v :: rest => separator ++ v.text ++ valuesText ", " rest

def text : Content → String
  | label name => "$" ++ name ++ ":"
  | instruction mnemonic values => mnemonic ++ valuesText " " values

def listText (contents : List Content) : String :=
  String.join (contents.map fun c => c.text ++ "\n")

theorem valuesText_operands (separator : String) (operands : List Operand) :
    valuesText separator (operands.map Operand.value) =
      Instruction.operandsText separator operands := by
  induction operands generalizing separator with
  | nil => rfl
  | cons op rest ih => simp [valuesText, Instruction.operandsText, ih, Operand.text]

theorem text_content (d : Declaration) : d.content.text = d.text := by
  cases d with
  | label name location => rfl
  | instruction ins =>
    simp [Declaration.content, text, Declaration.text, Instruction.text, Instruction.values,
      valuesText_operands]

theorem listText_contents (p : Program) : listText p.contents = p.text := by
  simp [listText, Program.contents, Program.text, Function.comp_def, text_content]

theorem toList_listText_cons (c : Content) (rest : List Content) :
    (listText (c :: rest)).toList = c.text.toList ++ '\n' :: (listText rest).toList := by
  simp [listText]

def locateOperands (file : String) (p : Position) (separator : String) :
    List Value → List Operand
  | [] => []
  | v :: rest =>
    ⟨v, ⟨file, p.advance separator.toList⟩⟩ ::
      locateOperands file ((p.advance separator.toList).advance v.text.toList) ", " rest

def locate (file : String) (p : Position) : Content → Declaration
  | label name => .label name ⟨file, p⟩
  | instruction mnemonic values =>
    .instruction ⟨mnemonic, locateOperands file (p.advance mnemonic.toList) " " values, ⟨file, p⟩⟩

def locateFrom (file : String) (p : Position) : List Content → List Declaration
  | [] => []
  | c :: rest =>
    c.locate file p :: locateFrom file (p.advance (c.text.toList ++ ['\n'])) rest

theorem values_locateOperands (file : String) (p : Position) (separator : String)
    (values : List Value) :
    (locateOperands file p separator values).map Operand.value = values := by
  induction values generalizing p separator with
  | nil => rfl
  | cons v rest ih => simp [locateOperands, ih]

@[simp] theorem content_locate (file : String) (p : Position) (c : Content) :
    (c.locate file p).content = c := by
  cases c with
  | label name => rfl
  | instruction mnemonic values =>
    simp [locate, Declaration.content, Instruction.values, values_locateOperands]

theorem contents_locateFrom (file : String) (p : Position) (contents : List Content) :
    (locateFrom file p contents).map Declaration.content = contents := by
  induction contents generalizing p with
  | nil => rfl
  | cons c rest ih => simp [locateFrom, ih]

end Content

def IsWord (word : String) : Prop :=
  ∃ c cs, word.toList = c :: cs ∧ c.isAlpha = true ∧ ∀ d ∈ cs, Rule.isWordChar d = true

/-- A word that can name a label. -/
def IsName (word : String) : Prop := IsWord word ∧ InstructionSet.isMnemonic word = false

/-- A property of values and their positions holds of the first value and of those behind it. -/
theorem Value.forall_position_cons {P : Nat → Value → Prop} {position : Nat} {v : Value}
    {rest : List Value} :
    (∀ i w, (v :: rest)[i]? = some w → P (position + i) w) ↔
      P position v ∧ ∀ i w, rest[i]? = some w → P (position + 1 + i) w := by
  constructor
  · intro h
    refine ⟨h 0 v rfl, ?_⟩
    intro i w hw
    have hnext := h (i + 1) w hw
    rwa [show position + (i + 1) = position + 1 + i by omega] at hnext
  · intro h i w hw
    obtain ⟨hfirst, hrest⟩ := h
    cases i with
    | zero =>
      obtain rfl : v = w := by simpa using hw
      exact hfirst
    | succ i =>
      rw [show position + (i + 1) = position + 1 + i by omega]
      exact hrest i w hw

def Value.Spellable : Value → Prop
  | register _ => True
  | integer _ => True
  | float x => x.Denotable
  | label name => IsName name

def Content.Spellable : Content → Prop
  | label name => IsName name
  | instruction mnemonic values =>
    InstructionSet.isMnemonic mnemonic = true ∧ ∀ v ∈ values, v.Spellable

theorem isWord_of_isMnemonic {word : String} (h : InstructionSet.isMnemonic word = true) :
    IsWord word := by
  obtain ⟨definition, hlookup⟩ := Option.isSome_iff_exists.mp h
  have hletters : ∀ d ∈ InstructionSet.definitions,
      d.mnemonic.toList ≠ [] ∧ d.mnemonic.toList.all Char.isAlpha = true := by decide
  obtain ⟨hnil, halpha⟩ := hletters definition (InstructionSet.mem_definitions_of_lookup hlookup)
  rw [InstructionSet.lookup_mnemonic hlookup] at hnil halpha
  rw [List.all_eq_true] at halpha
  obtain ⟨c, cs, hword⟩ := List.exists_cons_of_ne_nil hnil
  rw [hword] at halpha
  refine ⟨c, cs, hword, halpha c (by simp), ?_⟩
  intro d hd
  simp [Rule.isWordChar, Char.isAlphanum, halpha d (by simp [hd])]

end FourVin
