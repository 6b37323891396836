/-!
The arguments of the command. Short options may be combined (`-ad`), and `-o` takes its value from
the rest of its argument or from the next one. Two dashes end the options. An argument that cannot
be understood, and a request for the version or for help, count as soon as they are reached; what
is missing or given twice is found at the end.
-/
namespace FourVin.Command

structure Arguments where
  input : String
  output : Option String
  verbosity : Nat
  expandOnly : Bool
  alignNullary : Bool
  printListing : Bool
  deriving DecidableEq

inductive Request where
  | assemble (arguments : Arguments)
  | version
  | help
  | rejected
  deriving DecidableEq

/-- A request that counts before the arguments have been read to their end. -/
inductive Stop where
  | version
  | help
  | rejected
  deriving DecidableEq

def Stop.request : Stop → Request
  | version => .version
  | help => .help
  | rejected => .rejected

/-- What the arguments read so far amount to: values, and how often each option was given. -/
structure Tally where
  input : Option String := none
  output : Option String := none
  outputs : Nat := 0
  verbosity : Nat := 0
  expands : Nat := 0
  aligns : Nat := 0
  listings : Nat := 0
  deriving DecidableEq

namespace Tally

def addFlag (t : Tally) : Char → Except Stop Tally
  | 'v' => .ok { t with verbosity := t.verbosity + 1 }
  | 'e' => .ok { t with expands := t.expands + 1 }
  | 'a' => .ok { t with aligns := t.aligns + 1 }
  | 'd' => .ok { t with listings := t.listings + 1 }
  | 'V' => .error .version
  | 'h' => .error .help
  | _ => .error .rejected

/-- Adds combined short options; the result says whether a value for `-o` is still to come. -/
def addShort (t : Tally) : List Char → Except Stop (Tally × Bool)
  | [] => .ok (t, false)
  | 'o' :: value =>
    let t := { t with outputs := t.outputs + 1 }
    if value.isEmpty then .ok (t, true)
    else .ok ({ t with output := some (String.ofList (value.dropWhile (· = '='))) }, false)
  | c :: rest => do
    let t ← t.addFlag c
    t.addShort rest

/-- The name of a long option; what follows an equals sign is ignored, since none takes a value. -/
def longName (argument : List Char) : String :=
  String.ofList ((argument.dropWhile (· = '-')).takeWhile (· ≠ '='))

def addLong (t : Tally) (argument : List Char) : Except Stop Tally :=
  match longName argument with
  | "align-nullary" => .ok { t with aligns := t.aligns + 1 }
  | "version" => .error .version
  | "help" => .error .help
  | _ => .error .rejected

def addInput (t : Tally) (argument : String) : Except Stop Tally :=
  match t.input with
  | none => .ok { t with input := some argument }
  | some _ => .error .rejected

def addInputs (t : Tally) : List String → Except Stop Tally
  | [] => .ok t
  | argument :: rest => do
    let t ← t.addInput argument
    t.addInputs rest

/-- Adds arguments; `waiting` says that `-o` stands before them without its value. An argument that
looks like an option is never that value, a single dash may be. -/
def addFrom (t : Tally) (waiting : Bool) : List String → Except Stop Tally
  | [] => .ok t
  | argument :: rest =>
    match argument.toList with
    | ['-', '-'] => t.addInputs rest
    | '-' :: '-' :: name => do
      let t ← t.addLong ('-' :: '-' :: name)
      t.addFrom false rest
    | '-' :: c :: letters => do
      let (t, waiting) ← t.addShort (c :: letters)
      t.addFrom waiting rest
    | _ =>
      if waiting then { t with output := some argument }.addFrom false rest
      else do
        let t ← t.addInput argument
        t.addFrom false rest

def request (t : Tally) : Request :=
  match t.input with
  | none => .rejected
  | some input =>
    if t.outputs ≤ 1 ∧ t.expands ≤ 1 ∧ t.aligns ≤ 1 ∧ t.listings ≤ 1 ∧
        (t.outputs = 1 → t.output.isSome) then
      .assemble ⟨input, t.output, t.verbosity, t.expands = 1, t.aligns = 1, t.listings = 1⟩
    else .rejected

end Tally

def Request.ofArguments (arguments : List String) : Request :=
  match Tally.addFrom {} false arguments with
  | .ok t => t.request
  | .error stop => stop.request

end FourVin.Command
