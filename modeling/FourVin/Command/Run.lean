import FourVin.Command.Arguments
import FourVin.Command.Directory
import FourVin.Command.ListingText
import FourVin.Journal

/-!
What the command does. A run reads its input, and the text of the input decides all that follows:
what is printed, and which file is written. `plan` is that decision, and `run` carries it out on a
directory. A file is written only at the end of a run in which everything else has succeeded.
-/
namespace FourVin.Command

def versionText : String := "vinasm 0.1.0\n"

def usageText : String := "vinasm [-a] [-d] [-e] [-v]... [-o FILE] INPUT\n"

def outputExtension : String := "4vin"

namespace Arguments

def level (a : Arguments) : Level :=
  match a.verbosity with
  | 0 => .error
  | 1 => .warn
  | 2 => .info
  | _ => .debug

def assembler (a : Arguments) : Assembler := ⟨a.input, if a.alignNullary then .aligned else .legacy⟩

def outputPath (a : Arguments) : String :=
  a.output.getD (Path.withExtension a.input outputExtension)

def announcement (a : Arguments) : Record :=
  let shown (b : Bool) : String := if b then "true" else "false"
  ⟨.debug, .command, "Arguments:\n\tVerbosity: " ++ a.level.name ++
    "\n\tExpand Only: " ++ shown a.expandOnly ++ "\n\tAlign Nullary: " ++ shown a.alignNullary ++
    "\n\tOutfile: " ++ a.output.getD "None" ++ "\n\tInfile: " ++ a.input⟩

end Arguments

inductive Ending where
  | succeeded
  | failed
  /-- The text goes to the output file. -/
  | write (text : String) (words : Nat)
  deriving DecidableEq

structure Plan where
  records : List Record
  stdout : String
  ending : Ending
  deriving DecidableEq

def failure (message : String) : Record := ⟨.error, .command, message⟩

def planFor (a : Arguments) (source : String) : Plan :=
  if a.expandOnly then
    let records := Journal.expand a.assembler source
    match a.assembler.expand source with
    | .ok p => ⟨records, p.text, .succeeded⟩
    | .error d => ⟨records ++ [failure (d.render source)], "", .failed⟩
  else
    let records := Journal.assemble a.assembler source
    match a.assembler.assemble source with
    | .ok image =>
      ⟨records, if a.printListing then listingText image else "",
        .write (image.hex ++ "\n") image.words.length⟩
    | .error d => ⟨records ++ [failure (d.render source)], "", .failed⟩

def plan (a : Arguments) (input : Except FileFault String) : Plan :=
  match input with
  | .ok source => planFor a source
  | .error fault =>
    ⟨[failure ("fatal: unable to read input file `" ++ a.input ++ "`: " ++ fault.message)], "",
      .failed⟩

def writeFailure (a : Arguments) (fault : FileFault) : Record :=
  failure ("fatal: unable to write to output file `" ++ a.outputPath ++ "`: " ++ fault.message)

def writeSuccess (a : Arguments) (words : Nat) : Record :=
  ⟨.info, .command, "wrote " ++ words.repr ++ " word(s) to `" ++ a.outputPath ++ "`"⟩

structure Result where
  exit : UInt32
  stdout : String
  stderr : String
  deriving DecidableEq

/-- A directory after a run, with the result of the run unless its arguments were rejected. -/
structure Outcome where
  directory : Directory
  result : Option Result

def recordLine (r : Record) : String :=
  "[" ++ r.target ++ "][" ++ r.level.name ++ "] " ++ r.message ++ "\n"

def recordsText (a : Arguments) (records : List Record) : String :=
  String.join ((Journal.upTo a.level (a.announcement :: records)).map recordLine)

def runWith (d : Directory) (a : Arguments) : Outcome :=
  let p := plan a (d.readText a.input)
  let result (exit : UInt32) (records : List Record) : Option Result :=
    some ⟨exit, p.stdout, recordsText a (p.records ++ records)⟩
  match p.ending with
  | .succeeded => ⟨d, result 0 []⟩
  | .failed => ⟨d, result 1 []⟩
  | .write text words =>
    match d.writeText a.outputPath text with
    | .ok written => ⟨written, result 0 [writeSuccess a words]⟩
    | .error fault => ⟨d, result 1 [writeFailure a fault]⟩

def run (d : Directory) (arguments : List String) : Outcome :=
  match Request.ofArguments arguments with
  | .assemble a => runWith d a
  | .version => ⟨d, some ⟨0, versionText, ""⟩⟩
  | .help => ⟨d, some ⟨0, usageText, ""⟩⟩
  | .rejected => ⟨d, none⟩

end FourVin.Command
