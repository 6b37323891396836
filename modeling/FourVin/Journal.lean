import FourVin.Assembler
import FourVin.Text.Quoted

/-!
The journal of an assembler run: what each stage reports, in order, up to the fault that stops it.
A record has a level, and a reader sees the records up to the level of their choice. The journal is
a function of the source like the image itself; nothing is written while assembling.
-/
namespace FourVin

/-- Levels of detail, the most important first. -/
inductive Level where
  | error
  | warn
  | info
  | debug
  | trace
  deriving DecidableEq

namespace Level

def name : Level → String
  | error => "ERROR"
  | warn => "WARN"
  | info => "INFO"
  | debug => "DEBUG"
  | trace => "TRACE"

def rank : Level → Nat
  | error => 1
  | warn => 2
  | info => 3
  | debug => 4
  | trace => 5

end Level

inductive Reporter where
  | command
  | assembler
  | tokens
  | symbols
  | expansion
  | image
  deriving DecidableEq

def Reporter.target : Reporter → String
  | command => "vinasm"
  | assembler => "vinasm::assembler"
  | tokens => "vinasm::assembler::lexer"
  | symbols => "vinasm::assembler::typecheck"
  | expansion => "vinasm::assembler::microcode"
  | image => "vinasm::assembler::codegen"

structure Record where
  level : Level
  reporter : Reporter
  message : String
  deriving DecidableEq

def Record.target (r : Record) : String := r.reporter.target

namespace Journal

def upTo (level : Level) (records : List Record) : List Record :=
  records.filter fun r => r.level.rank ≤ level.rank

/-- The number of tokens, once the whole text has been scanned. -/
def tokens (file source : String) : List Record :=
  match Token.ofSource file source with
  | .ok tokens => [⟨.trace, .tokens, file ++ ": " ++ tokens.length.repr ++ " token(s)"⟩]
  | .error _ => []

/-- Every instruction that is expanded, up to the first whose snippet cannot be read. -/
def expansion : List Declaration → List Record
  | [] => []
  | .label _ _ :: rest => expansion rest
  | .instruction ins :: rest =>
    match ins.snippet? with
    | none => expansion rest
    | some snippet =>
      let message :=
        ins.location.text ++ ": expanding `" ++ ins.text ++ "` into " ++ Text.quoted snippet
      let behind :=
        match ins.expand with
        | .ok _ => expansion rest
        | .error _ => []
      ⟨.debug, .expansion, message⟩ :: tokens ins.snippetFile snippet ++ behind

def expand (a : Assembler) (source : String) : List Record :=
  let count (p : Program) : String := p.declarations.length.repr
  let checked (p : Program) (s : Symbols) : List Record :=
    ⟨.debug, .symbols, "typecheck: " ++ s.labels.size.repr ++ " label(s), " ++ s.uses.length.repr ++
      " use(s)"⟩ :: expansion p.declarations ++
    match p.expand with
    | .ok p =>
      [⟨.debug, .assembler, a.file ++ ": " ++ count p ++ " declaration(s) after expansion"⟩]
    | .error _ => []
  let read (p : Program) : List Record :=
    ⟨.debug, .assembler, a.file ++ ": parsed " ++ count p ++ " declaration(s)"⟩ ::
    match Symbols.ofProgram p with
    | .ok s => checked p s
    | .error _ => []
  tokens a.file source ++
    match Program.ofSource a.file source with
    | .ok p => read p
    | .error _ => []

def byteList (bytes : List UInt8) : String :=
  "[" ++ ", ".intercalate (bytes.map fun b => String.ofList (Text.hexFixed 2 b.toNat)) ++ "]"

def drafted (before after : Draft) : Declaration → Record
  | .label name _ => ⟨.debug, .image, "label " ++ name ++ " at " ++ before.address.toNat.repr⟩
  | .instruction ins =>
    let offset := before.bytes.size
    let bytes := (after.bytes.extract offset after.bytes.size).toList
    ⟨.trace, .image, String.ofList (Text.hexPadded 6 offset) ++ ": " ++ ins.text ++ " => " ++
      byteList bytes⟩

def drafting (layout : Layout) (d : Draft) : List Declaration → List Record
  | [] =>
    match d.finish with
    | .ok image =>
      [⟨.info, .image, "generated " ++ image.bytes.length.repr ++ " byte(s), " ++
        image.labels.size.repr ++ " label(s)"⟩]
    | .error _ => []
  | declaration :: rest =>
    match d.add layout declaration with
    | .ok after => drafted d after declaration :: drafting layout after rest
    | .error _ => []

def assemble (a : Assembler) (source : String) : List Record :=
  expand a source ++
    match a.expand source with
    | .ok p => drafting a.layout .empty p.declarations
    | .error _ => []

end Journal

end FourVin
