import FourVin.Command.Run

/-!
The command line. The work is in `FourVin.Command`; here files are read and written and texts are
printed.
-/
namespace FourVin

def faultOf : IO.Error → FileFault
  | .noFileOrDirectory _ code details
  | .interrupted _ code details
  | .alreadyExists _ code details
  | .invalidArgument _ code details
  | .permissionDenied _ code details
  | .resourceExhausted _ code details
  | .inappropriateType _ code details
  | .noSuchThing _ code details
  | .otherError code details
  | .resourceBusy code details
  | .resourceVanished code details
  | .unsupportedOperation code details
  | .hardwareFault code details
  | .unsatisfiedConstraints code details
  | .illegalOperation code details
  | .protocolError code details
  | .timeExpired code details => .system code.toNat details
  | .unexpectedEof | .userError _ => .notFound

def readInput (path : String) : IO (Except FileFault String) := do
  try
    let content ← IO.FS.withFile path .read fun file => file.readBinToEnd
    match String.fromUTF8? content with
    | some text => return .ok text
    | none => return .error .notText
  catch e => return .error (faultOf e)

def writeOutput (path text : String) : IO (Except FileFault Unit) := do
  try
    IO.FS.writeFile path text
    return .ok ()
  catch e => return .error (faultOf e)

def perform (a : Command.Arguments) : IO UInt32 := do
  let plan := Command.plan a (← readInput a.input)
  let report (records : List Record) : IO Unit := do
    (← IO.getStderr).putStr (Command.recordsText a (plan.records ++ records))
  (← IO.getStdout).putStr plan.stdout
  match plan.ending with
  | .succeeded =>
    report []
    return 0
  | .failed =>
    report []
    return 1
  | .write text words =>
    match ← writeOutput a.outputPath text with
    | .ok () =>
      report [Command.writeSuccess a words]
      return 0
    | .error fault =>
      report [Command.writeFailure a fault]
      return 1

end FourVin

open FourVin in
def main (arguments : List String) : IO UInt32 := do
  match Command.Request.ofArguments arguments with
  | .assemble a => perform a
  | .version =>
    (← IO.getStdout).putStr Command.versionText
    return 0
  | .help =>
    (← IO.getStdout).putStr Command.usageText
    return 0
  | .rejected =>
    (← IO.getStderr).putStr Command.usageText
    return 1
