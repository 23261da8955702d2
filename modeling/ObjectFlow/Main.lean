/-
  File:      ObjectFlow/Main.lean
  Subject:   THE PROGRAM: reads files, runs the command, prints what it says.
-/
import ObjectFlow.Command.Run

namespace ObjectFlow

/-- How the program is called. -/
def usage : String :=
  "Usage: oir [OPTIONS] <FILENAME>\n\n"
    ++ "Options:\n"
    ++ "  --dump-cfg                  Dump the control flow graph of every method\n"
    ++ "  --analyze <ANALYSIS_NAME>   constprop, livevar, deadcode, inter-constprop, cha, pta\n"
    ++ "                              or taint\n"
    ++ "  --entry <SIGNATURE>         Signature of the entry method\n"
    ++ "  --worklist <WORKLIST>       fifo, lifo or rpo\n"
    ++ "  --cs <CS>                   ci, k-call, k-obj or k-type\n"
    ++ "  --heap <HEAP>               allocation-site or type\n"
    ++ "  --order <ORDER>             fifo or lifo\n"
    ++ "  --pta-config <FILE>         Options of the pointer analysis\n"
    ++ "  --taint-config <FILE>       Sources, sinks and transfers of the taint analysis\n"
    ++ "  -h, --help                  Print help\n"
    ++ "  -V, --version               Print version\n"

def CommandError.message : CommandError → String
  | .unknownArgument => "error: unexpected argument found\n\n" ++ usage
  | .invalidValue => "error: an option has no value or none it can have\n\n" ++ usage
  | .unreadableValue => "error: the value of an option cannot be read\n\n" ++ usage
  | .givenTwice => "error: an option is given twice\n\n" ++ usage
  | .unneededValue => "error: a flag is given a value\n\n" ++ usage
  | .missingFile => "error: no file is named\n\n" ++ usage
  | .help => usage
  | .version => "oir 0.1.0\n"

/-- The text of a file, or why it cannot be read. -/
def readText (file : String) : IO (Except String String) := do
  match ← (IO.FS.readFile file).toBaseIO with
  | .ok text => return .ok text
  | .error e => return .error (toString e)

/-- Runs a command on the files it names. -/
def Command.execute (c : Command) : IO UInt32 := do
  match ← readText c.file with
  | .error reason =>
    IO.eprintln ("Failed to read input file: " ++ reason)
    return 1
  | .ok source =>
    let texts ← (c.optionsFile.toList ++ c.rulesFile.toList).mapM fun file => do
      return (file, ← readText file)
    let files : Files := fun file => (texts.lookup file).getD (.error "not read")
    let (ok, said) := c.run files source { destination := .stream }
    let (out, err) := said.delivered
    IO.print out
    IO.eprint err
    return if ok then 0 else 1

end ObjectFlow

def main (arguments : List String) : IO UInt32 := do
  match ObjectFlow.Command.ofArguments arguments with
  | .ok c => c.execute
  | .error e =>
    if e = .help ∨ e = .version then
      IO.print e.message
      return 0
    else
      IO.eprint e.message
      return 2
