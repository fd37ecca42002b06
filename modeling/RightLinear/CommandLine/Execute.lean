import RightLinear.Batch.Process
import RightLinear.CommandLine.Arguments
import RightLinear.CommandLine.Files

namespace RightLinear.CommandLine

structure Report where
  exitCode : UInt8 := 0
  stdout : String := ""
  failure : Option String := none
  deriving DecidableEq

def programName : String := "regalg"

def versionText : String := programName ++ " 0.1.0\n"

def usageText : String := "Usage: " ++ programName ++ " [OPTIONS] [INPUT] [OUTPUT]\n"

def helpText : String :=
  "Evaluate grammar test cases and write the resulting DFAs\n\n"
  ++ usageText
  ++ "\nArguments:\n"
  ++ "  [INPUT]   Test cases to read [default: input.txt]\n"
  ++ "  [OUTPUT]  Where to write the rendered automata [default: output.txt]\n\n"
  ++ "Options:\n"
  ++ "  -h, --help     Print help\n"
  ++ "  -V, --version  Print version\n"

def failed (undertaking cause : String) : Report where
  exitCode := 1
  failure := some ("Error: failed to " ++ undertaking ++ "\n\nCaused by:\n    " ++ cause ++ "\n")

/-- Reads a document, processes it and writes the results. -/
def processFile {m : Type → Type} [Monad m] (fs : FileSystem m) (p : Paths) : m Report := do
  match (← fs.read p.input).bind textOfBytes with
  | .error fault => return failed ("read input file `" ++ p.input ++ "`") fault.message
  | .ok document =>
    match (Batch.process {} document).result with
    | .error e => return failed ("process `" ++ p.input ++ "`") e.message
    | .ok output =>
      match ← fs.write p.output output.toUTF8 with
      | .error fault => return failed ("write output file `" ++ p.output ++ "`") fault.message
      | .ok () => return {}

def execute {m : Type → Type} [Monad m] (fs : FileSystem m) (args : List String) : m Report :=
  match Invocation.ofArguments [] args with
  | .version => return { stdout := versionText }
  | .help => return { stdout := helpText }
  | .badUsage => return { exitCode := 2 }
  | .process paths => processFile fs paths

end RightLinear.CommandLine
