import RightLinear.CommandLine.Execute

namespace RightLinear.CommandLine

/-- The number of a system error, which comes with either sign, depending on the call. -/
def errorNumber (code : UInt32) : Nat := min code.toNat (0 - code).toNat

def FileFault.ofError : IO.Error → FileFault
  | .noFileOrDirectory .. => .notFound
  | .inappropriateType _ code _ =>
    if errorNumber code = 21 then .isADirectory else .notADirectory
  | e@(.invalidArgument _ code _) =>
    if errorNumber code = 36 then .nameTooLong else .other (toString e)
  | e => .other (toString e)

def machineFiles : FileSystem IO where
  read path := do
    match ← (IO.FS.readBinFile path).toBaseIO with
    | .ok bytes => return .ok bytes
    | .error e => return .error (.ofError e)
  write path bytes := do
    match ← (IO.FS.writeBinFile path bytes).toBaseIO with
    | .ok () => return .ok ()
    | .error e => return .error (.ofError e)

end RightLinear.CommandLine

def main (args : List String) : IO UInt32 := do
  let report ← RightLinear.CommandLine.execute RightLinear.CommandLine.machineFiles args
  IO.print report.stdout
  if report.exitCode = 2 then IO.eprint RightLinear.CommandLine.usageText
  if let some text := report.failure then IO.eprint text
  return report.exitCode.toUInt32
