import CommandLang.CommandLine.Session

/-! The program: reads the catalog and standard input, and prints what the session says. -/

namespace CommandLang.CommandLine

def faultOfCode (code : UInt32) (text : String) : FileFault :=
  if code = 20 || code = -20 then .notDirectory
  else if code = 21 || code = -21 then .directory
  else if code = 36 || code = -36 then .nameTooLong
  else .other text

def readCatalog (path : String) : IO (Except FileFault ByteArray) := do
  try
    return .ok (← IO.FS.readBinFile path)
  catch
    | .noFileOrDirectory .. => return .error .missing
    | failure@(.inappropriateType _ code _) | failure@(.invalidArgument _ code _) =>
      return .error (faultOfCode code (toString failure))
    | failure => return .error (.other (toString failure))

/-- All bytes of a stream, behind those read already. -/
partial def readStream (stream : IO.FS.Stream) (start : ByteArray) : IO ByteArray := do
  let chunk ← stream.read 65536
  if chunk.isEmpty then return start else readStream stream (start ++ chunk)

def emit (outcome : Outcome) : IO UInt32 := do
  IO.print outcome.out
  IO.eprint outcome.err
  return UInt32.ofNat outcome.code

end CommandLang.CommandLine

open CommandLang CommandLine in
def main (arguments : List String) : IO UInt32 := do
  let program := (← IO.appPath).fileName.getD ""
  match Task.read program arguments with
  | .error outcome => emit outcome
  | .ok task =>
    match task.codec (← readCatalog task.path) with
    | .error outcome => emit outcome
    | .ok codec =>
      IO.print (opening codec task.listActions)
      if task.listActions then return 0
      emit (answerLines codec (Text.byteLines (← readStream (← IO.getStdin) .empty)))
