import KeywordTagger.Command.Run

/-!
The command line: the arguments, the files of the system and its standard streams.
-/

namespace KeywordTagger.Command

def fileError : IO.Error → FileError
  | .noFileOrDirectory .. => .notFound
  | .permissionDenied name code details =>
    if code = 13 then .permissionDenied
    else .other (toString (IO.Error.permissionDenied name code details))
  | .inappropriateType _ code _ => if code = 20 then .notADirectory else .isADirectory
  | .invalidArgument name code details =>
    if code = 36 then .nameTooLong else .other (toString (IO.Error.invalidArgument name code details))
  | e => .other (toString e)

/-- Runs an operation of the system and keeps its failure. -/
def guarded {α : Type} (x : IO α) : IO (Except FileError α) := do
  return (← x.toBaseIO).mapError fileError

partial def readAll (s : IO.FS.Stream) (bytes : ByteArray) : IO Inflow := do
  match ← guarded (s.read 65536) with
  | .error e => return { bytes, fault := some e }
  | .ok more => if more.isEmpty then return { bytes } else readAll s (bytes ++ more)

/-- The system that the program runs on. It runs the workers of a pool itself and keeps their lines
in no memory of a fixed size, so both are always to be had. -/
def hostSystem (stdin stdout : IO.FS.Stream) : System IO IO.FS.Stream IO.FS.Stream where
  stdin
  stdout
  openSource path := guarded do return .ofHandle (← IO.FS.Handle.mk path .read)
  createSink path := guarded do return .ofHandle (← IO.FS.Handle.mk path .write)
  read s := readAll s .empty
  write s bytes := guarded do
    s.write bytes
    s.flush
  startWorkers _ := return .ok ()
  allocate _ := return true

end KeywordTagger.Command

def main (args : List String) : IO UInt32 := do
  let sys := KeywordTagger.Command.hostSystem (← IO.getStdin) (← IO.getStdout)
  let outcome ← KeywordTagger.Command.run sys args
  IO.eprint outcome.report
  return outcome.code.toUInt32
