import KeywordTagger.Command.Help
import KeywordTagger.Command.Options
import KeywordTagger.Stream
import KeywordTagger.WordList

/-!
What the command does on any system. The dictionary is opened, read and compiled first; then the
input is opened, then the output is created, then the workers and the memory for their lines are
got, and only then is the input read. A step that fails ends the run, and what earlier steps did
stays.
-/

namespace KeywordTagger.Command

/-- What the command needs of the system. A source is something opened for reading and a sink
something opened for writing. -/
structure System (m : Type → Type) (source sink : Type) where
  stdin : source
  stdout : sink
  /-- Opens a file, or a directory, for reading. -/
  openSource : String → m (Except FileError source)
  /-- Opens a file for writing and empties it, or makes an empty one. -/
  createSink : String → m (Except FileError sink)
  read : source → m Inflow
  /-- Writes as much as there is room for. -/
  write : sink → ByteArray → m (Except FileError Unit)
  /-- Starts so many workers, or tells in the words of the system why it cannot. -/
  startWorkers : Nat → m (Except String Unit)
  /-- Gets so many bytes of memory, if they are to be had. -/
  allocate : Nat → m Bool

/-- What breaks a run off without an error being handed on. -/
inductive Crash where
  | workersRefused (reason : String)
  /-- No memory can be so large. -/
  | batchTooLarge
  | batchRefused (bytes : Nat)
deriving DecidableEq

namespace Crash

def message : Crash → String
  | workersRefused reason => "failed to spawn thread: " ++ reason
  | batchTooLarge => "capacity overflow"
  | batchRefused bytes => "memory allocation of " ++ toString bytes ++ " bytes failed"

/-- A program that is aborted ends by signal 6, which a shell tells as 128 + 6. -/
def code : Crash → Nat
  | workersRefused _ => 101
  | batchTooLarge => 101
  | batchRefused _ => 134

end Crash

inductive Failure where
  | openDictionary (path : String) (cause : FileError)
  | readDictionary (cause : FileError)
  | compile (cause : TaggerError)
  | openInput (path : String) (cause : FileError)
  | createOutput (path : String) (cause : FileError)
  | crash (cause : Crash)
  | readInput (cause : FileError)
  | tag (cause : TaggerError)
  | writeOutput (cause : FileError)
deriving DecidableEq

namespace Failure

/-- What failed, and the cause where it is told apart from that. -/
def chain : Failure → String × Option String
  | openDictionary path cause => ("failed to open dictionary: " ++ path, some cause.message)
  | readDictionary cause => (cause.message, none)
  | compile cause => ("failed to build the automaton", some cause.message)
  | openInput path cause => ("failed to open input: " ++ path, some cause.message)
  | createOutput path cause => ("failed to create output: " ++ path, some cause.message)
  | crash cause => (cause.message, none)
  | readInput cause => (cause.message, none)
  | tag cause => (cause.message, none)
  | writeOutput cause => (cause.message, none)

def report (f : Failure) : String :=
  match f, f.chain with
  | crash _, (message, _) => message ++ "\n"
  | _, (message, none) => "Error: " ++ message ++ "\n"
  | _, (message, some cause) => "Error: " ++ message ++ "\n\nCaused by:\n    " ++ cause ++ "\n"

def code : Failure → Nat
  | crash cause => cause.code
  | _ => 1

end Failure

inductive Outcome where
  | done
  | usage (error : UsageError)
  | failed (failure : Failure)
deriving DecidableEq

namespace Outcome

def code : Outcome → Nat
  | done => 0
  | failed f => f.code
  | usage _ => 2

def report : Outcome → String
  | done => ""
  | failed f => f.report
  | usage e => "error: " ++ e.message ++ "\n"

end Outcome

/-- The bytes that a line takes in a batch, apart from its own. -/
def lineHandleSize : Nat := 24

/-- The most bytes that can be asked for at once. -/
def allocationLimit : Nat := 9223372036854775807

section

variable {m : Type → Type} [Monad m] {source sink : Type}

/-- A step of the run whose failure ends it. -/
def attempt {ε α : Type} (wrap : ε → Failure) (x : m (Except ε α)) : ExceptT Failure m α :=
  ExceptT.mk do return (← x).mapError wrap

def loadAutomaton (sys : System m source sink) (o : Options) : ExceptT Failure m Automaton := do
  let file ← attempt (.openDictionary o.dictionary) (sys.openSource o.dictionary)
  let inflow ← sys.read file
  let words ← attempt .readDictionary (pure (WordList.ofInflow inflow))
  attempt .compile (pure (Automaton.compile { rule := o.rule } words))

def openInput (sys : System m source sink) (o : Options) : ExceptT Failure m source :=
  match o.input with
  | some path => attempt (.openInput path) (sys.openSource path)
  | none => pure sys.stdin

def createOutput (sys : System m source sink) (o : Options) : ExceptT Failure m sink :=
  match o.output with
  | some path => attempt (.createOutput path) (sys.createSink path)
  | none => pure sys.stdout

/-- Gets the memory for the lines of a batch. -/
def reserve (sys : System m source sink) (lines : Nat) : m (Except Crash Unit) := do
  let bytes := lineHandleSize * lines
  if allocationLimit < bytes then return .error .batchTooLarge
  else if ← sys.allocate bytes then return .ok ()
  else return .error (.batchRefused bytes)

/-- Gets what a pool needs, if there is to be one. -/
def preparePool (sys : System m source sink) (o : Options) : ExceptT Failure m Unit := do
  if o.threads = 0 then return ()
  attempt (fun reason => .crash (.workersRefused reason)) (sys.startWorkers o.threads)
  attempt .crash (reserve sys (max o.chunkSize 1))

/-- Tags what comes in. What was tagged before a fault is still written, but whether that succeeds
is not told any more: one failure ends the run, and where both are met it is taken to be the
fault. -/
def tagInput (sys : System m source sink) (o : Options) (a : Automaton) (input : source)
    (output : sink) : ExceptT Failure m Unit := do
  let inflow ← sys.read input
  let written ← attempt .tag (pure (a.tagInflow o.threads o.chunkSize inflow))
  let result ← sys.write output written.output
  match inflow.fault with
  | some e => throw (.readInput e)
  | none => attempt .writeOutput (pure result)

def tag (sys : System m source sink) (o : Options) : ExceptT Failure m Unit := do
  let automaton ← loadAutomaton sys o
  let input ← openInput sys o
  let output ← createOutput sys o
  preparePool sys o
  tagInput sys o automaton input output

def run (sys : System m source sink) (args : List String) : m Outcome := do
  match parse args with
  | .error e => return .usage e
  | .ok .help =>
    -- The request is answered even where the help cannot be written.
    let _ ← sys.write sys.stdout helpText.toUTF8
    return .done
  | .ok (.tag o) =>
    match ← (tag sys o).run with
    | .ok () => return .done
    | .error f => return .failed f

end

end KeywordTagger.Command
