import KeywordTagger.Command.Run

/-!
A directory tree held as a value, in which the command can be run. A path is walked from the working
directory part by part; a path or a part of it that is too long leads nowhere. A file that was opened
is known by its place, so it is read as it is at the time of reading, and two paths to one place are
one file. The standard streams are no files of the tree: the input is a string of bytes of its own,
and so is what is printed. Any step may be refused, and reading and writing may break off anywhere,
for reasons that lie outside the tree.
-/

namespace KeywordTagger.Command

inductive Entry where
  | file (contents : ByteArray)
  | directory

/-- The names from the top of the tree down to a place. -/
abbrev Place := List String

/-- What goes wrong for reasons that lie outside the tree: rights that are missing, a device that is
full or fails, want of workers or of memory. -/
structure Faults where
  /-- Going on from a directory. -/
  enter : Place → Option FileError := fun _ => none
  openSource : Place → Option FileError := fun _ => none
  createSink : Place → Option FileError := fun _ => none
  /-- How many bytes can be read before a fault. No place stands for the standard input. -/
  read : Option Place → Option (Nat × FileError) := fun _ => none
  /-- How many bytes there is room for. No place stands for the standard output. -/
  write : Option Place → Option (Nat × FileError) := fun _ => none
  startWorkers : Nat → Option String := fun _ => none
  /-- Whether so many bytes are more than there are. -/
  allocate : Nat → Bool := fun _ => false

/-- The tree below its top, the standard streams and what goes wrong. -/
structure Workspace where
  entries : List (Place × Entry) := []
  working : Place := []
  stdin : ByteArray := .empty
  stdout : ByteArray := .empty
  faults : Faults := {}

namespace Workspace

/-- What stands at a place. The top is a directory. -/
def entry? (w : Workspace) (place : Place) : Option Entry :=
  if place = [] then some .directory
  else (w.entries.find? fun e => e.1 = place).map (·.2)

/-- Puts a file at a place, over the one there. -/
def putFile (w : Workspace) (place : Place) (contents : ByteArray) : Workspace :=
  if w.entries.any (fun e => e.1 = place) then
    { w with entries :=
        w.entries.map fun e => if e.1 = place then (place, .file contents) else e }
  else { w with entries := w.entries ++ [(place, .file contents)] }

/-- A path as parts between slashes, and whether it starts at the top. -/
def parts (path : String) : Bool × List String :=
  (path.toList.head? = some '/', (path.splitOn "/").filter (· ≠ ""))

/-- Whether a path can only lead to a directory. -/
def endsInSlash (path : String) : Bool := path.toList.getLast? = some '/'

def partLimit : Nat := 255

def pathLimit : Nat := 4095

/-- A result, unless there is a fault. -/
def permit {α : Type} (fault : Option FileError) (a : α) : Except FileError α :=
  match fault with
  | some e => .error e
  | none => .ok a

/-- Goes from a place, which must be a directory, to the place that a part of a path names. -/
def enter (w : Workspace) (place : Place) (part : String) : Except FileError Place :=
  match w.entry? place with
  | none => .error .notFound
  | some (.file _) => .error .notADirectory
  | some .directory => do
    let here ← permit (w.faults.enter place) place
    if part = "." then .ok here
    else if part = ".." then .ok here.dropLast
    else if partLimit < part.utf8ByteSize then .error .nameTooLong
    else .ok (here ++ [part])

def origin (w : Workspace) (path : String) : Place :=
  if (parts path).1 then [] else w.working

/-- Goes along the parts of a path, which all but the last must name directories. -/
def walk (w : Workspace) (path : String) (parts : List String) : Except FileError Place :=
  if pathLimit < path.utf8ByteSize then .error .nameTooLong
  else parts.foldlM w.enter (w.origin path)

def openSource (w : Workspace) (path : String) : Except FileError Place := do
  let place ← w.walk path (parts path).2
  match w.entry? place with
  | none => .error .notFound
  | some (.file _) =>
    if endsInSlash path then .error .notADirectory else permit (w.faults.openSource place) place
  | some .directory => permit (w.faults.openSource place) place

/-- Empties the file at a path or makes one there. A path that ends in a slash is refused before its
last part is looked at. -/
def createSink (w : Workspace) (path : String) : Except FileError (Place × Workspace) := do
  if endsInSlash path then
    let _ ← w.walk path ((parts path).2.dropLast ++ ["."])
    .error .isADirectory
  else
    let place ← w.walk path (parts path).2
    match w.entry? place with
    | some .directory => .error .isADirectory
    | _ => permit (w.faults.createSink place) (place, w.putFile place .empty)

/-- What the file at a place holds. -/
def read (w : Workspace) (place : Place) : Except FileError ByteArray :=
  match w.entry? place with
  | some (.file contents) => .ok contents
  | some .directory => .error .isADirectory
  | none => .error .notFound

/-- What a source holds; no place stands for the standard input. -/
def text (w : Workspace) : Option Place → Except FileError ByteArray
  | some place => w.read place
  | none => .ok w.stdin

/-- What comes in from a source. -/
def inflow (w : Workspace) (source : Option Place) : Inflow :=
  match w.text source with
  | .ok bytes => .ofBytes bytes (w.faults.read source)
  | .error e => { bytes := .empty, fault := some e }

/-- Puts bytes behind those of a file, or behind those printed; no place stands for the standard
output. -/
def append (w : Workspace) (bytes : ByteArray) : Option Place → Except FileError Workspace
  | some place => do return w.putFile place ((← w.read place) ++ bytes)
  | none => .ok { w with stdout := w.stdout ++ bytes }

/-- The first of some bytes that there is room for, and the fault if those are not all. -/
def fit (bytes : ByteArray) : Option (Nat × FileError) → ByteArray × Except FileError Unit
  | some (n, e) => if n < bytes.size then (bytes.extract 0 n, .error e) else (bytes, .ok ())
  | none => (bytes, .ok ())

def write (w : Workspace) (sink : Option Place) (bytes : ByteArray) :
    Except FileError Unit × Workspace :=
  let (kept, result) := fit bytes (w.faults.write sink)
  match w.append kept sink with
  | .ok after => (result, after)
  | .error e => (.error e, w)

def system : System (StateM Workspace) (Option Place) (Option Place) where
  stdin := none
  stdout := none
  openSource path := return (← get).openSource path |>.map some
  createSink path := do
    match (← get).createSink path with
    | .ok (place, w) => set w; return .ok (some place)
    | .error e => return .error e
  read source := return (← get).inflow source
  write sink bytes := modifyGet fun w => w.write sink bytes
  startWorkers n := do
    match (← get).faults.startWorkers n with
    | some reason => return .error reason
    | none => return .ok ()
  allocate n := return !(← get).faults.allocate n

def run (w : Workspace) (args : List String) : Outcome × Workspace :=
  Command.run system args w

/-- The files in the working directory that were not there before or hold something else. -/
def changes (before after : Workspace) : List (String × ByteArray) :=
  after.entries.filterMap fun (place, entry) =>
    match entry with
    | .directory => none
    | .file contents =>
      if place.dropLast ≠ after.working then none
      else
        match before.entry? place with
        | some (.file old) =>
          if old.data = contents.data then none else place.getLast?.map (·, contents)
        | _ => place.getLast?.map (·, contents)

end Workspace

end KeywordTagger.Command
