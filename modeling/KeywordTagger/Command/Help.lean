import KeywordTagger.Command.Options

/-!
The help of the command. Every option is a row; the descriptions start in one column, two blanks
after the longest option.
-/

namespace KeywordTagger.Command

structure OptionRow where
  value : Option String := none
  text : String
  default : Option String := none

namespace OptionName

def row : OptionName → OptionRow
  | value .dictionary =>
    { value := some "DICT", text := "The dictionary file, one keyword per line" }
  | value .input => { value := some "INPUT", text := "The text to tag (default: stdin)" }
  | value .output =>
    { value := some "OUTPUT", text := "The file to write the tagged text to (default: stdout)" }
  | value .threads =>
    { value := some "N_THREADS", text := "Number of threads (0 tags on the main thread)"
      default := some "0" }
  | value .chunkSize =>
    { value := some "CHUNK_SIZE", text := "Number of lines handed to the threads at a time"
      default := some "4096" }
  | chainedFailure => { text := "Walk the whole failure chain when building failure links" }
  | help => { text := "Print help" }

/-- The option as it is typed, the long names below each other. -/
def usage (o : OptionName) : String :=
  (if o = help then "-h, --" else "    --") ++ o.text ++
  (match o.row.value with
    | some v => " <" ++ v ++ ">"
    | none => "")

def description (o : OptionName) : String :=
  o.row.text ++
  (match o.row.default with
    | some d => " [default: " ++ d ++ "]"
    | none => "")

def line (width : Nat) (o : OptionName) : String :=
  "  " ++ o.usage ++ String.ofList (List.replicate (width - o.usage.length) ' ') ++ "  " ++
    o.description ++ "\n"

end OptionName

def helpText : String :=
  let width := (OptionName.all.map fun o => o.usage.length).foldl max 0
  "A program to tag dictionary keywords in text.\n\n" ++
    "Usage: mark [OPTIONS] --dict <DICT>\n\nOptions:\n" ++
    String.join (OptionName.all.map (OptionName.line width))

end KeywordTagger.Command
