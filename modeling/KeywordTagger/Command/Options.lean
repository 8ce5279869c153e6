import KeywordTagger.FailureLinks

/-!
The arguments of the command. An option has a long name; one that wants a value takes it after `=`
or from the next argument, which must not look like an option. Arguments are read from left to
right, each option may be given once, there are no other arguments, and a request for help is
answered as soon as it is reached, whatever follows.
-/

namespace KeywordTagger.Command

structure Options where
  dictionary : String
  input : Option String := none
  output : Option String := none
  threads : Nat := 0
  chunkSize : Nat := 4096
  rule : LinkRule := .parentOnly
deriving DecidableEq

inductive Request where
  | help
  | tag (options : Options)
deriving DecidableEq

inductive ValueOption where
  | dictionary
  | input
  | output
  | threads
  | chunkSize
deriving DecidableEq

/-- All options. -/
inductive OptionName where
  | value (option : ValueOption)
  | chainedFailure
  | help
deriving DecidableEq

namespace ValueOption

/-- The name as it is typed, without the hyphens. -/
def text : ValueOption → String
  | dictionary => "dict"
  | input => "input"
  | output => "output"
  | threads => "n-threads"
  | chunkSize => "chunk-size"

end ValueOption

namespace OptionName

def text : OptionName → String
  | value option => option.text
  | chainedFailure => "chained-failure"
  | help => "help"

/-- The options in the order of the help. -/
def all : List OptionName :=
  [.value .dictionary, .value .input, .value .output, .value .threads, .value .chunkSize,
    .chainedFailure, .help]

/-- The option with a name. Names are not abbreviated. -/
def ofText? (name : String) : Option OptionName := all.find? fun o => o.text = name

end OptionName

inductive UsageError where
  | unexpected (argument : String)
  | missingValue (option : ValueOption)
  | unwantedValue (option : OptionName)
  | badValue (option : ValueOption) (value : String)
  | repeated (option : OptionName)
  | missingDictionary
deriving DecidableEq

namespace UsageError

def message : UsageError → String
  | unexpected argument => "unexpected argument: " ++ argument
  | missingValue option => "a value is required for --" ++ option.text
  | unwantedValue option => "no value is expected for --" ++ option.text
  | badValue option value => "invalid value for --" ++ option.text ++ ": " ++ value
  | repeated option => "given more than once: --" ++ option.text
  | missingDictionary => "required, but not given: --" ++ ValueOption.dictionary.text

end UsageError

inductive Argument where
  /-- Two hyphens alone: only plain arguments follow. -/
  | separator
  /-- Two hyphens and a name, and what follows the first `=`. -/
  | long (name : String) (value : Option String)
  /-- A hyphen and at least one letter. -/
  | short (letters : List Char)
  | plain
deriving DecidableEq

namespace Argument

/-- The form of an argument. A hyphen alone is plain. -/
def ofString (s : String) : Argument :=
  match s.toList with
  | ['-', '-'] => .separator
  | '-' :: '-' :: cs =>
    match cs.dropWhile (· ≠ '=') with
    | _ :: value => .long (String.ofList (cs.takeWhile (· ≠ '='))) (some (String.ofList value))
    | [] => .long (String.ofList cs) none
  | '-' :: c :: cs => .short (c :: cs)
  | _ => .plain

end Argument

/-- The least number that is too large to be a count. -/
def countBound : Nat := 18446744073709551616

def decimal (digits : List Char) : Nat :=
  digits.foldl (fun n c => 10 * n + (c.toNat - '0'.toNat)) 0

/-- Reads a count: decimal digits, possibly after a plus sign. -/
def count? (s : String) : Option Nat :=
  let digits :=
    match s.toList with
    | '+' :: cs => cs
    | cs => cs
  if digits ≠ [] ∧ digits.all Char.isDigit ∧ decimal digits < countBound then
    some (decimal digits)
  else none

/-- Reads a path, which is any text but the empty one. -/
def path? (s : String) : Option String := if s = "" then none else some s

structure Given where
  dictionary : Option String := none
  input : Option String := none
  output : Option String := none
  threads : Option Nat := none
  chunkSize : Option Nat := none
  chained : Bool := false

namespace Given

/-- Reads the value of an option that was not given before. -/
def readValue {α : Type} (option : ValueOption) (text : String) (before : Option α)
    (read? : String → Option α) : Except UsageError (Option α) :=
  match read? text, before with
  | none, _ => .error (.badValue option text)
  | some _, some _ => .error (.repeated (.value option))
  | some v, none => .ok (some v)

def set (g : Given) (option : ValueOption) (text : String) : Except UsageError Given :=
  match option with
  | .dictionary => (readValue option text g.dictionary path?).map ({ g with dictionary := · })
  | .input => (readValue option text g.input path?).map ({ g with input := · })
  | .output => (readValue option text g.output path?).map ({ g with output := · })
  | .threads => (readValue option text g.threads count?).map ({ g with threads := · })
  | .chunkSize => (readValue option text g.chunkSize count?).map ({ g with chunkSize := · })

/-- The request that the values make. Only the dictionary has no default. -/
def request (g : Given) : Except UsageError Request :=
  match g.dictionary with
  | none => .error .missingDictionary
  | some dictionary =>
    .ok (.tag {
      dictionary
      input := g.input
      output := g.output
      threads := g.threads.getD 0
      chunkSize := g.chunkSize.getD 4096
      rule := if g.chained then .chained else .parentOnly })

end Given

def parseFrom (g : Given) : List String → Except UsageError Request
  | [] => g.request
  | arg :: args =>
    match Argument.ofString arg with
    | .plain => .error (.unexpected arg)
    | .separator =>
      match args with
      | [] => g.request
      | arg :: _ => .error (.unexpected arg)
    | .short letters =>
      if letters.head? = some 'h' then .ok .help else .error (.unexpected arg)
    | .long name value =>
      match OptionName.ofText? name, value with
      | none, _ => .error (.unexpected arg)
      | some .help, none => .ok .help
      | some .help, some _ => .error (.unwantedValue .help)
      | some .chainedFailure, none =>
        if g.chained then .error (.repeated .chainedFailure)
        else parseFrom { g with chained := true } args
      | some .chainedFailure, some _ => .error (.unwantedValue .chainedFailure)
      | some (.value option), some text => (g.set option text).bind (parseFrom · args)
      | some (.value option), none =>
        match args with
        | [] => .error (.missingValue option)
        | text :: args =>
          if Argument.ofString text = .plain then (g.set option text).bind (parseFrom · args)
          else .error (.missingValue option)

def parse (args : List String) : Except UsageError Request := parseFrom {} args

end KeywordTagger.Command
