import KeywordTagger.FailureLinks

/-!
Keyword automata: the tables that find the patterns of a dictionary in a line. They are made once
and only read afterwards, so any number of workers may share them.
-/

namespace KeywordTagger

structure Settings where
  /-- The number of slots the row grows by; it leaves no trace in the finished tables. -/
  growth : Nat := 65536
  rule : LinkRule := .parentOnly
deriving DecidableEq

structure Automaton where
  dictionary : Dictionary
  table : DoubleArray
  links : FailureLinks

namespace Automaton

def ofDictionary (s : Settings) (d : Dictionary) : Automaton :=
  let e := Encoding.ofDictionary s.growth d
  { dictionary := d, table := e.table, links := .ofEncoding s.rule e }

def compile (s : Settings) (patterns : List String) : Except TaggerError Automaton :=
  (Dictionary.ofList patterns).map (ofDictionary s)

end Automaton

end KeywordTagger
