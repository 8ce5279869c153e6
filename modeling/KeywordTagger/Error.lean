/-!
What can go wrong while an automaton is compiled or a pool of workers is used, and how it is said.
-/

namespace KeywordTagger

inductive TaggerError where
  | emptyDictionary
  /-- The pattern at this place of the list given cannot be searched for. -/
  | invalidPattern (index : Nat) (reason : String)
  /-- No worker is left to take a line or to hand one back. -/
  | workersGone
deriving DecidableEq

namespace TaggerError

def message : TaggerError → String
  | emptyDictionary => "EmptyDictionary: no patterns were given"
  | invalidPattern index reason =>
    "InvalidPatternError: pattern #" ++ toString index ++ ": " ++ reason
  | workersGone => "WorkerDisconnected: tagger threads are no longer running"

end TaggerError

end KeywordTagger
