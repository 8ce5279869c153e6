/-!
Half-open ranges of natural numbers. They name the patterns below a node of the prefix tree, the
children of a node, and the tagged parts of a line.
-/

namespace KeywordTagger

/-- The numbers `start, start + 1, …` below `stop`. -/
structure Span where
  start : Nat := 0
  stop : Nat := 0
deriving DecidableEq

namespace Span

def length (s : Span) : Nat := s.stop - s.start

def isEmpty (s : Span) : Bool := s.stop ≤ s.start

def toList (s : Span) : List Nat := List.range' s.start s.length

@[simp] theorem length_toList (s : Span) : s.toList.length = s.length := by
  simp [toList]

@[simp] theorem mem_toList {s : Span} {i : Nat} : i ∈ s.toList ↔ s.start ≤ i ∧ i < s.stop := by
  simp only [toList, length, List.mem_range'_1]
  omega

@[simp] theorem isEmpty_iff {s : Span} : s.isEmpty = true ↔ s.toList = [] := by
  simp [isEmpty, toList, length]
  omega

end Span

end KeywordTagger
