import KeywordTagger.Proofs.Lines
import KeywordTagger.Proofs.Results
import KeywordTagger.WordList

/-!
What comes in of some bytes. Its lines are the first lines of those bytes, wherever a fault cuts
them off, and a list of words is read of it only when no fault does.
-/

namespace KeywordTagger

theorem Inflow.prefix_lines_ofBytes (bytes : ByteArray) (fault : Option (Nat × FileError)) :
    (ofBytes bytes fault).lines.toList <+: (Text.lines bytes).toList := by
  unfold ofBytes
  split
  · rename_i n e
    split
    · rename_i met
      have split : bytes.extract 0 n ++ bytes.extract n bytes.size = bytes := by
        rw [← ByteArray.extract_eq_extract_append_extract n (Nat.zero_le n) met,
          ByteArray.extract_zero_size]
      have whole : Text.SplitsInto (bytes.extract 0 n ++ bytes.extract n bytes.size)
          (Text.lines bytes).toList := by
        rw [split]
        exact Text.splitsInto_lines bytes
      rw [lines, Array.toList_filter]
      exact (Text.splitsInto_lines (bytes.extract 0 n)).prefix_of_terminated whole
    · exact List.prefix_rfl
  · exact List.prefix_rfl

theorem Inflow.ofBytes_of_whole {bytes text : ByteArray} {fault : Option (Nat × FileError)}
    (h : (ofBytes bytes fault).whole = .ok text) :
    text = bytes ∧ ofBytes bytes fault = { bytes } := by
  unfold ofBytes at h ⊢
  split at h
  · split at h
    · cases h
    · rename_i unmet
      rw [if_neg unmet]
      cases h
      exact ⟨rfl, rfl⟩
  · cases h
    exact ⟨rfl, rfl⟩

theorem WordList.ofInflow_eq_ok_iff {i : Inflow} {words : List String} :
    ofInflow i = .ok words ↔ ∃ bytes, i.whole = .ok bytes ∧ ofBytes bytes = .ok words := by
  obtain ⟨bytes, fault⟩ := i
  cases fault with
  | none =>
    rw [ofInflow, bind_eq_ok]
    constructor
    · rintro ⟨_, read, ⟨⟩⟩
      exact ⟨bytes, rfl, read⟩
    · rintro ⟨_, ⟨⟩, read⟩
      exact ⟨words, read, rfl⟩
  | some e =>
    rw [ofInflow, bind_eq_ok]
    constructor
    · rintro ⟨_, _, ⟨⟩⟩
    · rintro ⟨_, ⟨⟩, _⟩

end KeywordTagger
