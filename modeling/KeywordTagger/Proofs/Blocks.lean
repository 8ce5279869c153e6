import KeywordTagger.Proofs.Encodings
import Mathlib.Tactic.SplitIfs

/-!
Reading in blocks is reading position by position. The first byte of a broken sequence starts no
code point, since the text in front of it would go on there, and all its other bytes continue a
sequence; so passing the whole sequence over passes no code point over.
-/

namespace KeywordTagger

namespace Utf8

variable {bytes : ByteArray} {i : Nat}

theorem decode_textStop (bytes : ByteArray) (i : Nat) :
    bytes.utf8DecodeChar? (textStop bytes i) = none := by
  fun_induction textStop bytes i with
  | case1 i _ c _ ih => exact ih
  | case2 i _ none => exact none
  | case3 i past => exact Decoded.decode_of_size_le (Nat.le_of_not_lt past)

theorem textStop_le (h : i ≤ bytes.size) : textStop bytes i ≤ bytes.size := by
  fun_induction textStop bytes i with
  | case1 i _ c hc ih => exact ih (ByteArray.le_size_of_utf8DecodeChar?_eq_some hc)
  | case2 => exact h
  | case3 => exact h

theorem isValidUTF8_text (h : i ≤ bytes.size) :
    (bytes.extract i (textStop bytes i)).IsValidUTF8 := by
  fun_induction textStop bytes i with
  | case1 i _ c hc ih =>
    have inside := ByteArray.le_size_of_utf8DecodeChar?_eq_some hc
    have first : bytes.extract i (i + c.utf8Size) = (String.utf8EncodeChar c).toByteArray :=
      Decoded.utf8DecodeChar?_eq_some_iff.mp hc
    rw [ByteArray.extract_eq_extract_append_extract (i + c.utf8Size) (Nat.le_add_right i _)
      (le_textStop bytes _), first]
    exact c.isValidUTF8_toByteArray_utf8EncodeChar.append (ih inside)
  | case2 i => exact ByteArray.extract_same ▸ ByteArray.isValidUTF8_empty
  | case3 i => exact ByteArray.extract_same ▸ ByteArray.isValidUTF8_empty

theorem le_textStop_of_isValidUTF8 {j : Nat} (hj : j ≤ bytes.size)
    (valid : (bytes.extract i j).IsValidUTF8) : j ≤ textStop bytes i := by
  obtain ⟨w, encoded⟩ := valid
  induction w generalizing i with
  | nil =>
    have size := congrArg ByteArray.size encoded
    have := le_textStop bytes i
    rw [ByteArray.size_extract, List.utf8Encode_nil, ByteArray.size_empty] at size
    omega
  | cons c w ih =>
    rw [List.utf8Encode_cons, List.utf8Encode_singleton] at encoded
    have size := congrArg ByteArray.size encoded
    have pos := c.utf8Size_pos
    rw [ByteArray.size_extract, ByteArray.size_append, List.size_toByteArray,
      String.length_utf8EncodeChar] at size
    have hc : bytes.utf8DecodeChar? i = some c := by
      rw [ByteArray.utf8DecodeChar?_eq_utf8DecodeChar?_extract,
        ByteArray.extract_eq_extract_append_extract j (by omega) hj, encoded,
        ByteArray.append_assoc]
      exact ByteArray.utf8DecodeChar?_utf8EncodeChar_append
    rw [ByteArray.extract_eq_extract_append_extract (i + c.utf8Size) (by omega) (by omega),
      Decoded.utf8DecodeChar?_eq_some_iff.mp hc, ByteArray.append_right_inj] at encoded
    rw [textStop, if_pos (by omega), hc]
    exact ih encoded

/-- The text at a byte is the longest well-formed part that starts there. -/
theorem text_longest (h : i ≤ bytes.size) : textStop bytes i ≤ bytes.size ∧
    (bytes.extract i (textStop bytes i)).IsValidUTF8 ∧
      ∀ j ≤ bytes.size, (bytes.extract i j).IsValidUTF8 → j ≤ textStop bytes i :=
  ⟨textStop_le h, isValidUTF8_text h, fun _ hj => le_textStop_of_isValidUTF8 hj⟩

theorem laterBytes_continue (first : UInt8) :
    ∀ place ∈ laterBytes first, 0x80 ≤ place.1 ∧ place.2 < 0xC0 := by
  unfold laterBytes
  split_ifs <;> simp

theorem fitting_continue {places : List (UInt8 × UInt8)}
    (within : ∀ place ∈ places, 0x80 ≤ place.1 ∧ place.2 < 0xC0) :
    ∀ j, i ≤ j → j < i + (fitting? bytes i places).getD (bytes.size - i) →
      ∃ h : j < bytes.size, Decoded.Continues bytes[j] := by
  fun_induction fitting? bytes i places with
  | case1 i =>
    intro j hij hj
    rw [Option.getD_some] at hj
    omega
  | case2 i least greatest places b read inside ih =>
    obtain ⟨⟨low, high⟩, within⟩ := List.forall_mem_cons.mp within
    obtain ⟨hi, rfl⟩ := getElem?_eq_some_iff.mp read
    intro j hij hj
    rw [getD_map_succ hi, Nat.add_comm _ 1, ← Nat.add_assoc] at hj
    rcases Nat.eq_or_lt_of_le hij with rfl | later
    · exact ⟨hi, UInt8.le_trans low inside.1, UInt8.lt_of_le_of_lt inside.2 high⟩
    · exact ih within j later hj
  | case3 i =>
    intro j hij hj
    rw [Option.getD_some] at hj
    omega
  | case4 i least greatest places read =>
    have past : bytes.size ≤ i := Nat.le_of_not_lt ((getElem?_eq_none_iff bytes i).mp read)
    intro j hij hj
    rw [Option.getD_none] at hj
    omega

theorem brokenLength_of_size_le (h : bytes.size ≤ i) : brokenLength bytes i = 0 := by
  rw [brokenLength, brokenLength?, getElem?_neg bytes i (Nat.not_lt.mpr h)]
  exact Nat.sub_eq_zero_of_le h

theorem broken_continues (h : i < bytes.size) {j : Nat} (hij : i < j)
    (hj : j < i + brokenLength bytes i) : ∃ h : j < bytes.size, Decoded.Continues bytes[j] := by
  rw [brokenLength_eq h, Nat.add_comm _ 1, ← Nat.add_assoc] at hj
  exact fitting_continue (laterBytes_continue bytes[i]) j hij hj

end Utf8

namespace Decoded

variable {bytes : ByteArray} {i : Nat} (d : Decoded)

theorem readFrom_some {c : Char} (hc : bytes.utf8DecodeChar? i = some c) :
    readFrom bytes i d = readFrom bytes (i + c.utf8Size) (d.push (some c) i) := by
  have fits := ByteArray.le_size_of_utf8DecodeChar?_eq_some hc
  have pos := c.utf8Size_pos
  rw [readFrom.eq_def, if_pos (by omega), hc]

theorem readFrom_none (hi : i < bytes.size) (hnone : bytes.utf8DecodeChar? i = none) :
    readFrom bytes i d = readFrom bytes (i + 1) (d.push none i) := by
  rw [readFrom.eq_def, if_pos hi, hnone]

theorem readFrom_end (hi : bytes.size ≤ i) :
    readFrom bytes i d = { d with offsets := d.offsets.push bytes.size } := by
  rw [readFrom.eq_def, if_neg (Nat.not_lt.mpr hi)]

theorem readFrom_text :
    readFrom bytes i d = readFrom bytes (Utf8.textStop bytes i) (readText bytes i d) := by
  fun_induction readText bytes i d with
  | case1 i d hi c hc ih =>
    have stop : Utf8.textStop bytes i = Utf8.textStop bytes (i + c.utf8Size) := by
      rw [Utf8.textStop, if_pos hi, hc]
    rw [readFrom_some d hc, ih, stop]
  | case2 i d hi none => rw [Utf8.textStop, if_pos hi, none]
  | case3 i d past => rw [Utf8.textStop, if_neg past]

theorem readFrom_stray {n : Nat}
    (stray : ∀ j, i ≤ j → j < i + n → j < bytes.size ∧ bytes.utf8DecodeChar? j = none) :
    readFrom bytes i d = readFrom bytes (i + n) (readStray i n d) := by
  induction n generalizing i d with
  | zero => rfl
  | succ n ih =>
    obtain ⟨hi, none⟩ := stray i (Nat.le_refl i) (by omega)
    rw [readFrom_none d hi none, ih _ fun j hij hj => stray j (by omega) (by omega), readStray,
      Nat.add_assoc, Nat.add_comm 1]

theorem stray_of_broken (h : bytes.utf8DecodeChar? i = none) {j : Nat} (hij : i ≤ j)
    (hj : j < i + Utf8.brokenLength bytes i) :
    j < bytes.size ∧ bytes.utf8DecodeChar? j = none := by
  have hi : i < bytes.size := by
    refine Nat.lt_of_not_le fun past => ?_
    rw [Utf8.brokenLength_of_size_le past] at hj
    omega
  rcases Nat.eq_or_lt_of_le hij with rfl | later
  · exact ⟨hi, h⟩
  · obtain ⟨inside, continues⟩ := Utf8.broken_continues hi later hj
    exact ⟨inside, decode_of_continues inside continues⟩

theorem readBlocks_eq_readFrom : readBlocks bytes i d = readFrom bytes i d := by
  fun_induction readBlocks bytes i d with
  | case1 i d _ stop stray ih =>
    have none := Utf8.decode_textStop bytes i
    rw [ih, readFrom_text d, readFrom_stray _ fun j hij hj => stray_of_broken none hij hj]
  | case2 i d past => exact (readFrom_end d (Nat.le_of_not_lt past)).symm

theorem ofBytes_eq_readFrom (bytes : ByteArray) : ofBytes bytes = readFrom bytes 0 {} := by
  rw [ofBytes, refill, clear_eq, readBlocks_eq_readFrom]

end Decoded

end KeywordTagger
