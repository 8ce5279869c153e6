import KeywordTagger.Proofs.Borders
import KeywordTagger.Text.Line

/-!
Reading is greedy. From every byte there is one greedy reading of a line, and it is what the buffers
hold after a refill: each position has the bytes of its code point or one byte, together they are
the line, and a cut where no code point goes on parts the reading.
-/

namespace KeywordTagger.Decoded

def bytesAt (d : Decoded) (line : ByteArray) (k : Nat) : ByteArray :=
  line.extract (d.offset k) (d.offset (k + 1))

def IsRead (part : ByteArray) : Option Char → Prop
  | some c => part = [c].utf8Encode
  | none => part.size = 1

section Reads

variable {bytes : ByteArray} {i : Nat} {cs : List (Option Char)} {os : List Nat}

theorem decode_iff_encoding {c : Char} :
    bytes.utf8DecodeChar? i = some c ↔ bytes.extract i (i + c.utf8Size) = [c].utf8Encode := by
  rw [utf8DecodeChar?_eq_some_iff, List.utf8Encode_singleton]

theorem readFrom_of_reads (h : Reads bytes i cs os) (d : Decoded) :
    readFrom bytes i d = ⟨d.positions ++ cs.toArray, d.offsets ++ os.toArray⟩ := by
  induction h generalizing d with
  | @char i c cs os encoding _ ih =>
    rw [readFrom_some d (decode_iff_encoding.mpr encoding), ih]
    simp [push]
  | @stray i cs os hi other _ ih =>
    have none : bytes.utf8DecodeChar? i = none :=
      Option.eq_none_iff_forall_ne_some.mpr fun c hc => other c (decode_iff_encoding.mp hc)
    rw [readFrom_none d hi none, ih]
    simp [push]
  | stop =>
    rw [readFrom_end d (Nat.le_refl _)]
    simp

theorem exists_reads {i : Nat} (hi : i ≤ bytes.size) : ∃ cs os, Reads bytes i cs os := by
  rcases Nat.eq_or_lt_of_le hi with rfl | hlt
  · exact ⟨_, _, .stop⟩
  · cases hc : bytes.utf8DecodeChar? i with
    | some c =>
      have pos := c.utf8Size_pos
      obtain ⟨cs, os, later⟩ :=
        exists_reads (ByteArray.le_size_of_utf8DecodeChar?_eq_some hc)
      exact ⟨_, _, .char (decode_iff_encoding.mp hc) later⟩
    | none =>
      obtain ⟨cs, os, later⟩ := exists_reads (Nat.succ_le_of_lt hlt)
      refine ⟨_, _, .stray hlt (fun c encoding => ?_) later⟩
      rw [decode_iff_encoding.mpr encoding] at hc
      cases hc
termination_by bytes.size - i

theorem reads_iff : Reads bytes 0 cs os ↔
    cs = (ofBytes bytes).positions.toList ∧ os = (ofBytes bytes).offsets.toList := by
  have read {cs : List (Option Char)} {os : List Nat} (h : Reads bytes 0 cs os) :
      cs = (ofBytes bytes).positions.toList ∧ os = (ofBytes bytes).offsets.toList := by
    rw [ofBytes_eq_readFrom, readFrom_of_reads h]
    simp
  constructor
  · exact read
  · rintro ⟨rfl, rfl⟩
    obtain ⟨cs, os, h⟩ := exists_reads (Nat.zero_le bytes.size)
    obtain ⟨rfl, rfl⟩ := read h
    exact h

theorem Reads.head (h : Reads bytes i cs os) : os[0]? = some i := by
  cases h <;> rfl

theorem Reads.isRead (h : Reads bytes i cs os) {k : Nat} {c : Option Char} (hk : cs[k]? = some c) :
    ∃ o o', os[k]? = some o ∧ os[k + 1]? = some o' ∧ IsRead (bytes.extract o o') c := by
  induction h generalizing k with
  | @char i a cs os encoding later ih =>
    cases k with
    | zero =>
      cases hk
      exact ⟨i, i + a.utf8Size, rfl, later.head, encoding⟩
    | succ k => exact ih hk
  | @stray i cs os hi other later ih =>
    cases k with
    | zero =>
      cases hk
      refine ⟨i, i + 1, rfl, later.head, ?_⟩
      have size : (bytes.extract i (i + 1)).size = min (i + 1) bytes.size - i :=
        ByteArray.size_extract
      rw [IsRead, size]
      omega
    | succ k => exact ih hk
  | stop => cases hk

end Reads

section Slices

variable (bytes : ByteArray)

theorem isRead_bytesAt {k : Nat} {c : Option Char}
    (hk : (ofBytes bytes).positions[k]? = some c) :
    IsRead ((ofBytes bytes).bytesAt bytes k) c := by
  have reads : Reads bytes 0 _ _ := reads_iff.mpr ⟨rfl, rfl⟩
  obtain ⟨o, o', ho, ho', read⟩ := reads.isRead ((Array.getElem?_toList).trans hk)
  rw [Array.getElem?_toList] at ho ho'
  rw [bytesAt, offset, offset, ho, ho']
  exact read

theorem join_bytesAt :
    Text.join ((Array.range (ofBytes bytes).positions.size).map
      ((ofBytes bytes).bytesAt bytes)) = bytes := by
  have upTo (n : Nat) (hn : n ≤ (ofBytes bytes).positions.size) :
      Text.join ((Array.range n).map ((ofBytes bytes).bytesAt bytes)) =
        bytes.extract 0 ((ofBytes bytes).offset n) := by
    induction n with
    | zero =>
      have none : Array.range 0 = #[] := Array.eq_empty_of_size_eq_zero Array.size_range
      rw [offset_zero, ByteArray.extract_same, none, Array.map_empty, Text.join_empty]
    | succ n ih =>
      rw [Array.range_succ, ← Array.push_eq_append, Array.map_push, Text.join_push,
        ih (Nat.le_of_succ_le hn), bytesAt,
        ← ByteArray.extract_eq_extract_append_extract _ (Nat.zero_le _)
          (offset_le bytes (Nat.le_succ n) hn)]
  rw [upTo _ (Nat.le_refl _), offset_size, ByteArray.extract_zero_size]

theorem offsets_zero : (ofBytes bytes).offsets[0]? = some 0 := by
  have reads : Reads bytes 0 _ _ := reads_iff.mpr ⟨rfl, rfl⟩
  exact (Array.getElem?_toList).symm.trans reads.head

theorem back_offsets : (ofBytes bytes).offsets.back? = some bytes.size := by
  rw [ofBytes_eq_readFrom]
  exact getLast_offsets_readFrom bytes 0 {}

end Slices

/-- Whatever the buffers held, they hold the greedy reading of a line after a refill. Its offsets
ascend from zero to the length of the line, one more than there are positions, and enclose what each
position holds, so they put the line together again. Encoded text is read as it was, and a line is
read in two parts wherever the second does not begin inside a code point. -/
theorem refill_reads_greedily (old : Decoded) :
    (∀ bytes : ByteArray, let d := old.refill bytes
      (∀ cs os, Reads bytes 0 cs os ↔ cs = d.positions.toList ∧ os = d.offsets.toList) ∧
      d.offsets.size = d.positions.size + 1 ∧ d.offsets[0]? = some 0 ∧
      d.offsets.toList.Pairwise (· < ·) ∧ d.offsets.back? = some bytes.size ∧
      (∀ k c, d.positions[k]? = some c → IsRead (d.bytesAt bytes k) c) ∧
      Text.join ((Array.range d.positions.size).map (d.bytesAt bytes)) = bytes) ∧
    (∀ w : List Char, (old.refill w.utf8Encode).positions = (w.map some).toArray) ∧
    ∀ a b : ByteArray, (∀ h : 0 < b.size, ¬ Continues b[0]) →
      old.refill (a ++ b) = (old.refill a).append a.size (old.refill b) := by
  simp only [refill_eq_ofBytes]
  refine ⟨fun bytes => ?_, positions_utf8Encode, fun a b cut => ?_⟩
  · exact ⟨fun _ _ => reads_iff, size_offsets_ofBytes bytes, offsets_zero bytes,
      pairwise_offsets_ofBytes bytes, back_offsets bytes, fun _ _ => isRead_bytesAt bytes,
      join_bytesAt bytes⟩
  · exact ofBytes_append (border_of_not_continues cut)

end KeywordTagger.Decoded
