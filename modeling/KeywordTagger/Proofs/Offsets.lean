import KeywordTagger.Proofs.Blocks
import KeywordTagger.Tagging

/-!
Offsets of positions. The offsets of a line ascend from zero to its length, so every position has
bytes of its own and the slices between offsets put the line together again.
-/

namespace KeywordTagger.Decoded

theorem size_offsets_readFrom (bytes : ByteArray) (i : Nat) (d : Decoded)
    (h : d.offsets.size = d.positions.size) :
    (readFrom bytes i d).offsets.size = (readFrom bytes i d).positions.size + 1 := by
  fun_induction readFrom bytes i d with
  | case1 i d _ c _ ih => exact ih (by simpa [push] using h)
  | case2 i d _ _ ih => exact ih (by simpa [push] using h)
  | case3 i d _ => simpa using h

theorem size_offsets_ofBytes (bytes : ByteArray) :
    (ofBytes bytes).offsets.size = (ofBytes bytes).positions.size + 1 := by
  rw [ofBytes_eq_readFrom]
  exact size_offsets_readFrom bytes 0 {} rfl

structure Ascend (size i : Nat) (offsets : Array Nat) : Prop where
  pairwise : offsets.toList.Pairwise (· < ·)
  below : ∀ o ∈ offsets, o < i ∧ o < size

theorem pairwise_push {offsets : Array Nat} {i : Nat} (h : offsets.toList.Pairwise (· < ·))
    (below : ∀ o ∈ offsets, o < i) : (offsets.push i).toList.Pairwise (· < ·) := by
  rw [Array.toList_push]
  refine List.pairwise_append.mpr ⟨h, List.pairwise_singleton _ i, fun o ho k hk => ?_⟩
  cases List.mem_singleton.mp hk
  exact below o (Array.mem_toList_iff.mp ho)

theorem Ascend.push {size i j : Nat} {offsets : Array Nat} (h : Ascend size i offsets)
    (hi : i < size) (hij : i < j) : Ascend size j (offsets.push i) where
  pairwise := pairwise_push h.pairwise fun o ho => (h.below o ho).1
  below := by
    intro o ho
    rcases Array.mem_push.mp ho with ho | rfl
    · exact ⟨Nat.lt_trans (h.below o ho).1 hij, (h.below o ho).2⟩
    · exact ⟨hij, hi⟩

theorem pairwise_offsets_readFrom (bytes : ByteArray) (i : Nat) (d : Decoded)
    (h : Ascend bytes.size i d.offsets) :
    (readFrom bytes i d).offsets.toList.Pairwise (· < ·) := by
  fun_induction readFrom bytes i d with
  | case1 i d hi c _ ih => exact ih (h.push hi (Nat.lt_add_of_pos_right c.utf8Size_pos))
  | case2 i d hi _ ih => exact ih (h.push hi (Nat.lt_succ_self i))
  | case3 i d _ => exact pairwise_push h.pairwise fun o ho => (h.below o ho).2

theorem pairwise_offsets_ofBytes (bytes : ByteArray) :
    (ofBytes bytes).offsets.toList.Pairwise (· < ·) := by
  rw [ofBytes_eq_readFrom]
  exact pairwise_offsets_readFrom bytes 0 {} ⟨by simp, by simp⟩

theorem offsets_prefix_readFrom (bytes : ByteArray) (i : Nat) (d : Decoded) :
    d.offsets.toList <+: (readFrom bytes i d).offsets.toList := by
  fun_induction readFrom bytes i d with
  | case1 i d _ c _ ih => exact (List.prefix_append _ _).trans (by simpa [push] using ih)
  | case2 i d _ _ ih => exact (List.prefix_append _ _).trans (by simpa [push] using ih)
  | case3 i d _ => simp

theorem getLast_offsets_readFrom (bytes : ByteArray) (i : Nat) (d : Decoded) :
    (readFrom bytes i d).offsets.back? = some bytes.size := by
  fun_induction readFrom bytes i d with
  | case1 i d _ c _ ih => exact ih
  | case2 i d _ _ ih => exact ih
  | case3 i d _ => exact Array.back?_push

section Offset

variable (bytes : ByteArray)

theorem offset_zero : (ofBytes bytes).offset 0 = 0 := by
  have first (i : Nat) (c : Option Char) :
      (readFrom bytes i (push {} c 0)).offsets[0]? = some 0 := by
    obtain ⟨later, heq⟩ := offsets_prefix_readFrom bytes i (push {} c 0)
    rw [← Array.getElem?_toList, ← heq]
    rfl
  have head : (ofBytes bytes).offsets[0]? = some 0 := by
    rw [ofBytes_eq_readFrom, readFrom]
    split
    · split
      · exact first _ _
      · exact first _ _
    · rename_i empty
      simpa using empty
  rw [offset, head]
  rfl

theorem offset_size : (ofBytes bytes).offset (ofBytes bytes).positions.size = bytes.size := by
  have last := getLast_offsets_readFrom bytes 0 {}
  have hsize := size_offsets_ofBytes bytes
  rw [← ofBytes_eq_readFrom] at last
  rw [Array.back?_eq_getElem?] at last
  rw [offset, ← Nat.add_sub_cancel (n := (ofBytes bytes).positions.size) (m := 1), ← hsize]
  exact congrArg (·.getD 0) last

theorem offset_lt {j k : Nat} (hjk : j < k) (hk : k ≤ (ofBytes bytes).positions.size) :
    (ofBytes bytes).offset j < (ofBytes bytes).offset k := by
  have hsize := size_offsets_ofBytes bytes
  have ascending := List.pairwise_iff_getElem.mp (pairwise_offsets_ofBytes bytes) j k
    (by simp; omega) (by simp; omega) hjk
  simpa [offset, Array.getElem?_eq_getElem, hsize, Nat.lt_succ_of_le hk,
    Nat.lt_succ_of_le (Nat.le_trans (Nat.le_of_lt hjk) hk)] using ascending

theorem offset_le {j k : Nat} (hjk : j ≤ k) (hk : k ≤ (ofBytes bytes).positions.size) :
    (ofBytes bytes).offset j ≤ (ofBytes bytes).offset k := by
  rcases Nat.lt_or_eq_of_le hjk with hjk | rfl
  · exact Nat.le_of_lt (offset_lt bytes hjk hk)
  · exact Nat.le_refl _

theorem offset_le_size {k : Nat} (hk : k ≤ (ofBytes bytes).positions.size) :
    (ofBytes bytes).offset k ≤ bytes.size := by
  rw [← offset_size]
  exact offset_le bytes hk (Nat.le_refl _)

end Offset

end KeywordTagger.Decoded
