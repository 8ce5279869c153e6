import KeywordTagger.Text.Stepwise

/-!
Encodings of code points among bytes. A code point is read exactly where its encoding stands, its
first byte leads and all later ones continue, so no code point is read at a byte that continues or
at one that is foreign to all encodings.
-/

namespace KeywordTagger.Decoded

section Encoding

variable {a b bytes : ByteArray} {i : Nat} {c : Char}

theorem utf8DecodeChar?_eq_some_iff : bytes.utf8DecodeChar? i = some c ↔
    bytes.extract i (i + c.utf8Size) = (String.utf8EncodeChar c).toByteArray := by
  have hsize : (String.utf8EncodeChar c).toByteArray.size = c.utf8Size := by simp
  constructor
  · intro h
    have fits := ByteArray.le_size_of_utf8DecodeChar?_eq_some h
    rw [ByteArray.utf8DecodeChar?_eq_utf8DecodeChar?_extract] at h
    rw [String.toByteArray_utf8EncodeChar_of_utf8DecodeChar?_eq_some h, ByteArray.extract_extract]
    congr 1
    omega
  · intro h
    have fits := congrArg ByteArray.size h
    rw [hsize, ByteArray.size_extract] at fits
    have pos := c.utf8Size_pos
    rw [ByteArray.utf8DecodeChar?_eq_utf8DecodeChar?_extract,
      ByteArray.extract_eq_extract_append_extract (i + c.utf8Size) (by omega) (by omega), h]
    exact ByteArray.utf8DecodeChar?_utf8EncodeChar_append

theorem extract_append_left {j : Nat} (hj : j ≤ a.size) : (a ++ b).extract i j = a.extract i j := by
  have none : b.extract (i - a.size) (j - a.size) = .empty :=
    ByteArray.extract_eq_empty_iff.mpr (by omega)
  rw [ByteArray.extract_append, none, ByteArray.append_empty]

theorem decode_append_left (fits : i + c.utf8Size ≤ a.size) :
    (a ++ b).utf8DecodeChar? i = some c ↔ a.utf8DecodeChar? i = some c := by
  rw [utf8DecodeChar?_eq_some_iff, utf8DecodeChar?_eq_some_iff, extract_append_left fits]

theorem decode_append_right : (a ++ b).utf8DecodeChar? (a.size + i) = b.utf8DecodeChar? i := by
  refine Option.ext fun c => ?_
  rw [utf8DecodeChar?_eq_some_iff, utf8DecodeChar?_eq_some_iff, Nat.add_assoc,
    ByteArray.extract_append_size_add]

/-! A byte starts encodings, continues them or is foreign to all. -/

def Leads (b : UInt8) : Prop := b < 0x80 ∨ 0xC2 ≤ b ∧ b < 0xF5

def Continues (b : UInt8) : Prop := 0x80 ≤ b ∧ b < 0xC0

def Foreign (b : UInt8) : Prop := b = 0xC0 ∨ b = 0xC1 ∨ 0xF5 ≤ b

theorem Leads.not_foreign {x : UInt8} (h : Leads x) : ¬ Foreign x := by
  simp only [Leads, Foreign, UInt8.le_iff_toNat_le, UInt8.lt_iff_toNat_lt, ← UInt8.toNat_inj,
    UInt8.reduceToNat] at *
  omega

theorem Leads.not_continues {x : UInt8} (h : Leads x) : ¬ Continues x := by
  simp only [Leads, Continues, UInt8.le_iff_toNat_le, UInt8.lt_iff_toNat_lt,
    UInt8.reduceToNat] at *
  omega

theorem Foreign.not_continues {x : UInt8} (h : Foreign x) : ¬ Continues x := by
  simp only [Foreign, Continues, UInt8.le_iff_toNat_le, UInt8.lt_iff_toNat_lt, ← UInt8.toNat_inj,
    UInt8.reduceToNat] at *
  omega

theorem exists_encoding (c : Char) : ∃ first later, String.utf8EncodeChar c = first :: later ∧
    Leads first ∧ ∀ x ∈ later, Continues x := by
  have upper : c.val.toNat < 0x110000 := by
    rcases c.valid with h | h <;> omega
  have leads (n : Nat) (hn : n < 0x80 ∨ 0xC2 ≤ n ∧ n < 0xF5) : Leads (UInt8.ofNat n) := by
    simp only [Leads, UInt8.le_iff_toNat_le, UInt8.lt_iff_toNat_lt, UInt8.toNat_ofNat',
      UInt8.reduceToNat]
    omega
  have continues (n : Nat) : Continues (UInt8.ofNat (n % 64 + 128)) := by
    simp only [Continues, UInt8.le_iff_toNat_le, UInt8.lt_iff_toNat_lt, UInt8.toNat_ofNat',
      UInt8.reduceToNat]
    omega
  rw [String.utf8EncodeChar]
  split
  · exact ⟨_, _, rfl, leads _ (by omega), nofun⟩
  · split
    · refine ⟨_, _, rfl, leads _ (by omega), ?_⟩
      exact List.forall_mem_cons.mpr ⟨continues _, nofun⟩
    · split
      · refine ⟨_, _, rfl, leads _ (by omega), ?_⟩
        simp only [List.forall_mem_cons]
        exact ⟨continues _, continues _, nofun⟩
      · refine ⟨_, _, rfl, leads _ (by omega), ?_⟩
        simp only [List.forall_mem_cons]
        exact ⟨continues _, continues _, continues _, nofun⟩

theorem getElem_of_decode (h : bytes.utf8DecodeChar? i = some c) {k : Nat} (hk : k < c.utf8Size)
    (fits : i + k < bytes.size) : (String.utf8EncodeChar c)[k]? = some bytes[i + k] := by
  have encoded := utf8DecodeChar?_eq_some_iff.mp h
  have hlen : k < (String.utf8EncodeChar c).length := by
    rwa [String.length_utf8EncodeChar]
  rw [List.getElem?_eq_getElem hlen, List.getElem_eq_getElem_toByteArray]
  simp only [← encoded, ByteArray.getElem_extract]

theorem leads_of_decode (h : bytes.utf8DecodeChar? i = some c) (fits : i < bytes.size) :
    Leads bytes[i] := by
  obtain ⟨first, later, encoding, leads, _⟩ := exists_encoding c
  have read := getElem_of_decode h c.utf8Size_pos fits
  rw [encoding, List.getElem?_cons_zero] at read
  exact Option.some.inj read ▸ leads

theorem continues_of_decode (h : bytes.utf8DecodeChar? i = some c) {j : Nat} (hij : i < j)
    (hj : j < i + c.utf8Size) (fits : j < bytes.size) : Continues bytes[j] := by
  obtain ⟨first, later, encoding, _, continues⟩ := exists_encoding c
  obtain ⟨k, rfl⟩ := Nat.exists_eq_add_of_lt hij
  have read := getElem_of_decode (k := k + 1) h (by omega) fits
  rw [encoding, List.getElem?_cons_succ] at read
  exact continues _ (List.mem_of_getElem? read)

theorem decode_of_continues (fits : i < bytes.size) (h : Continues bytes[i]) :
    bytes.utf8DecodeChar? i = none :=
  Option.eq_none_iff_forall_ne_some.mpr fun _ hc => (leads_of_decode hc fits).not_continues h

theorem decode_of_size_le (h : bytes.size ≤ i) : bytes.utf8DecodeChar? i = none := by
  refine Option.eq_none_iff_forall_ne_some.mpr fun c hc => ?_
  have inside := ByteArray.le_size_of_utf8DecodeChar?_eq_some hc
  have pos := c.utf8Size_pos
  omega

theorem decode_foreign {x : UInt8} (h : Foreign x) (rest : ByteArray) :
    ((⟨#[x]⟩ : ByteArray) ++ rest).utf8DecodeChar? 0 = none := by
  refine Option.eq_none_iff_forall_ne_some.mpr fun c hc => ?_
  obtain ⟨first, later, encoding, leads, _⟩ := exists_encoding c
  obtain ⟨tail, heq⟩ := ByteArray.exists_of_utf8DecodeChar?_eq_some hc
  rw [encoding] at heq
  have head := congrArg (fun bytes => bytes.data.toList.head?) heq
  simp only [ByteArray.data_append, Array.toList_append, List.head?_cons,
    List.data_toByteArray, List.cons_append, Option.some.injEq] at head
  exact leads.not_foreign (head ▸ h)

end Encoding

end KeywordTagger.Decoded
