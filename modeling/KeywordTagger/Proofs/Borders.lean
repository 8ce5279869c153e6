import KeywordTagger.Proofs.Offsets

/-!
Borders between positions. Reading a line goes from border to border, and where a line is cut at a
border both parts are read as they were together. Before a byte that continues no code point there
is always a border.
-/

namespace KeywordTagger.Decoded

/-- Reading on from one byte comes to another. -/
inductive Reaches (bytes : ByteArray) : Nat → Nat → Prop where
  | refl (i : Nat) : Reaches bytes i i
  | char {i n : Nat} {c : Char} : bytes.utf8DecodeChar? i = some c →
      Reaches bytes (i + c.utf8Size) n → Reaches bytes i n
  | stray {i n : Nat} : bytes.utf8DecodeChar? i = none → Reaches bytes (i + 1) n →
      Reaches bytes i n

section Reaches

variable {a b bytes : ByteArray} {i m n : Nat}

theorem Reaches.le (h : Reaches bytes i n) : i ≤ n := by
  induction h with
  | refl => exact Nat.le_refl _
  | char _ _ ih => omega
  | stray _ _ ih => omega

theorem Reaches.trans (h : Reaches bytes i m) (next : Reaches bytes m n) : Reaches bytes i n := by
  induction h with
  | refl => exact next
  | char hc _ ih => exact .char hc (ih next)
  | stray hnone _ ih => exact .stray hnone (ih next)

theorem Reaches.append_right (h : Reaches b i n) : Reaches (a ++ b) (a.size + i) (a.size + n) := by
  induction h with
  | refl => exact .refl _
  | char hc _ ih => exact .char (decode_append_right.trans hc) (by rwa [Nat.add_assoc])
  | stray hnone _ ih => exact .stray (decode_append_right.trans hnone) ih

theorem reaches_of_not_continues {i : Nat} (fits : n ≤ bytes.size)
    (border : ∀ h : n < bytes.size, ¬ Continues bytes[n]) (hi : i ≤ n) : Reaches bytes i n := by
  rcases Nat.eq_or_lt_of_le hi with rfl | hlt
  · exact .refl _
  · cases hc : bytes.utf8DecodeChar? i with
    | none => exact .stray hc (reaches_of_not_continues fits border hlt)
    | some c =>
      have pos := c.utf8Size_pos
      have inside := ByteArray.le_size_of_utf8DecodeChar?_eq_some hc
      have hle : i + c.utf8Size ≤ n := by
        -- Else the byte at the border would be a later byte of an encoding.
        refine Nat.le_of_not_lt fun beyond => ?_
        exact border (by omega) (continues_of_decode hc hlt beyond (by omega))
      exact .char hc (reaches_of_not_continues fits border hle)
termination_by n - i

theorem mem_offsets_readFrom {d : Decoded} {o : Nat} (hi : i ≤ bytes.size)
    (h : o ∈ (readFrom bytes i d).offsets) : o ∈ d.offsets ∨ Reaches bytes i o := by
  fun_induction readFrom bytes i d with
  | case1 i d hlt c hc ih =>
    have inside := ByteArray.le_size_of_utf8DecodeChar?_eq_some hc
    rcases ih inside h with hmem | reaches
    · rcases Array.mem_push.mp hmem with hmem | rfl
      · exact .inl hmem
      · exact .inr (.refl _)
    · exact .inr (.char hc reaches)
  | case2 i d hlt hnone ih =>
    rcases ih hlt h with hmem | reaches
    · rcases Array.mem_push.mp hmem with hmem | rfl
      · exact .inl hmem
      · exact .inr (.refl _)
    · exact .inr (.stray hnone reaches)
  | case3 i d hend =>
    rcases Array.mem_push.mp h with hmem | rfl
    · exact .inl hmem
    · cases Nat.le_antisymm hi (Nat.le_of_not_lt hend)
      exact .inr (.refl _)

end Reaches

/-- Read together, the first of two parts ends where a position ends. -/
def Border (a b : ByteArray) : Prop := Reaches (a ++ b) 0 a.size

def append (d : Decoded) (size : Nat) (e : Decoded) : Decoded where
  positions := d.positions ++ e.positions
  offsets := d.offsets.pop ++ e.offsets.map (size + ·)

section Border

variable {a b x : ByteArray} {i : Nat}

theorem border_of_not_continues (h : ∀ h : 0 < b.size, ¬ Continues b[0]) : Border a b := by
  refine reaches_of_not_continues (by simp) (fun hlt => ?_) (Nat.zero_le _)
  rw [ByteArray.getElem_append_right (Nat.le_refl _)]
  simpa using h _

theorem Border.append (first : Border a (x ++ b)) (second : Border x b) : Border (a ++ x) b := by
  rw [Border, ByteArray.append_assoc, ByteArray.size_append]
  exact first.trans second.append_right

/-- Up to a border the first part is read as it is read alone. -/
theorem readFrom_append_left (d : Decoded) (h : Reaches (a ++ b) i a.size) :
    readFrom (a ++ b) i d = readFrom (a ++ b) a.size
      { readFrom a i d with offsets := (readFrom a i d).offsets.pop } := by
  have room : a.size ≤ (a ++ b).size := by simp
  generalize hn : a.size = n at h room ⊢
  induction h generalizing d with
  | refl i =>
    have ended : readFrom a i d = { d with offsets := d.offsets.push a.size } :=
      readFrom_end d (Nat.le_of_eq hn)
    rw [ended, Array.pop_push]
  | @char i n c hc later ih =>
    have hle := later.le
    have alone := (decode_append_left (by omega)).mp hc
    rw [readFrom_some d hc, readFrom_some d alone]
    exact ih _ hn room
  | @stray i n hnone later ih =>
    have hle := later.le
    have alone : a.utf8DecodeChar? i = none := by
      refine Option.eq_none_iff_forall_ne_some.mpr fun c hc => ?_
      rw [ByteArray.utf8DecodeChar?_append_eq_some hc] at hnone
      cases hnone
    rw [readFrom_none d (by omega) hnone, readFrom_none d (by omega) alone]
    exact ih _ hn room

theorem readFrom_append_right (d e : Decoded) :
    readFrom (a ++ b) (a.size + i) ⟨d.positions ++ e.positions,
        d.offsets ++ e.offsets.map (a.size + ·)⟩ =
      ⟨d.positions ++ (readFrom b i e).positions,
        d.offsets ++ (readFrom b i e).offsets.map (a.size + ·)⟩ := by
  fun_induction readFrom b i e with
  | case1 i e _ c hc ih =>
    rw [readFrom_some _ (decode_append_right.trans hc)]
    simpa [push, Nat.add_assoc] using ih
  | case2 i e hi hnone ih =>
    have inside : a.size + i < (a ++ b).size := by simpa using hi
    rw [readFrom_none _ inside (decode_append_right.trans hnone)]
    simpa [push, Nat.add_assoc] using ih
  | case3 i e hi =>
    rw [readFrom_end _ (by simpa using hi)]
    simp

theorem ofBytes_append (h : Border a b) :
    ofBytes (a ++ b) = (ofBytes a).append a.size (ofBytes b) := by
  have first := readFrom_append_left {} h
  have second := readFrom_append_right (a := a) (b := b) (i := 0)
    { ofBytes a with offsets := (ofBytes a).offsets.pop } {}
  simp only [Nat.add_zero, Array.map_empty, Array.append_empty] at second
  simp only [ofBytes_eq_readFrom] at first second ⊢
  rw [first, second]
  rfl

theorem positions_append (h : Border a b) :
    (ofBytes (a ++ b)).positions = (ofBytes a).positions ++ (ofBytes b).positions := by
  rw [ofBytes_append h]
  rfl

theorem offset_append_right (h : Border a b) {k : Nat} (hk : k ≤ (ofBytes b).positions.size) :
    (ofBytes (a ++ b)).offset ((ofBytes a).positions.size + k) = a.size + (ofBytes b).offset k := by
  have hsize := size_offsets_ofBytes a
  have hsize' := size_offsets_ofBytes b
  rw [ofBytes_append h, offset, offset, append, Array.getElem?_append_right (by simp; omega)]
  simp [hsize, hsize', Nat.lt_succ_of_le hk]

theorem offset_append_left (h : Border a b) {k : Nat} (hk : k ≤ (ofBytes a).positions.size) :
    (ofBytes (a ++ b)).offset k = (ofBytes a).offset k := by
  rcases Nat.lt_or_eq_of_le hk with hlt | rfl
  · have hsize := size_offsets_ofBytes a
    have hpop : k < (ofBytes a).offsets.pop.size := by
      rw [Array.size_pop]
      omega
    rw [ofBytes_append h, offset, offset, append, Array.getElem?_append_left hpop,
      Array.getElem?_pop, if_pos (by omega)]
  · have next := offset_append_right h (Nat.zero_le _)
    rw [Nat.add_zero, offset_zero, Nat.add_zero] at next
    rw [next, offset_size]

/-! Lines of one position, and the lines of code points only. -/

theorem size_utf8Encode_singleton (c : Char) : [c].utf8Encode.size = c.utf8Size := by
  rw [List.utf8Encode_singleton, List.size_toByteArray, String.length_utf8EncodeChar]

theorem border_char (c : Char) (b : ByteArray) : Border [c].utf8Encode b := by
  have hc : ([c].utf8Encode ++ b).utf8DecodeChar? 0 = some c :=
    List.utf8DecodeChar?_utf8Encode_singleton_append
  rw [Border, size_utf8Encode_singleton, ← Nat.zero_add c.utf8Size]
  exact .char hc (.refl _)

theorem border_foreign {x : UInt8} (h : Foreign x) (b : ByteArray) : Border ⟨#[x]⟩ b :=
  .stray (decode_foreign h b) (.refl _)

theorem border_before_char (a : ByteArray) (c : Char) (b : ByteArray) :
    Border a ([c].utf8Encode ++ b) := by
  obtain ⟨first, later, encoding, leads, _⟩ := exists_encoding c
  refine border_of_not_continues fun _ => ?_
  have head : ([c].utf8Encode ++ b)[0] = first := by
    simp only [List.utf8Encode_singleton, encoding]
    rw [ByteArray.getElem_append_left (by simp), List.getElem_toByteArray, List.getElem_cons_zero]
  rw [head]
  exact leads.not_continues

theorem border_before_foreign (a : ByteArray) {x : UInt8} (h : Foreign x) (b : ByteArray) :
    Border a ((⟨#[x]⟩ : ByteArray) ++ b) := by
  refine border_of_not_continues fun _ => ?_
  rw [ByteArray.getElem_append_left Nat.one_pos]
  exact h.not_continues

theorem positions_char (c : Char) : (ofBytes [c].utf8Encode).positions = #[some c] := by
  have hsize := size_utf8Encode_singleton c
  rw [ofBytes_eq_readFrom, readFrom_some _ List.utf8DecodeChar?_utf8Encode_singleton,
    readFrom_end _ (by omega)]
  rfl

theorem positions_foreign {x : UInt8} (h : Foreign x) : (ofBytes ⟨#[x]⟩).positions = #[none] := by
  have hsize : (⟨#[x]⟩ : ByteArray).size = 1 := rfl
  have alone := decode_foreign h .empty
  rw [ByteArray.append_empty] at alone
  rw [ofBytes_eq_readFrom, readFrom_none _ (by omega) alone, readFrom_end _ (by omega)]
  rfl

theorem positions_utf8Encode (w : List Char) :
    (ofBytes w.utf8Encode).positions = (w.map some).toArray := by
  induction w with
  | nil => simp [ofBytes_eq_readFrom, readFrom_end]
  | cons c w ih =>
    rw [List.utf8Encode_cons, positions_append (border_char c _), positions_char, ih]
    simp

/-! Cutting at a position. -/

theorem offset_border (h : Border a b) :
    (ofBytes (a ++ b)).offset (ofBytes a).positions.size = a.size := by
  rw [offset_append_left h (Nat.le_refl _), offset_size]

theorem reaches_of_mem_offsets {line : ByteArray} {o : Nat} (h : o ∈ (ofBytes line).offsets) :
    Reaches line 0 o := by
  rw [ofBytes_eq_readFrom] at h
  rcases mem_offsets_readFrom (Nat.zero_le _) h with none | reached
  · simp at none
  · exact reached

theorem reaches_offset (line : ByteArray) {k : Nat} (hk : k ≤ (ofBytes line).positions.size) :
    Reaches line 0 ((ofBytes line).offset k) := by
  have hsize := size_offsets_ofBytes line
  have mem : (ofBytes line).offset k ∈ (ofBytes line).offsets := by
    rw [offset, Array.getElem?_eq_getElem (by omega)]
    exact Array.getElem_mem _
  exact reaches_of_mem_offsets mem

theorem exists_cut (line : ByteArray) {k : Nat} (hk : k ≤ (ofBytes line).positions.size) :
    ∃ u v, u ++ v = line ∧ u = line.extract 0 ((ofBytes line).offset k) ∧ Border u v ∧
      (ofBytes u).positions.size = k := by
  have fits := offset_le_size line hk
  let u := line.extract 0 ((ofBytes line).offset k)
  let v := line.extract ((ofBytes line).offset k) line.size
  have joined : u ++ v = line := by
    rw [← ByteArray.extract_eq_extract_append_extract _ (Nat.zero_le _) fits,
      ByteArray.extract_zero_size]
  have hu : u.size = (ofBytes line).offset k := by
    rw [ByteArray.size_extract, Nat.sub_zero, Nat.min_eq_left fits]
  have border : Border u v := by
    rw [Border, joined, hu]
    exact reaches_offset line hk
  refine ⟨u, v, joined, rfl, border, ?_⟩
  have place := offset_border border
  have total := congrArg Array.size (positions_append border)
  rw [joined, hu] at place
  rw [joined, Array.size_append] at total
  -- Offsets ascend, so two places with one offset are the same.
  rcases Nat.lt_trichotomy (ofBytes u).positions.size k with before | same | after
  · have := offset_lt line before hk
    omega
  · exact same
  · have := offset_lt line after (by omega)
    omega

end Border

end KeywordTagger.Decoded
