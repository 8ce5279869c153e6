import KeywordTagger.Proofs.JoinedLines

/-!
Tagged lines as marks. A tagged line is the bytes of the line and, at the ends of each span, a tag
more; which spans are tagged is a greedy selection from the matches found. Weaving writes these
marks, so taking the tags out gives the line back.
-/

namespace KeywordTagger

inductive Mark where
  | byte (b : UInt8)
  | opening
  | closing
deriving DecidableEq

namespace Mark

def bytes : Mark → ByteArray
  | byte b => ⟨#[b]⟩
  | opening => startTag
  | closing => endTag

def write (ms : List Mark) : ByteArray := ms.foldr (fun m later => m.bytes ++ later) .empty

def erase (ms : List Mark) : List UInt8 :=
  ms.filterMap fun
    | byte b => some b
    | _ => none

def tags (spans : List Span) (i : Nat) : List Mark :=
  (spans.filter (·.stop = i)).map (fun _ => closing) ++
    (spans.filter (·.start = i)).map fun _ => opening

/-- The bytes of a line from the byte `i` on, with the tags of some spans. -/
def surround (spans : List Span) (i : Nat) : List UInt8 → List Mark
  | [] => tags spans i
  | b :: bs => tags spans i ++ byte b :: surround spans (i + 1) bs

def ofLine (line : ByteArray) (spans : List Span) : List Mark := surround spans 0 line.data.toList

variable {spans : List Span} {s : Span} {i j : Nat} {bs cs : List UInt8}

theorem write_cons (m : Mark) (ms : List Mark) : write (m :: ms) = m.bytes ++ write ms := rfl

theorem write_append (ms ns : List Mark) : write (ms ++ ns) = write ms ++ write ns := by
  induction ms with
  | nil => simp [write]
  | cons m ms ih =>
    rw [List.cons_append, write_cons, write_cons, ih, ByteArray.append_assoc]

theorem write_bytes (bs : List UInt8) : write (bs.map byte) = ⟨bs.toArray⟩ := by
  induction bs with
  | nil => rfl
  | cons b bs ih =>
    rw [List.map_cons, write_cons, ih]
    exact ByteArray.ext (by simp [bytes])

theorem erase_tags (spans : List Span) (i : Nat) : erase (tags spans i) = [] := by
  simp [erase, tags]

theorem erase_surround (spans : List Span) (i : Nat) (bs : List UInt8) :
    erase (surround spans i bs) = bs := by
  have tagless := erase_tags spans
  induction bs generalizing i with
  | nil => exact tagless i
  | cons b bs ih =>
    rw [erase, surround, List.filterMap_append, ← erase, tagless, List.filterMap_cons, ← erase, ih]
    rfl

theorem tags_eq_nil (h : ∀ s ∈ spans, s.stop ≠ i ∧ s.start ≠ i) : tags spans i = [] := by
  simp only [tags, List.append_eq_nil_iff, List.map_eq_nil_iff, List.filter_eq_nil_iff,
    decide_eq_true_eq]
  exact ⟨fun s hs => (h s hs).1, fun s hs => (h s hs).2⟩

theorem surround_nil (i : Nat) (bs : List UInt8) : surround [] i bs = bs.map byte := by
  induction bs generalizing i with
  | nil => rfl
  | cons b bs ih =>
    rw [surround, ih]
    rfl

theorem surround_plain (h : ∀ j, i ≤ j → j < i + bs.length → tags spans j = []) :
    surround spans i (bs ++ cs) = bs.map byte ++ surround spans (i + bs.length) cs := by
  induction bs generalizing i with
  | nil => rfl
  | cons b bs ih =>
    rw [List.length_cons] at h ⊢
    rw [List.cons_append, surround, h i (Nat.le_refl i) (by omega), ih, List.map_cons,
      Nat.add_assoc, Nat.add_comm 1]
    · rfl
    · exact fun j hj hlt => h j (by omega) (by omega)

theorem surround_congr {later : List Span} (h : ∀ j, i ≤ j → tags spans j = tags later j) :
    surround spans i bs = surround later i bs := by
  induction bs generalizing i with
  | nil => exact h i (Nat.le_refl i)
  | cons b bs ih =>
    rw [surround, surround, h i (Nat.le_refl i), ih fun j hj => h j (Nat.le_of_succ_le hj)]

/-- The part of the line up to the end of its first span. -/
theorem surround_cons {before inside later : List UInt8} (hstart : s.start = i + before.length)
    (hstop : s.stop = s.start + inside.length) (some : inside ≠ [])
    (after : ∀ t ∈ spans, s.stop ≤ t.start ∧ t.start < t.stop) :
    surround (s :: spans) i (before ++ (inside ++ later)) =
      before.map byte ++
        opening :: (inside.map byte ++ closing :: surround spans s.stop later) := by
  have pos : s.start < s.stop := by
    have := List.length_pos_iff.mpr some
    omega
  have none {j : Nat} (hj : j < s.stop) : tags spans j = [] :=
    tags_eq_nil fun t ht => by
      have := after t ht
      omega
  have quiet {j : Nat} (hj : j < s.stop) (other : j ≠ s.start) : tags (s :: spans) j = [] := by
    rw [← none hj]
    simp [tags, Ne.symm other, Nat.ne_of_gt hj]
  have start : tags (s :: spans) s.start = [opening] := by
    have alone := none pos
    simp only [tags, List.append_eq_nil_iff, List.map_eq_nil_iff] at alone
    simp [tags, alone, Nat.ne_of_gt pos]
  have stop : tags (s :: spans) s.stop = closing :: tags spans s.stop := by
    simp [tags, Nat.ne_of_lt pos]
  have rest : surround (s :: spans) s.stop later = closing :: surround spans s.stop later := by
    have same (j : Nat) (hj : s.stop + 1 ≤ j) : tags (s :: spans) j = tags spans j := by
      simp [tags, show s.stop ≠ j by omega, show s.start ≠ j by omega]
    cases later with
    | nil => exact stop
    | cons b bs => rw [surround, surround, stop, surround_congr same, List.cons_append]
  rw [surround_plain fun j hj hlt => quiet (by omega) (by omega), ← hstart]
  obtain ⟨b, inside, rfl⟩ := List.exists_cons_of_ne_nil some
  rw [List.length_cons] at hstop
  have next : s.start + 1 + inside.length = s.stop := by omega
  rw [List.cons_append, surround, start,
    surround_plain fun j hj hlt => quiet (by omega) (by omega), next, rest]
  rfl

end Mark

/-! Weaving writes marks. -/

def Decoded.byteSpan (d : Decoded) (s : Span) : Span := ⟨d.offset s.start, d.offset s.stop⟩

/-- Spans of bytes from the byte `done` on, none empty and each before the next. -/
inductive Span.Apart (size : Nat) : Nat → List Span → Prop where
  | nil {done : Nat} : done ≤ size → Apart size done []
  | cons {done : Nat} {s : Span} {spans : List Span} : done ≤ s.start → s.start < s.stop →
      Apart size s.stop spans → Apart size done (s :: spans)

section Weave

variable {size done : Nat} {s : Span} {spans : List Span}

theorem Span.Apart.le_size (h : Apart size done spans) : done ≤ size := by
  induction h with
  | nil room => exact room
  | cons before pos _ ih => omega

theorem Span.Apart.bounds (h : Apart size done spans) :
    ∀ t ∈ spans, done ≤ t.start ∧ t.start < t.stop ∧ t.stop ≤ size := by
  induction h with
  | nil => simp
  | cons before pos later ih =>
    refine List.forall_mem_cons.mpr ⟨⟨before, pos, later.le_size⟩, fun t ht => ?_⟩
    obtain ⟨hle, rest⟩ := ih t ht
    exact ⟨by omega, rest⟩

theorem Span.Apart.byteSpan {line : ByteArray}
    (h : Apart (Decoded.ofBytes line).positions.size done spans) :
    Apart line.size ((Decoded.ofBytes line).offset done)
      (spans.map (Decoded.ofBytes line).byteSpan) := by
  induction h with
  | nil room => exact .nil (Decoded.offset_le_size line room)
  | cons before pos later ih =>
    have room := later.le_size
    exact .cons (Decoded.offset_le line before (by omega)) (Decoded.offset_lt line pos room) ih

theorem toList_extract_split (line : ByteArray) {i j k : Nat} (hij : i ≤ j) (hjk : j ≤ k) :
    (line.extract i k).data.toList =
      (line.extract i j).data.toList ++ (line.extract j k).data.toList := by
  rw [ByteArray.extract_eq_extract_append_extract j hij hjk, ByteArray.data_append,
    Array.toList_append]

theorem length_toList_extract (line : ByteArray) (i : Nat) {j : Nat} (hj : j ≤ line.size) :
    (line.extract i j).data.toList.length = j - i := by
  rw [Array.length_toList]
  show (line.extract i j).size = j - i
  rw [ByteArray.size_extract, Nat.min_eq_left hj]

theorem write_extract (line : ByteArray) (i j : Nat) :
    Mark.write ((line.extract i j).data.toList.map Mark.byte) = line.extract i j :=
  Mark.write_bytes _

/-- Each span is written as its own bytes between tags, after the bytes before it. -/
theorem weaveFrom_eq_write (line : ByteArray) (d : Decoded)
    (h : Span.Apart line.size done (spans.map d.byteSpan)) :
    weaveFrom line d done spans = Mark.write
      (Mark.surround (spans.map d.byteSpan) done (line.extract done line.size).data.toList) := by
  induction spans generalizing done with
  | nil => rw [List.map_nil, Mark.surround_nil, write_extract, weaveFrom]
  | cons s spans ih =>
    obtain _ | ⟨before, pos, later⟩ := h
    have room := later.le_size
    have after : ∀ t ∈ spans.map d.byteSpan, (d.byteSpan s).stop ≤ t.start ∧ t.start < t.stop :=
      fun t ht => ⟨(later.bounds t ht).1, (later.bounds t ht).2.1⟩
    have lead := length_toList_extract line done (Nat.le_trans (Nat.le_of_lt pos) room)
    have inside := length_toList_extract line (d.byteSpan s).start room
    have some : (line.extract (d.byteSpan s).start (d.byteSpan s).stop).data.toList ≠ [] := by
      rw [← List.length_pos_iff, inside]
      omega
    rw [List.map_cons, toList_extract_split line before (by omega),
      toList_extract_split line (Nat.le_of_lt pos) room,
      Mark.surround_cons (by omega) (by omega) some after, Mark.write_append, write_extract,
      Mark.write_cons, Mark.write_append, write_extract, Mark.write_cons, ← ih later, weaveFrom]
    simp only [ByteArray.append_assoc]
    rfl

theorem size_le_weaveFrom (line : ByteArray) (d : Decoded) (done : Nat) (spans : List Span) :
    line.size ≤ done + (weaveFrom line d done spans).size := by
  induction spans generalizing done with
  | nil =>
    rw [weaveFrom, ByteArray.size_extract]
    omega
  | cons s spans ih =>
    have later := ih (d.offset s.stop)
    simp only [weaveFrom, ByteArray.size_append, ByteArray.size_extract]
    omega

theorem weaveFrom_cons_ne (line : ByteArray) (d : Decoded) (s : Span) (spans : List Span) :
    weaveFrom line d 0 (s :: spans) ≠ line := by
  intro same
  have later := size_le_weaveFrom line d (d.offset s.stop) spans
  have size := congrArg ByteArray.size same
  have tag : startTag.size = 3 := rfl
  simp only [weaveFrom, ByteArray.size_append, ByteArray.size_extract, tag] at size
  omega

end Weave

/-! Selecting greedily. -/

namespace Match

/-- The matches that are tagged when all before `done` is: one is tagged unless it starts before the
end of the last one tagged. -/
inductive Selects : Nat → List Match → List Match → Prop where
  | nil {done : Nat} : Selects done [] []
  | take {done : Nat} {m : Match} {ms chosen : List Match} : done ≤ m.start →
      Selects m.stop ms chosen → Selects done (m :: ms) (m :: chosen)
  | pass {done : Nat} {m : Match} {ms chosen : List Match} : m.start < done →
      Selects done ms chosen → Selects done (m :: ms) chosen

variable {done : Nat} {m : Match} {ms chosen : List Match}

theorem selects_chooseFrom (done : Nat) (ms : List Match) :
    Selects done ms (chooseFrom done ms) := by
  induction ms generalizing done with
  | nil => exact .nil
  | cons m ms ih =>
    rw [chooseFrom]
    split
    · exact .pass ‹_› (ih done)
    · exact .take (Nat.le_of_not_lt ‹_›) (ih m.stop)

theorem Selects.eq_chooseFrom (h : Selects done ms chosen) : chosen = chooseFrom done ms := by
  induction h with
  | nil => rfl
  | take from_ _ ih => rw [chooseFrom, if_neg (Nat.not_lt.mpr from_), ih]
  | pass inside _ ih => rw [chooseFrom, if_pos inside, ih]

theorem Selects.sublist (h : Selects done ms chosen) : chosen.Sublist ms := by
  induction h with
  | nil => exact .slnil
  | take _ _ ih => exact ih.cons_cons _
  | pass _ _ ih => exact ih.cons _

theorem Selects.le_start (h : Selects done ms chosen) (pos : ∀ m ∈ ms, m.start < m.stop) :
    ∀ m ∈ chosen, done ≤ m.start := by
  induction h with
  | nil => simp
  | take from_ _ ih =>
    obtain ⟨first, rest⟩ := List.forall_mem_cons.mp pos
    refine List.forall_mem_cons.mpr ⟨from_, fun k hk => ?_⟩
    have := ih rest k hk
    omega
  | pass _ _ ih => exact ih (List.forall_mem_cons.mp pos).2

theorem Selects.pairwise (h : Selects done ms chosen) (pos : ∀ m ∈ ms, m.start < m.stop) :
    chosen.Pairwise fun m n => m.stop ≤ n.start := by
  induction h with
  | nil => exact .nil
  | take _ later ih =>
    have rest := (List.forall_mem_cons.mp pos).2
    exact .cons (later.le_start rest) (ih rest)
  | pass _ _ ih => exact ih (List.forall_mem_cons.mp pos).2

/-- A match that is passed over starts inside a match that is selected, or inside what was tagged
before. -/
theorem Selects.inside (h : Selects done ms chosen)
    (ascending : ms.Pairwise fun m n => m.start < n.start) (hm : m ∈ ms) (passed : m ∉ chosen) :
    m.start < done ∨ ∃ n ∈ chosen, n.start < m.start ∧ m.start < n.stop := by
  induction h with
  | nil => cases hm
  | @take done k ms chosen _ _ ih =>
    obtain ⟨first, rest⟩ := List.pairwise_cons.mp ascending
    rw [List.mem_cons, not_or] at passed
    have hm := (List.mem_cons.mp hm).resolve_left passed.1
    rcases ih rest hm passed.2 with inside | ⟨n, hn, inside⟩
    · exact .inr ⟨k, List.mem_cons_self, first m hm, inside⟩
    · exact .inr ⟨n, List.mem_cons_of_mem k hn, inside⟩
  | @pass done k ms chosen before _ ih =>
    rcases List.mem_cons.mp hm with rfl | hm
    · exact .inl before
    · exact ih (List.pairwise_cons.mp ascending).2 hm passed

theorem Selects.apart {size : Nat} (h : Selects done ms chosen)
    (within : ∀ m ∈ ms, m.start < m.stop ∧ m.stop ≤ size) (hdone : done ≤ size) :
    Span.Apart size done (chosen.map Match.span) := by
  induction h with
  | nil => exact .nil hdone
  | take from_ _ ih =>
    obtain ⟨⟨pos, fits⟩, rest⟩ := List.forall_mem_cons.mp within
    exact .cons from_ pos (ih rest fits)
  | pass _ _ ih => exact ih (List.forall_mem_cons.mp within).2 hdone

end Match

theorem Decoded.offsets_eq (line : ByteArray) {k : Nat} (hk : k ≤ (ofBytes line).positions.size) :
    (ofBytes line).offsets[k]? = some ((ofBytes line).offset k) := by
  have size := size_offsets_ofBytes line
  rw [offset, Array.getElem?_eq_getElem (by omega), Option.getD_some]

namespace Automaton

section

variable (s : Settings) (d : Dictionary) (line : ByteArray)

theorem pairwise_start_find :
    ((ofDictionary s d).find line).toList.Pairwise fun m n => m.start < n.start := by
  rw [toList_find]
  exact (Dictionary.pairwise_kept _ _ _).imp And.left

theorem apart_of_selects {chosen : List Match}
    (h : Match.Selects 0 ((ofDictionary s d).find line).toList chosen) :
    Span.Apart (Decoded.ofBytes line).positions.size 0 (chosen.map Match.span) :=
  h.apart (fun _ hm => within_of_mem_find (Array.mem_toList_iff.mp hm)) (Nat.zero_le _)

theorem tagLine_eq_write :
    (ofDictionary s d).tagLine line = Mark.write (Mark.ofLine line
      (((Match.chooseFrom 0 ((ofDictionary s d).find line).toList).map Match.span).map
        (Decoded.ofBytes line).byteSpan)) := by
  have apart := (apart_of_selects s d line (Match.selects_chooseFrom 0 _)).byteSpan
  have written := weaveFrom_eq_write line (Decoded.ofBytes line) apart
  rw [Decoded.offset_zero, ByteArray.extract_zero_size] at written
  exact (tagLine_eq _ line).trans written

theorem tagLine_eq_line_iff :
    (ofDictionary s d).tagLine line = line ↔ (ofDictionary s d).find line = #[] := by
  constructor
  · intro same
    cases found : ((ofDictionary s d).find line).toList with
    | nil => exact Array.toList_eq_nil_iff.mp found
    | cons m ms =>
      rw [tagLine_eq, found, Match.chooseFrom, if_neg (Nat.not_lt_zero _)] at same
      exact absurd same (weaveFrom_cons_ne line _ _ _)
  · exact tagLine_of_find_eq_empty

end

/-- Tagging appends the line with tags around the bytes of the matches selected greedily from those
found. They lie apart, every other match starts inside one of them, taking the tags out gives the
line back, and the line has no tags only if nothing is found in it. -/
theorem tagWith_marks_selected (s : Settings) (d : Dictionary) (line : ByteArray)
    (scratch : Scratch) (output : ByteArray) :
    let a := ofDictionary s d
    let decoded := Decoded.ofBytes line
    ∃ chosen, Match.Selects 0 (a.find line).toList chosen ∧
      (∀ other, Match.Selects 0 (a.find line).toList other → other = chosen) ∧
      let marks := Mark.ofLine line ((chosen.map Match.span).map decoded.byteSpan)
      (a.tagWith line scratch output).2 = output ++ Mark.write marks ∧
      a.tagInto line output = output ++ Mark.write marks ∧
      a.tagLine line = Mark.write marks ∧
      Mark.erase marks = line.data.toList ∧
      (chosen.Pairwise fun m n => m.stop ≤ n.start) ∧
      (∀ m ∈ chosen, m.start < m.stop ∧
        decoded.offsets[m.start]? = some (decoded.byteSpan m.span).start ∧
        decoded.offsets[m.stop]? = some (decoded.byteSpan m.span).stop) ∧
      (∀ m ∈ a.find line, m ∉ chosen → ∃ n ∈ chosen, n.start < m.start ∧ m.start < n.stop) ∧
      (Mark.write marks = line ↔ a.find line = #[]) := by
  intro a decoded
  have within : ∀ m ∈ (a.find line).toList, m.start < m.stop ∧ m.stop ≤ decoded.positions.size :=
    fun m hm => within_of_mem_find (Array.mem_toList_iff.mp hm)
  have pos : ∀ m ∈ (a.find line).toList, m.start < m.stop := fun m hm => (within m hm).1
  have ascending := pairwise_start_find s d line
  have selects := Match.selects_chooseFrom 0 (a.find line).toList
  have tagged : a.tagLine line = _ := tagLine_eq_write s d line
  refine ⟨_, selects, fun _ other => other.eq_chooseFrom, ?_, ?_, tagged, ?_, selects.pairwise pos,
    ?_, ?_, ?_⟩
  · rw [tagWith_snd, tagged]
  · rw [tagInto, tagWith_snd, tagged]
  · exact Mark.erase_surround _ 0 _
  · intro m hm
    obtain ⟨hlt, hle⟩ := within m (selects.sublist.subset hm)
    exact ⟨hlt, Decoded.offsets_eq line (Nat.le_trans (Nat.le_of_lt hlt) hle),
      Decoded.offsets_eq line hle⟩
  · intro m hm passed
    exact (selects.inside ascending (Array.mem_toList_iff.mpr hm) passed).resolve_left
      (Nat.not_lt_zero _)
  · rw [← tagged]
    exact tagLine_eq_line_iff s d line

end Automaton

end KeywordTagger
