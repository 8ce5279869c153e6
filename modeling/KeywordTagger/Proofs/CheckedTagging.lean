import KeywordTagger.Checked.Tagging
import KeywordTagger.Proofs.CheckedLinks
import KeywordTagger.Proofs.Marks

/-!
No access fails while a line is tagged. The state that is kept has a word that was read last, so its
link is there and its fallbacks are tried before the bound; what is put out is the id of a pattern;
and the matches that are chosen lie apart within the line, and so do their bytes.
-/

namespace KeywordTagger

open Dictionary DoubleArray

namespace Automaton

section Read

variable {a : Automaton} {rule : LinkRule} {d : Dictionary} {st : List Char → Nat}
  {positions : Array (Option Char)}

theorem Compiled.retreat?_eq (h : a.Compiled rule d st) {w : List Char} (stem : d.isStem w = true)
    (hw : w ≠ []) : a.retreat? (st w) = some (a.retreat (st w)) := by
  have linked := h.links.linked stem hw trivial
  simp only [retreat?, retreat, linked, Option.bind_eq_bind, Option.bind_some]
  rfl

theorem Compiled.advanced?_eq (h : a.Compiled rule d st) (c : Char) (tries : Nat) {w : List Char}
    (stem : d.isStem w = true) (enough : w.length < tries) :
    a.advanced? c.toNat tries (st w) = some (a.advance? c.toNat tries (st w)) := by
  induction tries generalizing w with
  | zero => exact absurd enough (Nat.not_lt_zero _)
  | succ tries ih =>
    rw [advanced?, advance?]
    cases a.table.next? (st w) c.toNat with
    | some target => rfl
    | none =>
      by_cases start : st w = startState
      · simp only [if_pos start]
      · obtain ⟨hw, retreat, shorter⟩ := h.moves stem start
        simp only [if_neg start, h.retreat?_eq stem hw, retreat, Option.bind_eq_bind,
          Option.bind_some]
        exact ih (isStem_fallback d rule w) (by omega)

theorem Compiled.report?_eq (h : a.Compiled rule d st) (state : Nat) {stop : Nat}
    (hstop : stop ≤ positions.size) (found : Array Match) :
    a.report? positions state stop found = some (a.report positions state stop found) := by
  rw [report?, report]
  cases out : a.table.output? state with
  | none => rfl
  | some id =>
    obtain ⟨p, hp, _⟩ := h.table.output_iff.mp out
    have pattern : a.dictionary.patterns[id]? = some p := h.dictionary ▸ hp
    have within : Checked.Within positions.size (stop - p.size) stop := ⟨Nat.sub_le _ _, hstop⟩
    simp only [pattern, if_pos within, Option.bind_eq_bind, Option.bind_some]
    by_cases short : stop < p.size
    · have misfit : spells positions stop p = false := by simp [spells, short]
      rw [if_pos short, misfit]
      rfl
    · rw [if_neg short]
      split
      · rfl
      · rfl

theorem Compiled.read?_eq (h : a.Compiled rule d st) {k : Nat} {p : Progress} {q : WordProgress}
    (agrees : Agrees d st positions k p q) (hk : k < positions.size) :
    a.read? positions p k = some (a.read positions k p) := by
  rw [read?, read, Array.getElem?_eq_getElem hk]
  cases positions[k] with
  | none => rfl
  | some c =>
    have enough : q.word.length < k + 1 := Nat.lt_succ_of_le agrees.length_le
    have advanced := h.advanced?_eq c _ agrees.stem enough
    rw [← agrees.state] at advanced
    simp only [advanced, Option.bind_eq_bind, Option.bind_some]
    cases a.advance? c.toNat (k + 1) p.state with
    | none => rfl
    | some state => simp only [h.report?_eq state hk, Option.bind_some]; rfl

theorem Compiled.findIn?_eq (h : a.Compiled rule d st) (positions : Array (Option Char))
    (found : Array Match) : a.findIn? positions found = some (a.findIn positions found) := by
  have run (n : Nat) (hn : n ≤ positions.size) :
      (List.range n).foldlM (a.read? positions) { found := found.shrink 0 } =
        some (a.readFirst positions found n) := by
    induction n with
    | zero => rfl
    | succ n ih =>
      have agrees := h.agrees positions found (Nat.le_of_succ_le hn)
      have next := h.read?_eq agrees hn
      rw [List.range_succ, List.foldlM_append, ih (Nat.le_of_succ_le hn)]
      simp only [List.foldlM_cons, List.foldlM_nil, next, Option.bind_eq_bind, Option.bind_some]
      rw [readFirst, readFirst, Nat.fold_succ]
      rfl
  simp only [findIn?, run _ (Nat.le_refl _), Option.bind_eq_bind, Option.bind_some]
  rfl

end Read

end Automaton

section Weave

variable {line : ByteArray} {k : Nat} {w : Woven}

theorem Woven.finish?_eq (done : w.done = (Decoded.ofBytes line).offset k)
    (hk : k ≤ (Decoded.ofBytes line).positions.size) : w.finish? line = some (w.finish line) :=
  if_pos ⟨done ▸ Decoded.offset_le_size line hk, Nat.le_refl _⟩

theorem Woven.tag?_eq (done : w.done = (Decoded.ofBytes line).offset k) {start stop : Nat}
    (before : k ≤ start) (pos : start ≤ stop)
    (room : stop ≤ (Decoded.ofBytes line).positions.size) :
    let d := Decoded.ofBytes line
    w.tag? line (d.offset start) (d.offset stop) =
      some (w.tag line (d.offset start) (d.offset stop)) := by
  intro d
  have inside := Nat.le_trans pos room
  have within : Checked.Within line.size w.done (d.offset start) :=
    ⟨done ▸ Decoded.offset_le line before inside, Decoded.offset_le_size line inside⟩
  exact if_pos ⟨within, Decoded.offset_le line pos room, Decoded.offset_le_size line room⟩

theorem weave?_eq (line : ByteArray) (chosen : Array Match) (output : ByteArray)
    (apart : Span.Apart (Decoded.ofBytes line).positions.size 0 (chosen.toList.map Match.span)) :
    weave? line (.ofBytes line) chosen output =
      some (weave line (.ofBytes line) chosen output) := by
  have start : Woven.done { output } = (Decoded.ofBytes line).offset 0 :=
    (Decoded.offset_zero line).symm
  simp only [weave?, weave, ← Array.foldl_toList]
  generalize chosen.toList = ms at apart
  generalize ({ output } : Woven) = w at start
  generalize 0 = k at apart start
  induction ms generalizing w k with
  | nil =>
    obtain ⟨room⟩ := apart
    exact w.finish?_eq start room
  | cons m ms ih =>
    obtain _ | ⟨before, pos, later⟩ := apart
    have room := later.le_size
    have inside := Nat.le_trans (Nat.le_of_lt pos) room
    have tagged := w.tag?_eq start before (Nat.le_of_lt pos) room
    have next := ih (w.tag line ((Decoded.ofBytes line).offset m.start)
      ((Decoded.ofBytes line).offset m.stop)) m.stop later rfl
    rw [List.foldlM_cons, List.foldl_cons, ← next]
    simp only [Match.span] at room inside tagged
    simp only [Decoded.offsets_eq line inside, Decoded.offsets_eq line room, tagged,
      Option.bind_eq_bind, Option.bind_some]

end Weave

namespace Automaton

/-- No access fails, whatever the dictionary, the settings, the line and what the buffers held: the
checked functions all give what the others give. So every slot, node, link, pattern, position and
offset that is asked for is there, all that is cut out of the positions or bytes of a line lies
within them, no claimed slot is cut off, and every search and every chain of links ends before its
bound. -/
theorem accesses_within_bounds (s : Settings) (d : Dictionary) :
    ofDictionary? s d = some (ofDictionary s d) ∧
      ∀ (line : ByteArray) (scratch : Scratch) (output : ByteArray),
        (ofDictionary s d).findIn? (Decoded.ofBytes line).positions scratch.found =
          some ((ofDictionary s d).find line) ∧
        (ofDictionary s d).tagWith? line scratch output =
          some ((ofDictionary s d).tagWith line scratch output) := by
  obtain ⟨st, compiled⟩ := exists_compiled s d
  constructor
  · obtain ⟨f, complete⟩ := Encoding.exists_complete s.growth d
    obtain ⟨st, fin⟩ := Encoding.exists_finished s.growth d
    simp only [ofDictionary?, Encoding.ofDictionary?_eq, complete.table?_eq,
      FailureLinks.ofEncoding?_eq s.rule fin complete, Option.bind_eq_bind, Option.bind_some]
    rfl
  · intro line scratch output
    have found := compiled.findIn?_eq (Decoded.ofBytes line).positions scratch.found
    have apart := apart_of_selects s d line (Match.selects_chooseFrom 0 _)
    rw [findIn_positions] at found
    rw [← Match.toList_chosen] at apart
    refine ⟨found, ?_⟩
    simp only [tagWith?, Decoded.refill_eq_ofBytes, found, weave?_eq line _ output apart,
      Option.bind_eq_bind, Option.bind_some]
    simp only [tagWith, Decoded.refill_eq_ofBytes, findIn_positions]
    rfl

end Automaton

end KeywordTagger
