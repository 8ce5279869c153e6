import KeywordTagger.Proofs.Calls
import KeywordTagger.Proofs.Inflows
import KeywordTagger.Stream

/-!
Tagging a text. However many lines are handed to the pool at a time, and in whatever order the steps
of its calls come, the lines written and the lines waiting are together those read so far, in order;
when nothing waits any more all of them are written, as by tagging them one after the other.
-/

namespace KeywordTagger

theorem Written.foldl_add (tagged : List ByteArray) (w : Written) :
    tagged.foldl add w =
      { count := w.count + tagged.length, output := w.output ++ Text.join tagged.toArray } := by
  induction tagged using List.reverseRecOn with
  | nil => simp
  | append_singleton tagged t ih =>
    rw [List.foldl_append, ih, ← List.push_toArray, Text.join_push, List.length_append,
      ← ByteArray.append_assoc]
    rfl

namespace Batch

inductive Flushed (b : Batch) : Batch → Prop where
  | none : b.waiting = #[] → Flushed b b
  | call (events : List PoolEvent) : b.waiting ≠ #[] →
      (b.pool.run (.ofLines b.waiting.toList) events).2.isDone = true →
      Flushed b
        { pool := (b.pool.run (.ofLines b.waiting.toList) events).1
          written := (b.pool.run (.ofLines b.waiting.toList) events).2.received.foldl
            Written.add b.written }

/-- What becomes of a batch when some lines are added and it is flushed whenever `size` lines
wait. -/
inductive Pushed (size : Nat) : Batch → List ByteArray → Batch → Prop where
  | nil (b : Batch) : Pushed size b [] b
  | wait {b c : Batch} {line : ByteArray} {lines : List ByteArray} : b.waiting.size + 1 < size →
      Pushed size { b with waiting := b.waiting.push line } lines c →
      Pushed size b (line :: lines) c
  | flush {b c e : Batch} {line : ByteArray} {lines : List ByteArray} :
      size ≤ b.waiting.size + 1 → Flushed { b with waiting := b.waiting.push line } c →
      Pushed size c lines e → Pushed size b (line :: lines) e

/-- All lines read are written or waiting, in order, and the pool is idle. -/
structure Reads (a : Automaton) (b : Batch) (lines : List ByteArray) : Prop where
  idle : Pool.Idle a b.pool
  workers : 0 < b.pool.workers.size
  written : ∃ sent, sent ++ b.waiting.toList = lines ∧
    b.written = (sent.map a.tagLine).foldl Written.add {}

variable {a : Automaton} {b c : Batch} {size : Nat} {lines more : List ByteArray}

theorem Reads.start (a : Automaton) (threads : Nat) :
    Reads a { pool := .ofAutomaton a threads } [] where
  idle := Pool.Rests.start.idle.1
  workers := by
    have size : (Pool.ofAutomaton a threads).workers.size = max threads 1 := Pool.Rests.start.idle.2
    rw [size]
    exact Nat.lt_of_lt_of_le Nat.one_pos (Nat.le_max_right threads 1)
  written := ⟨[], rfl, rfl⟩

theorem Reads.add (h : Reads a b lines) (line : ByteArray) :
    Reads a { b with waiting := b.waiting.push line } (lines ++ [line]) := by
  obtain ⟨sent, read, written⟩ := h.written
  refine ⟨h.idle, h.workers, sent, ?_, written⟩
  rw [Array.toList_push, ← List.append_assoc, read]

theorem Reads.written_eq (h : Reads a b lines) (none : b.waiting = #[]) :
    b.written = (lines.map a.tagLine).foldl Written.add {} := by
  obtain ⟨sent, read, written⟩ := h.written
  rw [none, Array.toList_empty, List.append_nil] at read
  rw [written, read]

/-! Flushing. -/

theorem Reads.flushed (h : Reads a b lines) (flushed : Flushed b c) :
    Reads a c lines ∧ c.waiting = #[] := by
  cases flushed with
  | none none => exact ⟨h, none⟩
  | call events some done =>
    obtain ⟨sent, read, written⟩ := h.written
    obtain ⟨_, accounts⟩ := (h.idle.accounts b.waiting.toList).run events
    refine ⟨⟨accounts.idle done, ?_, lines, List.append_nil lines, ?_⟩, rfl⟩
    · rw [Pool.size_run]
      exact h.workers
    · rw [← Array.foldl_toList, accounts.received_eq done, written, ← List.foldl_append,
        ← List.map_append, read]

theorem Reads.exists_flushed (h : Reads a b lines) : ∃ c, b.flush = .ok c ∧ Flushed b c := by
  rw [Batch.flush]
  split
  · rename_i none
    exact ⟨b, rfl, .none (Array.isEmpty_iff.mp none)⟩
  · rename_i some
    have workers : b.pool.workers.isEmpty = false := decide_eq_false (Nat.ne_of_gt h.workers)
    rw [Pool.tagLines, workers]
    exact ⟨_, rfl, .call _ (mt Array.isEmpty_iff.mpr some)
      (h.idle.isDone_turns h.workers b.waiting.toList)⟩

/-! Adding lines. -/

theorem Reads.pushed (h : Reads a b lines) (pushed : Pushed size b more c) :
    Reads a c (lines ++ more) := by
  induction pushed generalizing lines with
  | nil => exact (List.append_nil lines).symm ▸ h
  | @wait b c line more _ _ ih =>
    have next := ih (h.add line)
    rwa [List.append_assoc] at next
  | @flush b c e line more _ flushed _ ih =>
    have next := ih ((h.add line).flushed flushed).1
    rwa [List.append_assoc] at next

theorem Reads.exists_pushed (h : Reads a b lines) (size : Nat) (more : List ByteArray) :
    ∃ c, more.foldlM (Batch.push size) b = .ok c ∧ Pushed size b more c := by
  induction more generalizing b lines with
  | nil => exact ⟨b, rfl, .nil b⟩
  | cons line more ih =>
    by_cases room : b.waiting.size + 1 < size
    · obtain ⟨c, run, pushed⟩ := ih (h.add line)
      refine ⟨c, ?_, .wait room pushed⟩
      rw [List.foldlM_cons, Batch.push, if_pos (by simpa using room)]
      exact run
    · obtain ⟨c, flush, flushed⟩ := (h.add line).exists_flushed
      obtain ⟨e, run, pushed⟩ := ih ((h.add line).flushed flushed).1
      refine ⟨e, ?_, .flush (Nat.le_of_not_lt room) flushed pushed⟩
      rw [List.foldlM_cons, Batch.push, if_neg (by simpa using room), flush]
      exact run

end Batch

/-- Every line finds the buffers empty, as the first one does. -/
theorem Relay.foldl_pass (a : Automaton) (lines : List ByteArray) (w : Written) :
    lines.foldl (pass a) { written := w } =
      { written := (lines.map a.tagLine).foldl Written.add w } := by
  induction lines generalizing w with
  | nil => rfl
  | cons line lines ih =>
    have passed : pass a { written := w } line = { written := w.add (a.tagLine line) } := by
      rw [pass, ByteArray.empty_append, Automaton.tagLine]
    rw [List.foldl_cons, passed, ih, List.map_cons, List.foldl_cons]

namespace Automaton

variable (a : Automaton) (threads size : Nat) (text : ByteArray)

/-- What may be written of a text that is tagged by a pool, the steps of each call in some order. -/
def TagsInBatches (w : Written) : Prop :=
  ∃ b c, Batch.Pushed (max size 1) { pool := .ofAutomaton a threads } (Text.lines text).toList b ∧
    Batch.Flushed b c ∧ c.written = w

theorem tagInOrder_eq (lines : Array ByteArray) :
    a.tagInOrder lines = (lines.toList.map a.tagLine).foldl Written.add {} := by
  rw [tagInOrder, ← Array.foldl_toList, Relay.foldl_pass]

variable {a threads size text} in
theorem TagsInBatches.eq {w : Written} (h : a.TagsInBatches threads size text w) :
    w = a.tagInOrder (Text.lines text) := by
  obtain ⟨b, c, pushed, flushed, rfl⟩ := h
  obtain ⟨reads, none⟩ := ((Batch.Reads.start a threads).pushed pushed).flushed flushed
  rw [reads.written_eq none, tagInOrder_eq, List.nil_append]

theorem exists_tagInBatches (lines : Array ByteArray) : ∃ b c,
    Batch.Pushed (max size 1) { pool := .ofAutomaton a threads } lines.toList b ∧
      Batch.Flushed b c ∧
      ∀ broken, a.tagInBatches threads size lines broken =
        .ok (if broken = true then b else c).written := by
  have start := Batch.Reads.start a threads
  obtain ⟨b, push, pushed⟩ := start.exists_pushed (max size 1) lines.toList
  obtain ⟨c, flush, flushed⟩ := (start.pushed pushed).exists_flushed
  refine ⟨b, c, pushed, flushed, fun broken => ?_⟩
  rw [tagInBatches, ← Array.foldlM_toList, push]
  cases broken with
  | true => rfl
  | false =>
    change (b.flush >>= fun b => Except.ok b.written) = _
    rw [flush]
    rfl

/-- Of what comes in some first lines are tagged and written, and all of them where no fault breaks
off the reading. -/
theorem exists_tagInflow (i : Inflow) : ∃ n,
    a.tagInflow threads size i =
        .ok (((i.lines.toList.take n).map a.tagLine).foldl Written.add {}) ∧
      (i.fault = none → i.lines.toList.take n = i.lines.toList) := by
  unfold tagInflow
  by_cases alone : threads = 0
  · refine ⟨i.lines.toList.length, ?_, fun _ => List.take_length⟩
    rw [if_pos alone, tagInOrder_eq, List.take_length]
  · rw [if_neg alone]
    obtain ⟨b, c, pushed, flushed, played⟩ := a.exists_tagInBatches threads size i.lines
    have reads := (Batch.Reads.start a threads).pushed pushed
    rw [List.nil_append] at reads
    rw [played]
    cases i.fault with
    | none =>
      obtain ⟨all, none⟩ := reads.flushed flushed
      refine ⟨i.lines.toList.length, ?_, fun _ => List.take_length⟩
      rw [List.take_length, ← all.written_eq none]
      rfl
    | some e =>
      obtain ⟨sent, read, written⟩ := reads.written
      refine ⟨sent.length, ?_, fun none => by cases none⟩
      rw [← read, List.take_left, ← written]
      rfl

theorem tagText_eq : a.tagText threads size text = .ok (a.tagInOrder (Text.lines text)) := by
  obtain ⟨n, tagged, all⟩ := a.exists_tagInflow threads size { bytes := text }
  rw [tagText, tagged, all rfl, tagInOrder_eq]
  rfl

theorem tagInOrder_written (lines : Array ByteArray) : a.tagInOrder lines =
    { count := lines.size, output := Text.join (lines.map a.tagLine) } := by
  rw [tagInOrder_eq, Written.foldl_add, ← Array.toList_map, Array.toArray_toList,
    Array.length_toList, Array.size_map, Nat.zero_add, ByteArray.empty_append]

/-! What is written of a text that comes in up to a fault. -/

def tagLines : ByteArray := Text.join ((Text.lines text).map a.tagLine)

theorem tagLines_empty : a.tagLines .empty = .empty := by
  have none : Text.lines .empty = #[] := by decide +kernel
  rw [tagLines, none, Array.map_empty, Text.join_empty]

variable {a threads size text} in
theorem output_tagText {w : Written} (h : a.tagText threads size text = .ok w) :
    w.output = a.tagLines text := by
  rw [tagText_eq, tagInOrder_written] at h
  cases h
  rfl

variable {text} in
theorem tagLines_split {first : List ByteArray} (h : first <+: (Text.lines text).toList) :
    ∃ rest, a.tagLines text = Text.join (first.map a.tagLine).toArray ++ rest := by
  obtain ⟨later, all⟩ := h
  refine ⟨Text.join (later.map a.tagLine).toArray, ?_⟩
  rw [← Text.join_append, ← List.map_append, all, ← Array.toList_map, Array.toArray_toList,
    tagLines]

theorem tagInflow_begins (fault : Option (Nat × FileError)) :
    ∃ w rest, a.tagInflow threads size (.ofBytes text fault) = .ok w ∧
      a.tagLines text = w.output ++ rest := by
  obtain ⟨n, tagged, -⟩ := a.exists_tagInflow threads size (.ofBytes text fault)
  obtain ⟨rest, split⟩ :=
    a.tagLines_split ((List.take_prefix n _).trans (Inflow.prefix_lines_ofBytes text fault))
  refine ⟨_, rest, tagged, ?_⟩
  rw [Written.foldl_add, ByteArray.empty_append, split]

/-- The lines of a text are what it splits into after each line feed. Whatever the number of threads
and the number of lines handed over at a time, and whatever the order of the steps, each line is
tagged and written with its terminator, in order, and all are counted. -/
theorem tagText_tags_each_line :
    let written : Written :=
      { count := (Text.lines text).size
        output := Text.join ((Text.lines text).map a.tagLine) }
    Text.SplitsInto text (Text.lines text).toList ∧
      a.tagText threads size text = .ok written ∧
      ∀ w, a.TagsInBatches threads size text w ↔ w = written := by
  intro written
  have inOrder : a.tagInOrder (Text.lines text) = written := a.tagInOrder_written _
  obtain ⟨b, c, pushed, flushed, -⟩ := a.exists_tagInBatches threads size (Text.lines text)
  have tags : a.TagsInBatches threads size text c.written := ⟨b, c, pushed, flushed, rfl⟩
  have same : c.written = written := tags.eq.trans inOrder
  refine ⟨Text.splitsInto_lines text, ?_, fun v => ⟨fun h => h.eq.trans inOrder, ?_⟩⟩
  · rw [tagText_eq, inOrder]
  · rintro rfl
    exact same ▸ tags

end Automaton

end KeywordTagger
