import KeywordTagger.Proofs.Runs
import KeywordTagger.Proofs.WholeText
import Mathlib

/-!
What runs of the command leave behind. A run that tags and ends well has written the tagged lines of
what the input held at the start, unless the output leads to the input. A run that fails has changed
no file, unless it had made its output: then that file, and no other, is left with the first of the
tagged lines or with nothing.
-/

namespace KeywordTagger.Command.Workspace

variable {w after : Workspace} {args : List String} {o : Options} {source : Option Place}

def contents (w : Workspace) (path : String) : Except FileError ByteArray := do
  (w.inflow (some (← w.openSource path))).whole

def inputContents (w : Workspace) (o : Options) : Except FileError ByteArray :=
  match o.input with
  | some path => do w.read (← w.openSource path)
  | none => .ok w.stdin

/-- The automaton is that of the dictionary file. -/
def Loads (w : Workspace) (o : Options) (a : Automaton) : Prop :=
  ∃ bytes words, w.contents o.dictionary = .ok bytes ∧ WordList.ofBytes bytes = .ok words ∧
    Automaton.compile { rule := o.rule } words = .ok a

def InputAt (w : Workspace) (o : Options) (place : Place) : Prop :=
  ∃ path, o.input = some path ∧ w.openSource path = .ok place

/-- A run gets as far as making its output at a place, and this is the tree then. -/
structure Creates (w : Workspace) (args : List String) (o : Options) (a : Automaton)
    (source : Option Place) (place : Place) (tree : Workspace) : Prop where
  tags : parse args = .ok (.tag o)
  loads : w.Loads o a
  opens : w.source o = .ok source
  creates : ∃ path, o.output = some path ∧ w.createSink path = .ok (place, tree)

/-- Bytes that a run puts out: none, or the first of the tagged lines of what the input holds. -/
def PutsOut (w : Workspace) (o : Options) (a : Automaton) (bytes : ByteArray) : Prop :=
  bytes = .empty ∨ ∃ text rest, w.inputContents o = .ok text ∧ a.tagLines text = bytes ++ rest

theorem automaton_eq_ok_iff {a : Automaton} : w.automaton o = .ok a ↔ w.Loads o a := by
  unfold automaton Loads contents
  simp only [bind_eq_ok, mapError_eq_ok, map_eq_ok, WordList.ofInflow_eq_ok_iff]
  constructor
  · rintro ⟨_, ⟨place, opened, rfl⟩, words, ⟨bytes, read, decoded⟩, compiled⟩
    exact ⟨bytes, words, ⟨place, opened, read⟩, decoded, compiled⟩
  · rintro ⟨bytes, words, ⟨place, opened, read⟩, decoded, compiled⟩
    exact ⟨_, ⟨place, opened, rfl⟩, words, ⟨bytes, read, decoded⟩, compiled⟩

theorem inputContents_eq (h : w.source o = .ok source) : w.inputContents o = w.text source := by
  unfold Workspace.source at h
  unfold inputContents
  cases input : o.input with
  | none =>
    rw [input] at h
    cases h
    rfl
  | some path =>
    rw [input] at h
    obtain ⟨place, opened, rfl⟩ := map_eq_ok.mp (mapError_eq_ok.mp h)
    exact congrArg (fun r : Except FileError Place => r >>= w.read) opened

/-! What is read once the output is there. -/

namespace Prepared

variable {text : ByteArray} {path : String} {place : Place}

theorem source_eq_iff (p : Prepared w o) : p.source = some place ↔ w.InputAt o place := by
  constructor
  · intro same
    exact source_eq_some_iff.mp (same ▸ p.opens)
  · intro here
    exact Except.ok.inj (p.opens.symm.trans (source_eq_some_iff.mpr here))

/-- An output that leads to the input has emptied it; any other has left it as it was. -/
theorem text_start (p : Prepared w o) (created : w.createSink path = .ok (place, p.tree))
    (read : p.tree.text p.source = .ok text) :
    ∃ before, w.inputContents o = .ok before ∧ (w.InputAt o place → text = .empty) ∧
      (¬ w.InputAt o place → text = before) := by
  rw [inputContents_eq p.opens, ← p.source_eq_iff]
  have writes := writes_createSink created
  cases source : p.source with
  | none =>
    rw [source] at read
    have same : w.stdin = text := writes.stdin ▸ Except.ok.inj read
    refine ⟨w.stdin, rfl, fun here => ?_, fun _ => same.symm⟩
    cases here
  | some q =>
    rw [source] at read
    by_cases same : q = place
    · rw [same] at read source ⊢
      obtain ⟨path, -, opened⟩ := p.source_eq_iff.mp source
      have empty : text = .empty := Except.ok.inj (read.symm.trans writes.read)
      -- An output was made at the place, so no directory stood there.
      obtain ⟨before, held⟩ : ∃ before, w.read place = .ok before := by
        cases held : w.read place with
        | ok before => exact ⟨before, rfl⟩
        | error e =>
          have directory := directory_of_openSource opened held
          exact absurd directory (createSink_eq_ok created).2.1
      exact ⟨before, held, fun _ => empty, fun other => absurd rfl other⟩
    · have kept : p.tree.read q = w.read q := writes.read_other same
      exact ⟨text, kept.symm.trans read, fun heq => absurd (Option.some.inj heq) same, fun _ => rfl⟩

theorem putsOut (p : Prepared w o) (created : w.createSink path = .ok (place, p.tree))
    {a : Automaton} {bytes : ByteArray} (begins : p.tree.Begins a p.source bytes) :
    w.PutsOut o a bytes := by
  rcases begins with none | ⟨text, rest, held, split⟩
  · exact .inl none
  · obtain ⟨before, was, emptied, kept⟩ := p.text_start created held
    by_cases here : w.InputAt o place
    · rw [emptied here, a.tagLines_empty] at split
      exact .inl (ByteArray.append_eq_empty_iff.mp split.symm).1
    · exact .inr ⟨before, rest, was, kept here ▸ split⟩

theorem writes_written (p : Prepared w o) (created : w.createSink path = .ok (place, p.tree))
    (sink : p.sink = some place) (bytes : ByteArray) :
    w.Writes place bytes (p.tree.written bytes p.sink) := by
  rw [sink]
  exact (writes_createSink created).trans (writes_putFile bytes (ne_nil_of_createSink created))

end Prepared

/-- A run that tags and ends well has read the dictionary and the input as they were at the start.
The tagged lines are appended to the standard output or are all that the output file holds, and
nothing else is changed. Only where the output leads to the input there is nothing left to tag. -/
theorem finished_run_tags_input (tags : parse args = .ok (.tag o))
    (finished : (w.run args).1.code = 0) :
    ∃ a text, w.Loads o a ∧ w.inputContents o = .ok text ∧
      (o.output = none → (w.run args).2 = { w with stdout := w.stdout ++ a.tagLines text }) ∧
      ∀ path, o.output = some path → ∃ place, w.walk path (parts path).2 = .ok place ∧
        (¬ w.InputAt o place → w.Writes place (a.tagLines text) (w.run args).2) ∧
        (w.InputAt o place → w.Writes place .empty (w.run args).2) := by
  have ends := ends_tag w o
  rw [run_of_tag tags] at finished ⊢
  generalize (tag system o).run w = ran at ends finished ⊢
  obtain ⟨f, rfl⟩ | ⟨p, ends⟩ := ends
  · exact absurd finished f.code_ne_zero
  cases ends with
  | @crash c _ => exact absurd finished (Failure.crash c).code_ne_zero
  | @broken f _ _ => exact absurd finished f.code_ne_zero
  | @done text _ read =>
    have loads : w.Loads o p.automaton := automaton_eq_ok_iff.mp p.loads
    obtain ⟨out, sink, tree⟩ | ⟨path, place, out, sink, created⟩ := sink_eq_ok_iff.mp p.creates
    · rw [tree] at read
      refine ⟨p.automaton, text, loads, (inputContents_eq p.opens).trans read, fun _ => ?_, ?_⟩
      · rw [sink, tree]
        rfl
      · intro path given
        cases out.symm.trans given
    · obtain ⟨before, held, emptied, kept⟩ := p.text_start created read
      refine ⟨p.automaton, before, loads, held, ?_, ?_⟩
      · intro none
        cases out.symm.trans none
      · rw [out]
        rintro _ ⟨⟩
        have writes := p.writes_written created sink (p.automaton.tagLines text)
        refine ⟨place, (createSink_eq_ok created).1, fun elsewhere => ?_, fun here => ?_⟩
        · exact kept elsewhere ▸ writes
        · have nothing : p.automaton.tagLines text = .empty := by
            rw [emptied here, Automaton.tagLines_empty]
          exact nothing ▸ writes

def oneWord : Workspace where
  entries := [(["d"], .file "a\n".toUTF8), (["f"], .file "a b\n".toUTF8), (["s"], .directory)]

theorem oneWord_loads (input output : Option String) (threads chunkSize : Nat) :
    ∃ a, oneWord.automaton { dictionary := "d", input, output, threads, chunkSize } = .ok a ∧
      a.tagLines "a b\n".toUTF8 = "【a】 b\n".toUTF8 := by
  have held : oneWord.contents "d" = .ok "a\n".toUTF8 := by cbv
  have read : WordList.ofBytes "a\n".toUTF8 = .ok ["a"] := by cbv
  have computed : (Dictionary.ofList ["a"]).map (fun d => d.findWords .parentOnly "a b\n".toUTF8) =
      .ok #[⟨0, 1, 0⟩] := by cbv
  have woven : weaveFrom "a b\n".toUTF8 (Decoded.ofBytes "a b\n".toUTF8) 0 [⟨0, 1⟩] =
      "【a】 b\n".toUTF8 := by cbv
  have line : Text.lines "a b\n".toUTF8 = #["a b\n".toUTF8] := by cbv
  obtain ⟨d, hd, found⟩ := Dictionary.exists_of_map_ofList computed
  have compiled : Automaton.compile { rule := .parentOnly } ["a"] =
      .ok (.ofDictionary { rule := .parentOnly } d) :=
    Automaton.compile_eq_ok_iff.mpr ⟨d, hd, rfl⟩
  refine ⟨_, automaton_eq_ok_iff.mpr ⟨_, _, held, read, compiled⟩, ?_⟩
  rw [Automaton.tagLines, line, List.map_toArray, List.map_singleton, Text.join_cons,
    Text.join_empty, ByteArray.append_empty, Automaton.tagLine_eq, Automaton.find_eq_findWords,
    found]
  exact woven

theorem run_tags_into_new_file :
    let run := oneWord.run ["--dict", "d", "--input", "f", "--output", "o", "--n-threads", "2"]
    run.1.code = 0 ∧ oneWord.Writes ["o"] "【a】 b\n".toUTF8 run.2 := by
  intro run
  let o : Options := { dictionary := "d", input := some "f", output := some "o", threads := 2 }
  have tags : parse ["--dict", "d", "--input", "f", "--output", "o", "--n-threads", "2"] =
      .ok (.tag o) := by decide +kernel
  obtain ⟨a, loads, tagged⟩ := oneWord_loads (some "f") (some "o") 2 4096
  let p : Prepared oneWord o :=
    ⟨a, some ["f"], some ["o"], oneWord.putFile ["o"] .empty, loads, by cbv, by cbv⟩
  have finished : run.1.code = 0 := by
    change (oneWord.run _).1.code = 0
    rw [run_of_tag tags, p.run_done "a b\n".toUTF8 (by cbv) (by cbv) rfl]
    rfl
  refine ⟨finished, ?_⟩
  obtain ⟨b, text, reload, held, -, written⟩ := finished_run_tags_input tags finished
  obtain ⟨place, reached, apart, -⟩ := written "o" rfl
  have same : b = a :=
    Except.ok.inj ((automaton_eq_ok_iff.mpr reload).symm.trans loads)
  have text_eq : "a b\n".toUTF8 = text := Except.ok.inj (Eq.trans (by cbv) held)
  have walked : oneWord.walk "o" (parts "o").2 = .ok ["o"] := by cbv
  have place_eq : ["o"] = place := Except.ok.inj (walked.symm.trans reached)
  have opened : oneWord.openSource "f" = .ok ["f"] := by cbv
  have other : ¬ oneWord.InputAt o ["o"] := by
    rintro ⟨_, ⟨⟩, led⟩
    exact absurd (Except.ok.inj (opened.symm.trans led)) (by decide)
  rw [same, ← text_eq, ← place_eq, tagged] at apart
  exact apart other

/-- The output is emptied before the input is read. -/
theorem input_as_output_is_lost :
    let args := ["--dict", "d", "--input", "f", "--output", "f"]
    ∃ o a, parse args = .ok (.tag o) ∧ o.output = some "f" ∧ (oneWord.run args).1.code = 0 ∧
      oneWord.Loads o a ∧ oneWord.inputContents o = .ok "a b\n".toUTF8 ∧
      a.tagLines "a b\n".toUTF8 = "【a】 b\n".toUTF8 ∧
      entry? (oneWord.run args).2 ["f"] = some (.file .empty) := by
  intro args
  let o : Options := { dictionary := "d", input := some "f", output := some "f" }
  have tags : parse args = .ok (.tag o) := by decide +kernel
  obtain ⟨a, loads, tagged⟩ := oneWord_loads (some "f") (some "f") 0 4096
  let p : Prepared oneWord o :=
    ⟨a, some ["f"], some ["f"], oneWord.putFile ["f"] .empty, loads, by cbv, by cbv⟩
  have ran : oneWord.run args = (.done, p.tree.putFile ["f"] .empty) := by
    rw [run_of_tag tags, p.run_done .empty (by cbv) (by cbv) rfl]
    exact congrArg (fun bytes => (Outcome.done, p.tree.putFile ["f"] bytes)) a.tagLines_empty
  refine ⟨o, a, tags, rfl, by rw [ran]; rfl, automaton_eq_ok_iff.mp loads, by cbv, tagged, ?_⟩
  rw [ran]
  exact (writes_putFile .empty (by decide)).file

namespace Creates

variable {a : Automaton} {place : Place} {tree : Workspace}

def prepared (h : w.Creates args o a source place tree) : Prepared w o where
  automaton := a
  source := source
  sink := some place
  tree := tree
  loads := automaton_eq_ok_iff.mpr h.loads
  opens := h.opens
  creates := by
    obtain ⟨path, out, created⟩ := h.creates
    exact sink_eq_ok_iff.mpr (.inr ⟨path, place, out, rfl, created⟩)

theorem run_crash (h : w.Creates args o a source place tree) {c : Crash}
    (refused : tree.pool o = .error c) : w.run args = (.failed (.crash c), tree) := by
  have same : h.prepared.tree.pool o = .error c := refused
  rw [run_of_tag h.tags, h.prepared.run_tag, same]
  rfl

theorem ends (h : w.Creates args o a source place tree) :
    (∃ f bytes, (w.run args).1 = .failed f ∧ tree.BreaksOff o a source (some place) f bytes ∧
      w.Writes place bytes (w.run args).2 ∧ w.PutsOut o a bytes) ∨
      (w.run args).1 = .done ∧ ∃ text, tree.text source = .ok text := by
  obtain ⟨_, -, created⟩ := h.creates
  have ends := h.prepared.ends
  rw [run_of_tag h.tags]
  generalize (tag system o).run w = ran at ends ⊢
  cases ends with
  | crash refused =>
    exact .inl ⟨_, .empty, rfl, .crash refused, writes_createSink created, .inl rfl⟩
  | @broken f bytes breaks =>
    exact .inl ⟨f, bytes, rfl, breaks, h.prepared.writes_written created rfl bytes,
      h.prepared.putsOut created breaks.begins⟩
  | @done text _ held => exact .inr ⟨rfl, text, held⟩

end Creates

theorem Prepared.prints (p : Prepared w o) (out : o.output = none) {f : Failure}
    (ends : p.Ends (.error f, after)) : after = w ∨ ∃ printed, w.PutsOut o p.automaton printed ∧
      after = { w with stdout := w.stdout ++ printed } := by
  obtain ⟨-, sink, tree⟩ | ⟨path, _, given, _⟩ := sink_eq_ok_iff.mp p.creates
  · cases ends with
    | crash _ => exact .inl tree
    | @broken _ bytes breaks =>
      have begins := breaks.begins
      rw [tree] at begins
      refine .inr ⟨bytes, ?_, by rw [sink, tree]; rfl⟩
      rwa [PutsOut, inputContents_eq p.opens]
  · cases out.symm.trans given

/-- A run that fails before its output is made has changed nothing but what is printed. A run that
fails later has made or emptied the file at its output, which is left with the first of the tagged
lines of the input or with nothing, and has changed nothing else; then the pool was not to be had,
or the input was not to be read to its end, or the output not to be written to its end. -/
theorem failed_run_keeps_files (failed : (w.run args).1.code ≠ 0) :
    ((∀ o a source place tree, ¬ w.Creates args o a source place tree) →
      (w.run args).2 = w ∨
        ∃ o a printed, parse args = .ok (.tag o) ∧ o.output = none ∧ w.Loads o a ∧
          w.PutsOut o a printed ∧ (w.run args).2 = { w with stdout := w.stdout ++ printed }) ∧
      ∀ o a source place tree, w.Creates args o a source place tree → ∃ f bytes,
        (w.run args).1 = .failed f ∧ tree.BreaksOff o a source (some place) f bytes ∧
          w.Writes place bytes (w.run args).2 ∧ w.PutsOut o a bytes := by
  constructor
  · intro clear
    cases parsed : parse args with
    | error e => exact .inl (by rw [run_of_usage parsed])
    | ok request =>
      cases request with
      | help =>
        rw [run_of_help parsed] at failed
        exact absurd rfl failed
      | tag o =>
        have ends := ends_tag w o
        rw [run_of_tag parsed] at failed ⊢
        generalize (tag system o).run w = ran at ends failed ⊢
        obtain ⟨f, rfl⟩ | ⟨p, ends⟩ := ends
        · exact .inl rfl
        have loads := automaton_eq_ok_iff.mp p.loads
        obtain ⟨out, -⟩ | ⟨path, place, out, -, created⟩ := sink_eq_ok_iff.mp p.creates
        · obtain ⟨f | _, after⟩ := ran
          · rcases p.prints out ends with same | ⟨printed, puts, same⟩
            · exact .inl same
            · exact .inr ⟨o, p.automaton, printed, rfl, out, loads, puts, same⟩
          · exact absurd rfl failed
        · exact absurd ⟨parsed, loads, p.opens, path, out, created⟩ (clear o _ _ place p.tree)
  · intro o a source place tree creates
    rcases creates.ends with late | ⟨done, -⟩
    · exact late
    · rw [done] at failed
      exact absurd rfl failed

theorem oneWord_creates {input : Option String} {threads chunkSize : Nat}
    (tags : parse args =
      .ok (.tag { dictionary := "d", input, output := some "o", threads, chunkSize }))
    (opens : oneWord.source
      { dictionary := "d", input, output := some "o", threads, chunkSize } = .ok source) :
    ∃ a, oneWord.Creates args
      { dictionary := "d", input, output := some "o", threads, chunkSize } a source ["o"]
      (oneWord.putFile ["o"] .empty) := by
  obtain ⟨a, loads, -⟩ := oneWord_loads input (some "o") threads chunkSize
  have created : oneWord.createSink "o" = .ok (["o"], oneWord.putFile ["o"] .empty) := by cbv
  exact ⟨a, tags, automaton_eq_ok_iff.mp loads, opens, "o", rfl, created⟩

/-- One run without its input, and one whose batches are larger than any memory. -/
theorem run_fails_before_and_after_output :
    let early := oneWord.run ["--dict", "d", "--input", "g", "--output", "f"]
    let late := oneWord.run ["--dict", "d", "--input", "f", "--output", "o", "--n-threads", "1",
      "--chunk-size", "18446744073709551615"]
    (early.1.code = 1 ∧ early.2 = oneWord) ∧ late.1.code = 101 ∧
      oneWord.Writes ["o"] .empty late.2 := by
  intro early late
  constructor
  · let o : Options := { dictionary := "d", input := some "g", output := some "f" }
    have tags : parse ["--dict", "d", "--input", "g", "--output", "f"] = .ok (.tag o) := by
      decide +kernel
    have missing : oneWord.source o = .error (.openInput "g" .notFound) := by cbv
    obtain ⟨_, loads, -⟩ := oneWord_loads (some "g") (some "f") 0 4096
    have code : early.1.code = 1 := by
      change (oneWord.run _).1.code = 1
      rw [run_of_tag tags, run_tag_of_source_error loads missing]
      rfl
    have clear (o a source place tree) : ¬ oneWord.Creates
        ["--dict", "d", "--input", "g", "--output", "f"] o a source place tree := by
      rintro ⟨parsed, _, opens, _⟩
      cases tags.symm.trans parsed
      cases missing.symm.trans opens
    refine ⟨code, ?_⟩
    rcases (failed_run_keeps_files (code ▸ Nat.one_ne_zero)).1 clear with
      same | ⟨_, _, _, parsed, out, _⟩
    · exact same
    · cases tags.symm.trans parsed
      cases out
  · let o : Options :=
      { dictionary := "d", input := some "f", output := some "o", threads := 1,
        chunkSize := 18446744073709551615 }
    have tags : parse ["--dict", "d", "--input", "f", "--output", "o", "--n-threads", "1",
        "--chunk-size", "18446744073709551615"] = .ok (.tag o) := by decide +kernel
    have opens : oneWord.source o = .ok (some ["f"]) := by cbv
    have refused : (oneWord.putFile ["o"] .empty).pool o = .error .batchTooLarge := by
      decide +kernel
    obtain ⟨a, creates⟩ := oneWord_creates tags opens
    have ran : late.1 = .failed (.crash .batchTooLarge) :=
      congrArg Prod.fst (creates.run_crash refused)
    have code : late.1.code = 101 := congrArg Outcome.code ran
    have failed : late.1.code ≠ 0 := code ▸ Nat.succ_ne_zero 100
    obtain ⟨f, bytes, told, breaks, writes, -⟩ :=
      (failed_run_keeps_files failed).2 _ _ _ _ _ creates
    cases ran.symm.trans told
    cases breaks
    exact ⟨code, writes⟩

/-- A directory is opened, and then it cannot be read. -/
theorem directory_input_leaves_empty_output :
    let run := oneWord.run ["--dict", "d", "--input", "s", "--output", "o"]
    run.1.code = 1 ∧ oneWord.entry? ["o"] = none ∧ entry? run.2 ["o"] = some (.file .empty) := by
  intro run
  let o : Options := { dictionary := "d", input := some "s", output := some "o" }
  have tags : parse ["--dict", "d", "--input", "s", "--output", "o"] = .ok (.tag o) := by
    decide +kernel
  have opens : oneWord.source o = .ok (some ["s"]) := by cbv
  have directory : (oneWord.putFile ["o"] .empty).text (some ["s"]) = .error .isADirectory := by
    cbv
  have unheld (text : ByteArray) : oneWord.inputContents o ≠ .ok text := by
    have refused : oneWord.inputContents o = .error .isADirectory := by cbv
    rw [refused]
    exact fun h => by cases h
  obtain ⟨a, creates⟩ := oneWord_creates tags opens
  rcases creates.ends with ⟨f, bytes, told, breaks, writes, puts⟩ | ⟨-, text, held⟩
  · rcases puts with none | ⟨text, _, held, _⟩
    · rw [none] at writes
      refine ⟨?_, by cbv, writes.file⟩
      have code : f.code = 1 := by
        cases breaks with
        | crash refused => cases refused
        | read _ _ => rfl
        | write full _ => cases full
      change (oneWord.run _).1.code = 1
      rw [told]
      exact code
    · exact absurd held (unheld text)
  · cases directory.symm.trans held

end KeywordTagger.Command.Workspace
