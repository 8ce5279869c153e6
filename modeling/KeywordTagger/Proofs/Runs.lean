import KeywordTagger.Proofs.Inflows
import KeywordTagger.Proofs.Streaming
import KeywordTagger.Proofs.Workspaces

/-!
Runs of the command in a tree of files. A run loads the dictionary, opens the input and creates the
output; up to there a failure leaves the tree as it was. Then the pool may not be had, the input may
not be read to its end or the output not be written to its end; whatever ends the run, the output
holds a beginning of the tagged lines of what the input holds by then.
-/

namespace KeywordTagger.Command

theorem Failure.code_ne_zero (f : Failure) : f.code ≠ 0 := by
  cases f with
  | crash c => cases c <;> exact Nat.succ_ne_zero _
  | _ => exact Nat.one_ne_zero

namespace Workspace

section Bind

variable {α β : Type} {x : ExceptT Failure (StateM Workspace) α}
  {f : α → ExceptT Failure (StateM Workspace) β} {w after : Workspace}

theorem run_bind_ok {a : α} (h : x.run w = (.ok a, after)) :
    (x >>= f).run w = (f a).run after := by
  change StateT.bind x.run (ExceptT.bindCont f) w = _
  rw [StateT.bind, h]
  rfl

theorem run_bind_error {e : Failure} (h : x.run w = (.error e, after)) :
    (x >>= f).run w = (.error e, after) := by
  change StateT.bind x.run (ExceptT.bindCont f) w = _
  rw [StateT.bind, h]
  rfl

theorem run_bind_kept {r : Except Failure α} (h : x.run w = (r, w)) {g : α → Except Failure β}
    (rest : ∀ a, (f a).run w = (g a, w)) : (x >>= f).run w = (r >>= g, w) := by
  cases r with
  | error e => exact run_bind_error h
  | ok a => exact (run_bind_ok h).trans (rest a)

end Bind

/-! What the stages come to in a tree of files. -/

def written (w : Workspace) (bytes : ByteArray) : Option Place → Workspace
  | some place => w.putFile place bytes
  | none => { w with stdout := w.stdout ++ bytes }

def automaton (w : Workspace) (o : Options) : Except Failure Automaton := do
  let place ← ((w.openSource o.dictionary).map some).mapError (.openDictionary o.dictionary)
  let words ← (WordList.ofInflow (w.inflow place)).mapError .readDictionary
  (Automaton.compile { rule := o.rule } words).mapError .compile

def source (w : Workspace) (o : Options) : Except Failure (Option Place) :=
  match o.input with
  | some path => ((w.openSource path).map some).mapError (.openInput path)
  | none => .ok none

def sink (w : Workspace) (o : Options) : Except Failure (Option Place × Workspace) :=
  match o.output with
  | some path =>
    ((w.createSink path).map fun (place, after) => (some place, after)).mapError
      (.createOutput path)
  | none => .ok (none, w)

def memory (w : Workspace) (lines : Nat) : Except Crash Unit :=
  if allocationLimit < lineHandleSize * lines then .error .batchTooLarge
  else if w.faults.allocate (lineHandleSize * lines) then
    .error (.batchRefused (lineHandleSize * lines))
  else .ok ()

def pool (w : Workspace) (o : Options) : Except Crash Unit :=
  if o.threads = 0 then .ok ()
  else
    match w.faults.startWorkers o.threads with
    | some reason => .error (.workersRefused reason)
    | none => w.memory (max o.chunkSize 1)

section Stages

variable (w : Workspace) (o : Options)

theorem get_bind {α : Type} (f : Workspace → StateM Workspace α) :
    (get >>= f : StateM Workspace α) w = f w w := rfl

theorem run_attempt {ε α : Type} (wrap : ε → Failure) (x : StateM Workspace (Except ε α)) :
    (attempt wrap x).run w = ((x w).1.mapError wrap, (x w).2) := rfl

theorem run_open (wrap : FileError → Failure) (path : String) :
    (attempt wrap (system.openSource path)).run w =
      (((w.openSource path).map some).mapError wrap, w) := rfl

theorem run_read (source : Option Place) :
    (liftM (system.read source) : ExceptT Failure (StateM Workspace) Inflow).run w =
      (.ok (w.inflow source), w) := rfl

theorem run_pure {ε α : Type} (wrap : ε → Failure) (r : Except ε α) :
    (attempt wrap (pure r : StateM Workspace (Except ε α))).run w = (r.mapError wrap, w) := rfl

theorem run_loadAutomaton : (loadAutomaton system o).run w = (w.automaton o, w) := by
  unfold loadAutomaton automaton
  refine run_bind_kept (run_open w _ _) fun place => ?_
  refine (run_bind_ok (run_read w place)).trans ?_
  refine run_bind_kept (run_pure w _ _) fun words => ?_
  exact run_pure w _ _

theorem run_openInput : (openInput system o).run w = (w.source o, w) := by
  unfold openInput source
  cases o.input with
  | none => rfl
  | some path => exact run_open w _ path

theorem run_create (wrap : FileError → Failure) (path : String) :
    (attempt wrap (system.createSink path)).run w =
      match w.createSink path with
      | .ok (place, after) => (.ok (some place), after)
      | .error e => (.error (wrap e), w) := by
  simp only [system]
  rw [run_attempt, get_bind]
  cases w.createSink path with
  | error e => rfl
  | ok r => rfl

theorem run_createOutput : (createOutput system o).run w =
    match w.sink o with
    | .ok (place, after) => (.ok place, after)
    | .error f => (.error f, w) := by
  unfold createOutput sink
  cases o.output with
  | none => rfl
  | some path =>
    refine (run_create w _ path).trans ?_
    dsimp only
    cases w.createSink path with
    | error e => rfl
    | ok r => rfl

theorem run_startWorkers (wrap : String → Failure) (n : Nat) :
    (attempt wrap (system.startWorkers n)).run w =
      match w.faults.startWorkers n with
      | some reason => (.error (wrap reason), w)
      | none => (.ok (), w) := by
  simp only [system]
  rw [run_attempt, get_bind]
  cases w.faults.startWorkers n with
  | some reason => rfl
  | none => rfl

theorem run_reserve (lines : Nat) : (reserve system lines) w = (w.memory lines, w) := by
  unfold reserve memory
  by_cases large : allocationLimit < lineHandleSize * lines
  · rw [if_pos large, if_pos large]
    rfl
  · rw [if_neg large, if_neg large]
    unfold system
    rw [bind_assoc, get_bind, pure_bind]
    cases w.faults.allocate (lineHandleSize * lines) with
    | true => rfl
    | false => rfl

theorem run_preparePool :
    (preparePool system o).run w = ((w.pool o).mapError .crash, w) := by
  unfold preparePool pool
  by_cases alone : o.threads = 0
  · rw [if_pos alone, if_pos alone]
    rfl
  · rw [if_neg alone, if_neg alone]
    have started := run_startWorkers w (fun reason => .crash (.workersRefused reason)) o.threads
    cases refused : w.faults.startWorkers o.threads with
    | some reason =>
      rw [refused] at started
      exact run_bind_error started
    | none =>
      rw [refused] at started
      refine (run_bind_ok started).trans ?_
      rw [run_attempt, run_reserve]

/-! Writing, into an output that is still empty. -/

theorem write_eq {sink : Option Place} (bytes : ByteArray)
    (fresh : ∀ place ∈ sink, w.read place = .ok .empty) :
    w.write sink bytes = ((fit bytes (w.faults.write sink)).2,
      w.written (fit bytes (w.faults.write sink)).1 sink) := by
  unfold write
  obtain ⟨kept, result⟩ := fit bytes (w.faults.write sink)
  dsimp only
  cases sink with
  | none => rfl
  | some place =>
    -- The write appends, which puts the bytes there only because the file is new or emptied.
    have appended : w.append kept (some place) = .ok (w.putFile place kept) := by
      rw [append, fresh place rfl]
      exact congrArg (fun b => Except.ok (w.putFile place b)) ByteArray.empty_append
    rw [appended]
    rfl

theorem fit_begins (bytes : ByteArray) (room : Option (Nat × FileError)) :
    ∃ rest, bytes = (fit bytes room).1 ++ rest := by
  unfold fit
  split
  · split
    · rename_i n e some
      refine ⟨bytes.extract n bytes.size, ?_⟩
      rw [← ByteArray.extract_eq_extract_append_extract n (Nat.zero_le n) (Nat.le_of_lt some),
        ByteArray.extract_zero_size]
    · exact ⟨.empty, ByteArray.append_empty.symm⟩
  · exact ⟨.empty, ByteArray.append_empty.symm⟩

theorem fit_eq_ok {bytes : ByteArray} {room : Option (Nat × FileError)}
    (h : (fit bytes room).2 = .ok ()) : (fit bytes room).1 = bytes := by
  unfold fit at h ⊢
  split at h
  · split at h
    · cases h
    · rename_i all
      rw [if_neg all]
  · rfl

theorem fit_eq_error {bytes : ByteArray} {room : Option (Nat × FileError)} {e : FileError}
    (h : (fit bytes room).2 = .error e) : room = some ((fit bytes room).1.size, e) := by
  unfold fit at h ⊢
  split at h
  · split at h
    · rename_i n f some
      cases h
      rw [if_pos some, ByteArray.size_extract, Nat.min_eq_left (Nat.le_of_lt some), Nat.sub_zero]
    · cases h
  · cases h

theorem run_tagInput (a : Automaton) (source : Option Place) {sink : Option Place}
    (fresh : ∀ place ∈ sink, w.read place = .ok .empty) {tagged : Written}
    (tags : a.tagInflow o.threads o.chunkSize (w.inflow source) = .ok tagged) :
    (tagInput system o a source sink).run w =
      (match (w.inflow source).fault with
        | some e => .error (.readInput e)
        | none => (fit tagged.output (w.faults.write sink)).2.mapError .writeOutput,
        w.written (fit tagged.output (w.faults.write sink)).1 sink) := by
  unfold tagInput
  refine (run_bind_ok (run_read w source)).trans ?_
  rw [tags]
  refine (run_bind_ok (run_pure w .tag (.ok tagged))).trans ?_
  have put : (liftM (system.write sink tagged.output) :
      ExceptT Failure (StateM Workspace) (Except FileError Unit)).run w =
        (.ok (w.write sink tagged.output).1, (w.write sink tagged.output).2) := rfl
  refine (run_bind_ok put).trans ?_
  rw [w.write_eq _ fresh]
  cases (w.inflow source).fault with
  | none => rfl
  | some e => rfl

end Stages

/-- A run that gets as far as its output. -/
structure Prepared (w : Workspace) (o : Options) where
  automaton : Automaton
  source : Option Place
  sink : Option Place
  tree : Workspace
  loads : w.automaton o = .ok automaton
  opens : w.source o = .ok source
  creates : w.sink o = .ok (sink, tree)

section Ok

variable {w tree : Workspace} {o : Options}

theorem source_eq_some_iff {place : Place} :
    w.source o = .ok (some place) ↔
      ∃ path, o.input = some path ∧ w.openSource path = .ok place := by
  unfold Workspace.source
  cases o.input with
  | none => simp
  | some path => simp [mapError_eq_ok, map_eq_ok]

theorem sink_eq_ok_iff {sink : Option Place} : w.sink o = .ok (sink, tree) ↔
    o.output = none ∧ sink = none ∧ tree = w ∨
      ∃ path place, o.output = some path ∧ sink = some place ∧
        w.createSink path = .ok (place, tree) := by
  unfold Workspace.sink
  cases out : o.output with
  | none => simp [eq_comm]
  | some path =>
    simp only [mapError_eq_ok, map_eq_ok]
    constructor
    · rintro ⟨⟨place, after⟩, created, ⟨⟩⟩
      exact .inr ⟨path, place, rfl, rfl, created⟩
    · rintro (⟨⟨⟩, _⟩ | ⟨_, place, ⟨⟩, rfl, created⟩)
      exact ⟨_, created, rfl⟩

end Ok

/-- Bytes put out of a source: none, or the first of the tagged lines of what it holds. -/
def Begins (w : Workspace) (a : Automaton) (source : Option Place) (bytes : ByteArray) : Prop :=
  bytes = .empty ∨ ∃ text rest, w.text source = .ok text ∧ a.tagLines text = bytes ++ rest

/-- What can end a run whose output is there, and the bytes that the output has got by then. -/
inductive BreaksOff (w : Workspace) (o : Options) (a : Automaton) (source sink : Option Place) :
    Failure → ByteArray → Prop where
  | crash {c : Crash} : w.pool o = .error c → BreaksOff w o a source sink (.crash c) .empty
  | read {e : FileError} {bytes : ByteArray} : (w.inflow source).fault = some e →
      w.Begins a source bytes → BreaksOff w o a source sink (.readInput e) bytes
  | write {e : FileError} {bytes : ByteArray} : w.faults.write sink = some (bytes.size, e) →
      w.Begins a source bytes → BreaksOff w o a source sink (.writeOutput e) bytes

section Inflow

variable {w : Workspace} {a : Automaton} {source : Option Place} {text bytes : ByteArray}

theorem inflow_of_text (h : w.text source = .ok text) :
    w.inflow source = .ofBytes text (w.faults.read source) := by
  rw [inflow, h]

theorem whole_inflow (h : (w.inflow source).whole = .ok text) :
    w.text source = .ok text ∧ w.inflow source = { bytes := text } := by
  cases held : w.text source with
  | error e =>
    rw [inflow, held] at h
    cases h
  | ok bytes =>
    rw [inflow_of_text held] at h ⊢
    obtain ⟨rfl, whole⟩ := Inflow.ofBytes_of_whole h
    exact ⟨rfl, whole⟩

theorem Begins.of_append {rest : ByteArray} (h : w.Begins a source (bytes ++ rest)) :
    w.Begins a source bytes := by
  rcases h with none | ⟨text, later, held, split⟩
  · exact .inl (ByteArray.append_eq_empty_iff.mp none).1
  · exact .inr ⟨text, rest ++ later, held, split.trans ByteArray.append_assoc⟩

theorem BreaksOff.begins {o : Options} {sink : Option Place} {f : Failure}
    (h : w.BreaksOff o a source sink f bytes) : w.Begins a source bytes := by
  cases h with
  | crash _ => exact .inl rfl
  | read _ begins => exact begins
  | write _ begins => exact begins

theorem exists_tagInflow (w : Workspace) (a : Automaton) (source : Option Place)
    (threads size : Nat) : ∃ tagged, a.tagInflow threads size (w.inflow source) = .ok tagged ∧
      w.Begins a source tagged.output := by
  cases held : w.text source with
  | ok text =>
    obtain ⟨tagged, rest, tags, split⟩ :=
      a.tagInflow_begins threads size text (w.faults.read source)
    exact ⟨tagged, inflow_of_text held ▸ tags, .inr ⟨text, rest, held, split⟩⟩
  | error e =>
    -- What cannot be read at all gives what no bytes give that are cut off at once.
    have nothing : w.inflow source = .ofBytes .empty (some (0, e)) := by
      rw [inflow, held]
      rfl
    obtain ⟨tagged, rest, tags, split⟩ := a.tagInflow_begins threads size .empty (some (0, e))
    rw [a.tagLines_empty] at split
    exact ⟨tagged, nothing ▸ tags, .inl (ByteArray.append_eq_empty_iff.mp split.symm).1⟩

end Inflow

namespace Prepared

variable {w : Workspace} {o : Options}

theorem fresh (p : Prepared w o) : ∀ place ∈ p.sink, p.tree.read place = .ok .empty := by
  intro place hplace
  obtain ⟨-, none, -⟩ | ⟨path, q, -, some, created⟩ := sink_eq_ok_iff.mp p.creates
  · rw [none] at hplace
    cases hplace
  · rw [some] at hplace
    cases hplace
    exact (writes_createSink created).read

theorem run_tag (p : Prepared w o) : (tag system o).run w =
    match p.tree.pool o with
    | .error c => (.error (.crash c), p.tree)
    | .ok () => (tagInput system o p.automaton p.source p.sink).run p.tree := by
  have loaded : (loadAutomaton system o).run w = (.ok p.automaton, w) := by
    rw [run_loadAutomaton, p.loads]
  have opened : (openInput system o).run w = (.ok p.source, w) := by
    rw [run_openInput, p.opens]
  have created : (createOutput system o).run w = (.ok p.sink, p.tree) := by
    rw [run_createOutput, p.creates]
  rw [tag, run_bind_ok loaded, run_bind_ok opened, run_bind_ok created]
  have prepared := run_preparePool p.tree o
  cases got : p.tree.pool o with
  | error c =>
    rw [got] at prepared
    exact run_bind_error prepared
  | ok u =>
    rw [got] at prepared
    exact run_bind_ok prepared

inductive Ends (p : Prepared w o) : Except Failure Unit × Workspace → Prop where
  | crash {c : Crash} : p.tree.pool o = .error c → Ends p (.error (.crash c), p.tree)
  | broken {f : Failure} {bytes : ByteArray} :
      p.tree.BreaksOff o p.automaton p.source p.sink f bytes →
      Ends p (.error f, p.tree.written bytes p.sink)
  | done {text : ByteArray} : p.tree.pool o = .ok () → p.tree.text p.source = .ok text →
      Ends p (.ok (), p.tree.written (p.automaton.tagLines text) p.sink)

theorem ends (p : Prepared w o) : p.Ends ((tag system o).run w) := by
  rw [p.run_tag]
  cases pool : p.tree.pool o with
  | error c => exact .crash pool
  | ok u =>
    obtain ⟨tagged, tags, begins⟩ :=
      p.tree.exists_tagInflow p.automaton p.source o.threads o.chunkSize
    rw [p.tree.run_tagInput o p.automaton p.source p.fresh tags]
    obtain ⟨rest, split⟩ := fit_begins tagged.output (p.tree.faults.write p.sink)
    have kept := Begins.of_append (split ▸ begins)
    cases fault : (p.tree.inflow p.source).fault with
    | some e => exact .broken (.read fault kept)
    | none =>
      cases result : (fit tagged.output (p.tree.faults.write p.sink)).2 with
      | error e => exact .broken (.write (fit_eq_error result) kept)
      | ok u =>
        have whole : (p.tree.inflow p.source).whole = .ok (p.tree.inflow p.source).bytes := by
          rw [Inflow.whole, fault]
        obtain ⟨held, inflow⟩ := whole_inflow whole
        rw [inflow] at tags
        rw [fit_eq_ok result, Automaton.output_tagText tags]
        exact .done pool held

theorem run_done (p : Prepared w o) (text : ByteArray) (pool : p.tree.pool o = .ok ())
    (read : p.tree.inflow p.source = { bytes := text })
    (room : p.tree.faults.write p.sink = none) : (tag system o).run w =
      (.ok (), p.tree.written (p.automaton.tagLines text) p.sink) := by
  have ends := p.ends
  generalize (tag system o).run w = ran at ends ⊢
  cases ends with
  | crash refused => cases pool.symm.trans refused
  | broken breaks =>
    cases breaks with
    | crash refused => cases pool.symm.trans refused
    | read fault _ =>
      rw [read] at fault
      cases fault
    | write full _ => cases room.symm.trans full
  | done _ held =>
    have whole : (p.tree.inflow p.source).whole = .ok text := by rw [read]; rfl
    cases held.symm.trans (whole_inflow whole).1
    rfl

end Prepared

theorem run_tag_of_source_error {w : Workspace} {o : Options} {a : Automaton} {f : Failure}
    (loads : w.automaton o = .ok a) (refused : w.source o = .error f) :
    (tag system o).run w = (.error f, w) := by
  have loaded : (loadAutomaton system o).run w = (.ok a, w) := by rw [run_loadAutomaton, loads]
  have opened : (openInput system o).run w = (.error f, w) := by rw [run_openInput, refused]
  rw [tag, run_bind_ok loaded, run_bind_error opened]

theorem ends_tag (w : Workspace) (o : Options) : (∃ f, (tag system o).run w = (.error f, w)) ∨
    ∃ p : Prepared w o, p.Ends ((tag system o).run w) := by
  -- Of the stages before reading only the last changes the tree, and not when it fails.
  have loaded := run_loadAutomaton w o
  have opened := run_openInput w o
  have created := run_createOutput w o
  cases loads : w.automaton o with
  | error f =>
    rw [loads] at loaded
    exact .inl ⟨f, run_bind_error loaded⟩
  | ok a =>
    rw [loads] at loaded
    cases opens : w.source o with
    | error f => exact .inl ⟨f, run_tag_of_source_error loads opens⟩
    | ok source =>
      rw [opens] at opened
      cases creates : w.sink o with
      | error f =>
        rw [creates] at created
        exact .inl ⟨f, (run_bind_ok loaded).trans
          ((run_bind_ok opened).trans (run_bind_error created))⟩
      | ok r =>
        let p : Prepared w o := ⟨a, source, r.1, r.2, loads, opens, creates⟩
        exact .inr ⟨p, p.ends⟩

/-! The whole run. -/

section Run

variable {w : Workspace} {args : List String} {o : Options}

theorem run_of_usage {e : UsageError} (h : parse args = .error e) : w.run args = (.usage e, w) := by
  unfold Workspace.run Command.run
  rw [h]
  rfl

theorem run_of_help (h : parse args = .ok .help) : (w.run args).1 = .done := by
  unfold Workspace.run Command.run
  rw [h]
  rfl

theorem run_of_tag (h : parse args = .ok (.tag o)) : w.run args =
    match (tag system o).run w with
    | (.ok (), after) => (.done, after)
    | (.error f, after) => (.failed f, after) := by
  unfold Workspace.run Command.run
  rw [h]
  simp only [bind, StateT.bind]
  rcases (tag system o).run w with ⟨_ | _, _⟩
  · rfl
  · rfl

end Run

end Workspace
end KeywordTagger.Command
