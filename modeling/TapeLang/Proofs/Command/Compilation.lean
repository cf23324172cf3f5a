import TapeLang.Proofs.Assembly.LoopLabels
import TapeLang.Proofs.Build.Effects
import TapeLang.Proofs.Build.Output
import TapeLang.Proofs.Chunking
import TapeLang.Proofs.Command.Batch
import TapeLang.Proofs.File.Stream

/-!
Compiling several sources in one invocation.

What a file is translated to depends on its text alone, however it is read
(`translate_of_decodeAll`).  The `Part` of a source in an invocation says what the source adds to
it: what it has to say, the commands that are run for it, the files it leaves behind and whether it
fails.  A part is found on the files that are there when its source is compiled
(`compileSource_eq`), and the parts of the sources, each found on the files that the ones before
left, add up to the invocation (`process_compile`).
-/

namespace TapeLang.Command

open File (Tree Location Path)
open Build (Environment Artifact Step install plan course normal_outputPath?)
open Assembly (Listing)
open Text (DecodeError)

/-! ### Translating a file -/

/-- A listing if it is complete, or why it is not. -/
def completeListing (l : Listing DecodeError) : Except SourceFailure (Listing DecodeError) :=
  match l.result with
  | .error (.interrupted (.invalid e)) => .error (.invalid e)
  | .error (.interrupted (.failed e)) => .error (.decoding e)
  | .error .emptyTape => .error .emptyTape
  | .ok _ => .ok l

/-- The listing of the text in a file, or why there is none. -/
def translate (size : Int) (content : ByteArray) : Except SourceFailure (Listing DecodeError) :=
  completeListing (Listing.ofSource size (File.stream content))

section

variable {size : Int} {content : ByteArray} {text : String}

/-- A file that can be decoded has the listings of its text. -/
theorem ofSource_stream (h : Text.decodeAll content = .ok text) :
    Listing.ofSource size (File.stream content) = Listing.ofSource size (.ofString text) := by
  obtain ⟨hfailure, hchunks, htext⟩ := File.stream_of_decodeAll h
  have hjoin : String.join (File.stream content).chunks = text := by
    rw [← String.toList_inj, ← htext]
    simp
  -- Chunks that are not empty are scanned like their concatenation.
  apply (Source.interchangeable_of_scan _).listing
  have hpull := Scanner.start.pull_append (none : Option DecodeError) hchunks []
  rw [List.append_nil, hjoin] at hpull
  rw [scan_ofString, scan_eq_pull, hfailure, hpull]

/-- A file that holds a text is translated like the text with its line ends unified. -/
theorem translate_toUTF8 (size : Int) (text : String) :
    translate size text.toUTF8 =
      completeListing (Listing.ofSource size
        (.ofString (String.ofList (Text.unify false text.toList)))) := by
  rw [translate, ofSource_stream (Text.decodeAll_toUTF8 text)]

/-- A file that cannot be decoded has no complete listing: something in front of the bytes that
cannot be decoded is refused, or they are met. -/
theorem result_stream_of_error {e : DecodeError} (h : Text.decodeAll content = .error e)
    (hsize : size ≠ 0) :
    ∃ i, (Listing.ofSource size (File.stream content)).result = .error (.interrupted i) := by
  obtain ⟨hfailure, hchunks⟩ := File.stream_of_decodeAll_error h
  have hstop : (runsOf (File.stream content)).stop ≠ none := by
    intro hnone
    have hscan := (runsOf_of_stop hnone).1
    have hpull := Scanner.start.pull_append (File.stream content).failure hchunks []
    rw [List.append_nil] at hpull
    rw [scan_eq_pull, hpull, Scanner.pull] at hscan
    obtain ⟨failure, hsome⟩ := Option.ne_none_iff_exists'.mp hfailure
    simp [hsome] at hscan
  have hrs : ∀ r ∈ (runsOf (File.stream content)).runs, r.Proper := fun _ => proper_runs
  obtain ⟨pointer, hresult⟩ := Listing.result_ofRuns hrs hsize
  cases hverdict : (runsOf (File.stream content)).verdict with
  | ok l => exact absurd (Runs.verdict_eq_ok hverdict).2.1 hstop
  | error i =>
    rw [hverdict] at hresult
    exact ⟨i, hresult⟩

theorem translate_of_decodeAll_error {e : DecodeError} (h : Text.decodeAll content = .error e)
    (hsize : size ≠ 0) :
    (∃ e, translate size content = .error (.decoding e)) ∨
      ∃ e, translate size content = .error (.invalid e) := by
  obtain ⟨i, hi⟩ := result_stream_of_error h hsize
  rw [translate, completeListing, hi]
  cases i with
  | invalid e => exact .inr ⟨e, rfl⟩
  | failed e => exact .inl ⟨e, rfl⟩

/-- What a file is translated to is what its text is translated to. -/
theorem translate_of_decodeAll (h : Text.decodeAll content = .ok text) (hsize : size ≠ 0) :
    (Acceptable (visible text.toList) ∧
      (∃ summary, (Listing.ofSource size (.ofString text : Source DecodeError)).result =
        .ok summary) ∧
      translate size content = .ok (Listing.ofSource size (.ofString text))) ∨
    ∃ e, FirstError (visible text.toList) e ∧ translate size content = .error (.invalid e) := by
  rw [translate, ofSource_stream h]
  rcases listing_text_cases text hsize with ⟨hacceptable, summary, hresult⟩ | ⟨e, hfirst, hresult⟩
  · exact .inl ⟨hacceptable, ⟨summary, hresult⟩, by rw [completeListing, hresult]⟩
  · exact .inr ⟨e, hfirst, by rw [completeListing, hresult]⟩

/-- How reads might fail does not matter to a text that is given as a whole. -/
theorem code_ofString (ε ε' : Type) (size : Int) (text : String) :
    (Listing.ofSource size (.ofString text : Source ε)).code =
      (Listing.ofSource size (.ofString text : Source ε')).code := by
  rw [Listing.ofSource, Listing.ofSource, Listing.ofRuns, Listing.ofRuns,
    runsOf_eq (Source.outcome_ofString text), runsOf_eq (Source.outcome_ofString text),
    Source.text_ofString, Source.text_ofString]
  dsimp only
  generalize List.foldl Assembly.Emitter.run _ _ = e
  cases e.error with
  | some err => rfl
  | none =>
    cases (readGlyphs (visible text.toList)).2 with
    | some err => rfl
    | none => cases e.labels.finish <;> rfl

/-- A translation is the complete listing of the text in the file. -/
theorem translate_eq_ok {l : Listing DecodeError} (hsize : size ≠ 0)
    (h : translate size content = .ok l) :
    ∃ text summary, Text.decodeAll content = .ok text ∧
      (Listing.ofSource size (.ofString text : Source Empty)).result = .ok summary ∧
      l.text = (Listing.ofSource size (.ofString text : Source Empty)).text := by
  cases hdecode : Text.decodeAll content with
  | error e =>
    rcases translate_of_decodeAll_error hdecode hsize with ⟨e', he'⟩ | ⟨e', he'⟩ <;>
      · rw [he'] at h
        cases h
  | ok text =>
    rcases translate_of_decodeAll hdecode hsize with ⟨hacceptable, -, hl⟩ | ⟨e, -, he⟩
    · rw [hl] at h
      obtain rfl := Except.ok.inj h
      rcases listing_text_cases (ε := Empty) text hsize with ⟨-, summary, hresult⟩ | ⟨e, hfirst, -⟩
      · refine ⟨text, summary, rfl, hresult, ?_⟩
        rw [Listing.text, Listing.text, code_ofString DecodeError Empty]
      · exact absurd hfirst (hacceptable.not_firstError e)
    · rw [he] at h
      cases h

/-- A complete listing has everything from the prologue to the epilogue. -/
theorem code_complete {ε : Type} {source : Source ε} {summary : Assembly.Summary} (hsize : size ≠ 0)
    (h : (Listing.ofSource size source).result = .ok summary) :
    ∃ body, (Listing.ofSource size source).code.toList =
      Assembly.prologue size ++ body ++ Assembly.epilogue := by
  have hstart : Assembly.prologue size <+:
      (Assembly.Emitter.upTo size (scan source).tokens).code.toList := by
    have hcode := Assembly.Emitter.prefix_foldl Assembly.Emitter.prefix_run
      (groupRuns (scan source).tokens)
      ((Assembly.Emitter.start size).append (Assembly.prologue size))
    rw [Assembly.Emitter.toList_code_append] at hcode
    exact hcode
  obtain ⟨body, hbody⟩ := hstart
  exact ⟨body, by rw [Listing.code_of_result hsize h, hbody]⟩

end

/-! ### Parts -/

/-- What a source adds to an invocation. -/
structure Part where
  notices : List Notice
  commands : List (List String)
  artifacts : List Artifact
  failed : Bool

/-- The notice at the beginning of a source. -/
def opening (path : String) : Notice := detail ("Opening '" ++ path ++ "'")

namespace Part

/-- The part of a source that fails before anything was built. -/
def failure (path : String) (notices : List Notice) (f : SourceFailure) : Part :=
  ⟨notices ++ [.error (f.report path)], [], [], true⟩

/-- The part of a source that was translated, by the course of its build. -/
def ofCourse (env : Environment) (path : String) (output : Path) (l : Listing DecodeError)
    (c : Build.Course) : Part where
  notices :=
    [opening path] ++ l.log.map .log ++
      [detail ("Parsing '" ++ path ++ "' and generating assembly completed")] ++
      (c.log env output).map .log ++
      match c.failure with
      | some e => [.error ((SourceFailure.building e).report path)]
      | none => c.made.map (fun a => detail ("Wrote '" ++ a.path.render ++ "'")) ++ [completed path]
  commands := c.tried.filterMap (Step.command? env output)
  artifacts := c.made
  failed := c.failure.isSome

/-- What becomes of a source with some part. -/
def outcome (p : Part) (tree : Tree) : Outcome :=
  ⟨install tree p.artifacts, p.commands, p.notices, #[], if p.failed then .failure else .success⟩

end Part

/-- The part of the source at a path, on the files that are there. -/
def partOf (env : Environment) (s : Settings) (size : Int) (multiple : Bool) (tree : Tree)
    (path : String) : Part :=
  match Build.outputPath? env.cwd.path path s.output multiple with
  | none => .failure path [] .wrongSuffix
  | some output =>
    match ((tree.read env.cwd path).mapError .file).bind (translate size) with
    | .error f => .failure path [opening path] f
    | .ok l =>
      .ofCourse env path output l (course (Step.attempt env tree l.text output) (plan s.kinds))

section

variable {env : Environment} {s : Settings} {size : Int} {multiple : Bool} {tree : Tree}
  {path : String} {output : Path} {content : ByteArray}

theorem partOf_of_translate {l : Listing DecodeError}
    (houtput : Build.outputPath? env.cwd.path path s.output multiple = some output)
    (hread : tree.read env.cwd path = .ok content) (htranslate : translate size content = .ok l) :
    partOf env s size multiple tree path =
      .ofCourse env path output l
        (course (Step.attempt env tree l.text output) (plan s.kinds)) := by
  simp only [partOf, houtput, hread, Except.mapError, Except.bind, htranslate]

theorem partOf_of_translate_error {f : SourceFailure}
    (houtput : Build.outputPath? env.cwd.path path s.output multiple = some output)
    (hread : tree.read env.cwd path = .ok content)
    (htranslate : translate size content = .error f) :
    partOf env s size multiple tree path = .failure path [opening path] f := by
  simp only [partOf, houtput, hread, Except.mapError, Except.bind, htranslate]

end

/-- The output of a source, and of every file beside it, lies outside the temporary directory. -/
def OutputClear (env : Environment) (s : Settings) (multiple : Bool) (path : String) : Prop :=
  ∀ output, Build.outputPath? env.cwd.path path s.output multiple = some output →
    env.Clear output

theorem proper_workshop : ∀ part ∈ ["work"], File.Proper part := by
  decide

/-- An output in the current directory or above it lies outside the temporary directory, unless it
is called like it. -/
theorem outputClear_of_dropLast_prefix {env : Environment} {s : Settings} {multiple : Bool}
    {path : String} {parts : Location} (hcwd : ∀ part ∈ env.cwd, File.Proper part)
    (h : Build.outputPath? env.cwd.path path s.output multiple = some parts.path)
    (hne : parts ≠ []) (hfront : parts.dropLast <+: env.cwd) (houtside : ¬ env.temp <+: env.cwd)
    (hother : ∀ step : Step,
      env.temp ≠ parts.dropLast ++ [parts.path.name ++ step.suffix]) :
    OutputClear env s multiple path := by
  intro output houtput step p hp hmem
  have hnormal := Step.normal_path? (normal_outputPath? (Tree.normal_path hcwd) houtput) hp
  obtain rfl := Option.some.inj (h.symm.trans houtput)
  obtain rfl := Step.path?_eq_some hne hp
  obtain hup | hend := Tree.mem_visited_of_dropLast_prefix hnormal rfl hcwd
    (by simpa [Location.path] using hfront) hmem
  · exact houtside hup
  · exact hother step hend

/-- In a workshop the temporary directory is out of the way. -/
theorem outputClear_workshop (tools : Build.Toolbox) {s : Settings} {multiple : Bool}
    {path name : String}
    (h : Build.outputPath? (Location.path ["work"]) path s.output multiple =
      some ⟨.root, ["work", name]⟩) : OutputClear (Build.workshop tools) s multiple path := by
  have hplace : Build.outputPath? (Build.workshop tools).cwd.path path s.output multiple =
      some (Location.path ["work", name]) := h
  apply outputClear_of_dropLast_prefix proper_workshop hplace (by simp) (by simp [Build.workshop])
  · exact (by decide : ¬ ["temp"] <+: ["work"])
  · intro step
    simp [Build.workshop]

theorem compileSource_eq {env : Environment} {tree : Tree} (hready : env.Ready tree) {s : Settings}
    {multiple : Bool} {path : String} (hclear : OutputClear env s multiple path)
    (tape : TapeConfig) :
    compileSource env s tape multiple tree path =
      (partOf env s tape.size multiple tree path).outcome tree := by
  unfold compileSource partOf
  cases houtput : Build.outputPath? env.cwd.path path s.output multiple with
  | none => rfl
  | some output =>
    have hnormal : output.Normal :=
      normal_outputPath? (Tree.normal_path (hready.wellFormed.proper_of_mem hready.cwd)) houtput
    have hbuild := Build.build_eq hready hnormal (hclear output houtput)
    cases hread : tree.read env.cwd path with
    | error e => rfl
    | ok content =>
      simp only [hbuild, Except.mapError, Except.bind, translate, completeListing]
      generalize Listing.ofSource tape.size (File.stream content) = l
      cases hresult : l.result with
      | error e =>
        cases e with
        | interrupted i => cases i <;> rfl
        | emptyTape => rfl
      | ok summary =>
        dsimp only
        generalize course (Step.attempt env tree l.text output) (plan s.kinds) = c
        cases hfailure : c.failure <;>
          simp [Build.Course.report, Build.Course.result, Part.ofCourse, Part.outcome, hfailure,
            Except.map, opening, Function.comp_def]

/-! ### The files between two sources -/

/-- Artifacts are what the steps of a build make of a complete listing. -/
theorem made_of_mem_artifacts {env : Environment} {s : Settings} {size : Int} {multiple : Bool}
    {tree : Tree} {path : String} {a : Artifact}
    (ha : a ∈ (partOf env s size multiple tree path).artifacts) :
    ∃ output l step, Build.outputPath? env.cwd.path path s.output multiple = some output ∧
      ((tree.read env.cwd path).mapError .file).bind (translate size) = .ok l ∧
      step ∈ plan s.kinds ∧ Step.path? output step = some a.path ∧
      tree.target env.cwd a.path.render = .ok a.place ∧
      step.content env l.text output = .ok a.content := by
  unfold partOf at ha
  cases houtput : Build.outputPath? env.cwd.path path s.output multiple with
  | none =>
    rw [houtput] at ha
    cases ha
  | some output =>
    rw [houtput] at ha
    cases htranslate : ((tree.read env.cwd path).mapError .file).bind (translate size) with
    | error f =>
      rw [htranslate] at ha
      cases ha
    | ok l =>
      rw [htranslate] at ha
      obtain ⟨done, rest, hplan, -, hmade, -⟩ :=
        Build.course_cases (Step.attempt env tree l.text output) (plan s.kinds)
      have hmem : a ∈ done.filterMap (Build.made? (Step.attempt env tree l.text output)) := by
        rw [← hmade]
        exact ha
      obtain ⟨step, hdone, hstep⟩ := List.mem_filterMap.mp hmem
      have hneeded : step ∈ plan s.kinds := by
        rw [hplan]
        exact List.mem_append_left rest hdone
      exact ⟨output, l, step, rfl, rfl, hneeded, Build.made?_eq_some hstep⟩

theorem ready_install_artifacts {env : Environment} {s : Settings} {size : Int} {multiple : Bool}
    {tree : Tree} {path : String} (hready : env.Ready tree)
    (hclear : OutputClear env s multiple path) :
    env.Ready (install tree (partOf env s size multiple tree path).artifacts) := by
  apply hready.install
  intro a ha
  obtain ⟨output, l, step, houtput, -, -, hstep, htarget, -⟩ := made_of_mem_artifacts ha
  exact ⟨htarget, hclear output houtput step a.path hstep⟩

/-! ### Adding up parts -/

/-- The parts of sources that are compiled one after the other, each on the files that the one
before left. -/
def partsOf (env : Environment) (s : Settings) (size : Int) (multiple : Bool) :
    Tree → List String → List Part
  | _, [] => []
  | tree, path :: rest =>
    let p := partOf env s size multiple tree path
    p :: partsOf env s size multiple (install tree p.artifacts) rest

/-- What becomes of sources with some parts. -/
def outcomesOf : Tree → List Part → List Outcome
  | _, [] => []
  | tree, p :: parts => p.outcome tree :: outcomesOf (install tree p.artifacts) parts

/-- The lines that a source adds to the standard error. -/
def Part.lines (verbose : Bool) (p : Part) : List String := p.notices.flatMap (·.lines verbose)

/-- The report on sources with some parts: the notices on the tape, and the sum of the parts. -/
def Report.ofParts (verbose : Bool) (tape : TapeConfig) (tree : Tree) (parts : List Part) :
    Report where
  exit := .ok (if ∃ p ∈ parts, p.failed = true then 1 else 0)
  stdout := ""
  stderr := String.join ((tape.notices.map ("INFO: " ++ ·) ++
    parts.flatMap (Part.lines verbose)).map (· ++ "\n"))
  tree := install tree (parts.flatMap (·.artifacts))
  commands := parts.flatMap (·.commands)

theorem processAll_compile {env : Environment} {s : Settings} {tape : TapeConfig} {multiple : Bool}
    {tree : Tree} {sources : List String} (hready : env.Ready tree)
    (hclear : ∀ path ∈ sources, OutputClear env s multiple path) :
    processAll (compileSource env s tape multiple) tree sources =
      outcomesOf tree (partsOf env s tape.size multiple tree sources) := by
  induction sources generalizing tree with
  | nil => rfl
  | cons path rest ih =>
    have hpath := hclear path List.mem_cons_self
    have hnext : env.Ready (install tree (partOf env s tape.size multiple tree path).artifacts) :=
      ready_install_artifacts hready hpath
    have hrest := ih hnext fun p hp => hclear p (List.mem_cons_of_mem path hp)
    rw [processAll, compileSource_eq hready hpath, partsOf, outcomesOf]
    cases hfailed : (partOf env s tape.size multiple tree path).failed <;>
      simp [Part.outcome, hfailed, hrest]

section

variable (tree : Tree) (parts : List Part)

theorem exitStatus_outcomesOf : exitStatus (outcomesOf tree parts) =
    .ok (if ∃ p ∈ parts, p.failed = true then 1 else 0) := by
  -- A failure settles the status, so the induction is over the status to start from.
  suffices hfrom : ∀ status : Int, List.foldlM (m := Except Gap) _ status _ =
      .ok (if ∃ p ∈ parts, p.failed = true then 1 else status) from hfrom 0
  induction parts generalizing tree with
  | nil =>
    intro status
    simp [outcomesOf, pure, Except.pure]
  | cons p parts ih =>
    intro status
    rw [outcomesOf, List.foldlM_cons]
    cases hp : p.failed with
    | false =>
      refine Eq.trans ?_ ((ih (install tree p.artifacts) status).trans ?_)
      · simp [Part.outcome, hp]
        rfl
      · simp [hp]
    | true =>
      refine Eq.trans ?_ ((ih (install tree p.artifacts) 1).trans ?_)
      · simp [Part.outcome, hp]
        rfl
      · simp [hp]

theorem flatMap_outcomesOf {α : Type} (f : Outcome → List α) (g : Part → List α)
    (h : ∀ p t, f (p.outcome t) = g p) : (outcomesOf tree parts).flatMap f = parts.flatMap g := by
  induction parts generalizing tree with
  | nil => rfl
  | cons p parts ih => rw [outcomesOf, List.flatMap_cons, List.flatMap_cons, h, ih]

theorem stdout_outcomesOf (out : String) :
    (outcomesOf tree parts).foldl (fun out o => out ++ textOfBytes o.output) out = out := by
  induction parts generalizing tree with
  | nil => rfl
  | cons p parts ih =>
    have hnone : out ++ textOfBytes (p.outcome tree).output = out := String.append_empty
    rw [outcomesOf, List.foldl_cons, hnone, ih]

/-- The files in the end are those that the last source left. -/
theorem tree_getLast?_cons (o : Outcome) (outcomes : List Outcome) (tree : Tree) :
    ((o :: outcomes).getLast?.map (·.tree)).getD tree =
      (outcomes.getLast?.map (·.tree)).getD o.tree := by
  rw [List.getLast?_cons]
  cases outcomes.getLast? <;> rfl

theorem tree_outcomesOf : ((outcomesOf tree parts).getLast?.map (·.tree)).getD tree =
    install tree (parts.flatMap (·.artifacts)) := by
  induction parts generalizing tree with
  | nil => rfl
  | cons p parts ih =>
    rw [outcomesOf, List.flatMap_cons, Build.install_append, ← ih (install tree p.artifacts)]
    exact tree_getLast?_cons (p.outcome tree) _ tree

end

/-- The parts of its sources add up to an invocation. -/
theorem process_compile {env : Environment} {s : Settings} {tree : Tree} (hrun : s.run = false)
    (hready : env.Ready tree)
    (hclear : ∀ path ∈ s.sources, OutputClear env s (1 < s.sources.length) path)
    (requested : Int) (fuel : Nat) :
    s.process requested env fuel tree =
      .ofParts s.verbose (.ofRequested requested) tree
        (partsOf env s (TapeConfig.ofRequested requested).size (1 < s.sources.length) tree
          s.sources) := by
  simp only [Settings.process, hrun, Bool.false_and, Bool.false_eq_true, if_false]
  rw [processAll_compile hready hclear, Report.ofParts, Report.mk.injEq]
  refine ⟨exitStatus_outcomesOf _ _, stdout_outcomesOf _ _ _, ?_, tree_outcomesOf _ _, ?_⟩
  · rw [textOfLines_eq_join, List.flatMap_append, lines_log_tape,
      flatMap_outcomesOf _ _ (·.notices) (·.notices) fun _ _ => rfl, List.flatMap_assoc]
    rfl
  · exact flatMap_outcomesOf _ _ (·.commands) (·.commands) fun _ _ => rfl

end TapeLang.Command
