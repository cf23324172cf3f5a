import TapeLang.Proofs.Command.Compilation

/-!
An invocation publishes whole translations only.

`Untranslatable` lists the ways in which a source fails before anything is built from it: its name
is rejected, it cannot be read or decoded, or its text has a first error.  The part of such a
source is its report and nothing else, and a `.s` file in the part of any source is the complete
listing of the text that was read (`whole_partOf`).

Main statement: `invoke_publishes_whole`, every source of an invocation has such a part, on the
files that the ones before left, and the parts add up to the invocation.
-/

namespace TapeLang.Command

open File (Tree Location Path)
open Build (Environment Artifact Step install plan course)
open Assembly (Listing)
open Text (DecodeError)

/-- Why a source cannot be translated.  A source that cannot be decoded fails where that shows, or
where something in front of it is refused. -/
inductive Untranslatable (env : Environment) (s : Settings) (multiple : Bool) (tree : Tree)
    (path : String) : SourceFailure → Prop
  | misnamed : Build.outputPath? env.cwd.path path s.output multiple = none →
      Untranslatable env s multiple tree path .wrongSuffix
  | unreadable {e : File.FileError} : tree.read env.cwd path = .error e →
      Untranslatable env s multiple tree path (.file e)
  | undecodable {content : ByteArray} {e : DecodeError} {f : SourceFailure} :
      tree.read env.cwd path = .ok content → Text.decodeAll content = .error e →
      (∃ e, f = .decoding e) ∨ (∃ e, f = .invalid e) → Untranslatable env s multiple tree path f
  | refused {content : ByteArray} {text : String} {e : SourceError} :
      tree.read env.cwd path = .ok content → Text.decodeAll content = .ok text →
      FirstError (visible text.toList) e → Untranslatable env s multiple tree path (.invalid e)

/-- The failures that a part reports. -/
def Part.errors (p : Part) : List String :=
  p.notices.filterMap fun
    | .error text => some text
    | .log _ => none

/-- Nothing of a part comes from half a translation. -/
structure Part.Whole (env : Environment) (s : Settings) (size : Int) (multiple : Bool) (tree : Tree)
    (path : String) (p : Part) : Prop where
  /-- A source that cannot be translated runs no command and leaves no file, and fails. -/
  withheld : ∀ f, Untranslatable env s multiple tree path f →
    p.commands = [] ∧ p.artifacts = [] ∧ p.failed = true ∧
      ∃ f, Untranslatable env s multiple tree path f ∧ p.errors = [f.report path]
  /-- Every copy of the assembly is the complete listing of the text that was read. -/
  complete : ∀ output, Build.outputPath? env.cwd.path path s.output multiple = some output →
    ∀ a ∈ p.artifacts, Step.path? output .copyAssembly = some a.path →
      ∃ content text summary body, tree.read env.cwd path = .ok content ∧
        Text.decodeAll content = .ok text ∧
        (Listing.ofSource size (.ofString text : Source Empty)).result = .ok summary ∧
        (Listing.ofSource size (.ofString text : Source Empty)).code.toList =
          Assembly.prologue size ++ body ++ Assembly.epilogue ∧
        a.content = (Listing.ofSource size (.ofString text : Source Empty)).text.toUTF8
  /-- A failure is reported, once. -/
  reported : p.failed = true → ∃ f : SourceFailure, p.errors = [f.report path]
  /-- Nothing else is reported as a failure. -/
  silent : p.failed = false → p.errors = []

section

variable {env : Environment} {s : Settings} {size : Int} {multiple : Bool} {tree : Tree}
  {path : String}

theorem errors_failure (notices : List Notice) (f : SourceFailure)
    (hnotices : ∀ n ∈ notices, ∃ e, n = .log e) :
    (Part.failure path notices f).errors = [f.report path] := by
  have hquiet : (notices.filterMap fun
      | .error text => some text
      | .log _ => none) = ([] : List String) := by
    apply List.filterMap_eq_nil_iff.mpr
    intro n hn
    obtain ⟨e, rfl⟩ := hnotices n hn
    rfl
  rw [Part.errors, Part.failure, List.filterMap_append, hquiet]
  rfl

theorem errors_ofCourse (env : Environment) (path : String) (output : Path)
    (l : Listing DecodeError) (c : Build.Course) :
    (Part.ofCourse env path output l c).errors =
      match c.failure with
      | some e => [(SourceFailure.building e).report path]
      | none => [] := by
  cases hfailure : c.failure <;>
    simp [Part.errors, Part.ofCourse, hfailure, opening, completed, detail, List.filterMap_map]

/-- A source that cannot be translated adds its report to an invocation, and nothing else. -/
theorem partOf_of_untranslatable (hsize : size ≠ 0) {f : SourceFailure}
    (h : Untranslatable env s multiple tree path f) :
    ∃ notices f, (∀ n ∈ notices, ∃ e, n = Notice.log e) ∧
      Untranslatable env s multiple tree path f ∧
      partOf env s size multiple tree path = .failure path notices f := by
  have hopening : ∀ n ∈ [opening path], ∃ e, n = Notice.log e := by
    intro n hn
    rw [List.mem_singleton.mp hn]
    exact ⟨_, rfl⟩
  -- The failure that is reported need not be `f`: a source may have several, and the one that is
  -- met first counts.
  unfold partOf
  cases houtput : Build.outputPath? env.cwd.path path s.output multiple with
  | none => exact ⟨[], .wrongSuffix, by simp, .misnamed houtput, rfl⟩
  | some output =>
    cases hread : tree.read env.cwd path with
    | error e => exact ⟨[opening path], .file e, hopening, .unreadable hread, rfl⟩
    | ok content =>
      simp only [Except.mapError, Except.bind]
      cases hdecode : Text.decodeAll content with
      | error e =>
        rcases translate_of_decodeAll_error hdecode hsize with ⟨e', he'⟩ | ⟨e', he'⟩
        · rw [he']
          exact ⟨[opening path], .decoding e', hopening,
            .undecodable hread hdecode (.inl ⟨e', rfl⟩), rfl⟩
        · rw [he']
          exact ⟨[opening path], .invalid e', hopening,
            .undecodable hread hdecode (.inr ⟨e', rfl⟩), rfl⟩
      | ok text =>
        rcases translate_of_decodeAll hdecode hsize with ⟨hacceptable, -, -⟩ | ⟨e, hfirst, he⟩
        · -- The text is accepted, so nothing keeps the source from being translated.
          exfalso
          cases h with
          | misnamed hnone =>
            rw [houtput] at hnone
            cases hnone
          | unreadable herror =>
            rw [hread] at herror
            cases herror
          | undecodable hcontent herror _ =>
            rw [hread, Except.ok.injEq] at hcontent
            rw [← hcontent, hdecode] at herror
            cases herror
          | refused hcontent htext hfirst =>
            rw [hread, Except.ok.injEq] at hcontent
            rw [← hcontent, hdecode, Except.ok.injEq] at htext
            rw [← htext] at hfirst
            exact hacceptable.not_firstError _ hfirst
        · rw [he]
          exact ⟨[opening path], .invalid e, hopening, .refused hread hdecode hfirst, rfl⟩

/-- A part reports a failure just if it has one. -/
theorem errors_partOf (env : Environment) (s : Settings) (size : Int) (multiple : Bool)
    (tree : Tree) (path : String) :
    (∃ f : SourceFailure, (partOf env s size multiple tree path).failed = true ∧
      (partOf env s size multiple tree path).errors = [f.report path]) ∨
    ((partOf env s size multiple tree path).failed = false ∧
      (partOf env s size multiple tree path).errors = []) := by
  unfold partOf
  cases Build.outputPath? env.cwd.path path s.output multiple with
  | none => exact .inl ⟨.wrongSuffix, rfl, rfl⟩
  | some output =>
    cases ((tree.read env.cwd path).mapError .file).bind (translate size) with
    | error f => exact .inl ⟨f, rfl, rfl⟩
    | ok l =>
      dsimp only
      rw [errors_ofCourse, Part.ofCourse]
      cases (course (Step.attempt env tree l.text output) (plan s.kinds)).failure with
      | some e => exact .inl ⟨.building e, rfl, rfl⟩
      | none => exact .inr ⟨rfl, rfl⟩

/-- The part of a source in an invocation is whole. -/
theorem whole_partOf (hsize : size ≠ 0) :
    (partOf env s size multiple tree path).Whole env s size multiple tree path := by
  constructor
  case withheld =>
    intro f hf
    obtain ⟨notices, f, hnotices, hf, hpart⟩ := partOf_of_untranslatable hsize hf
    rw [hpart]
    exact ⟨rfl, rfl, rfl, f, hf, errors_failure notices f hnotices⟩
  case complete =>
    intro output houtput a ha hpath
    obtain ⟨output', l, step, houtput', htranslate, -, hstep, -, hcontent⟩ :=
      made_of_mem_artifacts ha
    obtain rfl := Option.some.inj (houtput.symm.trans houtput')
    obtain rfl := Step.path?_inj hstep hpath
    cases hread : tree.read env.cwd path with
    | error e =>
      rw [hread] at htranslate
      cases htranslate
    | ok content =>
      rw [hread] at htranslate
      obtain ⟨text, summary, hdecode, hresult, htext⟩ := translate_eq_ok hsize htranslate
      obtain ⟨body, hbody⟩ := code_complete hsize hresult
      refine ⟨content, text, summary, body, rfl, hdecode, hresult, hbody, ?_⟩
      rw [← htext, ← Except.ok.inj hcontent]
  case reported =>
    intro hfailed
    obtain ⟨f, -, herrors⟩ | ⟨hok, -⟩ := errors_partOf env s size multiple tree path
    · exact ⟨f, herrors⟩
    · rw [hok] at hfailed
      cases hfailed
  case silent =>
    intro hok
    obtain ⟨f, hfailed, -⟩ | ⟨-, herrors⟩ := errors_partOf env s size multiple tree path
    · rw [hok] at hfailed
      cases hfailed
    · exact herrors

end

/-- Every source has a part with some property, on the files that the sources before it left. -/
inductive Consecutive (holds : Tree → String → Part → Prop) : Tree → List String → List Part → Prop
  | nil {tree : Tree} : Consecutive holds tree [] []
  | cons {tree : Tree} {path : String} {rest : List String} {p : Part} {parts : List Part} :
      holds tree path p → Consecutive holds (install tree p.artifacts) rest parts →
      Consecutive holds tree (path :: rest) (p :: parts)

theorem consecutive_partsOf {env : Environment} {s : Settings} {tape : TapeConfig}
    (hsize : tape.size ≠ 0) {multiple : Bool} {tree : Tree} {sources : List String}
    (hready : env.Ready tree) (hclear : ∀ path ∈ sources, OutputClear env s multiple path) :
    Consecutive (fun tree path p => compileSource env s tape multiple tree path = p.outcome tree ∧
        p.Whole env s tape.size multiple tree path)
      tree sources (partsOf env s tape.size multiple tree sources) := by
  induction sources generalizing tree with
  | nil => exact .nil
  | cons path rest ih =>
    have hpath := hclear path List.mem_cons_self
    refine .cons ⟨compileSource_eq hready hpath tape, whole_partOf hsize⟩ ?_
    exact ih (ready_install_artifacts hready hpath) fun p hp =>
      hclear p (List.mem_cons_of_mem path hp)

/-- **Publication**: sources are compiled, with a tape size that is an integer.  Every source has a
part of its own, on the files that the ones before it left: it is all that becomes of the source,
and nothing in it comes from half a translation.  The invocation is the sum of these parts, and its
exit status tells whether one of the sources failed. -/
theorem invoke_publishes_whole {env : Environment} {tree : Tree} {arguments : List String}
    {s : Settings} {requested : Int} (hparse : parse arguments = .proceed s)
    (hrun : s.run = false) (htape : s.tapeSize = .value requested) (hready : env.Ready tree)
    (hclear : ∀ path ∈ s.sources, OutputClear env s (1 < s.sources.length) path) (fuel : Nat) :
    ∃ parts,
      Consecutive (fun tree path p =>
          compileSource env s (.ofRequested requested) (1 < s.sources.length) tree path =
            p.outcome tree ∧
          p.Whole env s (TapeConfig.ofRequested requested).size (1 < s.sources.length) tree path)
        tree s.sources parts ∧
      invoke env fuel tree arguments =
        if s.sources = [] then ⟨.ok 0, "Nothing to do. Try 'bfasm -h'\n", "", tree, []⟩
        else .ofParts s.verbose (.ofRequested requested) tree parts := by
  refine ⟨_, consecutive_partsOf (Listing.size_ofRequested_ne_zero requested) hready hclear, ?_⟩
  rw [invoke_of_proceed hparse htape, process_compile hrun hready hclear]

/-- A source with another suffix, one that is refused, and then one that is translated. -/
theorem invoke_publishes_whole_mixed :
    let env := Build.workshop fun _ => .exits 0
    let tree := Build.workshopTree [("a.bf", "+".toUTF8), ("b.bf", "]".toUTF8)]
    let s : Settings := { Settings.default with
      sources := ["x.txt", "b.bf", "a.bf"], assembly := true, tapeSize := .value 2 }
    ∃ parts,
      Consecutive (fun tree path p =>
          compileSource env s (.ofRequested 2) true tree path = p.outcome tree ∧
          p.Whole env s 2 true tree path) tree s.sources parts ∧
      invoke env 0 tree ["-S", "-s", "2", "x.txt", "b.bf", "a.bf"] =
        .ofParts false (.ofRequested 2) tree parts := by
  intro env tree s
  have hparse : parse ["-S", "-s", "2", "x.txt", "b.bf", "a.bf"] = .proceed s :=
    parse_of_options ["-S", "-s", "2"] ["x.txt", "b.bf", "a.bf"] []
      (.flag rfl rfl (.apart rfl rfl rfl .nil)) (by decide) .nil rfl
  have hready : env.Ready tree := Build.ready_workshop _ (by decide)
  have hclear : ∀ path ∈ s.sources, OutputClear env s true path := by
    intro path hpath
    simp only [s, List.mem_cons, List.not_mem_nil, or_false] at hpath
    obtain rfl | rfl | rfl := hpath
    · exact fun output houtput => by cases houtput
    · exact outputClear_workshop _ rfl
    · exact outputClear_workshop _ rfl
  exact invoke_publishes_whole hparse rfl rfl hready hclear 0

/-- A tape size that is left void ends the invocation, and a source with another suffix is not even
reported. -/
theorem invoke_void_tape_size :
    let env := Build.workshop fun _ => .exits 0
    let tree := Build.workshopTree []
    let s : Settings := { Settings.default with
      sources := ["x.txt"], assembly := true, tapeSize := .void }
    parse ["-S", "-s=--", "x.txt"] = .proceed s ∧
    Untranslatable env s false tree "x.txt" .wrongSuffix ∧
    invoke env 0 tree ["-S", "-s=--", "x.txt"] = ⟨.error .tapeSize, "", "", tree, []⟩ := by
  intro env tree s
  have hparse : parse ["-S", "-s=--", "x.txt"] = .proceed s :=
    parse_of_options ["-S", "-s=--"] ["x.txt"] [] (.flag rfl rfl (.attached rfl rfl .nil))
      (by decide) .nil rfl
  refine ⟨hparse, .misnamed rfl, ?_⟩
  simp only [invoke, hparse]
  rfl

end TapeLang.Command
