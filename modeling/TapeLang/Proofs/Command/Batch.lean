import TapeLang.Command.Invocation
import TapeLang.Proofs.Command.Arguments
import TapeLang.Proofs.Outcome

/-!
Running several sources in one invocation.

`RunsTo` says what running a single source comes to, in terms of the file, its text and its
execution without fuel: its output, or the one reason why there is none.  A source that is run
leaves the files as they are and never breaks the invocation off, so that every source meets the
files that the first one met, and what the sources come to one by one (`runSource_of_runsTo`) is
added up (`process_of_outcomes`).

Main statement: `invoke_run_sources`, the report on an invocation is the sum of what its sources
come to, in the order in which they are given, and each of them comes to what it comes to alone.
Only an invocation without sources says something of its own.
-/

namespace TapeLang.Command

open File (Tree Location)
open Build (Environment)

/-! ### What running a source comes to -/

/-- The output of a source that is run, or why there is none. -/
abbrev Result := Except SourceFailure (Array UInt8)

/-- What executing a text under a budget comes to. -/
inductive ExecutesTo (size : Nat) (input : List Int) (budget : Option Int) (text : String) :
    Result → Prop
  /-- It has a first error. -/
  | refused {e : SourceError} :
      FirstError (visible text.toList) e →
      ExecutesTo size input budget text (.error (.invalid e))
  /-- It does not end within the budget. -/
  | exceeded {n : Int} :
      Acceptable (visible text.toList) → budget = some n →
      ¬ (.ofString text : Source Empty).EndsWithin size input n.toNat →
      ExecutesTo size input budget text (.error .stepLimit)
  /-- It ends by itself, within the budget if there is one. -/
  | ended {k : Nat} {m : Machine} :
      (.ofString text : Source Empty).EndsAt size input k m →
      (∀ n, budget = some n → k ≤ n.toNat) →
      ExecutesTo size input budget text (.ok m.output)

/-- What running the source at a path comes to. -/
inductive RunsTo (cwd : Location) (tree : Tree) (size : Nat) (input : List Int)
    (budget : Option Int) (path : String) : Result → Prop
  | unreadable {f : SourceFailure} :
      readSource cwd tree path = .error f → RunsTo cwd tree size input budget path (.error f)
  | readable {text : String} {r : Result} :
      readSource cwd tree path = .ok text → ExecutesTo size input budget text r →
      RunsTo cwd tree size input budget path r

/-- The execution of a text comes to an end: by itself, or because it exceeds its budget. -/
def Settles (size : Nat) (input : List Int) (budget : Option Int) (text : String) : Prop :=
  (∃ k m, (.ofString text : Source Empty).EndsAt size input k m) ∨
  ∃ n, budget = some n ∧ ¬ (.ofString text : Source Empty).EndsWithin size input n.toNat

section

variable {cwd : Location} {tree : Tree} {size : Nat} {input : List Int} {budget : Option Int}
  {path text : String} {r r' : Result}

/-- A text is executed to one result only. -/
theorem ExecutesTo.unique (h : ExecutesTo size input budget text r)
    (h' : ExecutesTo size input budget text r') : r = r' := by
  cases h with
  | refused hfirst =>
    cases h' with
    | refused hfirst' => rw [hfirst.unique hfirst']
    | exceeded hacceptable => exact absurd hfirst (hacceptable.not_firstError _)
    | ended hends => exact absurd hfirst ((acceptable_of_endsAt hends).not_firstError _)
  | exceeded hacceptable hbudget hnever =>
    cases h' with
    | refused hfirst => exact absurd hfirst (hacceptable.not_firstError _)
    | exceeded => rfl
    | ended hends hwithin => exact absurd ⟨_, _, hwithin _ hbudget, hends⟩ hnever
  | ended hends hwithin =>
    cases h' with
    | refused hfirst => exact absurd hfirst ((acceptable_of_endsAt hends).not_firstError _)
    | exceeded _ hbudget hnever => exact absurd ⟨_, _, hwithin _ hbudget, hends⟩ hnever
    | ended hends' => rw [(hends.unique hends').2]

/-- A text whose execution settles, if it is acceptable at all, is executed to some result. -/
theorem exists_executesTo
    (hsettles : Acceptable (visible text.toList) → Settles size input budget text) :
    ∃ r, ExecutesTo size input budget text r := by
  by_cases hacceptable : Acceptable (visible text.toList)
  · by_cases hwithin : ∃ n, budget = some n ∧
        ¬ (.ofString text : Source Empty).EndsWithin size input n.toNat
    · obtain ⟨n, hbudget, hnever⟩ := hwithin
      exact ⟨_, .exceeded hacceptable hbudget hnever⟩
    · obtain ⟨k, m, hends⟩ := (hsettles hacceptable).resolve_right hwithin
      refine ⟨_, .ended hends fun n hbudget => ?_⟩
      by_contra hk
      refine hwithin ⟨n, hbudget, ?_⟩
      rintro ⟨k', m', hk', hends'⟩
      rw [(hends.unique hends').1] at hk
      exact hk hk'
  · obtain ⟨e, hfirst⟩ := not_acceptable_iff.mp hacceptable
    exact ⟨_, .refused hfirst⟩

/-- Running a source comes to one thing only. -/
theorem RunsTo.unique (h : RunsTo cwd tree size input budget path r)
    (h' : RunsTo cwd tree size input budget path r') : r = r' := by
  cases h with
  | unreadable hread =>
    cases h' with
    | unreadable hread' =>
      rw [hread] at hread'
      cases hread'
      rfl
    | readable hread' =>
      rw [hread] at hread'
      cases hread'
  | readable hread hr =>
    cases h' with
    | unreadable hread' =>
      rw [hread] at hread'
      cases hread'
    | readable hread' hr' =>
      rw [hread] at hread'
      cases hread'
      exact hr.unique hr'

theorem exists_runsTo (hsettles : ∀ text, readSource cwd tree path = .ok text →
      Acceptable (visible text.toList) → Settles size input budget text) :
    ∃ r, RunsTo cwd tree size input budget path r := by
  cases hread : readSource cwd tree path with
  | error f => exact ⟨_, .unreadable hread⟩
  | ok text =>
    obtain ⟨r, hr⟩ := exists_executesTo (hsettles text hread)
    exact ⟨r, .readable hread hr⟩

end

/-! ### One source -/

/-- The outcome of a source that is run. -/
def Outcome.ofResult (tree : Tree) (path : String) : Result → Outcome
  | .ok output => ⟨tree, [], [completed path], output, .success⟩
  | .error f => .failure tree path [] f

theorem Outcome.tree_ofResult (tree : Tree) (path : String) (r : Result) :
    (ofResult tree path r).tree = tree := by
  cases r <;> rfl

theorem Outcome.commands_ofResult (tree : Tree) (path : String) (r : Result) :
    (ofResult tree path r).commands = [] := by
  cases r <;> rfl

/-- Running a source has the outcome it deserves, given enough fuel. -/
theorem runSource_of_runsTo {cwd : Location} {tree : Tree} {s : Settings} {tape : TapeConfig}
    {budget : Option Int} {path : String} {r : Result} (hbudget : s.maxSteps = budget.map .value)
    (hsize : 0 < tape.size.toNat)
    (h : RunsTo cwd tree tape.size.toNat (inputBytes s.input) budget path r) :
    ∃ enough, ∀ fuel, enough ≤ fuel →
      runSource cwd s tape fuel tree path = .ofResult tree path r := by
  have hset : s.budget = budget := by
    rw [Settings.budget, hbudget]
    cases budget <;> rfl
  have hvoid : s.maxSteps ≠ some .void := by
    rw [hbudget]
    cases budget <;> simp
  cases h with
  | unreadable hread =>
    refine ⟨0, fun fuel _ => ?_⟩
    unfold runSource
    simp only [hread, Outcome.ofResult]
  | @readable text _ hread hr =>
    -- Of the three ways in which an execution comes out, the result leaves one.
    have hcases := execute_text_cases (ε := Empty) text hsize (inputBytes s.input) budget
    cases hr with
    | refused hfirst =>
      refine ⟨0, fun fuel _ => ?_⟩
      rcases hcases fuel with ⟨e, hfirst', hexecute⟩ | ⟨k, m, -, hends, -⟩ | ⟨hacceptable, -⟩
      · rw [hfirst.unique hfirst']
        unfold runSource
        simp only [hread, hset, hexecute, Outcome.ofResult]
      · exact absurd hfirst ((acceptable_of_endsAt hends).not_firstError _)
      · exact absurd hfirst (hacceptable.not_firstError _)
    | exceeded hacceptable hn hnever =>
      subst hn
      refine ⟨0, fun fuel _ => ?_⟩
      rcases hcases fuel with ⟨e, hfirst, -⟩ | ⟨k, m, hk, hends, -⟩ | ⟨-, -, hexecute⟩
      · exact absurd hfirst (hacceptable.not_firstError _)
      · exact absurd ⟨k, m, hk, hends⟩ hnever
      · unfold runSource
        simp only [hread, hset, hexecute, exhaustion, Outcome.ofResult]
        rw [if_neg hvoid]
    | @ended k m hends hwithin =>
      refine ⟨k, fun fuel hfuel => ?_⟩
      have hk : k ≤ allowance budget fuel := by
        cases budget with
        | none => exact hfuel
        | some n => exact hwithin n rfl
      rcases hcases fuel with ⟨e, hfirst, -⟩ | ⟨k', m', -, hends', hexecute⟩ | ⟨-, hnever, -⟩
      · exact absurd hfirst ((acceptable_of_endsAt hends).not_firstError _)
      · obtain ⟨rfl, rfl⟩ := hends.unique hends'
        unfold runSource
        simp only [hread, hset, hexecute, Outcome.ofResult]
      · exact absurd ⟨k, m, hk, hends⟩ hnever

/-- There is fuel that is enough for all sources. -/
theorem runSource_of_runs {cwd : Location} {tree : Tree} {s : Settings} {tape : TapeConfig}
    {budget : Option Int} {sources : List String} {result : String → Result}
    (hbudget : s.maxSteps = budget.map .value) (hsize : 0 < tape.size.toNat)
    (h : ∀ path ∈ sources,
      RunsTo cwd tree tape.size.toNat (inputBytes s.input) budget path (result path)) :
    ∃ enough, ∀ fuel, enough ≤ fuel → ∀ path ∈ sources,
      runSource cwd s tape fuel tree path = .ofResult tree path (result path) := by
  induction sources with
  | nil => exact ⟨0, fun _ _ _ hpath => nomatch hpath⟩
  | cons path rest ih =>
    obtain ⟨hpath, hrest⟩ := List.forall_mem_cons.mp h
    obtain ⟨n, hn⟩ := runSource_of_runsTo hbudget hsize hpath
    obtain ⟨n', hn'⟩ := ih hrest
    refine ⟨max n n', fun fuel hfuel => List.forall_mem_cons.mpr ⟨?_, ?_⟩⟩
    · exact hn fuel (by omega)
    · exact hn' fuel (by omega)

/-! ### All sources -/

/-- What a source adds to the standard output: all that its program wrote, one character for each
byte, and nothing if it failed. -/
def written : Result → String
  | .ok output => String.ofList (output.toList.map fun b => Char.ofNat b.toNat)
  | .error _ => ""

/-- The lines that a source adds to the standard error: the report of its failure, or that it is
done, if that is asked for. -/
def said (verbose : Bool) (path : String) : Result → List String
  | .ok _ => if verbose then ["Compilation of '" ++ path ++ "' completed"] else []
  | .error f => [f.report path]

/-- The report on sources that were run on a tape: the notices on the tape, and then the sum of what
the sources came to. -/
def Report.ofResults (verbose : Bool) (tape : TapeConfig) (tree : Tree) (sources : List String)
    (result : String → Result) : Report where
  exit := .ok (if ∃ path ∈ sources, (result path).isOk = false then 1 else 0)
  stdout := String.join (sources.map fun path => written (result path))
  stderr := String.join ((tape.notices.map ("INFO: " ++ ·) ++
    sources.flatMap fun path => said verbose path (result path)).map (· ++ "\n"))
  tree := tree
  commands := []

/-- Sources that leave the files alone are processed independently of each other. -/
theorem processAll_eq_map {process : Tree → String → Outcome} {tree : Tree}
    {result : String → Result} {sources : List String}
    (h : ∀ path ∈ sources, process tree path = .ofResult tree path (result path)) :
    processAll process tree sources =
      sources.map fun path => .ofResult tree path (result path) := by
  induction sources with
  | nil => rfl
  | cons path rest ih =>
    have hrest := ih fun p hp => h p (List.mem_cons_of_mem path hp)
    rw [processAll, h path List.mem_cons_self, List.map_cons]
    cases result path with
    | ok output => exact congrArg (List.cons _) hrest
    | error f => exact congrArg (List.cons _) hrest

/-- The exit status tells whether a source failed. -/
theorem exitStatus_ofResult (tree : Tree) (sources : List String) (result : String → Result) :
    exitStatus (sources.map fun path => .ofResult tree path (result path)) =
      .ok (if ∃ path ∈ sources, (result path).isOk = false then 1 else 0) := by
  -- Once the status is one it stays one, so the induction is over the status to start from.
  suffices hfrom : ∀ status : Int, List.foldlM (m := Except Gap) _ status _ =
      .ok (if ∃ path ∈ sources, (result path).isOk = false then 1 else status) from hfrom 0
  induction sources with
  | nil =>
    intro status
    simp [pure, Except.pure]
  | cons path rest ih =>
    intro status
    rw [List.map_cons, List.foldlM_cons]
    cases hr : result path with
    | ok output =>
      have hok : (result path).isOk = true := by rw [hr]; rfl
      refine (ih status).trans ?_
      simp only [List.exists_mem_cons_iff, hok, Bool.true_eq_false, false_or]
    | error f =>
      have hfailed : (result path).isOk = false := by rw [hr]; rfl
      have hsome : ∃ p ∈ path :: rest, (result p).isOk = false :=
        ⟨path, List.mem_cons_self, hfailed⟩
      refine (ih 1).trans ?_
      rw [if_pos hsome, ite_self]

theorem foldl_append_eq_join {α : Type} (f : α → String) (l : List α) :
    l.foldl (fun s a => s ++ f a) "" = String.join (l.map f) := by
  rw [String.join, List.foldl_map]

theorem textOfLines_eq_join (lines : List String) :
    textOfLines lines = String.join (lines.map (· ++ "\n")) := by
  rw [← foldl_append_eq_join]
  simp only [textOfLines, String.append_assoc]

theorem lines_log_tape (verbose : Bool) (tape : TapeConfig) :
    (tape.log.map Notice.log).flatMap (·.lines verbose) = tape.notices.map ("INFO: " ++ ·) := by
  rw [TapeConfig.log, List.map_map, List.flatMap_map, List.map_eq_flatMap]
  simp [Notice.lines]

theorem lines_ofResult (verbose : Bool) (tree : Tree) (path : String) (r : Result) :
    (Outcome.ofResult tree path r).notices.flatMap (·.lines verbose) = said verbose path r := by
  cases r with
  | ok output => cases verbose <;> rfl
  | error f => rfl

theorem textOfBytes_ofResult (tree : Tree) (path : String) (r : Result) :
    textOfBytes (Outcome.ofResult tree path r).output = written r := by
  cases r with
  | ok output => exact textOfBytes_eq output
  | error f => rfl

/-- What sources come to one by one adds up to the report on them. -/
theorem process_of_outcomes {s : Settings} {requested : Int} {env : Environment} {fuel : Nat}
    {tree : Tree} {result : String → Result} (hrun : s.run = true)
    (hsize : (TapeConfig.ofRequested requested).size ≤ maxRunTapeSize)
    (h : ∀ path ∈ s.sources, runSource env.cwd s (.ofRequested requested) fuel tree path =
      .ofResult tree path (result path)) :
    s.process requested env fuel tree =
      .ofResults s.verbose (.ofRequested requested) tree s.sources result := by
  have hrefusal : ¬ maxRunTapeSize < (TapeConfig.ofRequested requested).size := by omega
  simp only [Settings.process, hrun, Bool.true_and, decide_eq_true_eq, if_neg hrefusal, if_true]
  rw [processAll_eq_map h, Report.ofResults, Report.mk.injEq]
  refine ⟨exitStatus_ofResult tree s.sources result, ?_, ?_, ?_, ?_⟩
  · rw [foldl_append_eq_join, List.map_map]
    congr 2
    funext path
    exact textOfBytes_ofResult tree path (result path)
  · rw [textOfLines_eq_join, List.flatMap_append, lines_log_tape, List.flatMap_map,
      List.flatMap_assoc]
    simp only [lines_ofResult]
  · cases hlast : s.sources.getLast? with
    | none => simp [hlast]
    | some path => simp [hlast, Outcome.tree_ofResult]
  · simp [List.flatMap_map, Outcome.commands_ofResult]

/-! ### A whole invocation -/

theorem invoke_of_proceed {arguments : List String} {s : Settings} {requested : Int}
    (hparse : parse arguments = .proceed s) (htape : s.tapeSize = .value requested)
    (env : Environment) (fuel : Nat) (tree : Tree) :
    invoke env fuel tree arguments =
      if s.sources = [] then ⟨.ok 0, "Nothing to do. Try 'bfasm -h'\n", "", tree, []⟩
      else s.process requested env fuel tree := by
  simp only [invoke, hparse, htape, List.isEmpty_iff]

/-- **Batches**: sources are run whose executions all settle, on a tape that is not too large to be
executed.  Then each of them comes to just one result, and the report is the sum of these results:
the outputs and the failures in the order of the sources, an exit status that tells whether one of
them failed, no file changed and no command run.  A source that is given alone comes to the same
result, from the same files.  An invocation without sources says that there is nothing to do. -/
theorem invoke_run_sources (env : Environment) (tree : Tree) (budget : Option Int)
    {arguments : List String} {s : Settings} {requested : Int}
    (hparse : parse arguments = .proceed s) (hrun : s.run = true)
    (htape : s.tapeSize = .value requested) (hbudget : s.maxSteps = budget.map .value)
    (hsize : (TapeConfig.ofRequested requested).size ≤ 16777216)
    (hsettles : ∀ path ∈ s.sources, ∀ text, readSource env.cwd tree path = .ok text →
      Acceptable (visible text.toList) →
      Settles (TapeConfig.ofRequested requested).size.toNat (inputBytes s.input) budget text) :
    ∃ (result : String → Result) (enough : Nat),
      (∀ path ∈ s.sources, ∀ r,
        RunsTo env.cwd tree (TapeConfig.ofRequested requested).size.toNat (inputBytes s.input)
          budget path r ↔ r = result path) ∧
      ∀ fuel, enough ≤ fuel →
        (s.sources = [] → invoke env fuel tree arguments =
          ⟨.ok 0, "Nothing to do. Try 'bfasm -h'\n", "", tree, []⟩) ∧
        (s.sources ≠ [] → invoke env fuel tree arguments =
          .ofResults s.verbose (.ofRequested requested) tree s.sources result) ∧
        ∀ path ∈ s.sources, ∀ alone, parse alone = .proceed { s with sources := [path] } →
          invoke env fuel tree alone =
            .ofResults s.verbose (.ofRequested requested) tree [path] result := by
  have hcells : 0 < (TapeConfig.ofRequested requested).size.toNat := by
    have hone := TapeConfig.one_le_size_ofRequested requested
    omega
  have : Nonempty Result := ⟨.ok #[]⟩
  choose! result hresult using fun path hpath => exists_runsTo (hsettles path hpath)
  obtain ⟨enough, henough⟩ := runSource_of_runs hbudget hcells hresult
  refine ⟨result, enough, ?_, fun fuel hfuel => ⟨?_, ?_, ?_⟩⟩
  · intro path hpath r
    constructor
    · intro hr
      exact hr.unique (hresult path hpath)
    · rintro rfl
      exact hresult path hpath
  · intro hnone
    rw [invoke_of_proceed hparse htape, if_pos hnone]
  · intro hsome
    rw [invoke_of_proceed hparse htape, if_neg hsome]
    exact process_of_outcomes hrun hsize (henough fuel hfuel)
  · intro path hpath alone halone
    rw [invoke_of_proceed halone htape, if_neg (List.cons_ne_nil path [])]
    apply process_of_outcomes (s := { s with sources := [path] }) hrun hsize
    intro p hp
    obtain rfl := List.mem_singleton.mp hp
    exact henough fuel hfuel p hpath

/-- A source that is missing, and then one that writes a byte. -/
theorem invoke_run_sources_missing :
    let env : Environment := ⟨fun _ => .cannotStart .missing, [], []⟩
    let tree : Tree := ⟨[(["a.bf"], .file ⟨#[43, 46]⟩)]⟩
    ∃ enough, ∀ fuel, enough ≤ fuel →
      invoke env fuel tree ["--run", "-s", "2", "b.bf", "a.bf"] =
        ⟨.ok 1, "\x01", "Source file not found: b.bf\n", tree, []⟩ := by
  intro env tree
  let s : Settings :=
    { Settings.default with sources := ["b.bf", "a.bf"], tapeSize := .value 2, run := true }
  have hparse : parse ["--run", "-s", "2", "b.bf", "a.bf"] = .proceed s :=
    parse_of_options ["--run", "-s", "2"] ["b.bf", "a.bf"] []
      (.flag rfl rfl (.apart rfl rfl rfl .nil)) (by decide) .nil rfl
  have hread : readSource env.cwd tree "a.bf" = .ok "+." := rfl
  have habsent : readSource env.cwd tree "b.bf" = .error .absent := rfl
  have hends : (.ofString "+." : Source Empty).EndsAt 2 [] 2 ⟨#[1, 0], 0, #[1], [], 2⟩ := ⟨2, rfl⟩
  obtain ⟨result, enough, hresult, hreport⟩ :=
    invoke_run_sources env tree none hparse rfl rfl rfl (by decide) (by
      intro path hpath text htext _
      rcases List.mem_pair.mp hpath with rfl | rfl
      · rw [habsent] at htext
        cases htext
      · rw [hread] at htext
        cases htext
        exact .inl ⟨2, _, hends⟩)
  have hb := (hresult "b.bf" (by decide) _).mp (.unreadable habsent)
  have ha := (hresult "a.bf" (by decide) _).mp (.readable hread (.ended hends nofun))
  have hfailed : ∃ path ∈ s.sources, (result path).isOk = false :=
    ⟨"b.bf", by decide, by rw [← hb]; rfl⟩
  refine ⟨enough, fun fuel hfuel => ?_⟩
  rw [(hreport fuel hfuel).2.1 (List.cons_ne_nil _ _), Report.ofResults, if_pos hfailed]
  simp only [s, List.map_cons, List.map_nil, List.flatMap_cons, List.flatMap_nil, ← ha, ← hb]
  rfl

/-- Without a source there is nothing to add up, and yet something is written. -/
theorem invoke_run_no_source :
    let s : Settings := { Settings.default with run := true }
    parse ["--run"] = .proceed s ∧
    (invoke ⟨fun _ => .cannotStart .missing, [], []⟩ 0 .empty ["--run"]).stdout ≠
      (Report.ofResults s.verbose (.ofRequested defaultTapeSize) .empty s.sources
        fun _ => .error .absent).stdout := by
  intro s
  have hparse : parse ["--run"] = .proceed s :=
    parse_of_options ["--run"] [] [] (.flag rfl rfl .nil) (by decide) .nil rfl
  have hnone : s.sources = [] := rfl
  refine ⟨hparse, ?_⟩
  rw [invoke_of_proceed hparse rfl, if_pos hnone]
  decide

end TapeLang.Command
