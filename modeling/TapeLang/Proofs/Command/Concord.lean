import TapeLang.Proofs.Command.Compilation
import TapeLang.Proofs.Service.Answers

/-!
A program in a file and the same program in a request.

A file is read with its line ends unified, and a request is taken as it is.  To the scanner this
makes no difference as long as every carriage return stands in front of a line feed (`scan_unify`).
The arguments that ask for the assembly of one source on a tape of some size mean just that,
negative sizes included (`parse_listing`).

Main statement: `invoke_concords`, the compiler writes the assembly that the service answers with,
or both name the same error at the same place.
-/

namespace TapeLang.Command

open File (Tree Location Path)
open Build (Environment Artifact Step install plan course)
open Assembly (Listing)
open Text (DecodeError unify)
open Service (App Response ListingRequest)

/-! ### Line ends -/

/-- Every carriage return stands in front of a line feed. -/
inductive ReturnsPaired : List Char → Prop
  | nil : ReturnsPaired []
  | other {c : Char} {cs : List Char} : c ≠ '\r' → ReturnsPaired cs → ReturnsPaired (c :: cs)
  | pair {cs : List Char} : ReturnsPaired cs → ReturnsPaired ('\r' :: '\n' :: cs)

/-- Text with paired carriage returns is read as if they had been left out. -/
theorem readGlyphs_unify {cs : List Char} (h : ReturnsPaired cs) (line column : Int)
    (inComment : Bool) :
    readGlyphs (visibleFrom line column inComment (unify false cs)) =
      readGlyphs (visibleFrom line column inComment cs) := by
  induction h generalizing line column inComment with
  | nil => rfl
  | @other c cs hc _ ih =>
    have hkept : unify false (c :: cs) = c :: unify false cs := by simp [unify, hc]
    rw [hkept]
    exact readGlyphs_cons_congr ih _ _ _ _
  | @pair cs _ ih =>
    have hfeed : unify false ('\r' :: '\n' :: cs) = '\n' :: unify false cs := by simp [unify]
    rw [hfeed, readGlyphs_lineEnd]
    exact readGlyphs_cons_congr ih _ _ _ _

/-- Paired carriage returns make no difference to the scanner. -/
theorem scan_unify {ε : Type} {text : String} (h : ReturnsPaired text.toList) :
    scan (.ofString (String.ofList (unify false text.toList)) : Source ε) =
      scan (.ofString text) := by
  rw [scan_eq, scan_eq, Source.text_ofString, Source.text_ofString, String.toList_ofList,
    visible_eq, visible_eq, readGlyphs_unify h, Source.outcome_ofString, Source.outcome_ofString]

/-- What a text is sent as, so that its line ends are taken as those of a file: with its line ends
unified, or as it is if its carriage returns are paired. -/
def SentAs (text sent : String) : Prop :=
  sent = String.ofList (unify false text.toList) ∨ sent = text ∧ ReturnsPaired text.toList

/-- A file is translated like the text that is sent. -/
theorem translate_of_sentAs {text sent : String} (hsent : SentAs text sent) (size : Int) :
    translate size text.toUTF8 = completeListing (Listing.ofSource size (.ofString sent)) := by
  rw [translate_toUTF8]
  rcases hsent with rfl | ⟨rfl, hpaired⟩
  · rfl
  · rw [(Source.interchangeable_of_scan (scan_unify hpaired)).listing]

/-! ### Arguments -/

/-- The settings with which the assembly of one source is asked for. -/
def listingSettings (path : String) (size : Int) : Settings :=
  { Settings.default with sources := [path], assembly := true, tapeSize := .value size }

/-- The arguments that ask for the assembly of one source. -/
theorem parse_listing {path : String} (hpath : Text.startsWith path "-" = false) {size : Int}
    (hsize : (Nat.toDigits 10 size.natAbs).length ≤ Text.maxDigits) :
    parse [path, "-S", "-s", toString size] = .proceed (listingSettings path size) := by
  have hoperand : ∀ text ∈ [path], Text.startsWith text "-" = false := by simpa using hpath
  have hinteger : ∀ spec : OptionSpec Key, integerValue spec (some (toString size)) =
      .ok (.value size) := by
    intro spec
    simp only [integerValue, Text.readInt?_toString hsize]
  apply parse_of_options [] [path] ["-S", "-s", toString size] .nil hoperand
    (.flag rfl rfl (.apart rfl rfl (classify_toString size) .nil))
  simp only [Reading.request, operandSettings, List.cons_ne_nil, if_false, List.nil_append,
    List.cons_append, Reading.request.go, Settings.apply, hinteger]
  rfl

/-! ### Reports on one source -/

/-- The standard error of an invocation without details: notices on the tape, and failures. -/
def shownText (tape : TapeConfig) (failures : List String) : String :=
  String.join ((tape.notices.map ("INFO: " ++ ·) ++ failures).map (· ++ "\n"))

/-- Details are not shown unless they are asked for. -/
theorem flatMap_lines_log {es : List LogEntry} (h : ∀ e ∈ es, e.level = .debug) :
    (es.map Notice.log).flatMap (·.lines false) = [] := by
  rw [List.flatMap_map, List.flatMap_eq_nil_iff]
  intro e he
  simp [Notice.lines, h e he]

theorem level_log_course (c : Build.Course) (env : Environment) (output : Path) :
    ∀ e ∈ c.log env output, e.level = .debug := by
  have hsteps : ∀ e ∈ c.tried.flatMap (Step.log env output), e.level = .debug := by
    intro e he
    obtain ⟨step, -, he⟩ := List.mem_flatMap.mp he
    cases step with
    | copyAssembly =>
      obtain ⟨p, -, rfl⟩ := Option.map_eq_some_iff.mp (Option.mem_toList.mp he)
      rfl
    | assemble => rw [List.mem_singleton.mp he]; rfl
    | copyObject =>
      obtain ⟨p, -, rfl⟩ := Option.map_eq_some_iff.mp (Option.mem_toList.mp he)
      rfl
    | link => rw [List.mem_singleton.mp he]; rfl
  intro e he
  rcases List.mem_append.mp he with he | he
  · rcases List.mem_append.mp he with he | he
    · rw [List.mem_singleton.mp he]; rfl
    · exact hsteps e he
  · cases hfailure : c.failure with
    | none =>
      rw [hfailure] at he
      rw [List.mem_singleton.mp he]; rfl
    | some f =>
      rw [hfailure] at he
      cases he

theorem lines_ofCourse (env : Environment) (path : String) (output : Path)
    (l : Listing DecodeError) (c : Build.Course) :
    (Part.ofCourse env path output l c).lines false =
      (c.failure.map fun e => (SourceFailure.building e).report path).toList := by
  have hlisting : ∀ e ∈ l.log, e.level = .debug := by
    intro e he
    unfold Listing.log at he
    split at he
    · cases he
    · rw [List.mem_singleton.mp he]
  simp only [Part.lines, Part.ofCourse, List.flatMap_append, flatMap_lines_log hlisting,
    flatMap_lines_log (level_log_course c env output)]
  cases c.failure with
  | none => simp [List.flatMap_map, opening, completed, detail, Notice.lines]
  | some e => simp [opening, detail, Notice.lines]

theorem ofParts_singleton (tape : TapeConfig) (tree : Tree) (p : Part) :
    Report.ofParts false tape tree [p] = ⟨.ok (if p.failed = true then 1 else 0), "",
      shownText tape (p.lines false), install tree p.artifacts, p.commands⟩ := by
  simp [Report.ofParts, shownText]

/-- What comes of a source that has the listing `assembly` if its assembly is asked for. -/
structure Delivered (env : Environment) (tree : Tree) (path : String) (output : Path)
    (tape : TapeConfig) (assembly : String) (r : Report) : Prop where
  /-- If the file can be written, it is, and holds the listing. -/
  written : ∀ p l, Step.path? output .copyAssembly = some p →
    tree.target env.cwd p.render = .ok l →
    r.exit = .ok 0 ∧ r.stderr = shownText tape [] ∧
      r.tree.read env.cwd p.render = .ok assembly.toUTF8
  /-- Otherwise that is what is reported. -/
  unwritable : (∀ p l, Step.path? output .copyAssembly = some p →
      tree.target env.cwd p.render ≠ .ok l) →
    ∃ e, r = ⟨.ok 1, "", shownText tape [(SourceFailure.building e).report path], tree, []⟩

theorem delivered_ofCourse (env : Environment) (tree : Tree) (path : String) (output : Path)
    (tape : TapeConfig) (l : Listing DecodeError) :
    Delivered env tree path output tape l.text (.ofParts false tape tree
      [.ofCourse env path output l
        (course (Step.attempt env tree l.text output) [.copyAssembly])]) := by
  have hattempt : Step.attempt env tree l.text output .copyAssembly =
      Build.copyBeside tree env.cwd output ".s" l.text.toUTF8 := rfl
  have hfails : ∀ e, Build.copyBeside tree env.cwd output ".s" l.text.toUTF8 = .error e →
      Report.ofParts false tape tree [.ofCourse env path output l
          (course (Step.attempt env tree l.text output) [.copyAssembly])] =
        ⟨.ok 1, "", shownText tape [(SourceFailure.building e).report path], tree, []⟩ := by
    intro e he
    rw [ofParts_singleton, lines_ofCourse]
    simp only [Part.ofCourse, course, hattempt, he]
    rfl
  cases hp : output.withName? (output.name ++ ".s") with
  | none =>
    have herror : Build.copyBeside tree env.cwd output ".s" l.text.toUTF8 =
        .error (.emptyName output) := by simp only [Build.copyBeside, hp]
    refine ⟨fun p place hp' => ?_, fun _ => ⟨_, hfails _ herror⟩⟩
    rw [Step.path?, hp] at hp'
    cases hp'
  | some p =>
    cases htarget : tree.target env.cwd p.render with
    | error f =>
      have herror : Build.copyBeside tree env.cwd output ".s" l.text.toUTF8 =
          .error (.file ⟨f, p.render⟩) := by simp only [Build.copyBeside, hp, htarget]
      refine ⟨fun p' place hp' htarget' => ?_, fun _ => ⟨_, hfails _ herror⟩⟩
      rw [Step.path?, hp] at hp'
      obtain rfl := Option.some.inj hp'
      rw [htarget] at htarget'
      cases htarget'
    | ok place =>
      refine ⟨fun p' place' hp' _ => ?_, fun hnot => absurd htarget (hnot p place hp)⟩
      rw [Step.path?, hp] at hp'
      obtain rfl := Option.some.inj hp'
      have hmade : Build.copyBeside tree env.cwd output ".s" l.text.toUTF8 =
          .ok (some ⟨p, place, l.text.toUTF8⟩) := by simp only [Build.copyBeside, hp, htarget]
      rw [ofParts_singleton, lines_ofCourse]
      simp only [Part.ofCourse, course, hattempt, hmade]
      exact ⟨rfl, rfl, Tree.read_put_of_target htarget l.text.toUTF8⟩

/-! ### Both ways -/

/-- Asking for a listing leads to the answer to it. -/
theorem handle_listing {body : String} {ms : Json.Members} {r : ListingRequest}
    (hbody : Service.membersOfBody body = .ok ms) (hr : ListingRequest.ofMembers ms = .ok r)
    (app : App) :
    app.handle ⟨"POST", "/api/translate", body⟩ = .ok (Service.listingAnswer r) := by
  rw [Service.handle_post rfl rfl]
  exact Service.answer_of_valid hbody hr _

/-- Asking for the assembly of a source leads to its part. -/
theorem invoke_listing {env : Environment} {tree : Tree} {path : String} {output : Path}
    {size : Int} (hpath : Text.startsWith path "-" = false)
    (hsize : (Nat.toDigits 10 size.natAbs).length ≤ Text.maxDigits) (hready : env.Ready tree)
    (houtput : Build.outputPath? env.cwd.path path none false = some output)
    (hclear : env.Clear output) (fuel : Nat) :
    invoke env fuel tree [path, "-S", "-s", toString size] =
      .ofParts false (.ofRequested size) tree [partOf env (listingSettings path size)
        (TapeConfig.ofRequested size).size false tree path] := by
  have hclear' : ∀ p ∈ [path], OutputClear env (listingSettings path size) false p := by
    intro p hp output' houtput'
    obtain rfl := List.mem_singleton.mp hp
    obtain rfl := Option.some.inj (houtput.symm.trans houtput')
    exact hclear
  have hprocess := process_compile (s := listingSettings path size) rfl hready hclear' size fuel
  rw [invoke_of_proceed (parse_listing hpath hsize) rfl, if_neg (by simp [listingSettings]),
    hprocess]
  rfl

/-- **Concord**: a file holds a text, and a request asks for the listing of the same text: as it is
if every carriage return in it stands in front of a line feed, and with its line ends unified in any
case.  Then the service answers with some assembly, and the compiler delivers just that, or the
service answers with an error, and the compiler reports the same error at the same place. -/
theorem invoke_concords {env : Environment} {tree : Tree} {path text sent : String} {output : Path}
    {size : Int} (hpath : Text.startsWith path "-" = false)
    (hsize : (Nat.toDigits 10 size.natAbs).length ≤ Text.maxDigits) (hready : env.Ready tree)
    (houtput : Build.outputPath? env.cwd.path path none false = some output)
    (hclear : env.Clear output) (hread : tree.read env.cwd path = .ok text.toUTF8)
    (hsent : SentAs text sent) {body : String} {ms : Json.Members}
    (hbody : Service.membersOfBody body = .ok ms)
    (hrequest : ListingRequest.ofMembers ms = .ok ⟨.ofString sent, size⟩) (app : App) (fuel : Nat) :
    ∃ resp, app.handle ⟨"POST", "/api/translate", body⟩ = .ok resp ∧
      ((∃ assembly more, resp.status = 200 ∧
          resp.body = some (.record (("assembly", .text assembly) :: more)) ∧
          Delivered env tree path output (.ofRequested size) assembly
            (invoke env fuel tree [path, "-S", "-s", toString size])) ∨
        ∃ e : SourceError, resp.status = 422 ∧
          resp.body = some (.record [("detail", .record
            [("error", .text (Service.errorName e)), ("message", .text e.message),
             ("line", .int e.position.line), ("column", .int e.position.column)])]) ∧
          invoke env fuel tree [path, "-S", "-s", toString size] =
            ⟨.ok 1, "", shownText (.ofRequested size)
              [path ++ ":" ++ toString e.position.line ++ ":" ++ toString e.position.column ++
                ": error: " ++ e.message], tree, []⟩) := by
  have hne := Listing.size_ofRequested_ne_zero size
  have hinvoke := invoke_listing hpath hsize hready houtput hclear fuel
  have htranslate := translate_of_sentAs hsent (TapeConfig.ofRequested size).size
  refine ⟨_, handle_listing hbody hrequest app, ?_⟩
  rw [hinvoke]
  rcases listing_text_cases (ε := DecodeError) sent hne with
    ⟨hacceptable, summary, hresult⟩ | ⟨e, hfirst, hresult⟩
  · rw [completeListing, hresult] at htranslate
    rw [partOf_of_translate (s := listingSettings path size) houtput hread htranslate]
    have hplan : plan (listingSettings path size).kinds = [.copyAssembly] := rfl
    -- The compiler's source can fail to decode and the service's cannot; the listing is the same.
    have htext : (Listing.ofSource (TapeConfig.ofRequested size).size
        (.ofString sent : Source DecodeError)).text =
        (Listing.ofSource (TapeConfig.ofRequested size).size
          (.ofString sent : Source Empty)).text := by
      rw [Listing.text, Listing.text, code_ofString DecodeError Empty]
    rw [hplan]
    generalize Listing.ofSource (TapeConfig.ofRequested size).size
      (.ofString sent : Source DecodeError) = l at htext
    rcases listing_text_cases (ε := Empty) sent hne with ⟨-, s, hs⟩ | ⟨e, hfirst, -⟩
    · have hanswer : ∃ more, (Service.listingAnswer ⟨.ofString sent, size⟩).status = 200 ∧
          (Service.listingAnswer ⟨.ofString sent, size⟩).body =
            some (.record (("assembly", .text l.text) :: more)) := by
        simp only [Service.listingAnswer, Text.Loose.shown_ofString, hs, htext]
        exact ⟨_, rfl, rfl⟩
      obtain ⟨more, hstatus, hanswer⟩ := hanswer
      exact .inl ⟨l.text, more, hstatus, hanswer, delivered_ofCourse env tree path output _ l⟩
    · exact absurd hfirst (hacceptable.not_firstError e)
  · rw [completeListing, hresult] at htranslate
    rw [partOf_of_translate_error (s := listingSettings path size) houtput hread htranslate,
      ofParts_singleton]
    rcases Service.listingAnswer_cases ⟨.ofString sent, size⟩ with
      ⟨hacceptable, -⟩ | ⟨e', hfirst', hstatus, hdetail⟩
    · rw [Text.Loose.shown_ofString] at hacceptable
      exact absurd hfirst (hacceptable.not_firstError e)
    · rw [Text.Loose.shown_ofString] at hfirst'
      obtain rfl := hfirst.unique hfirst'
      exact .inr ⟨e, hstatus, hdetail, rfl⟩

/-- A bracket that closes nothing, behind a comment and a carriage return with a line feed. -/
theorem invoke_concords_paired :
    let env := Build.workshop fun _ => .exits 0
    let tree := Build.workshopTree [("f.bf", "#\r\n]".toUTF8)]
    ∃ resp, (App.create none).handle ⟨"POST", "/api/translate",
        "\x7b\"source\":\"#\\r\\n]\",\"tape_size\":-3\x7d"⟩ = .ok resp ∧
      ((∃ assembly more, resp.status = 200 ∧
          resp.body = some (.record (("assembly", .text assembly) :: more)) ∧
          Delivered env tree "f.bf" ⟨.root, ["work", "f"]⟩ (.ofRequested (-3)) assembly
            (invoke env 0 tree ["f.bf", "-S", "-s", toString (-3 : Int)])) ∨
        ∃ e : SourceError, resp.status = 422 ∧
          resp.body = some (.record [("detail", .record
            [("error", .text (Service.errorName e)), ("message", .text e.message),
             ("line", .int e.position.line), ("column", .int e.position.column)])]) ∧
          invoke env 0 tree ["f.bf", "-S", "-s", toString (-3 : Int)] =
            ⟨.ok 1, "", shownText (.ofRequested (-3))
              ["f.bf" ++ ":" ++ toString e.position.line ++ ":" ++ toString e.position.column ++
                ": error: " ++ e.message], tree, []⟩) := by
  intro env tree
  have hready : env.Ready tree := Build.ready_workshop _ (by decide)
  have houtput : Build.outputPath? env.cwd.path "f.bf" none false =
    some ⟨.root, ["work", "f"]⟩ := rfl
  have hclear : env.Clear ⟨.root, ["work", "f"]⟩ :=
    outputClear_workshop _ (s := listingSettings "f.bf" (-3)) houtput _ houtput
  have hpaired : ReturnsPaired "#\r\n]".toList :=
    .other (by decide) (.pair (.other (by decide) .nil))
  -- The letters are written out, so that reading them does not decode the text at every step.
  have hletters : Json.letters? "\x7b\"source\":\"#\\r\\n]\",\"tape_size\":-3\x7d" =
      some (List.map .char ['\x7b', '"', 's', 'o', 'u', 'r', 'c', 'e', '"', ':', '"', '#', '\\',
        'r', '\\', 'n', ']', '"', ',', '"', 't', 'a', 'p', 'e', '_', 's', 'i', 'z', 'e', '"', ':',
        '-', '3', '\x7d']) := rfl
  have hbody : Service.membersOfBody "\x7b\"source\":\"#\\r\\n]\",\"tape_size\":-3\x7d" =
      .ok [(.ofString "source", .text "#\r\n]"), (.ofString "tape_size", .int (-3))] :=
    Service.membersOfBody_of_read (by decide) hletters rfl
  exact invoke_concords (by decide) (by decide) hready houtput hclear rfl (.inr ⟨rfl, hpaired⟩)
    hbody rfl _ 0

/-- A carriage return ends a comment in a file and does not end it in a request. -/
theorem invoke_lone_return :
    (∃ resp, (App.create none).handle ⟨"POST", "/api/translate",
        "\x7b\"source\":\"#\\r]\",\"tape_size\":4\x7d"⟩ = .ok resp ∧ resp.status = 200) ∧
      invoke (Build.workshop fun _ => .exits 0) 0 (Build.workshopTree [("f.bf", "#\r]".toUTF8)])
          ["f.bf", "-S", "-s", "4"] =
        ⟨.ok 1, "", "f.bf:2:1: error: ']' has no matching '['\n",
          Build.workshopTree [("f.bf", "#\r]".toUTF8)], []⟩ := by
  constructor
  · have hletters : Json.letters? "\x7b\"source\":\"#\\r]\",\"tape_size\":4\x7d" =
        some (List.map .char ['\x7b', '"', 's', 'o', 'u', 'r', 'c', 'e', '"', ':', '"', '#', '\\',
          'r', ']', '"', ',', '"', 't', 'a', 'p', 'e', '_', 's', 'i', 'z', 'e', '"', ':', '4',
          '\x7d']) := rfl
    have hbody : Service.membersOfBody "\x7b\"source\":\"#\\r]\",\"tape_size\":4\x7d" =
        .ok [(.ofString "source", .text "#\r]"), (.ofString "tape_size", .int 4)] :=
      Service.membersOfBody_of_read (by decide) hletters rfl
    have hrequest : ListingRequest.ofMembers
        [(.ofString "source", .text "#\r]"), (.ofString "tape_size", .int 4)] =
        .ok ⟨.ofString "#\r]", 4⟩ := rfl
    have hresult : (Listing.ofSource (TapeConfig.ofRequested 4).size
        (.ofString "#\r]" : Source Empty)).result = .ok ⟨4, 0, 0, 0⟩ := rfl
    refine ⟨_, handle_listing hbody hrequest _, ?_⟩
    simp only [Service.listingAnswer, Text.Loose.shown_ofString, hresult, Response.status_json]
  · have hready : (Build.workshop fun _ => .exits 0).Ready
        (Build.workshopTree [("f.bf", "#\r]".toUTF8)]) :=
      Build.ready_workshop _ (by decide)
    have houtput : Build.outputPath? (Location.path ["work"]) "f.bf" none false =
      some ⟨.root, ["work", "f"]⟩ := rfl
    have hclear : (Build.workshop fun _ => .exits 0).Clear ⟨.root, ["work", "f"]⟩ :=
      outputClear_workshop _ (s := listingSettings "f.bf" 4) houtput _ houtput
    have hread : (Build.workshopTree [("f.bf", "#\r]".toUTF8)]).read ["work"] "f.bf" =
      .ok "#\r]".toUTF8 := rfl
    have htranslate : translate 4 "#\r]".toUTF8 = .error (.invalid (.unmatchedClose ⟨2, 1⟩)) :=
      translate_toUTF8 4 "#\r]"
    have hsize : (TapeConfig.ofRequested 4).size = 4 := rfl
    have hdigits : (Nat.toDigits 10 (4 : Int).natAbs).length ≤ Text.maxDigits := by decide
    have hinvoke := invoke_listing (by decide) hdigits hready houtput hclear 0
    have hpart : partOf (Build.workshop fun _ => .exits 0) (listingSettings "f.bf" 4) 4 false
        (Build.workshopTree [("f.bf", "#\r]".toUTF8)]) "f.bf" =
        .failure "f.bf" [opening "f.bf"] (.invalid (.unmatchedClose ⟨2, 1⟩)) :=
      partOf_of_translate_error houtput hread htranslate
    rw [hsize, hpart, ofParts_singleton] at hinvoke
    have hstderr : shownText (.ofRequested 4) ((Part.failure "f.bf" [opening "f.bf"]
        (.invalid (.unmatchedClose ⟨2, 1⟩))).lines false) =
        "f.bf:2:1: error: ']' has no matching '['\n" := by decide +kernel
    rw [hstderr] at hinvoke
    exact hinvoke

end TapeLang.Command
