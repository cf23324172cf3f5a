import TapeLang.Proofs.Command.Compilation

/-!
Sources of one invocation do not disturb each other.

With more than one source every output is named after its source.  Sources with different names have
different stems, so the files of one never lie on the way to the files of another
(`place_not_mem_visited`), and what has been built of one source changes the part of another only if
it lies on the way to the source itself (`partOf_install`).

Main statement: `invoke_independent`, every source has the same part in a joint invocation as alone,
and what all of them leave behind is there in the end.
-/

namespace TapeLang.Command

open File (Tree Location Path)
open Build (Environment Artifact Step install plan course normal_outputPath?
  outputPath?_eq_some_iff)

/-! ### Outputs with different names -/

section

variable {cwd : Location} {stem : String} {step : Step} {p : Path}

/-- The files of an output that is named after its source lie in the current directory, unless the
stem is void; then they lie beside it. -/
theorem parts_of_child (hp : Step.path? (cwd.path.child stem) step = some p) :
    p.anchor = .root ∧ p.parts.dropLast <+: cwd ∧
      (Path.isVoid stem = false ∧ p.parts = cwd ++ [stem ++ step.suffix] ∨
        Path.isVoid stem = true ∧ p.parts.length = cwd.length) := by
  cases hvoid : Path.isVoid stem with
  | false =>
    have hchild : cwd.path.child stem = ⟨.root, cwd ++ [stem]⟩ := by
      simp [Path.child, Location.path, hvoid]
    rw [hchild] at hp
    obtain rfl := Step.path?_eq_some (by simp) hp
    simp [Path.name]
  | true =>
    have hchild : cwd.path.child stem = ⟨.root, cwd⟩ := by
      simp [Path.child, Location.path, hvoid]
    rw [hchild] at hp
    by_cases hnil : cwd = []
    · subst hnil
      obtain rfl := Step.eq_link_of_parts_eq_nil rfl hp
      obtain rfl := Option.some.inj hp
      simp
    · obtain rfl := Step.path?_eq_some hnil hp
      have hlength : 0 < cwd.length := List.length_pos_of_ne_nil hnil
      refine ⟨rfl, ?_, .inr ⟨rfl, ?_⟩⟩
      · simpa using List.dropLast_prefix cwd
      · simp
        omega

/-- Executables are built alone, and all other files have suffixes of one length. -/
theorem length_suffix_eq {s : Settings} {other : Step} {output output' q : Path}
    (hstep : step ∈ plan s.kinds) (hother : other ∈ plan s.kinds)
    (hp : Step.path? output step = some p) (hq : Step.path? output' other = some q) :
    step.suffix.toList.length = other.suffix.toList.length := by
  have hne : step ≠ .assemble := by
    rintro rfl
    cases hp
  have hne' : other ≠ .assemble := by
    rintro rfl
    cases hq
  have hplan : plan s.kinds = [.assemble, .link] ∨ .link ∉ plan s.kinds := by
    rw [Settings.kinds]
    cases s.assembly <;> cases s.object <;> decide
  rcases hplan with hplan | hlink
  · rw [hplan] at hstep hother
    obtain rfl : step = .link := by simpa [hne] using hstep
    obtain rfl : other = .link := by simpa [hne'] using hother
    rfl
  · have htwo : ∀ x ∈ plan s.kinds, x ≠ .assemble → x.suffix.toList.length = 2 := by
      intro x hx hassemble
      cases x with
      | copyAssembly => rfl
      | assemble => exact absurd rfl hassemble
      | copyObject => rfl
      | link => exact absurd hx hlink
    rw [htwo step hstep hne, htwo other hother hne']

/-- Files of different sources are different. -/
theorem name_eq_of_parts_eq {s : Settings} {path path' : String} {output output' q : Path}
    {other : Step} (houtput : Build.outputPath? cwd.path path s.output true = some output)
    (houtput' : Build.outputPath? cwd.path path' s.output true = some output')
    (hstep : step ∈ plan s.kinds) (hother : other ∈ plan s.kinds)
    (hp : Step.path? output step = some p) (hq : Step.path? output' other = some q)
    (hparts : p.parts = q.parts) : (Path.ofString path).name = (Path.ofString path').name := by
  have hlength := length_suffix_eq hstep hother hp hq
  obtain ⟨stem, hname, hstem, rfl⟩ := outputPath?_eq_some_iff.mp houtput
  obtain ⟨stem', hname', hstem', rfl⟩ := outputPath?_eq_some_iff.mp houtput'
  have hsame : stem = stem' := by
    rcases (parts_of_child hp).2.2 with ⟨-, hfile⟩ | ⟨hvoid, hup⟩
    · rcases (parts_of_child hq).2.2 with ⟨-, hfile'⟩ | ⟨-, hup'⟩
      · rw [hfile, hfile', List.append_cancel_left_eq, List.singleton_inj, ← String.toList_inj,
          String.toList_append, String.toList_append] at hparts
        exact String.toList_inj.mp (List.append_inj' hparts hlength).1
      · rw [← hparts, hfile] at hup'
        simp at hup'
    · rcases (parts_of_child hq).2.2 with ⟨-, hfile'⟩ | ⟨hvoid', -⟩
      · rw [hparts, hfile'] at hup
        simp at hup
      · -- The only void stem of a name is the dot.
        simp only [Path.isVoid, Bool.or_eq_true, beq_iff_eq, hstem, hstem', false_or]
          at hvoid hvoid'
        rw [hvoid, hvoid']
  rw [hname, hname', hsame]

end

/-! ### Parts that do not depend on each other -/

section

variable {env : Environment} {s : Settings} {size : Int} {tree : Tree} {path path' : String}
  {a : Artifact}

/-- What is built of a source is found on the way to the files of some source only at the end. -/
theorem place_eq_parts (hready : env.Ready tree)
    (ha : a ∈ (partOf env s size true tree path).artifacts) {output : Path} {step : Step} {p : Path}
    (houtput : Build.outputPath? env.cwd.path path' s.output true = some output)
    (hp : Step.path? output step = some p) (hmem : a.place ∈ Tree.visited env.cwd p.render) :
    a.place = p.parts := by
  obtain ⟨-, -, -, -, -, -, -, htarget, -⟩ := made_of_mem_artifacts ha
  have hfile : tree.get? a.place ≠ some .directory := Tree.vacant_of_target htarget
  have hcwd : env.cwd.path.Normal :=
    Tree.normal_path (hready.wellFormed.proper_of_mem hready.cwd)
  have hnormal := Step.normal_path? (normal_outputPath? hcwd houtput) hp
  obtain ⟨stem, -, -, rfl⟩ := outputPath?_eq_some_iff.mp houtput
  obtain ⟨hroot, hfront, -⟩ := parts_of_child hp
  exact hready.wellFormed.eq_parts_of_mem_visited hready.cwd hnormal hroot hfront hfile hmem

/-- What is built of one source does not lie on the way to what is built of another. -/
theorem place_not_mem_visited (hready : env.Ready tree)
    (hnames : (Path.ofString path).name ≠ (Path.ofString path').name)
    (ha : a ∈ (partOf env s size true tree path).artifacts) {output : Path} {step : Step} {p : Path}
    (houtput : Build.outputPath? env.cwd.path path' s.output true = some output)
    (hstep : step ∈ plan s.kinds) (hp : Step.path? output step = some p) :
    a.place ∉ Tree.visited env.cwd p.render := by
  intro hmem
  obtain ⟨output', l, step', houtput', -, hstep', hp', htarget, -⟩ := made_of_mem_artifacts ha
  have hparts : a.path.parts = p.parts :=
    calc a.path.parts
        = a.place := (place_eq_parts hready ha houtput' hp' (Tree.target_mem_visited htarget)).symm
      _ = p.parts := place_eq_parts hready ha houtput hp hmem
  exact hnames (name_eq_of_parts_eq houtput' houtput hstep' hstep hp' hp hparts)

/-- The part of a source depends on the way to the source and to the files that are built. -/
theorem partOf_install {made : List Artifact}
    (hsource : ∀ a ∈ made, a.place ∉ Tree.visited env.cwd path)
    (hfiles : ∀ output, Build.outputPath? env.cwd.path path s.output true = some output →
      ∀ step ∈ plan s.kinds, ∀ p, Step.path? output step = some p →
        ∀ a ∈ made, a.place ∉ Tree.visited env.cwd p.render) :
    partOf env s size true (install tree made) path = partOf env s size true tree path := by
  have hread : (install tree made).read env.cwd path = tree.read env.cwd path := by
    apply Tree.read_congr
    intro l hl
    apply Build.get?_install
    rintro a ha rfl
    exact hsource a ha hl
  unfold partOf
  cases houtput : Build.outputPath? env.cwd.path path s.output true with
  | none => rfl
  | some output =>
    rw [hread]
    cases ((tree.read env.cwd path).mapError SourceFailure.file).bind (translate size) with
    | error f => rfl
    | ok l =>
      dsimp only
      rw [Build.course_congr]
      intro step hstep
      apply Step.attempt_congr
      intro p hp
      apply Tree.target_congr
      intro l hl
      apply Build.get?_install
      rintro a ha rfl
      exact hfiles output houtput step hstep p hp a ha hl

/-- What is built of a source does not lie on the way to a later one. -/
def Passes (env : Environment) (s : Settings) (size : Int) (tree : Tree) (path later : String) :
    Prop :=
  ∀ a ∈ (partOf env s size true tree path).artifacts, a.place ∉ Tree.visited env.cwd later

/-- Sources that do not lie on the way of each other have the parts that they have alone. -/
theorem partsOf_eq_map {sources : List String} (hready : env.Ready tree)
    (hclear : ∀ path ∈ sources, OutputClear env s true path)
    (hnames : sources.Pairwise fun p q => (Path.ofString p).name ≠ (Path.ofString q).name)
    (hpasses : sources.Pairwise (Passes env s size tree)) :
    partsOf env s size true tree sources = sources.map (partOf env s size true tree) := by
  induction sources generalizing tree with
  | nil => rfl
  | cons path rest ih =>
    rw [List.pairwise_cons] at hnames hpasses
    have hkept : ∀ later ∈ rest,
        partOf env s size true (install tree (partOf env s size true tree path).artifacts) later =
          partOf env s size true tree later := by
      intro later hlater
      apply partOf_install (hpasses.1 later hlater)
      intro output houtput step hstep p hp a ha
      exact place_not_mem_visited hready (hnames.1 later hlater) ha houtput hstep hp
    -- The later sources have the same parts on the files that the first one leaves, so the
    -- hypotheses about them carry over.
    have hrest := ih (ready_install_artifacts hready (hclear path List.mem_cons_self))
      (fun p hp => hclear p (List.mem_cons_of_mem path hp)) hnames.2 (by
        refine hpasses.2.imp_of_mem fun hp hq hpq => ?_
        rw [Passes, hkept _ hp]
        exact hpq)
    rw [partsOf, hrest, List.map_cons]
    congr 1
    exact List.map_congr_left hkept

/-- The files of one source lie apart. -/
theorem artifacts_apart (hcwd : env.cwd.path.Normal) :
    (partOf env s size true tree path).artifacts.Pairwise fun a b =>
      a.place ∉ Tree.visited env.cwd b.path.render ∧
        b.place ∉ Tree.visited env.cwd a.path.render := by
  unfold partOf
  cases houtput : Build.outputPath? env.cwd.path path s.output true with
  | none => exact .nil
  | some output =>
    cases ((tree.read env.cwd path).mapError SourceFailure.file).bind (translate size) with
    | error f => exact .nil
    | ok l =>
      obtain ⟨done, rest, hplan, -, hmade, -⟩ :=
        Build.course_cases (Step.attempt env tree l.text output) (plan s.kinds)
      have hpair := Build.pairwise_plan s.kinds
      rw [hplan, List.pairwise_append] at hpair
      show (course (Step.attempt env tree l.text output) (plan s.kinds)).made.Pairwise _
      rw [hmade]
      exact Build.made_apart (normal_outputPath? hcwd houtput) (hpair.1.imp And.left)

/-- What is built of sources with different names is there in the end. -/
theorem read_install_artifacts {sources : List String} (hready : env.Ready tree)
    (hnames : sources.Pairwise fun p q => (Path.ofString p).name ≠ (Path.ofString q).name)
    (hpath : path ∈ sources) (ha : a ∈ (partOf env s size true tree path).artifacts) :
    (install tree ((sources.map (partOf env s size true tree)).flatMap (·.artifacts))).read env.cwd
      a.path.render = .ok a.content := by
  rw [List.flatMap_map]
  apply Build.read_install
  · intro b hb
    obtain ⟨path, -, hb⟩ := List.mem_flatMap.mp hb
    obtain ⟨output, l, step, -, -, -, -, htarget, -⟩ := made_of_mem_artifacts hb
    exact htarget
  · rw [List.pairwise_flatMap]
    constructor
    · intro path _
      exact artifacts_apart (Tree.normal_path (hready.wellFormed.proper_of_mem hready.cwd))
    · refine hnames.imp fun hne b hb c hc => ?_
      obtain ⟨output, -, step, houtput, -, hstep, hp, -, -⟩ := made_of_mem_artifacts hb
      obtain ⟨output', -, step', houtput', -, hstep', hp', -, -⟩ := made_of_mem_artifacts hc
      exact ⟨place_not_mem_visited hready hne hb houtput' hstep' hp',
        place_not_mem_visited hready hne.symm hc houtput hstep hp⟩
  · exact List.mem_flatMap.mpr ⟨path, hpath, ha⟩

end

/-! ### Joint and single invocations -/

/-- The report on sources with some parts; a tape size that is void ends the invocation before it
comes to them. -/
def Settings.report (s : Settings) (tree : Tree) (parts : List Part) : Report :=
  match s.tapeSize with
  | .value requested => .ofParts s.verbose (.ofRequested requested) tree parts
  | .void => ⟨.error .tapeSize, "", "", tree, []⟩

/-- The settings with which one of several sources is compiled alone. -/
def Settings.alone (s : Settings) (path : String) : Settings :=
  { s with sources := [path], output := none }

section

variable {env : Environment} {s : Settings} {tree : Tree} {path : String} {arguments : List String}

theorem outputPath?_alone (cwd : Path) (path : String) (asked : Option String) :
    Build.outputPath? cwd path none false = Build.outputPath? cwd path asked true := by
  cases asked <;> rfl

theorem partOf_alone (env : Environment) (s : Settings) (size : Int) (tree : Tree) (path : String) :
    partOf env (s.alone path) size false tree path = partOf env s size true tree path := by
  have houtput : Build.outputPath? env.cwd.path path (s.alone path).output false =
      Build.outputPath? env.cwd.path path s.output true :=
    outputPath?_alone env.cwd.path path s.output
  have hkinds : (s.alone path).kinds = s.kinds := rfl
  rw [partOf, partOf, houtput, hkinds]

theorem outputClear_alone (h : OutputClear env s true path) :
    OutputClear env (s.alone path) false path := by
  intro output houtput
  exact h output ((outputPath?_alone env.cwd.path path s.output).symm.trans houtput)

theorem invoke_of_void (hparse : parse arguments = .proceed s) (hsources : s.sources ≠ [])
    (htape : s.tapeSize = .void) (fuel : Nat) (parts : List Part) :
    invoke env fuel tree arguments = s.report tree parts := by
  simp only [invoke, hparse, htape, Settings.report, List.isEmpty_iff, hsources, if_false]

theorem invoke_alone (hparse : parse arguments = .proceed (s.alone path)) (hrun : s.run = false)
    {requested : Int} (htape : s.tapeSize = .value requested) (hready : env.Ready tree)
    (hclear : OutputClear env s true path) (fuel : Nat) :
    invoke env fuel tree arguments =
      s.report tree [partOf env s (TapeConfig.ofRequested requested).size true tree path] := by
  have hclear' : ∀ p ∈ [path], OutputClear env (s.alone path) false p := by
    intro p hp
    obtain rfl := List.mem_singleton.mp hp
    exact outputClear_alone hclear
  have hprocess := process_compile (s := s.alone path) hrun hready hclear' requested fuel
  rw [invoke_of_proceed hparse htape, if_neg (by simp [Settings.alone]), hprocess,
    Settings.report, htape]
  show Report.ofParts _ _ _ [partOf env (s.alone path) _ false tree path] = _
  rw [partOf_alone]
  rfl

theorem invoke_joint (hparse : parse arguments = .proceed s) (hrun : s.run = false)
    (hmany : 1 < s.sources.length) {requested : Int} (htape : s.tapeSize = .value requested)
    (hready : env.Ready tree) (hclear : ∀ path ∈ s.sources, OutputClear env s true path)
    (fuel : Nat) :
    invoke env fuel tree arguments = s.report tree
      (partsOf env s (TapeConfig.ofRequested requested).size true tree s.sources) := by
  have hsources : s.sources ≠ [] := List.ne_nil_of_length_pos (by omega)
  have hmultiple : decide (1 < s.sources.length) = true := decide_eq_true hmany
  rw [invoke_of_proceed hparse htape, if_neg hsources, Settings.report, htape,
    process_compile hrun hready (by rwa [hmultiple]), hmultiple]

end

/-- **Independence**: several sources are compiled, whose names are different, and none of them is
found at or behind a place where an earlier one leaves something.  Then every source has one part,
which is all that becomes of it alone and all that becomes of it among the others, and in the end
everything is there that one of them leaves behind. -/
theorem invoke_independent {env : Environment} {tree : Tree} {arguments : List String}
    {s : Settings} (hparse : parse arguments = .proceed s) (hrun : s.run = false)
    (hmany : 1 < s.sources.length) (hready : env.Ready tree)
    (hclear : ∀ path ∈ s.sources, OutputClear env s true path)
    (hnames : s.sources.Pairwise fun p q => (Path.ofString p).name ≠ (Path.ofString q).name)
    (hpasses : ∀ requested, s.tapeSize = .value requested →
      s.sources.Pairwise (Passes env s (TapeConfig.ofRequested requested).size tree))
    (fuel : Nat) :
    ∃ part : String → Part,
      (∀ path ∈ s.sources, ∀ alone, parse alone = .proceed (s.alone path) →
        invoke env fuel tree alone = s.report tree [part path]) ∧
      invoke env fuel tree arguments = s.report tree (s.sources.map part) ∧
      (∀ requested, s.tapeSize = .value requested →
        processAll (compileSource env s (.ofRequested requested) true) tree s.sources =
          outcomesOf tree (s.sources.map part)) ∧
      ∀ path ∈ s.sources, ∀ a ∈ (part path).artifacts,
        (invoke env fuel tree arguments).tree.read env.cwd a.path.render = .ok a.content := by
  have hsources : s.sources ≠ [] := List.ne_nil_of_length_pos (by omega)
  cases htape : s.tapeSize with
  | void =>
    -- No source is come to, so any part will do.
    refine ⟨fun _ => ⟨[], [], [], true⟩, ?_, ?_, ?_, ?_⟩
    · exact fun path _ alone halone => invoke_of_void halone (by simp [Settings.alone]) htape fuel _
    · exact invoke_of_void hparse hsources htape fuel _
    · exact fun requested hrequested => by cases hrequested
    · exact fun path _ a ha => by cases ha
  | value requested =>
    have hparts := partsOf_eq_map hready hclear hnames (hpasses requested htape)
    have hjoint := invoke_joint hparse hrun hmany htape hready hclear fuel
    rw [hparts] at hjoint
    refine ⟨partOf env s (TapeConfig.ofRequested requested).size true tree, ?_, hjoint, ?_, ?_⟩
    · exact fun path hpath alone halone =>
        invoke_alone halone hrun htape hready (hclear path hpath) fuel
    · intro requested' hrequested
      obtain rfl := Given.value.inj hrequested
      rw [processAll_compile hready hclear, hparts]
    · intro path hpath a ha
      rw [hjoint, Settings.report, htape]
      exact read_install_artifacts hready hnames hpath ha

/-- One source that is built and one that is refused, together and alone. -/
theorem invoke_independent_pair :
    let env := Build.workshop fun _ => .exits 0
    let tree := Build.workshopTree [("a.bf", "+".toUTF8), ("b.bf", "]".toUTF8)]
    let s : Settings := { Settings.default with sources := ["a.bf", "b.bf"] }
    ∃ a b : Part,
      invoke env 0 tree ["a.bf"] = s.report tree [a] ∧
      invoke env 0 tree ["b.bf"] = s.report tree [b] ∧
      invoke env 0 tree ["a.bf", "b.bf"] = s.report tree [a, b] ∧
      ∀ x ∈ a.artifacts ++ b.artifacts,
        (invoke env 0 tree ["a.bf", "b.bf"]).tree.read env.cwd x.path.render = .ok x.content := by
  intro env tree s
  have hsingle : ∀ path ∈ s.sources, parse [path] = .proceed (s.alone path) := by
    intro path hpath
    refine parse_of_options [] [path] [] .nil ?_ .nil rfl
    rcases List.mem_pair.mp hpath with rfl | rfl <;> decide
  have hparse : parse ["a.bf", "b.bf"] = .proceed s :=
    parse_of_options [] ["a.bf", "b.bf"] [] .nil (by decide) .nil rfl
  have hready : env.Ready tree := Build.ready_workshop _ (by decide)
  have hclear : ∀ path ∈ s.sources, OutputClear env s true path := by
    intro path hpath
    rcases List.mem_pair.mp hpath with rfl | rfl <;> exact outputClear_workshop _ rfl
  have hpasses : ∀ size, s.sources.Pairwise (Passes env s size tree) := by
    intro size
    refine List.pairwise_pair.mpr fun a ha => ?_
    obtain ⟨output, -, step, houtput, -, -, hp, htarget, -⟩ := made_of_mem_artifacts ha
    rw [place_eq_parts hready ha houtput hp (Tree.target_mem_visited htarget)]
    obtain rfl := Option.some.inj houtput
    cases step with
    | copyAssembly => rw [← Option.some.inj hp]; decide
    | assemble => cases hp
    | copyObject => rw [← Option.some.inj hp]; decide
    | link => rw [← Option.some.inj hp]; decide
  obtain ⟨part, halone, hjoint, -, hpresent⟩ :=
    invoke_independent hparse rfl (by decide) hready hclear (by decide) (fun _ _ => hpasses _) 0
  refine ⟨part "a.bf", part "b.bf", halone _ (by decide) _ (hsingle _ (by decide)),
    halone _ (by decide) _ (hsingle _ (by decide)), hjoint, fun x hx => ?_⟩
  rcases List.mem_append.mp hx with hx | hx
  · exact hpresent _ (by decide) x hx
  · exact hpresent _ (by decide) x hx

/-- The executable of one source takes the place of another one, which is then refused. -/
theorem invoke_source_replaced :
    let env := Build.workshop fun _ => .exits 0
    let tree := Build.workshopTree [("a.bf", "+".toUTF8), ("a.bf.bf", "-".toUTF8)]
    (Path.ofString "a.bf.bf").name ≠ (Path.ofString "a.bf").name ∧
      (invoke env 0 tree ["a.bf"]).exit = .ok 0 ∧
      (invoke env 0 tree ["a.bf.bf", "a.bf"]).exit = .ok 1 ∧
      (invoke env 0 tree ["a.bf.bf", "a.bf"]).stderr =
        "a.bf:1:1: error: unexpected token 'm'\n" := by
  intro env tree
  have hready : env.Ready tree := Build.ready_workshop _ (by decide)
  let s : Settings := { Settings.default with sources := ["a.bf.bf", "a.bf"] }
  have hclear : ∀ path ∈ s.sources, OutputClear env s true path := by
    intro path hpath
    rcases List.mem_pair.mp hpath with rfl | rfl <;> exact outputClear_workshop _ rfl
  have hsingle : parse ["a.bf"] = .proceed (s.alone "a.bf") :=
    parse_of_options [] ["a.bf"] [] .nil (by decide) .nil rfl
  have hboth : parse ["a.bf.bf", "a.bf"] = .proceed s :=
    parse_of_options [] ["a.bf.bf", "a.bf"] [] .nil (by decide) .nil rfl
  have hplus : translate 30720 "+".toUTF8 = .ok (.ofSource 30720 (.ofString "+")) :=
    translate_toUTF8 30720 "+"
  have hminus : translate 30720 "-".toUTF8 = .ok (.ofSource 30720 (.ofString "-")) :=
    translate_toUTF8 30720 "-"
  have hmark : translate 30720 (Build.toolMark "ld") =
      .error (.invalid (.unexpectedToken 'm' ⟨1, 1⟩)) :=
    translate_toUTF8 30720 "made by ld\n"
  -- Alone, the second source is built.
  have hown : partOf env s 30720 true tree "a.bf" =
      .ofCourse env "a.bf" ⟨.root, ["work", "a"]⟩ (.ofSource 30720 (.ofString "+"))
        ⟨[.assemble, .link],
          [⟨⟨.root, ["work", "a"]⟩, ["work", "a"], Build.toolMark "ld"⟩], none⟩ := by
    have houtput : Build.outputPath? env.cwd.path "a.bf" none true =
      some ⟨.root, ["work", "a"]⟩ := rfl
    have hread : tree.read env.cwd "a.bf" = .ok "+".toUTF8 := rfl
    have hcourse : ∀ text, course (Step.attempt env tree text ⟨.root, ["work", "a"]⟩)
        (plan s.kinds) = ⟨[.assemble, .link],
          [⟨⟨.root, ["work", "a"]⟩, ["work", "a"], Build.toolMark "ld"⟩], none⟩ := fun _ => rfl
    rw [partOf_of_translate houtput hread hplus, hcourse]
  have hfirst : partOf env s 30720 true tree "a.bf.bf" =
      .ofCourse env "a.bf.bf" ⟨.root, ["work", "a.bf"]⟩ (.ofSource 30720 (.ofString "-"))
        ⟨[.assemble, .link],
          [⟨⟨.root, ["work", "a.bf"]⟩, ["work", "a.bf"], Build.toolMark "ld"⟩], none⟩ := by
    have houtput : Build.outputPath? env.cwd.path "a.bf.bf" none true =
      some ⟨.root, ["work", "a.bf"]⟩ := rfl
    have hread : tree.read env.cwd "a.bf.bf" = .ok "-".toUTF8 := rfl
    have hcourse : ∀ text, course (Step.attempt env tree text ⟨.root, ["work", "a.bf"]⟩)
        (plan s.kinds) = ⟨[.assemble, .link],
          [⟨⟨.root, ["work", "a.bf"]⟩, ["work", "a.bf"], Build.toolMark "ld"⟩], none⟩ :=
      fun _ => rfl
    rw [partOf_of_translate houtput hread hminus, hcourse]
  -- After the first one, it is the executable of that one that is read.
  have hsecond : partOf env s 30720 true (install tree
        [⟨⟨.root, ["work", "a.bf"]⟩, ["work", "a.bf"], Build.toolMark "ld"⟩]) "a.bf" =
      .failure "a.bf" [opening "a.bf"] (.invalid (.unexpectedToken 'm' ⟨1, 1⟩)) := by
    have houtput : Build.outputPath? env.cwd.path "a.bf" none true =
      some ⟨.root, ["work", "a"]⟩ := rfl
    have hread : (install tree [⟨⟨.root, ["work", "a.bf"]⟩, ["work", "a.bf"],
      Build.toolMark "ld"⟩]).read env.cwd "a.bf" = .ok (Build.toolMark "ld") := rfl
    exact partOf_of_translate_error houtput hread hmark
  have hsize : (TapeConfig.ofRequested defaultTapeSize).size = 30720 := rfl
  have hsources : s.sources = ["a.bf.bf", "a.bf"] := rfl
  have halone := invoke_alone hsingle rfl rfl hready (hclear "a.bf" (by decide)) 0
  have hjoint := invoke_joint hboth rfl (by decide) rfl hready hclear 0
  rw [hsize, hown] at halone
  rw [hsize, hsources, partsOf, hfirst, partsOf, partsOf, Part.ofCourse, hsecond] at hjoint
  rw [halone, hjoint]
  exact ⟨by decide, rfl, rfl, by decide +kernel⟩

end TapeLang.Command
