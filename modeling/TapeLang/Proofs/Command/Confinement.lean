import TapeLang.Proofs.Build.Footprint
import TapeLang.Proofs.Command.Independence

/-!
Where the files go that are named after their sources.

`IsDefault` lists these places: the name of the source without its suffix, with nothing, `.s` or
`.o` behind it, in the current directory.  Only the stem that is a single dot leads elsewhere.
Joined to the current directory it names this directory itself, and what should be called after the
stem is called after the directory and lies beside it (`invoke_dot_stem`).

Main statement: `invoke_confined`, an invocation without an output of its own changes nothing but
what these places hold, source by source.
-/

namespace TapeLang.Command

open File (Tree Location Path)
open Build (Environment Step normal_outputPath? outputPath?_unnamed outputPath?_eq_some_iff)

/-! ### Places -/

/-- The places of the files that have some stem. -/
inductive DefaultPlace (cwd : Location) (stem : String) : Location → Prop
  /-- They lie in the current directory. -/
  | inside {suffix : String} :
      stem ≠ "." → suffix ∈ ["", ".s", ".o"] → DefaultPlace cwd stem (cwd ++ [stem ++ suffix])
  /-- A dot is no name of its own, and they have the name of the directory instead. -/
  | beside {above : Location} {name suffix : String} :
      stem = "." → cwd = above ++ [name] → suffix ∈ [".s", ".o"] →
      DefaultPlace cwd stem (above ++ [name ++ suffix])

/-- The places of the files that are named after a source. -/
def IsDefault (cwd : Location) (path : String) (l : Location) : Prop :=
  ∃ stem, (Path.ofString path).name = stem ++ Build.sourceSuffix ∧ stem ≠ "" ∧
    DefaultPlace cwd stem l

section

variable {env : Environment} {cwd l : Location} {stem : String} {step : Step} {p : Path} {t : Tree}

/-- The file of a step is written at the place that its stem has. -/
theorem defaultPlace_of_target (ht : t.WellFormed) (hcwd : t.get? cwd = some .directory)
    (hstem : stem ≠ "") (hnormal : (cwd.path.child stem).Normal)
    (hp : Step.path? (cwd.path.child stem) step = some p)
    (htarget : t.target cwd p.render = .ok l) : DefaultPlace cwd stem l := by
  obtain ⟨hroot, hfront, hparts⟩ := parts_of_child hp
  have hfile : t.get? l ≠ some .directory := Tree.vacant_of_target htarget
  have hplace : l = p.parts :=
    ht.eq_parts_of_mem_visited hcwd (Step.normal_path? hnormal hp) hroot hfront hfile
      (Tree.target_mem_visited htarget)
  rcases hparts with ⟨hvoid, hin⟩ | ⟨hvoid, hlength⟩
  · rw [hplace, hin]
    refine .inside (Path.isVoid_eq_false_iff.mp hvoid).2 ?_
    cases step <;> decide
  · have hdot : stem = "." := by simpa [Path.isVoid, hstem] using hvoid
    have hchild : cwd.path.child stem = ⟨.root, cwd⟩ := by
      simp [Path.child, Location.path, hvoid]
    have hne : cwd ≠ [] := by
      rintro rfl
      rw [hplace, List.length_eq_zero_iff.mp hlength] at hfile
      exact hfile (Tree.get?_root t)
    obtain ⟨front, last, rfl⟩ := (List.eq_nil_or_concat cwd).resolve_left hne
    rw [hchild] at hp
    have hsuffix : step.suffix ∈ [".s", ".o"] := by
      cases step with
      | copyAssembly => decide
      | assemble => cases hp
      | copyObject => decide
      | link =>
        -- The directory itself is in the way of an executable.
        obtain rfl := Option.some.inj hp
        rw [hplace, hcwd] at hfile
        exact absurd rfl hfile
    obtain rfl := Step.path?_eq_some (by simp) hp
    rw [hplace]
    simpa [Path.name] using DefaultPlace.beside hdot rfl hsuffix

end

/-! ### Sources -/

section

variable {env : Environment} {s : Settings} {tape : TapeConfig} {multiple : Bool} {tree : Tree}
  {path : String}

/-- Compiling a source leaves the files as they are or builds its output, and goes on to the next
one in any case. -/
theorem compileSource_cases (env : Environment) (s : Settings) (tape : TapeConfig)
    (multiple : Bool) (tree : Tree) (path : String) :
    (∀ g, (compileSource env s tape multiple tree path).ending ≠ .gap g) ∧
      ((compileSource env s tape multiple tree path).tree = tree ∨
        ∃ output assembly, Build.outputPath? env.cwd.path path s.output multiple = some output ∧
          (compileSource env s tape multiple tree path).tree =
            (Build.build env tree assembly output s.kinds).tree) := by
  unfold compileSource
  cases houtput : Build.outputPath? env.cwd.path path s.output multiple with
  | none => exact ⟨nofun, .inl rfl⟩
  | some output =>
    cases tree.read env.cwd path with
    | error e => exact ⟨nofun, .inl rfl⟩
    | ok content =>
      dsimp only
      generalize Assembly.Listing.ofSource tape.size (File.stream content) = l
      cases hresult : l.result with
      | error e =>
        cases e with
        | interrupted i => cases i <;> exact ⟨nofun, .inl rfl⟩
        | emptyTape => exact ⟨nofun, .inl rfl⟩
      | ok summary =>
        dsimp only
        cases (Build.build env tree l.text output s.kinds).result with
        | error e => exact ⟨nofun, .inr ⟨output, l.text, rfl, rfl⟩⟩
        | ok artifacts => exact ⟨nofun, .inr ⟨output, l.text, rfl, rfl⟩⟩

/-- A source changes what its own places hold, and leaves everything fit for the next one. -/
theorem changesOnly_compileSource (hready : env.Ready tree)
    (hasked : s.output = none ∨ s.output = some "" ∨ multiple = true) :
    tree.ChangesOnly (IsDefault env.cwd path) (compileSource env s tape multiple tree path).tree ∧
      env.Ready (compileSource env s tape multiple tree path).tree := by
  rcases (compileSource_cases env s tape multiple tree path).2 with
    htree | ⟨output, assembly, houtput, htree⟩
  · rw [htree]
    exact ⟨.refl hready.wellFormed _, hready⟩
  · have hproper := hready.wellFormed.proper_of_mem hready.cwd
    have hnormal : output.Normal := normal_outputPath? (Tree.normal_path hproper) houtput
    rw [outputPath?_unnamed hasked] at houtput
    obtain ⟨stem, hname, hstem, rfl⟩ := outputPath?_eq_some_iff.mp houtput
    rw [htree]
    refine ⟨(Build.changesOnly_build hready hnormal assembly s.kinds).mono ?_,
      Build.ready_build hready hnormal assembly s.kinds⟩
    rintro l ⟨step, -, p, t, hp, ht, hcwd, htarget⟩
    exact ⟨stem, hname, hstem, defaultPlace_of_target ht hcwd hstem hnormal hp htarget⟩

end

/-! ### Invocations -/

/-- The files after some sources were compiled one after the other. -/
def filesAfter (env : Environment) (s : Settings) (tape : TapeConfig) (multiple : Bool)
    (tree : Tree) (sources : List String) : Tree :=
  sources.foldl (fun t path => (compileSource env s tape multiple t path).tree) tree

section

variable {env : Environment} {s : Settings} {tape : TapeConfig} {multiple : Bool} {tree : Tree}

theorem filesAfter_cons (path : String) (rest : List String) :
    filesAfter env s tape multiple tree (path :: rest) =
      filesAfter env s tape multiple (compileSource env s tape multiple tree path).tree rest :=
  rfl

theorem filesAfter_concat (sources : List String) (path : String) :
    filesAfter env s tape multiple tree (sources ++ [path]) =
      (compileSource env s tape multiple (filesAfter env s tape multiple tree sources) path).tree :=
  List.foldl_concat _ _ _ _

theorem tree_processAll_compile (sources : List String) :
    ((processAll (compileSource env s tape multiple) tree sources).getLast?.map (·.tree)).getD
      tree = filesAfter env s tape multiple tree sources := by
  induction sources generalizing tree with
  | nil => rfl
  | cons path rest ih =>
    have hgap := (compileSource_cases env s tape multiple tree path).1
    have hgoes : processAll (compileSource env s tape multiple) tree (path :: rest) =
        compileSource env s tape multiple tree path ::
          processAll (compileSource env s tape multiple)
            (compileSource env s tape multiple tree path).tree rest := by
      rw [processAll]
      cases hending : (compileSource env s tape multiple tree path).ending with
      | success => rfl
      | failure => rfl
      | gap g => exact absurd hending (hgap g)
    rw [hgoes, filesAfter_cons, ← ih]
    exact tree_getLast?_cons _ _ tree

/-- Sources change what their places hold, and leave everything fit for another one. -/
theorem changesOnly_filesAfter (hready : env.Ready tree)
    (hasked : s.output = none ∨ s.output = some "" ∨ multiple = true) (sources : List String) :
    tree.ChangesOnly (fun l => ∃ path ∈ sources, IsDefault env.cwd path l)
        (filesAfter env s tape multiple tree sources) ∧
      env.Ready (filesAfter env s tape multiple tree sources) := by
  induction sources generalizing tree with
  | nil => exact ⟨.refl hready.wellFormed _, hready⟩
  | cons path rest ih =>
    rw [filesAfter_cons]
    obtain ⟨hfirst, hnext⟩ := changesOnly_compileSource hready hasked
    obtain ⟨hrest, hend⟩ := ih hnext
    refine ⟨(hfirst.mono ?_).trans (hrest.mono ?_), hend⟩
    · exact fun l hl => ⟨path, List.mem_cons_self, hl⟩
    · exact fun l ⟨other, hother, hl⟩ => ⟨other, List.mem_cons_of_mem path hother, hl⟩

theorem tree_invoke_compile {arguments : List String} {requested : Int}
    (hparse : parse arguments = .proceed s) (hrun : s.run = false)
    (htape : s.tapeSize = .value requested) (fuel : Nat) :
    (invoke env fuel tree arguments).tree =
      filesAfter env s (.ofRequested requested) (1 < s.sources.length) tree s.sources := by
  rw [invoke_of_proceed hparse htape]
  split
  · rename_i hnone
    rw [hnone]
    rfl
  · simp only [Settings.process, hrun, Bool.false_and, Bool.false_eq_true, if_false]
    exact tree_processAll_compile s.sources

theorem tree_invoke_of_void {arguments : List String} (hparse : parse arguments = .proceed s)
    (htape : s.tapeSize = .void) (fuel : Nat) : (invoke env fuel tree arguments).tree = tree := by
  simp only [invoke, hparse, htape]
  split <;> rfl

end

/-- **Confinement**: sources are compiled without an output of their own.  Whatever the tools do,
the files are in the end those that the sources leave one after the other, and each of them changes
nothing but what the places hold that are named after it. -/
theorem invoke_confined {env : Environment} {tree : Tree} {arguments : List String} {s : Settings}
    (hparse : parse arguments = .proceed s) (hrun : s.run = false)
    (hasked : s.output = none ∨ s.output = some "" ∨ 1 < s.sources.length)
    (hready : env.Ready tree) (fuel : Nat) :
    (∀ l, (invoke env fuel tree arguments).tree.get? l ≠ tree.get? l →
      ∃ path ∈ s.sources, IsDefault env.cwd path l) ∧
    ∀ requested, s.tapeSize = .value requested →
      let files := filesAfter env s (.ofRequested requested) (1 < s.sources.length) tree
      (invoke env fuel tree arguments).tree = files s.sources ∧
      ∀ earlier path later, s.sources = earlier ++ path :: later →
        ∀ l, (files (earlier ++ [path])).get? l ≠ (files earlier).get? l →
          IsDefault env.cwd path l := by
  have hasked' : s.output = none ∨ s.output = some "" ∨ decide (1 < s.sources.length) = true := by
    simpa using hasked
  refine ⟨?_, ?_⟩
  · intro l hl
    cases htape : s.tapeSize with
    | void =>
      rw [tree_invoke_of_void hparse htape] at hl
      exact absurd rfl hl
    | value requested =>
      rw [tree_invoke_compile hparse hrun htape] at hl
      by_contra hplace
      exact hl ((changesOnly_filesAfter hready hasked' s.sources).1.frame l hplace)
  · intro requested htape files
    refine ⟨tree_invoke_compile hparse hrun htape fuel, ?_⟩
    intro earlier path later _ l hl
    have hbefore : env.Ready (files earlier) := (changesOnly_filesAfter hready hasked' earlier).2
    have hafter : files (earlier ++ [path]) = _ := filesAfter_concat earlier path
    rw [hafter] at hl
    by_contra hplace
    exact hl ((changesOnly_compileSource hbefore hasked').1.frame l hplace)

/-- Two sources whose stems are dots, one of them a single dot. -/
theorem invoke_confined_dots :
    let env := Build.workshop fun _ => .exits 0
    let tree := Build.workshopTree [("..bf", "+".toUTF8), ("...bf", "-".toUTF8)]
    ∀ l, (invoke env 0 tree ["-c", "..bf", "...bf"]).tree.get? l ≠ tree.get? l →
      l ∈ [["work.s"], ["work.o"], ["work", ".."], ["work", "...s"], ["work", "...o"]] := by
  intro env tree l hl
  let s : Settings := { Settings.default with sources := ["..bf", "...bf"], object := true }
  have hparse : parse ["-c", "..bf", "...bf"] = .proceed s :=
    parse_of_options ["-c"] ["..bf", "...bf"] [] (.flag rfl rfl .nil) (by decide) .nil rfl
  have hready : env.Ready tree := Build.ready_workshop _ (by decide)
  obtain ⟨path, hpath, stem, hname, -, hplace⟩ :=
    (invoke_confined hparse rfl (.inl rfl) hready 0).1 l hl
  rcases List.mem_pair.mp hpath with rfl | rfl
  · have hstem : stem = "." := (String.append_left_inj Build.sourceSuffix).mp hname.symm
    subst hstem
    cases hplace with
    | inside hdot _ => exact absurd rfl hdot
    | beside _ hcwd hsuffix =>
      have hsplit : [] ++ ["work"] = _ := hcwd
      obtain ⟨rfl, hlast⟩ := List.append_inj' hsplit rfl
      obtain rfl := List.singleton_inj.mp hlast
      rcases List.mem_pair.mp hsuffix with rfl | rfl <;> decide
  · have hstem : stem = ".." := (String.append_left_inj Build.sourceSuffix).mp hname.symm
    subst hstem
    cases hplace with
    | inside _ hsuffix =>
      simp only [List.mem_cons, List.not_mem_nil, or_false] at hsuffix
      obtain rfl | rfl | rfl := hsuffix <;> decide
    | beside hdot _ _ => exact absurd hdot (by decide)

/-- What should be called after a dot is called after the current directory, and lies outside. -/
theorem invoke_dot_stem :
    let env := Build.workshop fun _ => .exits 0
    let tree := Build.workshopTree [("..bf", "+".toUTF8)]
    (Path.ofString "..bf").name = "." ++ Build.sourceSuffix ∧
      (invoke env 0 tree ["-S", "..bf"]).exit = .ok 0 ∧
      ¬ env.cwd <+: ["work.s"] ∧ tree.get? ["work.s"] = none ∧
      ∃ content, (invoke env 0 tree ["-S", "..bf"]).tree.get? ["work.s"] =
        some (.file content) := by
  intro env tree
  let s : Settings := { Settings.default with sources := ["..bf"], assembly := true }
  have hparse : parse ["-S", "..bf"] = .proceed s :=
    parse_of_options ["-S"] ["..bf"] [] (.flag rfl rfl .nil) (by decide) .nil rfl
  have hready : env.Ready tree := Build.ready_workshop _ (by decide)
  have houtput : Build.outputPath? env.cwd.path "..bf" none false = some ⟨.root, ["work"]⟩ := rfl
  have hclear : ∀ path ∈ s.sources, OutputClear env s false path := by
    intro path hpath
    obtain rfl := List.mem_singleton.mp hpath
    apply outputClear_of_dropLast_prefix proper_workshop houtput (by simp) (by simp)
    · exact (by decide : ¬ ["temp"] <+: ["work"])
    · intro step
      cases step <;> decide
  have htranslate : translate 30720 "+".toUTF8 = .ok (.ofSource 30720 (.ofString "+")) :=
    translate_toUTF8 30720 "+"
  have hpart : partOf env s 30720 false tree "..bf" =
      .ofCourse env "..bf" ⟨.root, ["work"]⟩ (.ofSource 30720 (.ofString "+"))
        ⟨[.copyAssembly], [⟨⟨.root, ["work.s"]⟩, ["work.s"],
          (Assembly.Listing.ofSource 30720 (.ofString "+" : Source Text.DecodeError)).text.toUTF8⟩],
          none⟩ := by
    have hread : tree.read env.cwd "..bf" = .ok "+".toUTF8 := rfl
    have hcourse : ∀ text, Build.course (Step.attempt env tree text ⟨.root, ["work"]⟩)
        (Build.plan s.kinds) = ⟨[.copyAssembly],
          [⟨⟨.root, ["work.s"]⟩, ["work.s"], text.toUTF8⟩], none⟩ := fun _ => rfl
    rw [partOf_of_translate houtput hread htranslate, hcourse]
  have hsize : (TapeConfig.ofRequested 30720).size = 30720 := rfl
  have hinvoke : invoke env 0 tree ["-S", "..bf"] = s.process 30720 env 0 tree :=
    invoke_of_proceed hparse rfl env 0 tree
  rw [hinvoke, process_compile rfl hready hclear, hsize]
  show _ ∧ (Report.ofParts _ _ _ [partOf env s 30720 false tree "..bf"]).exit = _ ∧ _ ∧ _ ∧
    ∃ content, (Report.ofParts _ _ _ [partOf env s 30720 false tree "..bf"]).tree.get? _ = _
  rw [hpart]
  have houtside : ¬ ["work"] <+: ["work.s"] := by decide
  exact ⟨rfl, rfl, houtside, rfl, _, rfl⟩

end TapeLang.Command
