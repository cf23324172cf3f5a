import TapeLang.Build.Artifact
import TapeLang.Proofs.File.Tree

/-!
The steps of a build.

A build consists of at most four steps: the assembly text is copied out, assembled, copied out as
an object file, and linked.  `Step.attempt` says what a step makes of the files that were there
before the build, or why it fails.  The files of the steps lie side by side, so that what one step
writes is never on the way to what another one writes (`Step.not_mem_visited`), and in surroundings
that are fit for a build the temporary directory is out of reach of all of them
(`Environment.Ready`, `Environment.Clear`).
-/

namespace TapeLang.Build

open File (Tree Location Path FileError Proper)

/-! ### Steps -/

/-- The steps that a build can consist of. -/
inductive Step where
  | copyAssembly
  | assemble
  | copyObject
  | link
  deriving DecidableEq, Repr

/-- A file that a build produces: its path, where that leads, and what it holds. -/
structure Artifact where
  path : Path
  place : Location
  content : ByteArray

/-- The files with artifacts in place. -/
def install (tree : Tree) (made : List Artifact) : Tree :=
  made.foldl (fun t a => t.put a.place (.file a.content)) tree

/-- The command that assembles. -/
def Environment.assembleCommand (env : Environment) : List String :=
  ["as", (env.tempFile assemblyName).path.render, "-o", (env.tempFile objectName).path.render]

/-- The command that links. -/
def Environment.linkCommand (env : Environment) (output : Path) : List String :=
  ["ld", (env.tempFile objectName).path.render, "-o", output.render]

/-- What a command writes if its tool can be started and exits with status zero. -/
def Toolbox.product (tools : Toolbox) (args : List String) : Except CommandError ByteArray :=
  match tools (toolName args) with
  | .cannotStart f => .error (.cannotStart args f)
  | .exits status product =>
    if status = 0 then .ok (product.getD (toolMark (toolName args)))
    else .error (.badStatus args status)

/-- A file that is written beside the output, with a suffix added to its name. -/
def copyBeside (tree : Tree) (cwd : Location) (output : Path) (suffix : String)
    (content : ByteArray) : Except BuildError (Option Artifact) :=
  match output.withName? (output.name ++ suffix) with
  | none => .error (.emptyName output)
  | some p =>
    match tree.target cwd p.render with
    | .error f => .error (.file ⟨f, p.render⟩)
    | .ok l => .ok (some ⟨p, l, content⟩)

namespace Step

/-- Whether a step is needed for some kinds of output. -/
def needed (kinds : List OutputKind) : Step → Bool
  | copyAssembly => kinds.contains .assembly
  | assemble => kinds.contains .object || kinds.contains .executable
  | copyObject => kinds.contains .object
  | link => kinds.contains .executable

/-- The file that a step leaves behind, apart from the temporary directory. -/
def path? (output : Path) : Step → Option Path
  | copyAssembly => output.withName? (output.name ++ ".s")
  | assemble => none
  | copyObject => output.withName? (output.name ++ ".o")
  | link => some output

/-- The command that a step runs. -/
def command? (env : Environment) (output : Path) : Step → Option (List String)
  | copyAssembly => none
  | assemble => some env.assembleCommand
  | copyObject => none
  | link => some (env.linkCommand output)

/-- The record of a file that is copied out of the temporary directory. -/
def copyLog (env : Environment) (name : String) (target : Path) : LogEntry :=
  ⟨.debug, .building, "Copying '" ++ (env.tempFile name).path.render ++ "' to '" ++
    target.render ++ "'"⟩

/-- What a step puts on record. -/
def log (env : Environment) (output : Path) : Step → List LogEntry
  | copyAssembly => ((path? output copyAssembly).map (copyLog env assemblyName)).toList
  | assemble => [commandLog env.assembleCommand]
  | copyObject => ((path? output copyObject).map (copyLog env objectName)).toList
  | link => [commandLog (env.linkCommand output)]

/-- What a step writes, unless its tool fails. -/
def content (env : Environment) (assembly : String) (output : Path) :
    Step → Except CommandError ByteArray
  | copyAssembly => .ok assembly.toUTF8
  | assemble => env.tools.product env.assembleCommand
  | copyObject => env.tools.product env.assembleCommand
  | link => env.tools.product (env.linkCommand output)

/-- Where a step puts what it writes, unless it cannot be put there. -/
def deliver (env : Environment) (tree : Tree) (output : Path) (content : ByteArray) :
    Step → Except BuildError (Option Artifact)
  | copyAssembly => copyBeside tree env.cwd output ".s" content
  | assemble => .ok none
  | copyObject => copyBeside tree env.cwd output ".o" content
  | link =>
    match tree.target env.cwd output.render with
    | .error .zeroCharacter => .error (.command .zeroCharacter)
    | .error _ => .error (.command (.badStatus (env.linkCommand output) 1))
    | .ok l => .ok (some ⟨output, l, content⟩)

/-- What a step makes of the files from before the build, or why it fails. -/
def attempt (env : Environment) (tree : Tree) (assembly : String) (output : Path) (step : Step) :
    Except BuildError (Option Artifact) :=
  match step.content env assembly output with
  | .error e => .error (.command e)
  | .ok content => step.deliver env tree output content

/-- Take a step. -/
def perform (env : Environment) (output : Path) : Step → BuildM Unit
  | copyAssembly => copyOut env assemblyName ".s" output
  | assemble => command env env.assembleCommand
  | copyObject => copyOut env objectName ".o" output
  | link => do
    command env (env.linkCommand output)
    modify fun s => { s with produced := s.produced.push output }

end Step

/-! ### Running steps -/

section

variable {α β : Type}

theorem run_bind (x : BuildM α) (f : α → BuildM β) (s : Progress) : (x >>= f).run.run s =
    match x.run.run s with
    | (.ok a, s) => (f a).run.run s
    | (.error e, s) => (.error e, s) := by
  unfold ExceptT.run StateT.run
  simp only [bind, ExceptT.bind, ExceptT.mk, StateT.bind, ExceptT.bindCont]
  cases x s with
  | mk result s => cases result <;> rfl

theorem run_record (message : String) (s : Progress) : (record message).run.run s =
    (.ok (), { s with log := s.log.push ⟨.debug, .building, message⟩ }) :=
  rfl

theorem run_modify (f : Progress → Progress) (s : Progress) :
    (modify f : BuildM PUnit).run.run s = (.ok (), f s) :=
  rfl

theorem run_get (s : Progress) : (get : BuildM Progress).run.run s = (.ok s, s) :=
  rfl

theorem run_set (s s' : Progress) : (set s' : BuildM PUnit).run.run s = (.ok (), s') :=
  rfl

theorem run_copyOut (env : Environment) (name suffix : String) (output : Path) (s : Progress) :
    (copyOut env name suffix output).run.run s =
      match output.withName? (output.name ++ suffix) with
      | none => (.error (.emptyName output), s)
      | some target =>
        let s := { s with log := s.log.push (Step.copyLog env name target) }
        match (s.tree.read env.cwd (env.tempFile name).path.render).bind
          (s.tree.write env.cwd target.render) with
        | .error e => (.error (.file e), s)
        | .ok tree => (.ok (), { s with tree, produced := s.produced.push target }) := by
  unfold copyOut
  cases output.withName? (output.name ++ suffix) with
  | none => rfl
  | some target =>
    simp only [run_bind, run_record, run_get]
    cases hread : (s.tree.read env.cwd (env.tempFile name).path.render).bind
        (s.tree.write env.cwd target.render) <;> rfl

theorem run_command (env : Environment) (args : List String) (s : Progress) :
    (command env args).run.run s =
      let (tree, result) := runCommand env.tools env.cwd s.tree args
      (result.mapError .command,
        { s with
          tree
          log := s.log.push (commandLog args)
          commands := s.commands.push args }) := by
  unfold command
  simp only [run_bind, run_modify, run_get, run_set]
  cases hresult : (runCommand env.tools env.cwd s.tree args).2 <;> rfl

end

/-- A command is run for its product, which goes where the path of its output leads. -/
theorem runCommand_eq (tools : Toolbox) (cwd : Location) (tree : Tree) (name source : String)
    {target : Path} (htarget : target.Normal) :
    runCommand tools cwd tree [name, source, "-o", target.render] =
      match tools.product [name, source, "-o", target.render] with
      | .error e => (tree, .error e)
      | .ok content =>
        match tree.target cwd target.render with
        | .error .zeroCharacter => (tree, .error .zeroCharacter)
        | .error _ => (tree, .error (.badStatus [name, source, "-o", target.render] 1))
        | .ok l => (tree.put l (.file content), .ok ()) := by
  have hlast : (Path.ofString ([name, source, "-o", target.render].getLast?.getD "")).render =
      target.render := by
    show (Path.ofString target.render).render = target.render
    rw [Path.ofString_render htarget]
  have hflag : [name, source, "-o", target.render].contains "-o" = true := by simp
  unfold runCommand startTool Toolbox.product
  rw [if_neg (by simp)]
  cases htool : tools (toolName [name, source, "-o", target.render]) with
  | cannotStart f => rfl
  | exits status product =>
    by_cases hstatus : status = 0
    · simp only [hstatus, if_true, runTool, hflag, hlast, Tree.write]
      cases tree.target cwd target.render with
      | error f => cases f <;> rfl
      | ok l => rfl
    · simp only [hstatus, if_false]

theorem copyBeside_eq_ok {tree : Tree} {cwd : Location} {output : Path} {suffix : String}
    {content : ByteArray} {made : Option Artifact}
    (h : copyBeside tree cwd output suffix content = .ok made) :
    ∃ p l, output.withName? (output.name ++ suffix) = some p ∧
      tree.target cwd p.render = .ok l ∧ made = some ⟨p, l, content⟩ := by
  unfold copyBeside at h
  split at h
  · cases h
  · rename_i p hp
    split at h
    · cases h
    · rename_i l hl
      exact ⟨p, l, hp, hl, (Except.ok.inj h).symm⟩

theorem copyBeside_congr {tree tree' : Tree} {cwd : Location} {output : Path} {suffix : String}
    {content : ByteArray}
    (h : ∀ p, output.withName? (output.name ++ suffix) = some p →
      tree.target cwd p.render = tree'.target cwd p.render) :
    copyBeside tree cwd output suffix content = copyBeside tree' cwd output suffix content := by
  unfold copyBeside
  split
  · rfl
  · rename_i p hp
    rw [h p hp]

/-! ### Surroundings -/

theorem proper_assemblyName : Proper assemblyName := by
  decide

theorem proper_objectName : Proper objectName := by
  decide

theorem Environment.prefix_tempFile (env : Environment) (name : String) :
    env.temp <+: env.tempFile name :=
  List.prefix_append _ _

theorem Environment.tempFile_ne_nil (env : Environment) (name : String) :
    env.tempFile name ≠ [] := by
  simp [tempFile]

/-- A build can take place: its current directory exists, and its temporary directory can be made
where nothing is yet. -/
structure Environment.Ready (env : Environment) (tree : Tree) : Prop where
  wellFormed : tree.WellFormed
  cwd : tree.get? env.cwd = some .directory
  home : tree.get? env.temp.dropLast = some .directory
  fresh : tree.get? env.temp = none
  proper : ∀ name ∈ env.temp, Proper name
  short : env.temp.path.render.utf8ByteSize ≤ 4085

/-- No file that a build may leave behind has a path through the temporary directory. -/
def Environment.Clear (env : Environment) (output : Path) : Prop :=
  ∀ step p, Step.path? output step = some p → env.temp ∉ Tree.visited env.cwd p.render

namespace Environment.Ready

variable {env : Environment} {tree : Tree}

theorem temp_ne_nil (h : env.Ready tree) : env.temp ≠ [] := Tree.ne_nil_of_get?_eq_none h.fresh

/-- No directory lies in the temporary directory before a build. -/
theorem not_prefix_of_directory (h : env.Ready tree) {l : Location}
    (hl : tree.get? l = some .directory) : ¬ env.temp <+: l := by
  intro hbelow
  have hnone := h.wellFormed.get?_eq_none_of_prefix h.fresh hbelow
  rw [hl] at hnone
  cases hnone

/-- Paths start outside the temporary directory. -/
theorem not_prefix_origin (h : env.Ready tree) (text : String) :
    ¬ env.temp <+: Tree.origin env.cwd text := by
  unfold Tree.origin
  split
  · exact fun hroot => h.temp_ne_nil (List.prefix_nil.mp hroot)
  · exact h.not_prefix_of_directory h.cwd

theorem not_prefix_of_mem_visited (h : env.Ready tree) {text : String} {l : Location}
    (hclear : env.temp ∉ Tree.visited env.cwd text) (hl : l ∈ Tree.visited env.cwd text) :
    ¬ env.temp <+: l :=
  Tree.not_prefix_of_not_mem_scanl (h.not_prefix_origin text) hclear l hl

theorem proper_tempFile (h : env.Ready tree) {name : String} (hname : Proper name) :
    ∀ part ∈ env.tempFile name, Proper part := by
  intro part hpart
  rcases List.mem_append.mp hpart with hpart | hpart
  · exact h.proper part hpart
  · rw [List.mem_singleton.mp hpart]
    exact hname

/-- The path of a file in the temporary directory is short enough. -/
theorem utf8ByteSize_tempFile (h : env.Ready tree) {name : String} (hname : name.utf8ByteSize ≤ 9) :
    (env.tempFile name).path.render.utf8ByteSize ≤ 4095 := by
  have hshort := h.short
  have hrender : (env.tempFile name).path.render = env.temp.path.render ++ "/" ++ name := by
    show "/" ++ String.intercalate "/" (env.temp ++ [name]) =
      "/" ++ String.intercalate "/" env.temp ++ "/" ++ name
    rw [String.intercalate_append_of_ne_nil h.temp_ne_nil (by simp), String.intercalate_singleton]
    simp only [String.append_assoc]
  have hslash : "/".utf8ByteSize = 1 := rfl
  rw [hrender, String.utf8ByteSize_append, String.utf8ByteSize_append]
  omega

end Environment.Ready

/-! ### A workshop -/

/-- Surroundings with a current directory and a temporary directory beside it. -/
def workshop (tools : Toolbox) : Environment := ⟨tools, ["work"], ["temp"]⟩

/-- A current directory with some files in it and nothing else. -/
def workshopTree : List (String × ByteArray) → Tree
  | [] => Tree.empty.put ["work"] .directory
  | (name, content) :: files => (workshopTree files).put ["work", name] (.file content)

theorem get?_workshopTree (files : List (String × ByteArray)) {l : Location}
    (hl : ∀ name, l ≠ ["work", name]) :
    (workshopTree files).get? l = (Tree.empty.put ["work"] .directory).get? l := by
  induction files with
  | nil => rfl
  | cons f files ih => rw [workshopTree, Tree.get?_put_of_ne _ (hl f.1), ih]

theorem get?_workshopTree_ne_directory (files : List (String × ByteArray)) (name : String) :
    (workshopTree files).get? ["work", name] ≠ some .directory := by
  induction files with
  | nil =>
    rw [workshopTree, Tree.get?_put_of_ne _ (by simp)]
    simp [Tree.get?, Tree.empty]
  | cons f files ih =>
    rw [workshopTree]
    by_cases hname : name = f.1
    · subst hname
      simp [Tree.get?_put_self]
    · rw [Tree.get?_put_of_ne _ (by simpa using hname)]
      exact ih

theorem wellFormed_workshopTree {files : List (String × ByteArray)}
    (hfiles : ∀ f ∈ files, Proper f.1) : (workshopTree files).WellFormed := by
  induction files with
  | nil =>
    have hempty : Tree.empty.WellFormed := by
      constructor <;> intro l name e h <;> simp [Tree.get?, Tree.empty] at h
    exact hempty.put (Tree.get?_root _) (by decide) fun _ => rfl
  | cons f files ih =>
    have hcwd : (workshopTree files).get? ["work"] = some .directory :=
      get?_workshopTree files (by simp)
    have hrest := ih fun g hg => hfiles g (List.mem_cons_of_mem f hg)
    exact hrest.put hcwd (hfiles f List.mem_cons_self) fun h =>
      absurd h (get?_workshopTree_ne_directory files f.1)

theorem ready_workshop (tools : Toolbox) {files : List (String × ByteArray)}
    (hfiles : ∀ f ∈ files, Proper f.1) : (workshop tools).Ready (workshopTree files) where
  wellFormed := wellFormed_workshopTree hfiles
  cwd := get?_workshopTree files (by simp [workshop])
  home := get?_workshopTree files (by simp [workshop])
  fresh := get?_workshopTree files (by simp [workshop])
  proper := by
    show ∀ name ∈ ["temp"], Proper name
    decide
  short := by
    show (Location.path ["temp"]).render.utf8ByteSize ≤ 4085
    decide

/-! ### Installing -/

section

variable {tree : Tree} {made : List Artifact} {l : Location}

theorem install_append (tree : Tree) (made more : List Artifact) :
    install tree (made ++ more) = install (install tree made) more :=
  List.foldl_append

theorem install_concat (tree : Tree) (made : List Artifact) (a : Artifact) :
    install tree (made ++ [a]) = (install tree made).put a.place (.file a.content) :=
  install_append tree made [a]

theorem get?_install (tree : Tree) (hl : ∀ a ∈ made, a.place ≠ l) :
    (install tree made).get? l = tree.get? l := by
  induction made generalizing tree with
  | nil => rfl
  | cons a made ih =>
    have hrest := ih (tree.put a.place (.file a.content)) fun b hb =>
      hl b (List.mem_cons_of_mem a hb)
    calc (install tree (a :: made)).get? l
        = (install (tree.put a.place (.file a.content)) made).get? l := rfl
      _ = (tree.put a.place (.file a.content)).get? l := hrest
      _ = tree.get? l := Tree.get?_put_of_ne tree (hl a List.mem_cons_self).symm _

/-- Files that are put where files can be written neither make nor replace directories. -/
theorem wellFormed_install (htree : tree.WellFormed)
    (hmade : ∀ a ∈ made, ∃ above name, a.place = above ++ [name] ∧
      tree.get? above = some .directory ∧ Proper name ∧ tree.get? a.place ≠ some .directory) :
    (install tree made).WellFormed ∧
      ∀ l, (install tree made).get? l = some .directory ↔ tree.get? l = some .directory := by
  induction made generalizing tree with
  | nil => exact ⟨htree, fun l => Iff.rfl⟩
  | cons a made ih =>
    obtain ⟨above, name, hplace, habove, hname, hvacant⟩ := hmade a List.mem_cons_self
    have hdirs : ∀ l, (tree.put a.place (.file a.content)).get? l = some .directory ↔
        tree.get? l = some .directory := by
      intro l
      by_cases hl : l = a.place
      · have hne : a.place ≠ [] := by simp [hplace]
        rw [hl, Tree.get?_put_self tree hne]
        simpa using hvacant
      · rw [Tree.get?_put_of_ne tree hl]
    have hwell : (tree.put a.place (.file a.content)).WellFormed := by
      rw [hplace] at hvacant ⊢
      exact htree.put habove hname fun h => absurd h hvacant
    obtain ⟨hrest, hsame⟩ := ih hwell (by
      intro b hb
      obtain ⟨above, name, hplace, habove, hname, hvacant⟩ :=
        hmade b (List.mem_cons_of_mem a hb)
      exact ⟨above, name, hplace, (hdirs above).mpr habove, hname, mt (hdirs b.place).mp hvacant⟩)
    exact ⟨hrest, fun l => (hsame l).trans (hdirs l)⟩

/-- Another build can take place where artifacts were put. -/
theorem Environment.Ready.install {env : Environment} (hready : env.Ready tree)
    (hmade : ∀ a ∈ made, tree.target env.cwd a.path.render = .ok a.place ∧
      env.temp ∉ Tree.visited env.cwd a.path.render) :
    env.Ready (Build.install tree made) := by
  have hplaced : ∀ a ∈ made, ∃ above name, a.place = above ++ [name] ∧
      tree.get? above = some .directory ∧ Proper name ∧ tree.get? a.place ≠ some .directory := by
    intro a ha
    obtain ⟨above, name, hw, hplace⟩ := Tree.writable_of_target (hmade a ha).1
    exact ⟨above, name, hplace, hw.directory, hw.proper, Tree.vacant_of_target (hmade a ha).1⟩
  obtain ⟨hwell, hdirs⟩ := wellFormed_install hready.wellFormed hplaced
  have hfresh : (Build.install tree made).get? env.temp = none := by
    rw [get?_install tree, hready.fresh]
    rintro a ha hplace
    obtain ⟨htarget, hclear⟩ := hmade a ha
    rw [← hplace] at hclear
    exact hclear (Tree.target_mem_visited htarget)
  exact ⟨hwell, (hdirs _).mpr hready.cwd, (hdirs _).mpr hready.home, hfresh, hready.proper,
    hready.short⟩

/-- Artifacts that do not lie on the way of each other are found where they were put. -/
theorem read_install {cwd : Location} {a : Artifact}
    (hmade : ∀ b ∈ made, tree.target cwd b.path.render = .ok b.place)
    (hapart : made.Pairwise fun b c =>
      b.place ∉ Tree.visited cwd c.path.render ∧ c.place ∉ Tree.visited cwd b.path.render)
    (ha : a ∈ made) : (install tree made).read cwd a.path.render = .ok a.content := by
  obtain ⟨before, after, rfl⟩ := List.append_of_mem ha
  -- What comes before does not change where the artifact goes, and what comes after does not
  -- change what is found there.
  rw [List.pairwise_append, List.pairwise_cons] at hapart
  obtain ⟨-, ⟨hafter, -⟩, hbefore⟩ := hapart
  have htarget : (install tree before).target cwd a.path.render = .ok a.place := by
    rw [← hmade a (by simp)]
    apply Tree.target_congr
    intro x hx
    apply get?_install
    rintro b hb rfl
    exact (hbefore b hb a List.mem_cons_self).1 hx
  rw [List.append_cons, install_append, install_concat,
    ← Tree.read_put_of_target htarget a.content]
  apply Tree.read_congr
  intro x hx
  apply get?_install
  rintro b hb rfl
  exact (hafter b hb).2 hx

end

/-! ### Where steps write -/

namespace Step

/-- What the file of a step is called beyond the name of the output. -/
def suffix : Step → String
  | copyAssembly => ".s"
  | assemble => ""
  | copyObject => ".o"
  | link => ""

variable {step other : Step} {output p q : Path}

theorem suffix_ne (hp : path? output step = some p) (hq : path? output other = some q)
    (hne : step ≠ other) : step.suffix ≠ other.suffix := by
  have hstep : step ≠ assemble := by
    rintro rfl
    cases hp
  have hother : other ≠ assemble := by
    rintro rfl
    cases hq
  clear hp hq
  cases step <;> cases other <;> simp [suffix] at *

theorem path?_eq_some (hne : output.parts ≠ []) (hp : path? output step = some p) :
    p = ⟨output.anchor, output.parts.dropLast ++ [output.name ++ step.suffix]⟩ := by
  cases step with
  | copyAssembly => exact (Path.withName?_eq_some hp).2
  | assemble => cases hp
  | copyObject => exact (Path.withName?_eq_some hp).2
  | link =>
    obtain rfl := Option.some.inj hp
    rw [suffix, String.append_empty, ← Path.parts_eq_concat hne]

theorem normal_path? (hnormal : output.Normal) (hp : path? output step = some p) : p.Normal := by
  cases step with
  | copyAssembly => exact Path.normal_withName? hnormal hp (by decide)
  | assemble => cases hp
  | copyObject => exact Path.normal_withName? hnormal hp (by decide)
  | link =>
    obtain rfl := Option.some.inj hp
    exact hnormal

/-- Without a name for the output, there is nothing beside it. -/
theorem eq_link_of_parts_eq_nil (hnil : output.parts = []) (hp : path? output step = some p) :
    step = link := by
  cases step with
  | copyAssembly => exact absurd hnil (Path.withName?_eq_some hp).1
  | assemble => cases hp
  | copyObject => exact absurd hnil (Path.withName?_eq_some hp).1
  | link => rfl

/-- Different steps have different files. -/
theorem path?_inj (hp : path? output step = some p) (hq : path? output other = some p) :
    step = other := by
  by_contra hne
  by_cases hnil : output.parts = []
  · exact hne ((eq_link_of_parts_eq_nil hnil hp).trans (eq_link_of_parts_eq_nil hnil hq).symm)
  · have heq := (path?_eq_some hnil hp).symm.trans (path?_eq_some hnil hq)
    simp only [File.Path.mk.injEq, List.append_cancel_left_eq, List.cons.injEq,
      String.append_right_inj, and_true, true_and] at heq
    exact suffix_ne hp hq hne heq

/-- What one step writes does not lie on the way to what another writes. -/
theorem not_mem_visited {tree : Tree} {cwd l : Location} (hnormal : output.Normal)
    (hp : path? output step = some p) (hq : path? output other = some q) (hne : step ≠ other)
    (hl : tree.target cwd p.render = .ok l) : l ∉ Tree.visited cwd q.render := by
  by_cases hnil : output.parts = []
  · have heq : step = other :=
      (eq_link_of_parts_eq_nil hnil hp).trans (eq_link_of_parts_eq_nil hnil hq).symm
    exact absurd heq hne
  · -- The paths differ in their last part alone, by the suffixes of the steps.
    have hpn := normal_path? hnormal hp
    have hqn := normal_path? hnormal hq
    have hsuffix := suffix_ne hp hq hne
    obtain rfl := path?_eq_some hnil hp
    obtain rfl := path?_eq_some hnil hq
    apply Tree.not_mem_visited_of_target hl
    · rw [Tree.origin_render hpn, Tree.origin_render hqn]
    · rw [Path.splitSlashes_render hpn (by simp), Path.splitSlashes_render hqn (by simp)]
      simp only [← List.append_assoc, List.dropLast_concat]
    · rw [Path.splitSlashes_render hpn (by simp), Path.splitSlashes_render hqn (by simp)]
      simpa only [← List.append_assoc, List.getLast?_concat, Option.getD_some,
        String.append_right_inj, ne_eq] using hsuffix.symm

/-- A step that succeeds has put what it writes where its path leads. -/
theorem attempt_eq_ok {env : Environment} {tree : Tree} {assembly : String}
    {made : Option Artifact} (h : step.attempt env tree assembly output = .ok made) :
    ∃ content, step.content env assembly output = .ok content ∧
      (step.path? output = none ∧ made = none ∨
        ∃ p l, step.path? output = some p ∧ tree.target env.cwd p.render = .ok l ∧
          made = some ⟨p, l, content⟩) := by
  unfold attempt at h
  split at h
  · cases h
  · rename_i content hcontent
    refine ⟨content, hcontent, ?_⟩
    cases step with
    | copyAssembly => exact .inr (copyBeside_eq_ok h)
    | assemble => exact .inl ⟨rfl, (Except.ok.inj h).symm⟩
    | copyObject => exact .inr (copyBeside_eq_ok h)
    | link =>
      simp only [deliver] at h
      split at h
      · cases h
      · cases h
      · rename_i l hl
        exact .inr ⟨output, l, rfl, hl, (Except.ok.inj h).symm⟩

/-- How a step turns out depends on where its path leads. -/
theorem attempt_congr {env : Environment} {tree tree' : Tree} {assembly : String}
    (h : ∀ p, step.path? output = some p →
      tree.target env.cwd p.render = tree'.target env.cwd p.render) :
    step.attempt env tree assembly output = step.attempt env tree' assembly output := by
  unfold attempt
  split
  · rfl
  · cases step with
    | copyAssembly => exact copyBeside_congr h
    | assemble => rfl
    | copyObject => exact copyBeside_congr h
    | link => simp only [deliver, h output rfl]

end Step

end TapeLang.Build
