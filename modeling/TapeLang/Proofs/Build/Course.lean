import TapeLang.Proofs.Build.Step

/-!
The course of a build.

The steps of a plan succeed or fail one by one as they do on the files that were there before the
build, and the first that fails ends it (`course`).  Afterwards the files are those from before
with the artifacts of the steps that succeeded in place, and the temporary directory is gone
(`build_eq`).

The proof keeps a `Stage`: without the temporary directory, the files in the middle of a build are
those from before with the artifacts made so far, and the temporary directory holds what the next
step needs.
-/

namespace TapeLang.Build

open File (Tree Location Path Proper)

/-! ### Plans -/

/-- The steps that some kinds of output ask for, in their order. -/
def plan (kinds : List OutputKind) : List Step :=
  [.copyAssembly, .assemble, .copyObject, .link].filter (·.needed kinds)

/-- How far a plan comes: the steps that are tried, what they make, and how the last one fails. -/
structure Course where
  tried : List Step
  made : List Artifact
  failure : Option BuildError

/-- Try the steps of a plan one after the other, up to the first that fails. -/
def course (attempt : Step → Except BuildError (Option Artifact)) : List Step → Course
  | [] => ⟨[], [], none⟩
  | step :: rest =>
    match attempt step with
    | .error e => ⟨[step], [], some e⟩
    | .ok made =>
      let c := course attempt rest
      ⟨step :: c.tried, made.toList ++ c.made, c.failure⟩

/-- What a step makes if it succeeds. -/
def made? (attempt : Step → Except BuildError (Option Artifact)) (step : Step) : Option Artifact :=
  match attempt step with
  | .error _ => none
  | .ok made => made

/-- A plan falls apart into steps that succeed and a rest, of which the first step fails. -/
theorem course_cases (attempt : Step → Except BuildError (Option Artifact)) (todo : List Step) :
    ∃ done rest, todo = done ++ rest ∧ (∀ step ∈ done, ∃ a, attempt step = .ok a) ∧
      (course attempt todo).made = done.filterMap (made? attempt) ∧
      (rest = [] ∧ (course attempt todo).tried = done ∧ (course attempt todo).failure = none ∨
        ∃ step later e, rest = step :: later ∧ attempt step = .error e ∧
          (course attempt todo).tried = done ++ [step] ∧
          (course attempt todo).failure = some e) := by
  induction todo with
  | nil => exact ⟨[], [], rfl, by simp, rfl, .inl ⟨rfl, rfl, rfl⟩⟩
  | cons step todo ih =>
    rw [course]
    cases hattempt : attempt step with
    | error e =>
      exact ⟨[], step :: todo, rfl, by simp, rfl, .inr ⟨step, todo, e, rfl, hattempt, rfl, rfl⟩⟩
    | ok a =>
      obtain ⟨done, rest, rfl, hdone, hmade, hend⟩ := ih
      refine ⟨step :: done, rest, rfl, ?_, ?_, ?_⟩
      · intro other hother
        rcases List.mem_cons.mp hother with rfl | hother
        · exact ⟨a, hattempt⟩
        · exact hdone other hother
      · have hfirst : made? attempt step = a := by rw [made?, hattempt]
        show a.toList ++ (course attempt (done ++ rest)).made = _
        rw [hmade, List.filterMap_cons, hfirst]
        cases a <;> rfl
      · rcases hend with ⟨hrest, htried, hfailure⟩ | ⟨last, later, e, hrest, he, htried, hfailure⟩
        · exact .inl ⟨hrest, by simp [htried], hfailure⟩
        · exact .inr ⟨last, later, e, hrest, he, by simp [htried], hfailure⟩

theorem course_congr {attempt attempt' : Step → Except BuildError (Option Artifact)}
    {todo : List Step} (h : ∀ step ∈ todo, attempt step = attempt' step) :
    course attempt todo = course attempt' todo := by
  induction todo with
  | nil => rfl
  | cons step todo ih =>
    have hrest := ih fun other hother => h other (List.mem_cons_of_mem step hother)
    rw [course, course, h step List.mem_cons_self, hrest]

theorem steps_eq (env : Environment) (assembly : String) (output : Path)
    (kinds : List OutputKind) : steps env assembly output kinds = (do
      record ("Creating '" ++ (env.tempFile assemblyName).path.render ++ "'")
      modify fun s =>
        { s with tree := s.tree.put (env.tempFile assemblyName) (.file assembly.toUTF8) }
      forM (plan kinds) (Step.perform env output)
      record ("Removing '" ++ env.temp.path.render ++ "'")) := by
  simp only [steps, plan, List.filter_cons, List.filter_nil, Step.needed]
  cases kinds.contains .assembly <;> cases kinds.contains .object <;>
    cases kinds.contains .executable <;>
    simp [Step.perform, Environment.assembleCommand, Environment.linkCommand]

/-! ### Stages of a build -/

/-- The files in the middle of a build, after some steps that have made some artifacts. -/
structure Stage (env : Environment) (tree : Tree) (assembly : String) (output : Path)
    (done : List Step) (made : List Artifact) (t : Tree) : Prop where
  wellFormed : t.WellFormed
  settled : t.removeAll env.temp = install tree made
  source : t.get? (env.tempFile assemblyName) = some (.file assembly.toUTF8)
  vacant : t.get? (env.tempFile objectName) ≠ some .directory
  object : .assemble ∈ done → ∃ content, env.tools.product env.assembleCommand = .ok content ∧
    t.get? (env.tempFile objectName) = some (.file content)
  placed : ∀ a ∈ made, tree.target env.cwd a.path.render = .ok a.place ∧
    ∃ step ∈ done, step.path? output = some a.path

/-- The state of a build after more steps that have made more artifacts. -/
def Progress.after (s : Progress) (env : Environment) (output : Path) (tried : List Step)
    (made : List Artifact) (tree : Tree) : Progress :=
  ⟨tree, s.commands ++ (tried.filterMap (Step.command? env output)).toArray,
    s.log ++ (tried.flatMap (Step.log env output)).toArray,
    s.produced ++ (made.map (·.path)).toArray⟩

/-- A step taken from some state turns out as it does on the files from before the build. -/
def TurnsOut (env : Environment) (tree : Tree) (assembly : String) (output : Path)
    (done : List Step) (made : List Artifact) (step : Step) (s : Progress) : Prop :=
  match step.attempt env tree assembly output with
  | .error e => (step.perform env output).run.run s =
      (.error e, s.after env output [step] [] s.tree)
  | .ok a => ∃ t, (step.perform env output).run.run s =
      (.ok (), s.after env output [step] a.toList t) ∧
        Stage env tree assembly output (done ++ [step]) (made ++ a.toList) t

theorem Progress.after_after (s : Progress) (env : Environment) (output : Path)
    (tried tried' : List Step) (made made' : List Artifact) (t t' : Tree) :
    (s.after env output tried made t).after env output tried' made' t' =
      s.after env output (tried ++ tried') (made ++ made') t' := by
  simp [after, Array.append_assoc]

namespace Stage

variable {env : Environment} {tree t : Tree} {assembly : String} {output p : Path}
  {done : List Step} {made : List Artifact} {step : Step} {l : Location}

theorem get?_eq (hs : Stage env tree assembly output done made t) (hl : ¬ env.temp <+: l)
    (hne : ∀ a ∈ made, a.place ≠ l) : t.get? l = tree.get? l :=
  calc t.get? l = (t.removeAll env.temp).get? l := (Tree.get?_removeAll_of_not_prefix t hl).symm
    _ = (install tree made).get? l := by rw [hs.settled]
    _ = tree.get? l := get?_install tree hne

section

variable (hready : env.Ready tree) (hnormal : output.Normal) (hclear : env.Clear output)

include hready hnormal hclear

/-- A step that is still to come writes where it would have written before the build. -/
theorem target_eq (hs : Stage env tree assembly output done made t) (hstep : step ∉ done)
    (hp : step.path? output = some p) :
    t.target env.cwd p.render = tree.target env.cwd p.render := by
  apply Tree.target_congr
  intro x hx
  apply hs.get?_eq
  · exact hready.not_prefix_of_mem_visited (hclear step p hp) hx
  · -- What was made so far belongs to other steps.
    rintro a ha rfl
    obtain ⟨htarget, other, hother, hpath⟩ := hs.placed a ha
    refine Step.not_mem_visited hnormal hpath hp ?_ htarget hx
    rintro rfl
    exact hstep hother

/-- An artifact is put in its place. -/
theorem put_artifact (hs : Stage env tree assembly output done made t) (hstep : step ∉ done)
    (hp : step.path? output = some p) (hl : tree.target env.cwd p.render = .ok l)
    (content : ByteArray) :
    Stage env tree assembly output (done ++ [step]) (made ++ [⟨p, l, content⟩])
      (t.put l (.file content)) := by
  have htarget : t.target env.cwd p.render = .ok l := by
    rw [hs.target_eq hready hnormal hclear hstep hp, hl]
  have hout : ¬ env.temp <+: l :=
    hready.not_prefix_of_mem_visited (hclear step p hp) (Tree.target_mem_visited hl)
  have htemp : ∀ name, env.tempFile name ≠ l := by
    rintro name rfl
    exact hout (env.prefix_tempFile name)
  have hassemble : step ≠ .assemble := by
    rintro rfl
    cases hp
  constructor
  case wellFormed => exact hs.wellFormed.put_file htarget content
  case settled =>
    rw [Tree.removeAll_put_of_not_prefix t hout, hs.settled, install_concat]
  case source => rw [Tree.get?_put_of_ne t (htemp _), hs.source]
  case vacant =>
    rw [Tree.get?_put_of_ne t (htemp _)]
    exact hs.vacant
  case object =>
    intro hmem
    rw [Tree.get?_put_of_ne t (htemp _)]
    exact hs.object (by simpa [Ne.symm hassemble] using hmem)
  case placed =>
    intro a ha
    rcases List.mem_append.mp ha with ha | ha
    · obtain ⟨htarget, other, hother, hpath⟩ := hs.placed a ha
      exact ⟨htarget, other, List.mem_append_left _ hother, hpath⟩
    · obtain rfl := List.mem_singleton.mp ha
      exact ⟨hl, step, by simp, hp⟩

end

theorem temp_directory (hs : Stage env tree assembly output done made t) :
    t.get? env.temp = some .directory :=
  hs.wellFormed.above hs.source

/-- The object file is put in the temporary directory. -/
theorem put_object (hs : Stage env tree assembly output done made t) {content : ByteArray}
    (hcontent : env.tools.product env.assembleCommand = .ok content) :
    Stage env tree assembly output (done ++ [.assemble]) made
      (t.put (env.tempFile objectName) (.file content)) := by
  have hother : env.tempFile assemblyName ≠ env.tempFile objectName := by
    simp [Environment.tempFile, assemblyName, objectName]
  constructor
  case wellFormed =>
    exact hs.wellFormed.put hs.temp_directory proper_objectName fun hdir =>
      absurd hdir hs.vacant
  case settled => rw [Tree.removeAll_put_of_prefix t (env.prefix_tempFile _), hs.settled]
  case source => rw [Tree.get?_put_of_ne t hother, hs.source]
  case vacant => simp [Tree.get?_put_self t (env.tempFile_ne_nil objectName)]
  case object =>
    intro _
    exact ⟨content, hcontent, Tree.get?_put_self t (env.tempFile_ne_nil objectName) _⟩
  case placed =>
    intro a ha
    obtain ⟨htarget, step, hstep, hpath⟩ := hs.placed a ha
    exact ⟨htarget, step, List.mem_append_left _ hstep, hpath⟩

/-- The temporary directory is made and the assembly text put in it. -/
theorem initial (hready : env.Ready tree) (assembly : String) (output : Path) :
    Stage env tree assembly output [] []
      ((tree.makeDirectories env.temp).put (env.tempFile assemblyName)
        (.file assembly.toUTF8)) := by
  have htemp : env.temp.dropLast ++ [env.temp.getLast hready.temp_ne_nil] = env.temp :=
    List.dropLast_append_getLast hready.temp_ne_nil
  have hfresh : tree.get? (env.temp.dropLast ++ [env.temp.getLast hready.temp_ne_nil]) = none := by
    rw [htemp]
    exact hready.fresh
  have hmake : tree.makeDirectories env.temp = tree.put env.temp .directory := by
    have hmake := hready.wellFormed.makeDirectories_concat hready.home hfresh
    rwa [htemp] at hmake
  have hwell : (tree.put env.temp .directory).WellFormed := by
    have hwell := hready.wellFormed.put (e := .directory) hready.home
      (hready.proper _ (List.getLast_mem hready.temp_ne_nil)) fun _ => rfl
    rwa [htemp] at hwell
  have hbelow : ∀ l, env.temp <+: l → tree.get? l = none := fun l =>
    hready.wellFormed.get?_eq_none_of_prefix hready.fresh
  have hnone : ∀ name, (tree.put env.temp .directory).get? (env.tempFile name) = none := by
    intro name
    rw [Tree.get?_put_of_ne tree (by simp [Environment.tempFile]),
      hbelow _ (env.prefix_tempFile name)]
  have hother : env.tempFile objectName ≠ env.tempFile assemblyName := by
    simp [Environment.tempFile, assemblyName, objectName]
  rw [hmake]
  constructor
  case wellFormed =>
    apply hwell.put (Tree.get?_put_self tree hready.temp_ne_nil _) proper_assemblyName
    intro hdir
    rw [← Environment.tempFile, hnone] at hdir
    cases hdir
  case settled =>
    rw [Tree.removeAll_put_of_prefix _ (env.prefix_tempFile _),
      Tree.removeAll_put_of_prefix _ (List.prefix_refl _), Tree.removeAll_eq_self hbelow]
    rfl
  case source => rw [Tree.get?_put_self _ (env.tempFile_ne_nil _)]
  case vacant => simp [Tree.get?_put_of_ne _ hother, hnone]
  case object => simp
  case placed => simp

/-! ### Taking steps -/

section

variable (hready : env.Ready tree) (hnormal : output.Normal) (hclear : env.Clear output)

include hready hnormal hclear

/-- A file is copied out as it is attempted on the files from before the build. -/
theorem run_copyOut_eq {s : Progress} {name suffix : String} {content : ByteArray}
    (hs : Stage env tree assembly output done made s.tree) (hstep : step ∉ done)
    (hpath : step.path? output = output.withName? (output.name ++ suffix))
    (hname : name.utf8ByteSize ≤ 9)
    (hcontent : s.tree.get? (env.tempFile name) = some (.file content)) :
    (copyOut env name suffix output).run.run s =
      let s := { s with
        log := s.log ++ ((step.path? output).map (Step.copyLog env name)).toList.toArray }
      match copyBeside tree env.cwd output suffix content with
      | .error e => (.error e, s)
      | .ok made => (.ok (), { s with
          tree := install s.tree made.toList
          produced := s.produced ++ (made.toList.map (·.path)).toArray }) := by
  have hread := hs.wellFormed.read_path hcontent (hready.utf8ByteSize_tempFile hname) env.cwd
  rw [run_copyOut, copyBeside, hpath]
  cases hp : output.withName? (output.name ++ suffix) with
  | none => simp
  | some p =>
    have htarget := hs.target_eq hready hnormal hclear hstep (hpath.trans hp)
    simp only [hread, Except.bind, Tree.write, htarget]
    cases htree : tree.target env.cwd p.render with
    | error f => simp
    | ok l => simp [install]

/-- A step that copies turns out as it is attempted. -/
theorem perform_copy {s : Progress} {name suffix : String} {content : ByteArray}
    (hs : Stage env tree assembly output done made s.tree) (hstep : step ∉ done)
    (hpath : step.path? output = output.withName? (output.name ++ suffix))
    (hperform : step.perform env output = copyOut env name suffix output)
    (hattempt : step.attempt env tree assembly output =
      copyBeside tree env.cwd output suffix content)
    (hlog : step.log env output = ((step.path? output).map (Step.copyLog env name)).toList)
    (hcommand : step.command? env output = none) (hname : name.utf8ByteSize ≤ 9)
    (hcontent : s.tree.get? (env.tempFile name) = some (.file content)) :
    TurnsOut env tree assembly output done made step s := by
  have hrun := hs.run_copyOut_eq hready hnormal hclear hstep hpath hname hcontent
  rw [TurnsOut, hperform, hattempt, hrun]
  cases hcopy : copyBeside tree env.cwd output suffix content with
  | error e => simp [Progress.after, hcommand, hlog]
  | ok a =>
    obtain ⟨p, l, hp, hl, rfl⟩ := copyBeside_eq_ok hcopy
    refine ⟨s.tree.put l (.file content), ?_, ?_⟩
    · simp [Progress.after, hcommand, hlog, install]
    · exact hs.put_artifact hready hnormal hclear hstep (hpath.trans hp) hl content

end

/-- The assembler writes into the temporary directory. -/
theorem perform_assemble (hready : env.Ready tree) {s : Progress}
    (hs : Stage env tree assembly output done made s.tree) :
    TurnsOut env tree assembly output done made .assemble s := by
  have hobject := hready.proper_tempFile proper_objectName
  have htarget : s.tree.target env.cwd (env.tempFile objectName).path.render =
      .ok (env.tempFile objectName) :=
    hs.wellFormed.target_path hs.temp_directory proper_objectName hs.vacant
      (hready.utf8ByteSize_tempFile (by decide)) env.cwd
  have hrun : runCommand env.tools env.cwd s.tree env.assembleCommand = _ :=
    runCommand_eq env.tools env.cwd s.tree "as" (env.tempFile assemblyName).path.render
      (Tree.normal_path hobject)
  rw [← Environment.assembleCommand, htarget] at hrun
  rw [TurnsOut, Step.perform, Step.attempt, Step.content, run_command, hrun]
  cases hproduct : env.tools.product env.assembleCommand with
  | error e => simp [Progress.after, Step.command?, Step.log, Except.mapError]
  | ok content =>
    refine ⟨s.tree.put (env.tempFile objectName) (.file content), ?_, ?_⟩
    · simp [Progress.after, Step.command?, Step.log, Except.mapError]
    · simpa using hs.put_object hproduct

/-- The linker writes the output. -/
theorem perform_link (hready : env.Ready tree) (hnormal : output.Normal)
    (hclear : env.Clear output) {s : Progress}
    (hs : Stage env tree assembly output done made s.tree) (hstep : .link ∉ done) :
    TurnsOut env tree assembly output done made .link s := by
  have htarget := hs.target_eq hready hnormal hclear hstep rfl
  have hrun : runCommand env.tools env.cwd s.tree (env.linkCommand output) = _ :=
    runCommand_eq env.tools env.cwd s.tree "ld" (env.tempFile objectName).path.render hnormal
  rw [← Environment.linkCommand, htarget] at hrun
  rw [TurnsOut, Step.perform, Step.attempt, Step.content, run_bind, run_command, hrun]
  cases hproduct : env.tools.product (env.linkCommand output) with
  | error e => simp [Progress.after, Step.command?, Step.log, Except.mapError]
  | ok content =>
    simp only [Step.deliver]
    cases hl : tree.target env.cwd output.render with
    | error f => cases f <;> simp [Progress.after, Step.command?, Step.log, Except.mapError]
    | ok l =>
      refine ⟨s.tree.put l (.file content), ?_, ?_⟩
      · simp [run_modify, Progress.after, Step.command?, Step.log, Except.mapError]
      · exact hs.put_artifact hready hnormal hclear hstep rfl hl content

/-- A step turns out as it does on the files from before the build. -/
theorem turnsOut (hready : env.Ready tree) (hnormal : output.Normal) (hclear : env.Clear output)
    {s : Progress} (hs : Stage env tree assembly output done made s.tree)
    (hstep : step ∉ done) (hobject : step = .copyObject → .assemble ∈ done) :
    TurnsOut env tree assembly output done made step s := by
  cases step with
  | copyAssembly =>
    exact hs.perform_copy hready hnormal hclear hstep rfl rfl rfl rfl rfl (by decide) hs.source
  | assemble => exact hs.perform_assemble hready
  | copyObject =>
    obtain ⟨content, hproduct, hcontent⟩ := hs.object (hobject rfl)
    have hattempt : Step.copyObject.attempt env tree assembly output =
        copyBeside tree env.cwd output ".o" content := by
      rw [Step.attempt, Step.content, hproduct]
      rfl
    exact hs.perform_copy hready hnormal hclear hstep rfl rfl hattempt rfl rfl (by decide) hcontent
  | link => exact hs.perform_link hready hnormal hclear hstep

end Stage

/-! ### Plans and whole builds -/

section

variable {env : Environment} {tree : Tree} {assembly : String} {output : Path}
  {kinds : List OutputKind} {done todo : List Step} {made : List Artifact} {step : Step}

/-- No step is planned twice, and the object file is not copied before it is made. -/
theorem pairwise_plan (kinds : List OutputKind) :
    (plan kinds).Pairwise fun a b => a ≠ b ∧ ¬ (a = .copyObject ∧ b = .assemble) :=
  List.Pairwise.filter _ (by decide)

theorem mem_plan : step ∈ plan kinds ↔ step.needed kinds = true := by
  cases step <;> simp [plan]

theorem not_mem_of_plan_eq (h : plan kinds = done ++ step :: todo) : step ∉ done := by
  have hpair := pairwise_plan kinds
  rw [h, List.pairwise_append] at hpair
  exact fun hmem => (hpair.2.2 step hmem step List.mem_cons_self).1 rfl

theorem assemble_mem_of_plan_eq (h : plan kinds = done ++ .copyObject :: todo) :
    .assemble ∈ done := by
  have hpair := pairwise_plan kinds
  have hobject : Step.copyObject ∈ plan kinds := by simp [h]
  have hassemble : Step.assemble ∈ plan kinds := by
    rw [mem_plan] at hobject ⊢
    simp only [Step.needed] at hobject ⊢
    rw [hobject, Bool.true_or]
  rw [h, List.mem_append, List.mem_cons] at hassemble
  rw [h, List.pairwise_append, List.pairwise_cons] at hpair
  rcases hassemble with hdone | heq | htodo
  · exact hdone
  · cases heq
  · exact absurd ⟨rfl, rfl⟩ (hpair.2.1.1 _ htodo).2

/-- How a course ends. -/
def Course.result (c : Course) : Except BuildError Unit :=
  match c.failure with
  | none => .ok ()
  | some e => .error e

/-- The steps of a plan turn out as they do on the files from before the build. -/
theorem run_forM_perform (hready : env.Ready tree) (hnormal : output.Normal)
    (hclear : env.Clear output) {s : Progress} (hplan : plan kinds = done ++ todo)
    (hs : Stage env tree assembly output done made s.tree) :
    ∃ t, (forM todo (Step.perform env output)).run.run s =
        ((course (Step.attempt env tree assembly output) todo).result,
          s.after env output (course (Step.attempt env tree assembly output) todo).tried
            (course (Step.attempt env tree assembly output) todo).made t) ∧
      t.removeAll env.temp =
        install tree (made ++ (course (Step.attempt env tree assembly output) todo).made) := by
  -- By induction on the steps that are left; those done decide the stage that they start from.
  induction todo generalizing done made s with
  | nil =>
    refine ⟨s.tree, ?_, ?_⟩
    · simp [course, Course.result, Progress.after]
      rfl
    · simpa [course] using hs.settled
  | cons step todo ih =>
    have hturn := hs.turnsOut hready hnormal hclear (not_mem_of_plan_eq hplan) (by
      rintro rfl
      exact assemble_mem_of_plan_eq hplan)
    rw [TurnsOut] at hturn
    rw [List.forM_cons, run_bind, course]
    cases hattempt : step.attempt env tree assembly output with
    | error e =>
      rw [hattempt] at hturn
      refine ⟨s.tree, ?_, ?_⟩
      · rw [hturn]
        rfl
      · simpa using hs.settled
    | ok a =>
      rw [hattempt] at hturn
      obtain ⟨t, hrun, hstage⟩ := hturn
      rw [List.append_cons] at hplan
      obtain ⟨t', hrest, hsettled⟩ := ih hplan hstage (s := s.after env output [step] a.toList t)
      refine ⟨t', ?_, ?_⟩
      · rw [hrun]
        dsimp only
        rw [hrest, Progress.after_after]
        rfl
      · rw [hsettled, List.append_assoc]

/-- The record of a temporary directory that is put to use. -/
def openingLog (env : Environment) : LogEntry :=
  ⟨.debug, .building, "Creating '" ++ (env.tempFile assemblyName).path.render ++ "'"⟩

/-- The record of a temporary directory that has served its purpose. -/
def closingLog (env : Environment) : LogEntry :=
  ⟨.debug, .building, "Removing '" ++ env.temp.path.render ++ "'"⟩

/-- What is put on record in the course of a build. -/
def Course.log (c : Course) (env : Environment) (output : Path) : List LogEntry :=
  [openingLog env] ++ c.tried.flatMap (Step.log env output) ++
    match c.failure with
    | none => [closingLog env]
    | some _ => []

/-- What a build leaves behind whose plan takes some course. -/
def Course.report (c : Course) (env : Environment) (tree : Tree) (output : Path) : Report where
  tree := install tree c.made
  commands := c.tried.filterMap (Step.command? env output)
  log := c.log env output
  result := c.result.map fun _ => c.made.map (·.path)

/-- A build takes the course that its plan takes on the files from before. -/
theorem build_eq (hready : env.Ready tree) (hnormal : output.Normal) (hclear : env.Clear output)
    (assembly : String) (kinds : List OutputKind) :
    build env tree assembly output kinds =
      (course (Step.attempt env tree assembly output) (plan kinds)).report env tree output := by
  have hrun := run_forM_perform hready hnormal hclear (List.nil_append (plan kinds)).symm
    (s := ⟨(tree.makeDirectories env.temp).put (env.tempFile assemblyName) (.file assembly.toUTF8),
      #[], #[openingLog env], #[]⟩)
    (Stage.initial hready assembly output)
  generalize course (Step.attempt env tree assembly output) (plan kinds) = c at hrun ⊢
  obtain ⟨t, hrun, hsettled⟩ := hrun
  rw [openingLog] at hrun
  -- Taking away the temporary directory turns the last stage into the report.
  rw [build, steps_eq]
  simp only [run_bind, run_record, run_modify, List.push_toArray, List.nil_append, hrun]
  cases hfailure : c.failure <;>
    simp [Course.result, Course.report, Course.log, hfailure, Progress.after, hsettled, Except.map,
      openingLog, closingLog]

end

end TapeLang.Build
