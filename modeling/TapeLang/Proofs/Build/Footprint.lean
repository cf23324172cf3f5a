import TapeLang.Proofs.Build.Course

/-!
Where a build may leave something, whatever comes of it.

Writing a file keeps every directory and changes the one place that the path leads to
(`Tree.ChangesOnly`).  A build writes into its temporary directory and where the files of its steps
go, and nowhere else (`changesOnly_build`).  This holds of every output, also of one in the
temporary directory itself.
-/

namespace TapeLang.File.Tree

variable {before after t : Tree} {places : Location → Prop} {cwd l l' : Location} {text : String}

/-- The directories are still there, and nothing is different but what some places hold. -/
structure ChangesOnly (before : Tree) (places : Location → Prop) (after : Tree) : Prop where
  wellFormed : after.WellFormed
  directories : ∀ l, before.get? l = some .directory → after.get? l = some .directory
  frame : ∀ l, ¬ places l → after.get? l = before.get? l

namespace ChangesOnly

theorem refl (h : t.WellFormed) (places : Location → Prop) : t.ChangesOnly places t :=
  ⟨h, fun _ hl => hl, fun _ _ => rfl⟩

theorem mono {wider : Location → Prop} (h : before.ChangesOnly places after)
    (hwider : ∀ l, places l → wider l) : before.ChangesOnly wider after :=
  ⟨h.wellFormed, h.directories, fun l hl => h.frame l fun hplace => hl (hwider l hplace)⟩

theorem trans (h : before.ChangesOnly places t) (h' : t.ChangesOnly places after) :
    before.ChangesOnly places after :=
  ⟨h'.wellFormed, fun l hl => h'.directories l (h.directories l hl),
    fun l hl => (h'.frame l hl).trans (h.frame l hl)⟩

theorem put (h : before.ChangesOnly places t) (htarget : t.target cwd text = .ok l)
    (hl : places l) (content : ByteArray) :
    before.ChangesOnly places (t.put l (.file content)) := by
  constructor
  case wellFormed => exact h.wellFormed.put_file htarget content
  case directories =>
    intro x hx
    have hkept := h.directories x hx
    have hne : x ≠ l := by
      rintro rfl
      exact vacant_of_target htarget hkept
    rw [get?_put_of_ne t hne, hkept]
  case frame =>
    intro x hx
    have hne : x ≠ l := by
      rintro rfl
      exact hx hl
    rw [get?_put_of_ne t hne, h.frame x hx]

end ChangesOnly

/-- What is written by the path of a location goes there. -/
theorem eq_of_target_path (hproper : ∀ name ∈ l, Proper name) (hne : l ≠ [])
    (h : t.target cwd l.path.render = .ok l') : l' = l := by
  obtain ⟨above, name, hw, rfl⟩ := writable_of_target h
  have horigin : origin cwd l.path.render = [] := origin_render (normal_path hproper) cwd
  have hvoid : stride [] "" = [] := rfl
  calc above ++ [name]
      = (splitSlashes l.path.render).foldl stride (origin cwd l.path.render) :=
        hw.foldl_stride.symm
    _ = l.foldl stride [] := by
        rw [splitSlashes_path hproper hne, horigin, List.foldl_cons, hvoid]
    _ = l := (foldl_stride_of_proper hproper).1

/-- Without a location and everything below it, the rest is well formed. -/
theorem WellFormed.removeAll (h : t.WellFormed) (l : Location) : (t.removeAll l).WellFormed := by
  have hkept : ∀ {x name e}, (t.removeAll l).get? (x ++ [name]) = some e →
      t.get? (x ++ [name]) = some e ∧ ¬ l <+: x := by
    intro x name e hx
    rw [get?_removeAll t l (by simp)] at hx
    split at hx
    · cases hx
    · rename_i hprefix
      refine ⟨hx, fun hbelow => hprefix ?_⟩
      exact List.isPrefixOf_iff_prefix.mpr (hbelow.trans (List.prefix_append x [name]))
  constructor
  · intro x name e hx
    obtain ⟨hx, hprefix⟩ := hkept hx
    exact (t.get?_removeAll_of_not_prefix hprefix).trans (h.above hx)
  · intro x name e hx
    exact h.proper (hkept hx).1

end TapeLang.File.Tree

namespace TapeLang.Build

open File (Tree Location Path Proper)

/-- Where the file of a step can be written while the current directory exists. -/
def Step.MayWrite (env : Environment) (output : Path) (step : Step) (l : Location) : Prop :=
  ∃ p, ∃ t : Tree, step.path? output = some p ∧ t.WellFormed ∧
    t.get? env.cwd = some .directory ∧ t.target env.cwd p.render = .ok l

/-- Where a build may write while it is going on. -/
def Footprint (env : Environment) (output : Path) (kinds : List OutputKind) (l : Location) : Prop :=
  env.temp <+: l ∨ ∃ step ∈ plan kinds, step.MayWrite env output l

section

variable {env : Environment} {tree : Tree} {output : Path} {kinds : List OutputKind} {step : Step}
  {s : Progress} {places : Location → Prop}

/-- A tool writes where the path of its output leads, or nowhere. -/
theorem changesOnly_runCommand {cwd : Location} {before t : Tree} (tools : Toolbox)
    (name source : String) {target : Path} (htarget : target.Normal)
    (h : before.ChangesOnly places t)
    (hplaces : ∀ l, t.target cwd target.render = .ok l → places l) :
    before.ChangesOnly places (runCommand tools cwd t [name, source, "-o", target.render]).1 := by
  rw [runCommand_eq tools cwd t name source htarget]
  cases tools.product [name, source, "-o", target.render] with
  | error e => exact h
  | ok content =>
    cases hl : t.target cwd target.render with
    | error f => cases f <;> exact h
    | ok l => exact h.put hl (hplaces l hl) content

/-- A copy is written where the path of its target leads, or not at all. -/
theorem changesOnly_copyOut {before : Tree} {name suffix : String}
    (h : before.ChangesOnly places s.tree)
    (hplaces : ∀ p l, output.withName? (output.name ++ suffix) = some p →
      s.tree.target env.cwd p.render = .ok l → places l) :
    before.ChangesOnly places ((copyOut env name suffix output).run.run s).2.tree := by
  rw [run_copyOut]
  cases hp : output.withName? (output.name ++ suffix) with
  | none => exact h
  | some p =>
    dsimp only
    cases s.tree.read env.cwd (env.tempFile name).path.render with
    | error e => exact h
    | ok content =>
      simp only [Except.bind, Tree.write]
      cases hl : s.tree.target env.cwd p.render with
      | error f => exact h
      | ok l => exact h.put hl (hplaces p l hp hl) content

/-- A step writes where its build may write. -/
theorem Step.changesOnly_perform (hready : env.Ready tree) (hnormal : output.Normal)
    (hstep : step ∈ plan kinds) (h : tree.ChangesOnly (Footprint env output kinds) s.tree) :
    tree.ChangesOnly (Footprint env output kinds) ((step.perform env output).run.run s).2.tree := by
  have hmay : ∀ p l, step.path? output = some p → s.tree.target env.cwd p.render = .ok l →
      Footprint env output kinds l := by
    intro p l hp hl
    exact .inr ⟨step, hstep, p, s.tree, hp, h.wellFormed, h.directories _ hready.cwd, hl⟩
  cases step with
  | copyAssembly => exact changesOnly_copyOut h hmay
  | assemble =>
    have hproper := hready.proper_tempFile proper_objectName
    rw [perform, run_command]
    apply changesOnly_runCommand env.tools "as" _ (Tree.normal_path hproper) h
    intro l hl
    obtain rfl := Tree.eq_of_target_path hproper (env.tempFile_ne_nil objectName) hl
    exact .inl (env.prefix_tempFile objectName)
  | copyObject => exact changesOnly_copyOut h hmay
  | link =>
    have hrun : tree.ChangesOnly (Footprint env output kinds)
        (runCommand env.tools env.cwd s.tree (env.linkCommand output)).1 :=
      changesOnly_runCommand env.tools "ld" _ hnormal h fun l => hmay output l rfl
    rw [perform, run_bind, run_command]
    cases hresult : (runCommand env.tools env.cwd s.tree (env.linkCommand output)).2 with
    | error e => simpa [hresult, Except.mapError] using hrun
    | ok u => simpa [hresult, Except.mapError, run_modify] using hrun

/-- So do the steps of its plan, up to the first that fails. -/
theorem changesOnly_forM_perform (hready : env.Ready tree) (hnormal : output.Normal)
    {todo : List Step} (htodo : ∀ step ∈ todo, step ∈ plan kinds)
    (h : tree.ChangesOnly (Footprint env output kinds) s.tree) :
    tree.ChangesOnly (Footprint env output kinds)
      ((forM todo (Step.perform env output)).run.run s).2.tree := by
  induction todo generalizing s with
  | nil => exact h
  | cons step todo ih =>
    have hfirst := Step.changesOnly_perform hready hnormal (htodo step List.mem_cons_self) h
    rw [List.forM_cons, run_bind]
    cases hrun : (step.perform env output).run.run s with
    | mk result s' =>
      rw [hrun] at hfirst
      cases result with
      | error e => exact hfirst
      | ok u => exact ih (fun other hother => htodo other (List.mem_cons_of_mem step hother)) hfirst

/-- In the beginning there is the temporary directory with the assembly text in it. -/
theorem changesOnly_initial (hready : env.Ready tree) (assembly : String) (output : Path)
    (kinds : List OutputKind) :
    tree.ChangesOnly (Footprint env output kinds)
      ((tree.makeDirectories env.temp).put (env.tempFile assemblyName)
        (.file assembly.toUTF8)) := by
  have hstage := Stage.initial hready assembly output
  constructor
  case wellFormed => exact hstage.wellFormed
  case directories =>
    intro l hl
    have hout : ¬ env.temp <+: l := hready.not_prefix_of_directory hl
    rw [hstage.get?_eq hout (by simp), hl]
  case frame =>
    intro l hl
    exact hstage.get?_eq (fun hbelow => hl (.inl hbelow)) (by simp)

/-- In the end the temporary directory is gone. -/
theorem changesOnly_removeAll (hready : env.Ready tree) {t : Tree}
    (h : tree.ChangesOnly (fun l => env.temp <+: l ∨ places l) t) :
    tree.ChangesOnly places (t.removeAll env.temp) := by
  constructor
  case wellFormed => exact h.wellFormed.removeAll env.temp
  case directories =>
    intro l hl
    rw [Tree.get?_removeAll_of_not_prefix t (hready.not_prefix_of_directory hl),
      h.directories l hl]
  case frame =>
    intro l hl
    by_cases hbelow : env.temp <+: l
    · have hne : l ≠ [] := fun hnil => hready.temp_ne_nil (List.prefix_nil.mp (hnil ▸ hbelow))
      rw [Tree.get?_removeAll t env.temp hne, if_pos (List.isPrefixOf_iff_prefix.mpr hbelow),
        hready.wellFormed.get?_eq_none_of_prefix hready.fresh hbelow]
    · rw [Tree.get?_removeAll_of_not_prefix t hbelow, h.frame l (by simp [hbelow, hl])]

/-- A build changes nothing but what the files of its steps hold. -/
theorem changesOnly_build (hready : env.Ready tree) (hnormal : output.Normal) (assembly : String)
    (kinds : List OutputKind) :
    tree.ChangesOnly (fun l => ∃ step ∈ plan kinds, step.MayWrite env output l)
      (build env tree assembly output kinds).tree := by
  have hsteps := changesOnly_forM_perform hready hnormal (fun _ h => h)
    (s := ⟨(tree.makeDirectories env.temp).put (env.tempFile assemblyName) (.file assembly.toUTF8),
      #[], #[openingLog env], #[]⟩)
    (changesOnly_initial hready assembly output kinds)
  have hend := changesOnly_removeAll hready hsteps
  rw [openingLog] at hend
  rw [build, steps_eq]
  simp only [run_bind, run_record, run_modify, List.push_toArray, List.nil_append]
  cases hrun : (forM (plan kinds) (Step.perform env output)).run.run _ with
  | mk result s =>
    rw [hrun] at hend
    cases result <;> exact hend

/-- Another build can take place afterwards. -/
theorem ready_build (hready : env.Ready tree) (hnormal : output.Normal) (assembly : String)
    (kinds : List OutputKind) : env.Ready (build env tree assembly output kinds).tree := by
  obtain ⟨hwell, hdirectories, -⟩ := changesOnly_build hready hnormal assembly kinds
  refine ⟨hwell, hdirectories _ hready.cwd, hdirectories _ hready.home, ?_, hready.proper,
    hready.short⟩
  show (Tree.removeAll _ env.temp).get? env.temp = none
  rw [Tree.get?_removeAll _ env.temp hready.temp_ne_nil,
    if_pos (List.isPrefixOf_iff_prefix.mpr (List.prefix_refl env.temp))]

end

end TapeLang.Build
