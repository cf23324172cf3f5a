import TapeLang.Proofs.Build.Course

/-!
What a build does to the files, whether it succeeds or fails.

The steps that were planned fall apart into those that are done and a rest.  `Effects` says what
holds of every build: the steps done have left their files, everything else is as it was, the
targets of the rest included, and the temporary directory is gone.  The first step of the rest, if
there is one, has failed, and none after it was tried.
-/

namespace TapeLang.Build

open File (Tree Location Path)

/-- What a build has done that came through the steps `done` and not through the first one of
`rest`. -/
structure Effects (env : Environment) (tree : Tree) (assembly : String) (output : Path)
    (r : Report) (done rest : List Step) : Prop where
  /-- The commands are those of the steps done, and of the one that failed. -/
  commands : r.commands = (done ++ rest.take 1).filterMap (Step.command? env output)
  /-- These steps are on record in their order, and the end of a build that came through. -/
  log : r.log = openingLog env :: (done ++ rest.take 1).flatMap (Step.log env output) ++
    if rest = [] then [closingLog env] else []
  /-- Every file of a step done exists and holds what the step writes. -/
  written : ∀ step ∈ done, ∃ content, step.content env assembly output = .ok content ∧
    ∀ p, step.path? output = some p → r.tree.read env.cwd p.render = .ok content
  /-- If no step is left, the result lists the files of all steps. -/
  success : rest = [] → r.result = .ok (done.filterMap (Step.path? output))
  /-- Otherwise the result is the error of the first step left. -/
  failure : ∀ step later, rest = step :: later →
    ∃ e, step.attempt env tree assembly output = .error e ∧ r.result = .error e ∧
      ∀ args, step.command? env output = some args →
        (∀ f, env.tools (toolName args) = .cannotStart f →
          e = .command (.cannotStart args f)) ∧
        ∀ status product, env.tools (toolName args) = .exits status product → status ≠ 0 →
          e = .command (.badStatus args status)
  /-- The file of a step left, and everything on the way to it, is as before. -/
  untouched : ∀ step ∈ rest, ∀ p, step.path? output = some p →
    ∀ l ∈ Tree.visited env.cwd p.render, r.tree.get? l = tree.get? l
  /-- Everything but the files of the steps done is as before. -/
  frame : ∀ l, (∀ step ∈ done, ∀ p, step.path? output = some p →
    tree.target env.cwd p.render ≠ .ok l) → r.tree.get? l = tree.get? l
  /-- The temporary directory is gone. -/
  cleared : ∀ l, env.temp <+: l → r.tree.get? l = none

section

variable {env : Environment} {tree : Tree} {assembly : String} {output : Path}
  {kinds : List OutputKind} {done rest : List Step} {step : Step} {a : Artifact}

/-- What a step makes is the file of the step. -/
theorem made?_eq_some (h : made? (Step.attempt env tree assembly output) step = some a) :
    step.path? output = some a.path ∧ tree.target env.cwd a.path.render = .ok a.place ∧
      step.content env assembly output = .ok a.content := by
  rw [made?] at h
  split at h
  · cases h
  · rename_i made hattempt
    obtain ⟨content, hcontent, ⟨-, rfl⟩ | ⟨p, l, hp, hl, rfl⟩⟩ := Step.attempt_eq_ok hattempt
    · cases h
    · obtain rfl := Option.some.inj h
      exact ⟨hp, hl, hcontent⟩

theorem map_path_made
    (hdone : ∀ step ∈ done, ∃ made, step.attempt env tree assembly output = .ok made) :
    (done.filterMap (made? (Step.attempt env tree assembly output))).map (·.path) =
      done.filterMap (Step.path? output) := by
  rw [List.map_filterMap]
  apply List.filterMap_congr
  intro step hstep
  obtain ⟨made, hattempt⟩ := hdone step hstep
  rw [made?, hattempt]
  obtain ⟨content, -, ⟨hp, rfl⟩ | ⟨p, l, hp, hl, rfl⟩⟩ := Step.attempt_eq_ok hattempt
  · exact hp.symm
  · exact hp.symm

/-- The artifacts of different steps do not lie on the way of each other. -/
theorem made_apart (hnormal : output.Normal) (hpair : done.Pairwise (· ≠ ·)) :
    (done.filterMap (made? (Step.attempt env tree assembly output))).Pairwise fun a b =>
      a.place ∉ Tree.visited env.cwd b.path.render ∧
        b.place ∉ Tree.visited env.cwd a.path.render := by
  rw [List.pairwise_filterMap]
  refine hpair.imp fun hne a ha b hb => ?_
  obtain ⟨hp, hl, -⟩ := made?_eq_some ha
  obtain ⟨hq, hl', -⟩ := made?_eq_some hb
  exact ⟨Step.not_mem_visited hnormal hp hq hne hl, Step.not_mem_visited hnormal hq hp hne.symm hl'⟩

/-- What a step has made is found where it was put. -/
theorem read_made (hnormal : output.Normal) (hpair : done.Pairwise (· ≠ ·)) (hstep : step ∈ done)
    (h : step.attempt env tree assembly output = .ok (some a)) :
    (install tree (done.filterMap (made? (Step.attempt env tree assembly output)))).read env.cwd
      a.path.render = .ok a.content := by
  apply read_install
  · intro b hb
    obtain ⟨other, -, hmade⟩ := List.mem_filterMap.mp hb
    exact (made?_eq_some hmade).2.1
  · exact made_apart hnormal hpair
  · exact List.mem_filterMap.mpr ⟨step, hstep, by rw [made?, h]⟩

/-- A tool that fails makes its step fail. -/
theorem attempt_of_product_error {args : List String} {e : CommandError}
    (hargs : step.command? env output = some args) (h : env.tools.product args = .error e) :
    step.attempt env tree assembly output = .error (.command e) := by
  cases step with
  | copyAssembly => cases hargs
  | assemble =>
    obtain rfl := Option.some.inj hargs
    rw [Step.attempt, Step.content, h]
  | copyObject => cases hargs
  | link =>
    obtain rfl := Option.some.inj hargs
    rw [Step.attempt, Step.content, h]

end

/-- Every build has the effects of the steps it comes through, in the order of its plan. -/
theorem build_effects {env : Environment} {tree : Tree} {output : Path} (hready : env.Ready tree)
    (hnormal : output.Normal) (hclear : env.Clear output) (assembly : String)
    (kinds : List OutputKind) :
    ∃ done rest, plan kinds = done ++ rest ∧
      Effects env tree assembly output (build env tree assembly output kinds) done rest := by
  obtain ⟨done, rest, hplan, hdone, hmade, hend⟩ :=
    course_cases (Step.attempt env tree assembly output) (plan kinds)
  have hpair := pairwise_plan kinds
  rw [hplan, List.pairwise_append] at hpair
  have hplaced : ∀ l, (∀ step ∈ done, ∀ p, step.path? output = some p →
      tree.target env.cwd p.render ≠ .ok l) →
      ∀ a ∈ done.filterMap (made? (Step.attempt env tree assembly output)), a.place ≠ l := by
    rintro l hl a ha rfl
    obtain ⟨step, hstep, hmade⟩ := List.mem_filterMap.mp ha
    obtain ⟨hp, htarget, -⟩ := made?_eq_some hmade
    exact hl step hstep a.path hp htarget
  refine ⟨done, rest, hplan, ?_⟩
  -- From here on the build is its course, and its files are those from before with artifacts.
  rw [build_eq hready hnormal hclear, Course.report, hmade]
  constructor
  case commands =>
    rcases hend with ⟨rfl, htried, -⟩ | ⟨step, later, e, rfl, -, htried, -⟩ <;> simp [htried]
  case log =>
    rcases hend with ⟨rfl, htried, hfailure⟩ | ⟨step, later, e, rfl, -, htried, hfailure⟩ <;>
      simp [Course.log, htried, hfailure]
  case written =>
    intro step hstep
    obtain ⟨made, hattempt⟩ := hdone step hstep
    obtain ⟨content, hcontent, hpath⟩ := Step.attempt_eq_ok hattempt
    refine ⟨content, hcontent, fun p hp => ?_⟩
    obtain ⟨hnone, -⟩ | ⟨q, l, hq, hl, rfl⟩ := hpath
    · rw [hnone] at hp
      cases hp
    · obtain rfl := Option.some.inj (hq.symm.trans hp)
      have hread := read_made hnormal (hpair.1.imp And.left) hstep hattempt
      exact hread
  case success =>
    intro hrest
    rcases hend with ⟨-, -, hfailure⟩ | ⟨step, later, e, hcons, -, -, -⟩
    · rw [← map_path_made hdone]
      simp [Course.result, hfailure, Except.map]
    · rw [hcons] at hrest
      cases hrest
  case failure =>
    intro step later hrest
    rcases hend with ⟨hnil, -, -⟩ | ⟨step', later', e, hcons, he, -, hfailure⟩
    · rw [hnil] at hrest
      cases hrest
    · obtain ⟨rfl, rfl⟩ := List.cons.inj (hcons.symm.trans hrest)
      refine ⟨e, he, by simp [Course.result, hfailure, Except.map], fun args hargs => ⟨?_, ?_⟩⟩
      · intro f hf
        have hproduct : env.tools.product args = .error (.cannotStart args f) := by
          rw [Toolbox.product, hf]
        exact Except.error.inj (he.symm.trans (attempt_of_product_error hargs hproduct))
      · intro status product hexits hstatus
        have hproduct : env.tools.product args = .error (.badStatus args status) := by
          rw [Toolbox.product, hexits]
          exact if_neg hstatus
        exact Except.error.inj (he.symm.trans (attempt_of_product_error hargs hproduct))
  case untouched =>
    -- A step that is left is none of those done, so their files are not on the way to its file.
    intro step hstep p hp l hl
    apply get?_install
    rintro a ha rfl
    obtain ⟨other, hother, hmade⟩ := List.mem_filterMap.mp ha
    obtain ⟨hpath, htarget, -⟩ := made?_eq_some hmade
    exact Step.not_mem_visited hnormal hpath hp (hpair.2.2 other hother step hstep).1 htarget hl
  case frame => exact fun l hl => get?_install tree (hplaced l hl)
  case cleared =>
    intro l hl
    rw [get?_install tree, hready.wellFormed.get?_eq_none_of_prefix hready.fresh hl]
    apply hplaced
    intro step hstep p hp htarget
    exact hready.not_prefix_of_mem_visited (hclear step p hp) (Tree.target_mem_visited htarget) hl

/-- A linker that fails leaves the assembly text behind, and an old output as it was. -/
theorem build_effects_failing_linker :
    let tools : Toolbox := fun name => if name = "ld" then .exits 1 else .exits 0
    let tree := workshopTree [("a", "old".toUTF8)]
    let output : Path := ⟨.relative, ["a"]⟩
    (workshop tools).Ready tree ∧ output.Normal ∧ (workshop tools).Clear output ∧
      ∃ done rest, plan [.executable, .assembly] = done ++ rest ∧
        Effects (workshop tools) tree ".text" output
          (build (workshop tools) tree ".text" output [.executable, .assembly]) done rest := by
  intro tools tree output
  have hready : (workshop tools).Ready tree := ready_workshop _ (by decide)
  have hnormal : output.Normal := by
    intro part hpart
    obtain rfl := List.mem_singleton.mp hpart
    decide
  have hclear : (workshop tools).Clear output := by
    intro step p hp
    cases step with
    | copyAssembly => obtain rfl := Option.some.inj hp; decide
    | assemble => cases hp
    | copyObject => obtain rfl := Option.some.inj hp; decide
    | link => obtain rfl := Option.some.inj hp; decide
  exact ⟨hready, hnormal, hclear, build_effects hready hnormal hclear ".text" _⟩

end TapeLang.Build
