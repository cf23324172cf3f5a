import TapeLang.Proofs.File.Path

/-!
Outputs that are named after their sources.

Without an output that was asked for, the last part of a source text decides alone where its output
goes: it has to be a stem that is not empty, with the suffix of sources behind it, and the output is
the stem in the current directory (`outputPath?_eq_some_iff`).  What stands in front of that part,
and slashes and dots behind it, make no difference.

Main statement: `outputPath?_distinct`, which sources have such an output, and that two of them
share it only if their last parts are the same.
-/

namespace TapeLang.Build

open File (Path LastPart)

section

variable {cwd : Path} {source : String} {asked : Option String} {multiple : Bool} {output : Path}

/-- An output is the one that was asked for, or it is named after its source. -/
theorem outputPath?_cases (h : outputPath? cwd source asked multiple = some output) :
    (∃ text, output = .ofString text) ∨ outputPath? cwd source asked true = some output := by
  unfold outputPath? at h
  split at h
  · split at h
    · exact .inr h
    · exact .inl ⟨_, (Option.some.inj h).symm⟩
  · exact .inr (by cases asked <;> exact h)

/-- Without an output that was asked for, it does not matter how many sources there are. -/
theorem outputPath?_unnamed (h : asked = none ∨ asked = some "" ∨ multiple = true) (cwd : Path)
    (source : String) :
    outputPath? cwd source asked multiple = outputPath? cwd source asked true := by
  unfold outputPath?
  rcases h with rfl | rfl | rfl
  · rfl
  · cases multiple with
    | false =>
      dsimp only
      rw [if_pos rfl]
    | true => rfl
  · rfl

theorem splitName_eq_iff {name stem : String} :
    File.splitName name = (stem, sourceSuffix) ↔ name = stem ++ sourceSuffix ∧ stem ≠ "" := by
  refine ⟨fun h => File.splitName_eq h (by decide), ?_⟩
  rintro ⟨rfl, hstem⟩
  have hsuffix : sourceSuffix = "." ++ "bf" := by decide
  rw [hsuffix]
  exact File.splitName_append hstem (by decide) (by decide)

/-- An output that is named after its source has the stem of its name. -/
theorem outputPath?_eq_some_iff : outputPath? cwd source asked true = some output ↔
    ∃ stem, (Path.ofString source).name = stem ++ sourceSuffix ∧ stem ≠ "" ∧
      output = cwd.child stem := by
  have hderived : outputPath? cwd source asked true = outputPath?.derived cwd source := by
    cases asked <;> rfl
  rw [hderived, outputPath?.derived]
  constructor
  · intro h
    split at h
    rename_i stem suffix hsplit
    split at h
    · rename_i hsuffix
      obtain ⟨hname, hstem⟩ := splitName_eq_iff.mp (hsuffix ▸ hsplit)
      exact ⟨stem, hname, hstem, (Option.some.inj h).symm⟩
    · cases h
  · rintro ⟨stem, hname, hstem, rfl⟩
    rw [splitName_eq_iff.mpr ⟨hname, hstem⟩]
    exact if_pos rfl

theorem slash_not_mem_name (text : String) : '/' ∉ (Path.ofString text).name.toList := by
  rw [Path.name]
  cases hlast : (Path.ofString text).parts.getLast? with
  | none => simp
  | some part => exact (Path.normal_ofString text part (List.mem_of_getLast? hlast)).2

theorem normal_outputPath? (hcwd : cwd.Normal)
    (h : outputPath? cwd source asked multiple = some output) : output.Normal := by
  rcases outputPath?_cases h with ⟨text, rfl⟩ | hderived
  · exact Path.normal_ofString text
  · obtain ⟨stem, hname, -, rfl⟩ := outputPath?_eq_some_iff.mp hderived
    refine Path.normal_child hcwd fun hslash => slash_not_mem_name source ?_
    rw [hname, String.toList_append]
    exact List.mem_append_left _ hslash

theorem append_suffix_ne_empty (stem : String) : stem ++ sourceSuffix ≠ "" := by
  intro h
  have hsuffix := (String.append_eq_empty_iff.mp h).2
  exact absurd hsuffix (by decide)

/-- The last part of a source says whether it has an output, and where. -/
theorem outputPath?_iff_lastPart : outputPath? cwd source asked true = some output ↔
    ∃ stem, stem ≠ "" ∧ LastPart source (stem ++ sourceSuffix) ∧ output = cwd.child stem := by
  rw [outputPath?_eq_some_iff]
  refine exists_congr fun stem => ?_
  rw [Path.name_ofString (append_suffix_ne_empty stem), and_left_comm]

end

/-- **Outputs**: where no output was asked for, or one for several sources, a source is accepted
exactly if its last part is a stem that is not empty with the suffix of sources, and two accepted
sources have the same output exactly if they have the same last part. -/
theorem outputPath?_distinct {asked : Option String} {multiple : Bool}
    (h : asked = none ∨ asked = some "" ∨ multiple = true) (cwd : Path) :
    (∀ source, (∃ output, outputPath? cwd source asked multiple = some output) ↔
      ∃ stem, stem ≠ "" ∧ LastPart source (stem ++ sourceSuffix)) ∧
    ∀ source source' output output',
      outputPath? cwd source asked multiple = some output →
      outputPath? cwd source' asked multiple = some output' →
      (output = output' ↔ ∃ name, LastPart source name ∧ LastPart source' name) := by
  simp only [outputPath?_unnamed h, outputPath?_iff_lastPart]
  refine ⟨?_, ?_⟩
  · intro source
    constructor
    · rintro ⟨_, stem, hstem, hlast, -⟩
      exact ⟨stem, hstem, hlast⟩
    · rintro ⟨stem, hstem, hlast⟩
      exact ⟨_, stem, hstem, hlast, rfl⟩
  · rintro source source' _ _ ⟨stem, hstem, hlast, rfl⟩ ⟨stem', hstem', hlast', rfl⟩
    rw [Path.child_inj hstem hstem']
    constructor
    · rintro rfl
      exact ⟨_, hlast, hlast'⟩
    · rintro ⟨name, hname, hname'⟩
      have hsame := (hlast.unique hname).trans (hname'.unique hlast')
      exact (String.append_left_inj sourceSuffix).mp hsame

/-- Slashes and dots leave no trace around a name, and a name that is nothing but the suffix is that
of no source. -/
theorem outputPath?_distinct_dots :
    (∃ output, outputPath? ⟨.root, ["work"]⟩ "a/./t.bf/.//" none false = some output ∧
      outputPath? ⟨.root, ["work"]⟩ "t.bf" none false = some output) ∧
    ¬ ∃ output, outputPath? ⟨.root, ["work"]⟩ "a/.bf" none false = some output := by
  have hlong : LastPart "a/./t.bf/.//" ("t" ++ sourceSuffix) :=
    ⟨by decide, by decide, ["a", "."], [".", "", ""], by decide, by decide⟩
  have hshort : LastPart "t.bf" ("t" ++ sourceSuffix) :=
    ⟨by decide, by decide, [], [], by decide, by decide⟩
  have hbare : LastPart "a/.bf" sourceSuffix :=
    ⟨by decide, by decide, ["a"], [], by decide, by decide⟩
  obtain ⟨haccepted, hsame⟩ :=
    @outputPath?_distinct none false (.inl rfl) ⟨.root, ["work"]⟩
  obtain ⟨output, houtput⟩ := (haccepted _).mpr ⟨"t", by decide, hlong⟩
  obtain ⟨output', houtput'⟩ := (haccepted _).mpr ⟨"t", by decide, hshort⟩
  have heq : output = output' := (hsame _ _ _ _ houtput houtput').mpr ⟨_, hlong, hshort⟩
  refine ⟨⟨output, houtput, heq ▸ houtput'⟩, ?_⟩
  intro hsource
  obtain ⟨stem, hstem, hlast⟩ := (haccepted _).mp hsource
  have hname : stem ++ sourceSuffix = "" ++ sourceSuffix := hlast.unique hbare
  exact hstem ((String.append_left_inj sourceSuffix).mp hname)

end TapeLang.Build
