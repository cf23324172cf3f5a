import Mathlib.Data.List.Basic
import TapeLang.Build.Output

/-!
Paths in normal form, and how they are written.

`Path.Normal` is what reading a path yields: no part is void, and none holds a slash.  The text of
such a path falls apart at its slashes into the parts of the path, behind empty parts for the
slashes of the anchor (`splitSlashes_render`), so reading the text gives the path back
(`ofString_render`).

`LastPart` says without paths which part of a text gives the file its name, and a name is its stem
and a suffix exactly if the stem is not empty (`splitName_eq`, `splitName_append`).
-/

namespace TapeLang.File

/-! ### Splitting at slashes -/

theorem splitSlashes_eq (text : String) :
    splitSlashes text = (text.toList.splitOn '/').map String.ofList := by
  rw [splitSlashes, List.splitOn_eq_splitOnP]

/-- What lies between separators is part of the list, and holds no separator. -/
theorem mem_of_mem_splitOn {α : Type} [BEq α] [LawfulBEq α] {a x : α} {xs l : List α}
    (hl : l ∈ xs.splitOn a) (hx : x ∈ l) : x ≠ a ∧ x ∈ xs := by
  induction xs generalizing l with
  | nil =>
    rw [List.splitOn_nil, List.mem_singleton] at hl
    subst hl
    cases hx
  | cons y xs ih =>
    rw [List.splitOn_cons_eq_if_modifyHead] at hl
    split at hl
    · rcases List.mem_cons.mp hl with rfl | hl
      · cases hx
      · exact (ih hl hx).imp_right (List.mem_cons_of_mem y)
    · rename_i hy
      cases hsplit : xs.splitOn a with
      | nil => exact absurd hsplit (List.splitOn_ne_nil a xs)
      | cons piece pieces =>
        -- The element in front belongs to the first piece.
        rw [hsplit] at hl ih
        rcases List.mem_cons.mp hl with rfl | hl
        · rcases List.mem_cons.mp hx with rfl | hx
          · exact ⟨by simpa using hy, List.mem_cons_self⟩
          · exact (ih List.mem_cons_self hx).imp_right (List.mem_cons_of_mem y)
        · exact (ih (List.mem_cons_of_mem piece hl) hx).imp_right (List.mem_cons_of_mem y)

theorem mem_of_mem_splitSlashes {text part : String} {c : Char} (hpart : part ∈ splitSlashes text)
    (hc : c ∈ part.toList) : c ≠ '/' ∧ c ∈ text.toList := by
  rw [splitSlashes_eq] at hpart
  obtain ⟨l, hl, rfl⟩ := List.mem_map.mp hpart
  rw [String.toList_ofList] at hc
  exact mem_of_mem_splitOn hl hc

theorem slash_not_mem_splitSlashes {text part : String} (hpart : part ∈ splitSlashes text) :
    '/' ∉ part.toList :=
  fun hslash => (mem_of_mem_splitSlashes hpart hslash).1 rfl

theorem splitSlashes_intercalate {parts : List String} (hne : parts ≠ [])
    (hparts : ∀ part ∈ parts, '/' ∉ part.toList) :
    splitSlashes (String.intercalate "/" parts) = parts := by
  have hslash : "/".toList = ['/'] := rfl
  rw [splitSlashes_eq, String.toList_intercalate, hslash, List.splitOn_intercalate]
  · simp
  · simpa using hparts
  · simpa using hne

theorem splitSlashes_slash (text : String) :
    splitSlashes ("/" ++ text) = "" :: splitSlashes text := by
  rw [splitSlashes_eq, splitSlashes_eq, String.toList_append]
  show ((([] : List Char) ++ '/' :: text.toList).splitOn '/').map String.ofList = _
  rw [List.splitOn_append_cons_self_of_not_mem (by simp), List.map_cons]

theorem mem_intercalate_slash {parts : List String} {c : Char}
    (hc : c ∈ (String.intercalate "/" parts).toList) :
    c = '/' ∨ ∃ part ∈ parts, c ∈ part.toList := by
  induction parts with
  | nil => simp at hc
  | cons part rest ih =>
    cases rest with
    | nil =>
      rw [String.intercalate_singleton] at hc
      exact .inr ⟨part, List.mem_cons_self, hc⟩
    | cons next rest =>
      rw [String.intercalate_cons_cons, String.toList_append, String.toList_append] at hc
      rcases List.mem_append.mp hc with hc | hc
      · rcases List.mem_append.mp hc with hc | hc
        · exact .inr ⟨part, List.mem_cons_self, hc⟩
        · exact .inl (List.mem_singleton.mp hc)
      · obtain hslash | ⟨other, hother, hc⟩ := ih hc
        · exact .inl hslash
        · exact .inr ⟨other, List.mem_cons_of_mem part hother, hc⟩

/-! ### Normal forms -/

/-- The empty parts that the slashes of an anchor leave in front of a path. -/
def Anchor.lead : Anchor → List String
  | relative => []
  | root => [""]
  | doubleRoot => ["", ""]

namespace Path

/-- A path as reading one yields it. -/
def Normal (p : Path) : Prop := ∀ part ∈ p.parts, isVoid part = false ∧ '/' ∉ part.toList

theorem isVoid_eq_false_iff {part : String} : isVoid part = false ↔ part ≠ "" ∧ part ≠ "." := by
  simp [isVoid]

theorem normal_ofString (text : String) : (ofString text).Normal := by
  intro part hpart
  obtain ⟨hsplit, hvoid⟩ := List.mem_filter.mp hpart
  exact ⟨by simpa using hvoid, slash_not_mem_splitSlashes hsplit⟩

variable {p : Path}

theorem render_of_parts_ne_nil (hne : p.parts ≠ []) :
    p.render = p.anchor.render ++ String.intercalate "/" p.parts := by
  obtain ⟨anchor, parts⟩ := p
  cases parts with
  | nil => exact absurd rfl hne
  | cons part parts => cases anchor <;> rfl

theorem splitSlashes_render (hp : p.Normal) (hne : p.parts ≠ []) :
    splitSlashes p.render = p.anchor.lead ++ p.parts := by
  have hparts := splitSlashes_intercalate hne fun part hpart => (hp part hpart).2
  rw [render_of_parts_ne_nil hne]
  cases p.anchor with
  | relative => rw [Anchor.render, String.empty_append, hparts]; rfl
  | root => rw [Anchor.render, splitSlashes_slash, hparts]; rfl
  | doubleRoot =>
    have htwo : "//" = "/" ++ "/" := rfl
    rw [Anchor.render, htwo, String.append_assoc, splitSlashes_slash, splitSlashes_slash, hparts]
    rfl

/-- Behind its anchor the text of a path goes on with another character than a slash. -/
theorem exists_render_eq (hp : p.Normal) (hne : p.parts ≠ []) :
    ∃ c cs, c ≠ '/' ∧ p.render.toList = p.anchor.render.toList ++ c :: cs := by
  obtain ⟨part, rest, hparts⟩ := List.exists_cons_of_ne_nil hne
  obtain ⟨hvoid, hslash⟩ := hp part (by simp [hparts])
  have hstart : ∃ tail, String.intercalate "/" p.parts = part ++ tail := by
    rw [hparts]
    cases rest with
    | nil => exact ⟨"", by simp⟩
    | cons next rest =>
      rw [String.intercalate_cons_cons, String.append_assoc]
      exact ⟨_, rfl⟩
  obtain ⟨tail, htail⟩ := hstart
  cases hcs : part.toList with
  | nil => exact absurd (String.toList_eq_nil_iff.mp hcs) (isVoid_eq_false_iff.mp hvoid).1
  | cons c cs =>
    refine ⟨c, cs ++ tail.toList, ?_, ?_⟩
    · rintro rfl
      exact hslash (by simp [hcs])
    · rw [render_of_parts_ne_nil hne, htail, String.toList_append, String.toList_append, hcs,
        List.cons_append]

theorem anchorOf_render (hp : p.Normal) : anchorOf p.render = p.anchor := by
  obtain ⟨anchor, parts⟩ := p
  by_cases hne : parts = []
  · subst hne
    cases anchor <;> rfl
  · obtain ⟨c, cs, hc, hrender⟩ := exists_render_eq hp hne
    have hstop : (c == '/') = false := by simpa using hc
    cases anchor with
    | relative => simp [anchorOf, hrender, Anchor.render, hstop]
    | root => simp [anchorOf, hrender, Anchor.render, hstop]
    | doubleRoot => simp [anchorOf, hrender, Anchor.render, hstop]

theorem partsOf_render (hp : p.Normal) : partsOf p.render = p.parts := by
  by_cases hne : p.parts = []
  · obtain ⟨anchor, parts⟩ := p
    dsimp only at hne
    subst hne
    cases anchor <;> rfl
  · have hkept : p.parts.filter (fun part => !isVoid part) = p.parts :=
      List.filter_eq_self.mpr fun part hpart => by simp [(hp part hpart).1]
    rw [partsOf, splitSlashes_render hp hne, List.filter_append, hkept]
    cases p.anchor <;> rfl

/-- Writing a path and reading it again changes nothing. -/
theorem ofString_render (hp : p.Normal) : ofString p.render = p := by
  rw [ofString, anchorOf_render hp, partsOf_render hp]

/-! ### Neighbours and children -/

theorem parts_eq_concat (hne : p.parts ≠ []) : p.parts = p.parts.dropLast ++ [p.name] := by
  rw [name, List.getLast?_eq_some_getLast hne, Option.getD_some, List.dropLast_append_getLast]

theorem withName?_eq_some {q : Path} {name : String} (h : p.withName? name = some q) :
    p.parts ≠ [] ∧ q = ⟨p.anchor, p.parts.dropLast ++ [name]⟩ := by
  unfold withName? at h
  split at h
  · cases h
  · rename_i hne
    exact ⟨by simpa using hne, (Option.some.inj h).symm⟩

theorem isVoid_append {part : String} (h : isVoid part = false) (suffix : String) :
    isVoid (part ++ suffix) = false := by
  obtain ⟨hempty, hdot⟩ := isVoid_eq_false_iff.mp h
  refine isVoid_eq_false_iff.mpr ⟨fun heq => hempty ?_, fun heq => ?_⟩
  · exact (String.append_eq_empty_iff.mp heq).1
  · have hchars : part.toList ++ suffix.toList = ['.'] := by
      rw [← String.toList_append, heq]
      rfl
    rcases List.append_eq_singleton_iff.mp hchars with ⟨hnil, -⟩ | ⟨hone, -⟩
    · exact hempty (String.toList_eq_nil_iff.mp hnil)
    · exact hdot (String.toList_inj.mp hone)

theorem normal_withName? {q : Path} {suffix : String} (hp : p.Normal)
    (h : p.withName? (p.name ++ suffix) = some q) (hslash : '/' ∉ suffix.toList) : q.Normal := by
  obtain ⟨hne, rfl⟩ := withName?_eq_some h
  have hname := hp p.name (by rw [parts_eq_concat hne]; simp)
  intro part hpart
  rcases List.mem_append.mp hpart with hpart | hpart
  · exact hp part (List.dropLast_subset _ hpart)
  · obtain rfl := List.mem_singleton.mp hpart
    refine ⟨isVoid_append hname.1 suffix, ?_⟩
    simp [hname.2, hslash]

theorem normal_child {name : String} (hp : p.Normal) (hslash : '/' ∉ name.toList) :
    (p.child name).Normal := by
  intro part hpart
  rcases List.mem_append.mp hpart with hpart | hpart
  · exact hp part hpart
  · obtain ⟨hname, hvoid⟩ := List.mem_filter.mp hpart
    obtain rfl := List.mem_singleton.mp hname
    exact ⟨by simpa using hvoid, hslash⟩

end Path

/-! ### The last part -/

/-- The last part of a text that says something: behind it there are only empty parts and single
dots. -/
structure LastPart (text name : String) : Prop where
  ne_empty : name ≠ ""
  ne_dot : name ≠ "."
  split : ∃ front back, splitSlashes text = front ++ name :: back ∧
    ∀ part ∈ back, part = "" ∨ part = "."

namespace Path

theorem getLast?_parts_ofString {text name : String} :
    (ofString text).parts.getLast? = some name ↔ LastPart text name := by
  have hfind : (ofString text).parts.getLast? =
      (splitSlashes text).reverse.find? fun part => !isVoid part := by
    rw [← List.head?_reverse]
    show (partsOf text).reverse.head? = _
    rw [partsOf, ← List.filter_reverse, List.head?_filter]
  rw [hfind, List.find?_eq_some_iff_append]
  constructor
  · rintro ⟨hname, behind, before, hsplit, hbehind⟩
    obtain ⟨hempty, hdot⟩ := isVoid_eq_false_iff.mp (Bool.not_eq_true' _ ▸ hname)
    refine ⟨hempty, hdot, before.reverse, behind.reverse, ?_, ?_⟩
    · rw [← List.reverse_reverse (splitSlashes text), hsplit]
      simp
    · intro part hpart
      simpa [isVoid] using hbehind part (List.mem_reverse.mp hpart)
  · rintro ⟨hempty, hdot, front, back, hsplit, hback⟩
    refine ⟨?_, back.reverse, front.reverse, by simp [hsplit], ?_⟩
    · rw [isVoid_eq_false_iff.mpr ⟨hempty, hdot⟩]
      rfl
    · intro part hpart
      simpa [isVoid] using hback part (List.mem_reverse.mp hpart)

/-- The name of a path is the last part of its text. -/
theorem name_ofString {text name : String} (hne : name ≠ "") :
    (ofString text).name = name ↔ LastPart text name := by
  rw [← getLast?_parts_ofString, Path.name]
  cases (ofString text).parts.getLast? with
  | none => exact iff_of_false hne.symm nofun
  | some part => rw [Option.getD_some, Option.some.injEq]

/-- Different names lead to different places, for only one of them, the dot, leads nowhere. -/
theorem child_inj {p : Path} {name name' : String} (hne : name ≠ "") (hne' : name' ≠ "") :
    p.child name = p.child name' ↔ name = name' := by
  refine ⟨?_, fun h => by rw [h]⟩
  intro h
  have hkept : ∀ {part : String}, part ≠ "" → part ≠ "." →
      [part].filter (fun part => !isVoid part) = [part] := by
    intro part hempty hdot
    rw [List.filter_singleton, isVoid_eq_false_iff.mpr ⟨hempty, hdot⟩]
    rfl
  have hdropped : ["."].filter (fun part => !isVoid part) = [] := rfl
  have hparts : [name].filter (fun part => !isVoid part) =
      [name'].filter fun part => !isVoid part :=
    List.append_cancel_left (congrArg parts h)
  by_cases hdot : name = "."
  · by_cases hdot' : name' = "."
    · rw [hdot, hdot']
    · rw [hdot, hdropped, hkept hne' hdot'] at hparts
      cases hparts
  · by_cases hdot' : name' = "."
    · rw [hdot', hdropped, hkept hne hdot] at hparts
      cases hparts
    · rw [hkept hne hdot, hkept hne' hdot'] at hparts
      exact List.singleton_inj.mp hparts

end Path

/-- A text has one last part at most. -/
theorem LastPart.unique {text name name' : String} (h : LastPart text name)
    (h' : LastPart text name') : name = name' := by
  rw [← Path.getLast?_parts_ofString] at h h'
  exact Option.some.inj (h.symm.trans h')

/-! ### Stems and suffixes -/

/-- A name with a suffix is its stem and the suffix, and the stem is not empty. -/
theorem splitName_eq {name stem suffix : String} (h : splitName name = (stem, suffix))
    (hsuffix : suffix ≠ "") : name = stem ++ suffix ∧ stem ≠ "" := by
  unfold splitName at h
  dsimp only at h
  have hparts := List.takeWhile_append_dropWhile (p := (· != '.')) (l := name.toList.reverse)
  have hnot := List.head?_dropWhile_not (· != '.') name.toList.reverse
  generalize name.toList.reverse.takeWhile (· != '.') = tail at h hparts
  generalize name.toList.reverse.dropWhile (· != '.') = rest at hparts hnot
  split at h
  · rename_i hsplit
    simp only [Bool.and_eq_true, decide_eq_true_eq, Bool.not_eq_true', List.isEmpty_eq_false_iff]
      at hsplit
    obtain ⟨⟨hshort, hhead⟩, -⟩ := hsplit
    obtain ⟨rfl, rfl⟩ := Prod.mk.inj h
    have hname : name.toList = rest.reverse ++ tail.reverse := by
      rw [← List.reverse_append, hparts, List.reverse_reverse]
    cases rest with
    | nil => simp [hname] at hshort
    | cons c rest =>
      have hdot : c = '.' := by simpa using hnot
      subst hdot
      have hlength : name.toList.length - tail.reverse.length - 1 = rest.reverse.length := by
        rw [hname]
        simp
        omega
      refine ⟨?_, fun hempty => hhead (by simpa using congrArg String.toList hempty)⟩
      rw [← String.toList_inj, String.toList_append, String.toList_ofList, String.toList_ofList,
        hlength, hname, List.reverse_cons, List.append_assoc, List.take_left]
      rfl
  · exact absurd (Prod.mk.inj h).2.symm hsuffix

/-- A stem that is not empty comes back from its name with a suffix. -/
theorem splitName_append {stem ending : String} (hstem : stem ≠ "") (hending : ending ≠ "")
    (hdot : '.' ∉ ending.toList) : splitName (stem ++ ("." ++ ending)) = (stem, "." ++ ending) := by
  have hname : (stem ++ ("." ++ ending)).toList = stem.toList ++ '.' :: ending.toList := by
    rw [String.toList_append, String.toList_append]
    rfl
  have htail : ((stem ++ ("." ++ ending)).toList.reverse.takeWhile (· != '.')).reverse =
      ending.toList := by
    rw [hname, List.reverse_append, List.reverse_cons, List.append_assoc,
      List.takeWhile_append_of_pos, List.singleton_append, List.takeWhile_cons_of_neg (by simp),
      List.append_nil, List.reverse_reverse]
    intro c hc
    have hne : c ≠ '.' := by
      rintro rfl
      exact hdot (List.mem_reverse.mp hc)
    simpa using hne
  have hlength : (stem.toList ++ '.' :: ending.toList).length - ending.toList.length - 1 =
      stem.toList.length := by
    rw [List.length_append, List.length_cons]
    omega
  unfold splitName
  dsimp only
  rw [htail, hname, hlength, List.take_left, if_pos]
  · rw [String.ofList_toList]
    exact Prod.ext rfl (String.toList_inj.mp (by simp))
  · have hshort : ending.toList.length < (stem.toList ++ '.' :: ending.toList).length := by
      rw [List.length_append, List.length_cons]
      omega
    simpa [hstem, hending] using hshort

end TapeLang.File
