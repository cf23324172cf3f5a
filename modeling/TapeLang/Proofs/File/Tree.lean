import Mathlib.Data.List.Induction
import TapeLang.File.Tree
import TapeLang.Proofs.File.Path

/-!
What operations on a file tree do, and what following a path depends on.

Every operation is described by what each location holds afterwards.  Where a path leads depends on
the locations it passes (`visited`) and on nothing else: trees that hold the same at these locations
agree on the path (`read_congr`, `target_congr`).  A path that can be written to passes directories
only before its last part, so a file that was just written does not lie on the way of its
neighbours (`not_mem_visited_of_target`).

In a well-formed tree everything lies in a directory and has a name that a path can spell, so that
every location is reached by its own path (`resolve_path`), and writing a file keeps the tree well
formed.
-/

namespace TapeLang.File

/-- A name that the path of a location can spell. -/
structure Proper (name : String) : Prop where
  notVoid : Path.isVoid name = false
  notUp : name ≠ ".."
  noSlash : '/' ∉ name.toList
  noZero : '\x00' ∉ name.toList
  short : Tree.tooLong name = false

instance (name : String) : Decidable (Proper name) :=
  decidable_of_iff (Path.isVoid name = false ∧ name ≠ ".." ∧ '/' ∉ name.toList ∧
      '\x00' ∉ name.toList ∧ Tree.tooLong name = false)
    ⟨fun ⟨hvoid, hup, hslash, hzero, hshort⟩ => ⟨hvoid, hup, hslash, hzero, hshort⟩,
      fun h => ⟨h.notVoid, h.notUp, h.noSlash, h.noZero, h.short⟩⟩

namespace Tree

variable {t t' : Tree} {l l' above : Location} {e : Entry}

/-! ### What locations hold -/

theorem get?_root (t : Tree) : t.get? [] = some .directory := by
  rw [get?, if_pos rfl]

theorem get?_of_ne_nil (t : Tree) (hl : l ≠ []) : t.get? l = t.entries.lookup l := by
  rw [get?, if_neg hl]

theorem ne_nil_of_get?_eq_none (h : t.get? l = none) : l ≠ [] := by
  rintro rfl
  rw [get?_root] at h
  cases h

theorem any_eq_true_iff (entries : List (Location × Entry)) (l : Location) :
    entries.any (·.1 = l) = true ↔ (entries.lookup l).isSome = true := by
  rw [List.any_eq_true, List.lookup_isSome_iff]
  constructor
  · rintro ⟨x, hx, heq⟩
    exact ⟨x, hx, by simpa using (of_decide_eq_true heq).symm⟩
  · rintro ⟨x, hx, heq⟩
    exact ⟨x, hx, by simpa using (LawfulBEq.eq_of_beq heq).symm⟩

theorem lookup_replace (entries : List (Location × Entry)) (l : Location) (e : Entry)
    (l' : Location) :
    (entries.map fun x => if x.1 = l then (l, e) else x).lookup l' =
      if l' = l then (entries.lookup l).map fun _ => e else entries.lookup l' := by
  induction entries with
  | nil => simp
  | cons x entries ih =>
    obtain ⟨k, v⟩ := x
    rw [List.map_cons]
    by_cases hk : k = l
    · subst hk
      by_cases hl : l' = k
      · subst hl
        simp
      · have hne : (l' == k) = false := beq_false_of_ne hl
        rw [if_neg hl] at ih ⊢
        simp [List.lookup_cons, hne, ih]
    · by_cases hl : l' = l
      · subst hl
        have hne : (l' == k) = false := beq_false_of_ne (Ne.symm hk)
        rw [if_pos rfl] at ih ⊢
        simp [List.lookup_cons, hk, hne, ih]
      · rw [if_neg hl] at ih ⊢
        simp [List.lookup_cons, hk, ih]

theorem get?_put_self (t : Tree) (hl : l ≠ []) (e : Entry) : (t.put l e).get? l = some e := by
  rw [get?_of_ne_nil _ hl, put]
  split
  · rename_i hany
    obtain ⟨e', he'⟩ := Option.isSome_iff_exists.mp ((any_eq_true_iff t.entries l).mp hany)
    show (t.entries.map _).lookup l = _
    rw [lookup_replace, if_pos rfl, he']
    rfl
  · rename_i hany
    have hnone : t.entries.lookup l = none := by
      rwa [any_eq_true_iff, Option.not_isSome_iff_eq_none] at hany
    show (t.entries ++ [(l, e)]).lookup l = _
    rw [List.lookup_append, hnone]
    simp

theorem get?_put_of_ne (t : Tree) (hl : l' ≠ l) (e : Entry) : (t.put l e).get? l' = t.get? l' := by
  by_cases hroot : l' = []
  · rw [hroot, get?_root, get?_root]
  · rw [get?_of_ne_nil _ hroot, get?_of_ne_nil _ hroot, put]
    split
    · show (t.entries.map _).lookup l' = _
      rw [lookup_replace, if_neg hl]
    · have hne : (l' == l) = false := beq_false_of_ne hl
      show (t.entries ++ [(l, e)]).lookup l' = _
      rw [List.lookup_append, List.lookup_cons, hne]
      simp

/-! ### Taking away a directory -/

theorem lookup_filter_key (entries : List (Location × Entry)) (keep : Location → Bool)
    (l : Location) :
    (entries.filter fun x => keep x.1).lookup l = if keep l then entries.lookup l else none := by
  induction entries with
  | nil => simp
  | cons x entries ih =>
    obtain ⟨k, v⟩ := x
    rw [List.filter_cons]
    by_cases hl : l = k
    · subst hl
      by_cases hkeep : keep l = true
      · simp [hkeep]
      · simpa [hkeep] using ih
    · have hne : (l == k) = false := beq_false_of_ne hl
      by_cases hkeep : keep k = true
      · simp [hkeep, List.lookup_cons, hne, ih]
      · simp [hkeep, List.lookup_cons, hne, ih]

theorem get?_removeAll (t : Tree) (l : Location) (hl : l' ≠ []) :
    (t.removeAll l).get? l' = if l.isPrefixOf l' then none else t.get? l' := by
  rw [get?_of_ne_nil _ hl, get?_of_ne_nil _ hl]
  show (t.entries.filter fun x => !l.isPrefixOf x.1).lookup l' = _
  rw [lookup_filter_key t.entries (fun k => !l.isPrefixOf k)]
  cases l.isPrefixOf l' <;> rfl

theorem get?_removeAll_of_not_prefix (t : Tree) (h : ¬ l <+: l') :
    (t.removeAll l).get? l' = t.get? l' := by
  by_cases hroot : l' = []
  · rw [hroot, get?_root, get?_root]
  · rw [get?_removeAll t l hroot, if_neg (mt List.isPrefixOf_iff_prefix.mp h)]

/-- Replacing what locations hold leaves the locations as they are. -/
theorem filter_key_replace (entries : List (Location × Entry)) (keep : Location → Bool)
    (l : Location) (e : Entry) :
    (entries.map fun x => if x.1 = l then (l, e) else x).filter (fun x => keep x.1) =
      (entries.filter fun x => keep x.1).map fun x => if x.1 = l then (l, e) else x := by
  rw [List.filter_map]
  congr 1
  apply List.filter_congr
  intro x _
  show keep (if x.1 = l then (l, e) else x).1 = keep x.1
  split
  · rename_i hx
    rw [hx]
  · rfl

/-- What is put below a directory goes with it. -/
theorem removeAll_put_of_prefix (t : Tree) (h : l <+: l') (e : Entry) :
    (t.put l' e).removeAll l = t.removeAll l := by
  have hgone : (!l.isPrefixOf l') = false := by
    rw [List.isPrefixOf_iff_prefix.mpr h]
    rfl
  rw [put]
  split
  · simp only [removeAll, Tree.mk.injEq]
    rw [filter_key_replace t.entries (fun k => !l.isPrefixOf k)]
    -- None of the locations that stay is the one that was changed.
    conv_rhs => rw [← List.map_id (t.entries.filter fun x => !l.isPrefixOf x.1)]
    apply List.map_congr_left
    intro x hx
    have hkept := (List.mem_filter.mp hx).2
    rw [if_neg, id]
    rintro hne
    rw [hne, hgone] at hkept
    cases hkept
  · simp only [removeAll, List.filter_append, Tree.mk.injEq]
    simp [hgone]

/-- What is put elsewhere stays when a directory goes. -/
theorem removeAll_put_of_not_prefix (t : Tree) (h : ¬ l <+: l') (e : Entry) :
    (t.put l' e).removeAll l = (t.removeAll l).put l' e := by
  have hkeep : (!l.isPrefixOf l') = true := by
    rw [Bool.not_eq_true', ← Bool.not_eq_true, List.isPrefixOf_iff_prefix]
    exact h
  have hany : (t.removeAll l).entries.any (·.1 = l') = t.entries.any (·.1 = l') := by
    rw [Bool.eq_iff_iff, any_eq_true_iff, any_eq_true_iff]
    show ((t.entries.filter fun x => !l.isPrefixOf x.1).lookup l').isSome = true ↔ _
    rw [lookup_filter_key t.entries (fun k => !l.isPrefixOf k), if_pos hkeep]
  rw [put, put, hany]
  split
  · simp only [removeAll, Tree.mk.injEq]
    exact filter_key_replace t.entries (fun k => !l.isPrefixOf k) l' e
  · simp only [removeAll, List.filter_append, Tree.mk.injEq]
    simp [hkeep]

/-! ### Following a path -/

/-- Where a part of a path leads, whatever is there. -/
def stride (l : Location) (part : String) : Location :=
  if Path.isVoid part then l else if part = ".." then l.dropLast else l ++ [part]

/-- The locations that a path passes, from where it starts to where it leads. -/
def visited (cwd : Location) (text : String) : List Location :=
  (splitSlashes text).scanl stride (origin cwd text)

/-- A part can only be followed in a directory, and to where it leads. -/
theorem follow_eq_ok {part : String} (h : t.follow l part = .ok l') :
    t.get? l = some .directory ∧ l' = stride l part := by
  unfold follow at h
  split at h
  · cases h
  · cases h
  · rename_i hdir
    refine ⟨hdir, ?_⟩
    unfold stride
    split at h
    · rename_i hvoid
      rw [if_pos hvoid, Except.ok.inj h]
    · rename_i hvoid
      rw [if_neg hvoid]
      split at h
      · rename_i hup
        rw [if_pos hup, Except.ok.inj h]
      · rename_i hup
        rw [if_neg hup]
        split at h
        · cases h
        · split at h
          · rw [Except.ok.inj h]
          · cases h

theorem follow_congr {part : String} (hl : t.get? l = t'.get? l)
    (hnext : t.get? (stride l part) = t'.get? (stride l part)) :
    t.follow l part = t'.follow l part := by
  unfold follow
  rw [hl]
  split
  · rfl
  · rfl
  · by_cases hvoid : Path.isVoid part = true
    · rw [if_pos hvoid, if_pos hvoid]
    · by_cases hup : part = ".."
      · rw [if_neg hvoid, if_neg hvoid, if_pos hup, if_pos hup]
      · rw [stride, if_neg hvoid, if_neg hup] at hnext
        rw [hnext]

theorem foldlM_follow_congr {parts : List String}
    (h : ∀ x ∈ parts.scanl stride l, t.get? x = t'.get? x) :
    parts.foldlM t.follow l = parts.foldlM t'.follow l := by
  induction parts generalizing l with
  | nil => rfl
  | cons part parts ih =>
    rw [List.scanl_cons] at h
    have hrest : ∀ x ∈ parts.scanl stride (stride l part), t.get? x = t'.get? x :=
      fun x hx => h x (List.mem_cons_of_mem l hx)
    have hfirst : t.follow l part = t'.follow l part := by
      apply follow_congr (h l List.mem_cons_self)
      apply hrest
      exact List.mem_of_mem_head? List.head?_scanl
    rw [List.foldlM_cons, List.foldlM_cons, hfirst]
    cases hfollow : t'.follow l part with
    | error f => rfl
    | ok l₁ =>
      obtain rfl := (follow_eq_ok hfollow).2
      exact ih hrest

/-- Parts that can be followed lead where they must, and if that is a directory, they pass
directories only. -/
theorem foldlM_follow_eq_ok {parts : List String} (h : parts.foldlM t.follow l = .ok l') :
    l' = parts.foldl stride l ∧
      (t.get? l' = some .directory → ∀ x ∈ parts.scanl stride l, t.get? x = some .directory) := by
  induction parts generalizing l with
  | nil =>
    obtain rfl := Except.ok.inj h
    exact ⟨rfl, by simp⟩
  | cons part parts ih =>
    rw [List.foldlM_cons] at h
    cases hfollow : t.follow l part with
    | error f =>
      rw [hfollow] at h
      cases h
    | ok l₁ =>
      rw [hfollow] at h
      obtain ⟨hl, rfl⟩ := follow_eq_ok hfollow
      obtain ⟨heq, hdirs⟩ := ih h
      refine ⟨heq, fun hl' x hx => ?_⟩
      rw [List.scanl_cons] at hx
      rcases List.mem_cons.mp hx with rfl | hx
      · exact hl
      · exact hdirs hl' x hx

theorem foldl_stride_mem_visited (cwd : Location) (text : String) :
    (splitSlashes text).foldl stride (origin cwd text) ∈ visited cwd text :=
  List.mem_of_getLast? List.getLast?_scanl

section

variable {cwd : Location} {text : String}

theorem resolve_congr (h : ∀ x ∈ visited cwd text, t.get? x = t'.get? x) :
    t.resolve cwd text = t'.resolve cwd text := by
  rw [resolve, resolve, foldlM_follow_congr h]

theorem resolve_eq_ok (h : t.resolve cwd text = .ok l) :
    checkText text = .ok () ∧ (splitSlashes text).foldlM t.follow (origin cwd text) = .ok l := by
  unfold resolve at h
  cases hcheck : checkText text with
  | error f =>
    rw [hcheck] at h
    cases h
  | ok u =>
    rw [hcheck] at h
    exact ⟨rfl, h⟩

/-- Reading a file depends on the locations that its path passes. -/
theorem read_congr (h : ∀ x ∈ visited cwd text, t.get? x = t'.get? x) :
    t.read cwd text = t'.read cwd text := by
  rw [read, read, resolve_congr h]
  cases hresolve : t'.resolve cwd text with
  | error f => rfl
  | ok l =>
    have hl := (foldlM_follow_eq_ok (resolve_eq_ok hresolve).2).1
    have hmem : l ∈ visited cwd text := by
      rw [hl]
      exact foldl_stride_mem_visited cwd text
    simp only [h l hmem]

theorem splitSlashes_eq_concat (text : String) : splitSlashes text =
    (splitSlashes text).dropLast ++ [(splitSlashes text).getLast?.getD ""] := by
  have hne : splitSlashes text ≠ [] := by
    rw [splitSlashes_eq]
    simp
  rw [List.getLast?_eq_some_getLast hne, Option.getD_some, List.dropLast_append_getLast]

/-- The place for a file of some name. -/
def leaf (t : Tree) (above : Location) (name : String) : Except Fault Location :=
  match t.get? above with
  | none => .error .notFound
  | some (.file _) => .error .notDirectory
  | some .directory =>
    if Path.isVoid name || name = ".." then .error .isDirectory
    else if tooLong name then .error .nameTooLong
    else
      match t.get? (above ++ [name]) with
      | some .directory => .error .isDirectory
      | _ => .ok (above ++ [name])

theorem target_eq (t : Tree) (cwd : Location) (text : String) : t.target cwd text =
    (checkText text).bind fun _ =>
      ((splitSlashes text).dropLast.foldlM t.follow (origin cwd text)).bind fun above =>
        t.leaf above ((splitSlashes text).getLast?.getD "") :=
  rfl

theorem leaf_eq_ok {name : String} (h : t.leaf above name = .ok l) :
    t.get? above = some .directory ∧ Path.isVoid name = false ∧ name ≠ ".." ∧
      tooLong name = false ∧ t.get? l ≠ some .directory ∧ l = above ++ [name] := by
  unfold leaf at h
  split at h
  · cases h
  · cases h
  · rename_i hdir
    split at h
    · cases h
    · rename_i hname
      simp only [Bool.or_eq_true, not_or, Bool.not_eq_true, decide_eq_true_eq] at hname
      split at h
      · cases h
      · rename_i hshort
        split at h
        · cases h
        · rename_i hvacant
          cases h
          exact ⟨hdir, hname.1, hname.2, by simpa using hshort, fun hd => hvacant hd, rfl⟩

theorem leaf_congr {name : String} (habove : t.get? above = t'.get? above)
    (hleaf : t.get? (stride above name) = t'.get? (stride above name)) :
    t.leaf above name = t'.leaf above name := by
  unfold leaf
  rw [habove]
  by_cases hvoid : Path.isVoid name = true
  · simp only [hvoid, Bool.true_or, if_true]
  · by_cases hup : name = ".."
    · simp only [hup, decide_true, Bool.or_true, if_true]
    · rw [stride, if_neg hvoid, if_neg hup] at hleaf
      rw [hleaf]

/-- Where a file can be written: the parts before the last one lead to a directory, and in it the
last one names no directory. -/
structure Writable (t : Tree) (cwd : Location) (text : String) (above : Location)
    (name : String) : Prop where
  parts : splitSlashes text = (splitSlashes text).dropLast ++ [name]
  follows : (splitSlashes text).dropLast.foldlM t.follow (origin cwd text) = .ok above
  directory : t.get? above = some .directory
  proper : Proper name
  vacant : t.get? (above ++ [name]) ≠ some .directory

theorem zero_not_mem_of_checkText {u : Unit} (h : checkText text = .ok u) :
    '\x00' ∉ text.toList := by
  unfold checkText at h
  split at h
  · cases h
  · rename_i hzero
    simpa using hzero

theorem writable_of_target (h : t.target cwd text = .ok l) :
    ∃ above name, t.Writable cwd text above name ∧ l = above ++ [name] := by
  have hparts := splitSlashes_eq_concat text
  rw [target_eq] at h
  cases hcheck : checkText text with
  | error f =>
    rw [hcheck] at h
    cases h
  | ok u =>
    cases hfollow : (splitSlashes text).dropLast.foldlM t.follow (origin cwd text) with
    | error f =>
      rw [hcheck, hfollow] at h
      cases h
    | ok above =>
      rw [hcheck, hfollow] at h
      obtain ⟨hdir, hvoid, hup, hshort, hvacant, rfl⟩ := leaf_eq_ok h
      have hmem : (splitSlashes text).getLast?.getD "" ∈ splitSlashes text := by
        conv_lhs => rw [hparts]
        simp
      have hproper : Proper ((splitSlashes text).getLast?.getD "") := by
        refine ⟨hvoid, hup, slash_not_mem_splitSlashes hmem, ?_, hshort⟩
        exact fun hzero => zero_not_mem_of_checkText hcheck (mem_of_mem_splitSlashes hmem hzero).2
      exact ⟨above, _, ⟨hparts, hfollow, hdir, hproper, hvacant⟩, rfl⟩

/-- No directory is in the place of a file that can be written. -/
theorem vacant_of_target (h : t.target cwd text = .ok l) : t.get? l ≠ some .directory := by
  obtain ⟨above, name, hw, rfl⟩ := writable_of_target h
  exact hw.vacant

theorem Writable.foldl_stride {name : String} (h : t.Writable cwd text above name) :
    (splitSlashes text).foldl stride (origin cwd text) = above ++ [name] := by
  rw [h.parts, List.foldl_append, ← (foldlM_follow_eq_ok h.follows).1, List.foldl_cons,
    List.foldl_nil, stride, if_neg (by simp [h.proper.notVoid]), if_neg h.proper.notUp]

theorem target_mem_visited (h : t.target cwd text = .ok l) : l ∈ visited cwd text := by
  obtain ⟨above, name, hw, rfl⟩ := writable_of_target h
  rw [← hw.foldl_stride]
  exact foldl_stride_mem_visited cwd text

theorem visited_eq (cwd : Location) (text : String) : visited cwd text =
    (splitSlashes text).dropLast.scanl stride (origin cwd text) ++
      [(splitSlashes text).foldl stride (origin cwd text)] := by
  have hparts := splitSlashes_eq_concat text
  rw [visited]
  conv_lhs => rw [hparts, List.scanl_append, List.scanl_cons, List.scanl_nil, List.tail_cons]
  conv_rhs => rw [hparts, List.foldl_append]
  simp

/-- Where a file is written depends on the locations that its path passes. -/
theorem target_congr (h : ∀ x ∈ visited cwd text, t.get? x = t'.get? x) :
    t.target cwd text = t'.target cwd text := by
  have hfront : ∀ x ∈ (splitSlashes text).dropLast.scanl stride (origin cwd text),
      t.get? x = t'.get? x := by
    intro x hx
    apply h
    rw [visited_eq]
    exact List.mem_append_left _ hx
  rw [target_eq, target_eq, foldlM_follow_congr hfront]
  cases hfollow : (splitSlashes text).dropLast.foldlM t'.follow (origin cwd text) with
  | error f => rfl
  | ok above =>
    obtain rfl := (foldlM_follow_eq_ok hfollow).1
    have hleaf : t.leaf ((splitSlashes text).dropLast.foldl stride (origin cwd text))
          ((splitSlashes text).getLast?.getD "") =
        t'.leaf ((splitSlashes text).dropLast.foldl stride (origin cwd text))
          ((splitSlashes text).getLast?.getD "") := by
      apply leaf_congr
      · apply hfront
        exact List.mem_of_getLast? List.getLast?_scanl
      · apply h
        have hlast := foldl_stride_mem_visited cwd text
        conv_rhs at hlast => rw [splitSlashes_eq_concat text, List.foldl_append]
        exact hlast
    show (checkText text).bind (fun _ => t.leaf _ _) = (checkText text).bind (fun _ => t'.leaf _ _)
    rw [hleaf]

/-- A file that can be written does not lie on the way of its neighbours. -/
theorem not_mem_visited_of_target {text' : String} (h : t.target cwd text = .ok l)
    (horigin : origin cwd text' = origin cwd text)
    (hfront : (splitSlashes text').dropLast = (splitSlashes text).dropLast)
    (hname : (splitSlashes text').getLast?.getD "" ≠ (splitSlashes text).getLast?.getD "") :
    l ∉ visited cwd text' := by
  obtain ⟨above, name, hw, rfl⟩ := writable_of_target h
  obtain ⟨habove, hdirs⟩ := foldlM_follow_eq_ok hw.follows
  have hlast : (splitSlashes text).getLast?.getD "" = name := by
    rw [hw.parts]
    simp
  rw [hlast] at hname
  have hend : (splitSlashes text').foldl stride (origin cwd text') =
      stride above ((splitSlashes text').getLast?.getD "") := by
    conv_lhs => rw [splitSlashes_eq_concat text', hfront, horigin, List.foldl_append, ← habove]
    rfl
  rw [visited_eq, hend, hfront, horigin]
  intro hmem
  rcases List.mem_append.mp hmem with hmem | hmem
  · -- On the way there are directories only, and the file is none.
    exact hw.vacant (hdirs hw.directory _ hmem)
  · -- At the end the two have different names in one directory.
    have heq := List.mem_singleton.mp hmem
    unfold stride at heq
    split at heq
    · exact absurd (congrArg List.length heq) (by simp)
    · split at heq
      · exact absurd (congrArg List.length heq) (by simp; omega)
      · rw [List.append_cancel_left_eq, List.singleton_inj] at heq
        exact hname heq.symm

end

/-! ### Well-formed trees -/

/-- Everything lies in a directory and has a name that a path can spell. -/
structure WellFormed (t : Tree) : Prop where
  above : ∀ {l name e}, t.get? (l ++ [name]) = some e → t.get? l = some .directory
  proper : ∀ {l name e}, t.get? (l ++ [name]) = some e → Proper name

namespace WellFormed

theorem directory_of_append (ht : t.WellFormed) (hl' : l' ≠ []) (h : t.get? (l ++ l') = some e) :
    t.get? l = some .directory := by
  induction l' using List.reverseRecOn generalizing e with
  | nil => exact absurd rfl hl'
  | append_singleton l' name ih =>
    rw [← List.append_assoc] at h
    by_cases hnil : l' = []
    · subst hnil
      rw [List.append_nil] at h
      exact ht.above h
    · exact ih hnil (ht.above h)

theorem proper_of_mem (ht : t.WellFormed) (h : t.get? l = some e) : ∀ name ∈ l, Proper name := by
  induction l using List.reverseRecOn generalizing e with
  | nil => simp
  | append_singleton l name ih =>
    intro part hpart
    rcases List.mem_append.mp hpart with hpart | hpart
    · exact ih (ht.above h) part hpart
    · obtain rfl := List.mem_singleton.mp hpart
      exact ht.proper h

/-- Where there is nothing, there is nothing below. -/
theorem get?_eq_none_of_prefix (ht : t.WellFormed) (h : t.get? l = none) (hl : l <+: l') :
    t.get? l' = none := by
  obtain ⟨rest, rfl⟩ := hl
  cases hget : t.get? (l ++ rest) with
  | none => rfl
  | some e =>
    by_cases hrest : rest = []
    · rw [hrest, List.append_nil, h] at hget
      cases hget
    · rw [ht.directory_of_append hrest hget] at h
      cases h

/-- Putting something in a directory keeps a tree well formed, unless it takes the place of a
directory. -/
theorem put (ht : t.WellFormed) {name : String} (habove : t.get? above = some .directory)
    (hname : Proper name) (he : t.get? (above ++ [name]) = some .directory → e = .directory) :
    (t.put (above ++ [name]) e).WellFormed := by
  have hkept : ∀ {x}, t.get? x = some .directory →
      (t.put (above ++ [name]) e).get? x = some .directory := by
    intro x hx
    -- What takes the place of a directory is one itself.
    by_cases heq : x = above ++ [name]
    · rw [heq] at hx ⊢
      rw [get?_put_self t (by simp), he hx]
    · rw [get?_put_of_ne t heq, hx]
  constructor
  · intro l n e' h
    by_cases heq : l ++ [n] = above ++ [name]
    · obtain ⟨rfl, -⟩ := List.append_inj' heq rfl
      exact hkept habove
    · rw [get?_put_of_ne t heq] at h
      exact hkept (ht.above h)
  · intro l n e' h
    by_cases heq : l ++ [n] = above ++ [name]
    · obtain ⟨-, hn⟩ := List.append_inj' heq rfl
      rw [List.singleton_inj.mp hn]
      exact hname
    · rw [get?_put_of_ne t heq] at h
      exact ht.proper h

/-- So does writing a file. -/
theorem put_file {text : String} (ht : t.WellFormed) (h : t.target cwd text = .ok l)
    (content : ByteArray) : (t.put l (.file content)).WellFormed := by
  obtain ⟨above, name, hw, rfl⟩ := writable_of_target h
  exact ht.put hw.directory hw.proper fun hdir => absurd hdir hw.vacant

end WellFormed

/-! ### Locations and their paths -/

theorem normal_path (hl : ∀ name ∈ l, Proper name) : l.path.Normal :=
  fun name hname => ⟨(hl name hname).notVoid, (hl name hname).noSlash⟩

theorem origin_render {p : Path} (hp : p.Normal) (cwd : Location) :
    origin cwd p.render = if p.anchor = .relative then cwd else [] := by
  have hstart : Text.startsWith p.render "/" = true ↔ p.anchor ≠ .relative := by
    show ['/'].isPrefixOf p.render.toList = true ↔ _
    obtain ⟨anchor, parts⟩ := p
    by_cases hne : parts = []
    · subst hne
      cases anchor <;> decide
    · obtain ⟨c, cs, hc, hrender⟩ := Path.exists_render_eq hp hne
      rw [hrender]
      cases anchor <;> simp [Anchor.render, hc.symm]
  rw [origin]
  by_cases ha : p.anchor = .relative
  · rw [if_pos ha, if_neg (by simpa [ha] using hstart)]
  · rw [if_neg ha, if_pos (hstart.mpr ha)]

/-- The text of a location's path can be followed unless it is too long. -/
theorem checkText_path (hl : ∀ name ∈ l, Proper name) (hlen : l.path.render.utf8ByteSize ≤ 4095) :
    checkText l.path.render = .ok () := by
  have hrender : l.path.render.toList = '/' :: (String.intercalate "/" l).toList := by
    rw [show l.path.render = "/" ++ String.intercalate "/" l from rfl, String.toList_append]
    rfl
  have hzero : '\x00' ∉ l.path.render.toList := by
    rw [hrender]
    intro h
    rcases List.mem_cons.mp h with h | h
    · cases h
    · obtain h | ⟨name, hname, h⟩ := mem_intercalate_slash h
      · cases h
      · exact (hl name hname).noZero h
  have hempty : l.path.render ≠ "" := by
    intro h
    rw [h] at hrender
    cases hrender
  unfold checkText
  rw [if_neg (by simpa using hzero), if_neg hempty, if_neg (by omega)]

/-- Names that lead somewhere can be followed. -/
theorem WellFormed.foldlM_follow (ht : t.WellFormed) (h : t.get? (l ++ l') = some e) :
    l'.foldlM t.follow l = .ok (l ++ l') := by
  induction l' generalizing l with
  | nil => simp [pure, Except.pure]
  | cons name rest ih =>
    have hname := ht.proper_of_mem h name (by simp)
    have hdir : t.get? l = some .directory := ht.directory_of_append (by simp) h
    rw [List.append_cons] at h ⊢
    obtain ⟨e', he'⟩ : ∃ e', t.get? (l ++ [name]) = some e' := by
      by_cases hrest : rest = []
      · rw [hrest, List.append_nil] at h
        exact ⟨e, h⟩
      · exact ⟨.directory, ht.directory_of_append hrest h⟩
    have hfollow : t.follow l name = .ok (l ++ [name]) := by
      simp [follow, hdir, hname.notVoid, hname.notUp, hname.short, he']
    rw [List.foldlM_cons, hfollow]
    exact ih h

theorem splitSlashes_path (hl : ∀ name ∈ l, Proper name) (hne : l ≠ []) :
    splitSlashes l.path.render = "" :: l :=
  Path.splitSlashes_render (normal_path hl) hne

theorem follow_void (h : t.get? l = some .directory) : t.follow l "" = .ok l := by
  rw [follow, h]
  rfl

/-- A location is reached by its path. -/
theorem WellFormed.resolve_path (ht : t.WellFormed) (h : t.get? l = some e) (hne : l ≠ [])
    (hlen : l.path.render.utf8ByteSize ≤ 4095) (cwd : Location) :
    t.resolve cwd l.path.render = .ok l := by
  have hl := ht.proper_of_mem h
  have horigin : origin cwd l.path.render = [] := origin_render (normal_path hl) cwd
  rw [resolve, checkText_path hl hlen, splitSlashes_path hl hne, horigin]
  show (t.follow [] "").bind (fun l₀ => l.foldlM t.follow l₀) = _
  rw [follow_void (get?_root t)]
  exact ht.foldlM_follow (l := []) h

theorem WellFormed.read_path (ht : t.WellFormed) {content : ByteArray}
    (h : t.get? l = some (.file content)) (hlen : l.path.render.utf8ByteSize ≤ 4095)
    (cwd : Location) : t.read cwd l.path.render = .ok content := by
  have hne : l ≠ [] := by
    rintro rfl
    rw [get?_root] at h
    cases h
  rw [read, ht.resolve_path h hne hlen cwd]
  simp only [h]

/-- In a directory a file is written by the path of its location. -/
theorem WellFormed.target_path (ht : t.WellFormed) {name : String}
    (habove : t.get? above = some .directory) (hname : Proper name)
    (hvacant : t.get? (above ++ [name]) ≠ some .directory)
    (hlen : (Location.path (above ++ [name])).render.utf8ByteSize ≤ 4095) (cwd : Location) :
    t.target cwd (Location.path (above ++ [name])).render = .ok (above ++ [name]) := by
  have hl : ∀ part ∈ above ++ [name], Proper part := by
    intro part hpart
    rcases List.mem_append.mp hpart with hpart | hpart
    · exact ht.proper_of_mem habove part hpart
    · rw [List.mem_singleton.mp hpart]
      exact hname
  have horigin : origin cwd (Location.path (above ++ [name])).render = [] :=
    origin_render (normal_path hl) cwd
  have hfront : ("" :: (above ++ [name])).dropLast = "" :: above := by
    rw [← List.cons_append, List.dropLast_concat]
  rw [target_eq, checkText_path hl hlen, splitSlashes_path hl (by simp), horigin, hfront]
  show ((t.follow [] "").bind fun l₀ => above.foldlM t.follow l₀).bind _ = _
  rw [follow_void (get?_root t)]
  show (above.foldlM t.follow []).bind _ = _
  rw [ht.foldlM_follow (l := []) habove]
  show t.leaf above ((("" :: (above ++ [name])).getLast?).getD "") = _
  rw [← List.cons_append, List.getLast?_concat, Option.getD_some, leaf, habove]
  simp only [hname.notVoid, hname.notUp, hname.short, Bool.false_or, decide_false, if_false,
    Bool.false_eq_true]

/-! ### Neighbours of a directory -/

theorem stride_of_proper {name : String} (hname : Proper name) (l : Location) :
    stride l name = l ++ [name] := by
  rw [stride, if_neg (by simp [hname.notVoid]), if_neg hname.notUp]

/-- Names lead down, one by one. -/
theorem foldl_stride_of_proper {names : List String} (hnames : ∀ name ∈ names, Proper name) :
    names.foldl stride l = l ++ names ∧ ∀ x ∈ names.scanl stride l, x <+: l ++ names := by
  induction names generalizing l with
  | nil => simp
  | cons name names ih =>
    obtain ⟨hend, hway⟩ := ih (l := l ++ [name]) fun part hpart =>
      hnames part (List.mem_cons_of_mem name hpart)
    rw [← List.append_cons] at hend hway
    rw [List.foldl_cons, List.scanl_cons, stride_of_proper (hnames name List.mem_cons_self)]
    refine ⟨hend, fun x hx => ?_⟩
    rcases List.mem_cons.mp hx with rfl | hx
    · exact List.prefix_append _ _
    · exact hway x hx

/-- A path to something in a directory, or in one above it, passes nothing else than directories
above. -/
theorem mem_visited_of_dropLast_prefix {cwd x : Location} {p : Path} (hnormal : p.Normal)
    (hroot : p.anchor = .root) (hcwd : ∀ name ∈ cwd, Proper name)
    (hfront : p.parts.dropLast <+: cwd) (hx : x ∈ visited cwd p.render) :
    x <+: cwd ∨ x = p.parts := by
  by_cases hnil : p.parts = []
  · obtain ⟨anchor, parts⟩ := p
    dsimp only at hnil hroot
    subst hnil hroot
    have hvisited : visited cwd (Path.render ⟨.root, []⟩) = [[], [], []] := rfl
    rw [hvisited] at hx
    right
    simpa using hx
  · have hnames : ∀ name ∈ p.parts.dropLast, Proper name := fun name hname =>
      hcwd name (hfront.subset hname)
    obtain ⟨hend, hway⟩ := foldl_stride_of_proper (l := []) hnames
    rw [visited, Path.splitSlashes_render hnormal hnil, origin_render hnormal, hroot] at hx
    have hvoid : stride [] "" = [] := rfl
    rw [Path.parts_eq_concat hnil] at hx
    simp only [Anchor.lead, reduceCtorEq, if_false, List.singleton_append, List.scanl_cons, hvoid,
      List.scanl_append, List.scanl_nil, List.tail_cons, hend, List.nil_append] at hx
    rcases List.mem_cons.mp hx with rfl | hx
    · exact .inl List.nil_prefix
    rcases List.mem_append.mp hx with hx | hx
    · exact .inl ((hway x hx).trans hfront)
    obtain rfl := List.mem_singleton.mp hx
    have hname := (hnormal p.name (by rw [Path.parts_eq_concat hnil]; simp)).1
    rw [stride, if_neg (by simp [hname])]
    -- The last part may still lead up, to a directory that was passed already.
    split
    · exact .inl ((List.dropLast_prefix _).trans hfront)
    · exact .inr (Path.parts_eq_concat hnil).symm

/-- Files do not lie on the way to something in a directory, or in one above it. -/
theorem WellFormed.eq_parts_of_mem_visited (ht : t.WellFormed) {cwd : Location} {p : Path}
    (hcwd : t.get? cwd = some .directory) (hnormal : p.Normal) (hroot : p.anchor = .root)
    (hfront : p.parts.dropLast <+: cwd) (hl : t.get? l ≠ some .directory)
    (hmem : l ∈ visited cwd p.render) : l = p.parts := by
  obtain ⟨rest, rfl⟩ | heq :=
    mem_visited_of_dropLast_prefix hnormal hroot (ht.proper_of_mem hcwd) hfront hmem
  · by_cases hrest : rest = []
    · rw [hrest, List.append_nil] at hcwd
      exact absurd hcwd hl
    · exact absurd (ht.directory_of_append hrest hcwd) hl
  · exact heq

/-! ### Reading what was written -/

/-- A file that was written is found where it was written. -/
theorem read_put_of_target {cwd : Location} {text : String} (h : t.target cwd text = .ok l)
    (content : ByteArray) : (t.put l (.file content)).read cwd text = .ok content := by
  obtain ⟨above, name, hw, rfl⟩ := writable_of_target h
  obtain ⟨habove, hdirs⟩ := foldlM_follow_eq_ok hw.follows
  have hself : (t.put (above ++ [name]) (.file content)).get? (above ++ [name]) =
      some (.file content) := get?_put_self t (by simp) _
  -- The file itself does not lie on the way to it.
  have hway : ∀ x ∈ (splitSlashes text).dropLast.scanl stride (origin cwd text),
      (t.put (above ++ [name]) (.file content)).get? x = t.get? x := by
    intro x hx
    apply get?_put_of_ne
    rintro rfl
    exact hw.vacant (hdirs hw.directory _ hx)
  have hcheck : checkText text = .ok () := by
    cases hcheck : checkText text with
    | ok u => rfl
    | error f =>
      rw [target_eq, hcheck] at h
      cases h
  have hresolve : (t.put (above ++ [name]) (.file content)).resolve cwd text =
      .ok (above ++ [name]) := by
    have hdir : (t.put (above ++ [name]) (.file content)).get? above = some .directory := by
      rw [get?_put_of_ne t (by simp), hw.directory]
    rw [resolve, hcheck, hw.parts, List.foldlM_append, foldlM_follow_congr hway, hw.follows]
    show (Tree.follow _ above name).bind pure = _
    simp [follow, hdir, hw.proper.notVoid, hw.proper.notUp, hw.proper.short, hself, Except.bind,
      pure, Except.pure]
  rw [read, hresolve]
  simp only [hself]

/-! ### A directory that comes and goes -/

/-- A path that does not pass a location stays away from everything below it. -/
theorem not_prefix_of_not_mem_scanl {parts : List String} (hl : ¬ above <+: l)
    (h : above ∉ parts.scanl stride l) : ∀ x ∈ parts.scanl stride l, ¬ above <+: x := by
  induction parts generalizing l with
  | nil => simpa using hl
  | cons part parts ih =>
    rw [List.scanl_cons] at h ⊢
    have hnext : above ≠ stride l part := by
      rintro rfl
      exact h (List.mem_cons_of_mem l (List.mem_of_mem_head? List.head?_scanl))
    have hstep : ¬ above <+: stride l part := by
      intro hbelow
      unfold stride at hbelow hnext
      split at hbelow
      · exact hl hbelow
      · rename_i hvoid
        rw [if_neg hvoid] at hnext
        split at hbelow
        · exact hl (hbelow.trans (List.dropLast_prefix l))
        · rename_i hup
          rw [if_neg hup] at hnext
          rcases List.prefix_concat_iff.mp hbelow with heq | hbelow
          · exact hnext heq
          · exact hl hbelow
    intro x hx
    rcases List.mem_cons.mp hx with rfl | hx
    · exact hl
    · exact ih hstep (fun hmem => h (List.mem_cons_of_mem l hmem)) x hx

theorem removeAll_eq_self (h : ∀ l', l <+: l' → t.get? l' = none) : t.removeAll l = t := by
  have hkeep : t.entries.filter (fun x => !l.isPrefixOf x.1) = t.entries := by
    apply List.filter_eq_self.mpr
    intro x hx
    rw [Bool.not_eq_true', ← Bool.not_eq_true, List.isPrefixOf_iff_prefix]
    intro hbelow
    have hnone := h x.1 hbelow
    rw [get?_of_ne_nil t (ne_nil_of_get?_eq_none hnone), List.lookup_eq_none_iff] at hnone
    exact absurd (hnone x hx) (by simp)
  rw [removeAll, hkeep]

theorem makeDirectories_append (t : Tree) (l : Location) (name : String) :
    t.makeDirectories (l ++ [name]) =
      match (t.makeDirectories l).get? (l ++ [name]) with
      | some .directory => t.makeDirectories l
      | _ => (t.makeDirectories l).put (l ++ [name]) .directory := by
  have hfront : ∀ i ∈ List.range l.length, (l ++ [name]).take (i + 1) = l.take (i + 1) := by
    intro i hi
    have hlt := List.mem_range.mp hi
    exact List.take_append_of_le_length (by omega)
  have hwhole : (l ++ [name]).take (l.length + 1) = l ++ [name] :=
    List.take_of_length_le (by simp)
  have hfold : t.makeDirectories (l ++ [name]) =
      match (t.makeDirectories l).get? ((l ++ [name]).take (l.length + 1)) with
      | some .directory => t.makeDirectories l
      | _ => (t.makeDirectories l).put ((l ++ [name]).take (l.length + 1)) .directory := by
    unfold makeDirectories
    rw [List.length_append, List.length_singleton, List.range_succ, List.foldl_append,
      List.foldl_ext _ _ t fun t i hi => by rw [hfront i hi]]
    rfl
  rw [hfold, hwhole]

/-- Directories that exist need not be made. -/
theorem WellFormed.makeDirectories_eq_self (ht : t.WellFormed) (h : t.get? l = some .directory) :
    t.makeDirectories l = t := by
  induction l using List.reverseRecOn with
  | nil => rfl
  | append_singleton l name ih =>
    rw [makeDirectories_append, ih (ht.above h), h]

theorem WellFormed.makeDirectories_concat (ht : t.WellFormed) {name : String}
    (habove : t.get? above = some .directory) (h : t.get? (above ++ [name]) = none) :
    t.makeDirectories (above ++ [name]) = t.put (above ++ [name]) .directory := by
  rw [makeDirectories_append, ht.makeDirectories_eq_self habove, h]

end Tree

end TapeLang.File
