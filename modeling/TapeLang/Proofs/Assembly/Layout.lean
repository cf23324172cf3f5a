import TapeLang.Proofs.Assembly.Emission
import TapeLang.Proofs.Assembly.Processor

/-!
Where code lies in a loaded listing.

`At lines pos part` says that `part` occurs in a listing behind `pos` instructions, so that `pos` is
the index of its first instruction.  Parts split as lists do, the instruction at the head of a part
is the one the processor finds there (`At.code`), and a label at its head leads there
(`At.target`), because no label of a listing is defined twice.

Main statement: `ofText?_text`, the text of a complete listing loads, with the code and the labels
of its lines and a tape of the requested size.
-/

namespace TapeLang

namespace Assembly

/-- A part of a listing lies behind `pos` instructions. -/
def At (lines : List Line) (pos : Nat) (part : List Line) : Prop :=
  ∃ before after, lines = before ++ (part ++ after) ∧ (instrs before).length = pos

@[simp] theorem instrs_append (a b : List Line) : instrs (a ++ b) = instrs a ++ instrs b := by
  simp [instrs]

@[simp] theorem instrs_map_instr (is : List Instr) : instrs (is.map .instr) = is := by
  simp [instrs, List.filterMap_map, Function.comp_def, Line.instr?]

theorem labelTable_append (n : Nat) (a b : List Line) :
    labelTable n (a ++ b) = labelTable n a ++ labelTable (n + (instrs a).length) b := by
  induction a generalizing n with
  | nil => simp [labelTable, instrs]
  | cons l a ih =>
    cases l with
    | instr i =>
      show labelTable (n + 1) (a ++ b) = labelTable (n + 1) a ++ labelTable _ b
      rw [ih, Nat.add_right_comm]
      rfl
    | label l =>
      show (l, n) :: labelTable n (a ++ b) = (l, n) :: labelTable n a ++ labelTable _ b
      rw [ih]
      rfl
    | _ => exact ih n

namespace At

variable {lines a b : List Line} {pos : Nat}

theorem left (h : At lines pos (a ++ b)) : At lines pos a := by
  obtain ⟨before, after, rfl, hpos⟩ := h
  exact ⟨before, b ++ after, by simp, hpos⟩

theorem right (h : At lines pos (a ++ b)) : At lines (pos + (instrs a).length) b := by
  obtain ⟨before, after, rfl, hpos⟩ := h
  exact ⟨before ++ a, after, by simp, by simp [hpos]⟩

theorem code {i : Instr} (h : At lines pos (.instr i :: b)) : (instrs lines)[pos]? = some i := by
  obtain ⟨before, after, rfl, rfl⟩ := h
  simp [instrs, Line.instr?]

theorem tail {i : Instr} (h : At lines pos (.instr i :: b)) : At lines (pos + 1) b :=
  right (a := [.instr i]) h

theorem blank (h : At lines pos (.blank :: b)) : At lines pos b :=
  right (a := [.blank]) h

theorem label {l : Label} (h : At lines pos (.label l :: b)) : At lines pos b :=
  right (a := [.label l]) h

/-- A label leads to the place where it is defined. -/
theorem target {l : Label} (h : At lines pos (.label l :: b))
    (hnodup : ((labelTable 0 lines).map Prod.fst).Nodup) :
    (labelTable 0 lines).lookup l = some pos := by
  obtain ⟨before, after, rfl, rfl⟩ := h
  rw [labelTable_append, Nat.zero_add, List.cons_append, labelTable] at hnodup ⊢
  rw [List.map_append, List.nodup_append] at hnodup
  -- the label does not occur before its definition
  have hbefore : (labelTable 0 before).lookup l = none := by
    rw [List.lookup_eq_none_iff]
    intro p hp
    have hne := hnodup.2.2 p.1 (List.mem_map_of_mem hp) l (by simp)
    simpa using Ne.symm hne
  rw [List.lookup_append, hbefore, Option.none_or, List.lookup_cons_self]

end At

/-! ### No label is defined twice -/

/-- The label on a line, if there is one. -/
def Line.label? : Line → Option Label
  | .label l => some l
  | _ => none

theorem map_fst_labelTable (n : Nat) (lines : List Line) :
    (labelTable n lines).map Prod.fst = lines.filterMap Line.label? := by
  induction lines generalizing n with
  | nil => rfl
  | cons l lines ih =>
    cases l with
    | label l => exact congrArg (l :: ·) (ih n)
    | instr i => exact ih (n + 1)
    | _ => exact ih n

end Assembly

open Assembly

/-- The labels of a nest whose loops are numbered from `n` on. -/
def Nest.labels : Nest → Nat → List Label
  | done, _ => []
  | act _ _ rest, n => rest.labels n
  | loop _ body _ rest, n =>
    .loopHead n :: (body.labels (n + 1) ++ .loopTail n :: rest.labels (n + 1 + body.loops))

namespace Assembly

/-- Labels and jumps, which decide what is executed next. -/
def Line.isMark : Line → Bool
  | .label _ => true
  | .instr (.je _) => true
  | .instr (.jne _) => true
  | _ => false

theorem any_isMark_replicate {lines : List Line} (h : lines.any Line.isMark = false) (n : Nat) :
    (List.replicate n lines).flatten.any Line.isMark = false := by
  induction n with
  | zero => rfl
  | succ n ih => rw [List.replicate_succ, List.flatten_cons, List.any_append, h, ih]; rfl

theorem any_isMark_shiftCode (d : Direction) (step : Int) :
    (shiftCode d step).any Line.isMark = false := by
  cases d <;> simp only [shiftCode] <;> split <;> rfl

theorem any_isMark_runMoveCode (size : Int) (inLoop : Bool) (c : Cursor) (d : Direction)
    (count : Nat) : (runMoveCode size inLoop c d count).any Line.isMark = false := by
  unfold runMoveCode moveCode
  dsimp only
  split
  · rfl
  · rw [List.any_append, any_isMark_shiftCode]
    split <;> cases d <;> rfl

/-- The code of a run that is no bracket goes straight through. -/
theorem any_isMark_runCode (size : Int) (inLoop : Bool) (c : Cursor) (r : Run) :
    (runCode size inLoop c r).any Line.isMark = false := by
  unfold runCode
  split
  · rfl
  · rfl
  · exact any_isMark_runMoveCode ..
  · exact any_isMark_runMoveCode ..
  · exact any_isMark_replicate rfl _
  · exact any_isMark_replicate rfl _
  · rfl
  · rfl

theorem filterMap_label_runCode (size : Int) (inLoop : Bool) (c : Cursor) (r : Run) :
    (runCode size inLoop c r).filterMap Line.label? = [] := by
  rw [List.filterMap_eq_nil_iff]
  intro line hline
  have hmark := List.any_eq_false.mp (any_isMark_runCode size inLoop c r) line hline
  cases line with
  | label l => exact absurd rfl hmark
  | _ => rfl

theorem filterMap_label_code (t : Nest) (size : Int) (inLoop : Bool) (n : Nat) (c : Cursor) :
    (t.code size inLoop n c).filterMap Line.label? = t.labels n := by
  induction t generalizing inLoop n c with
  | done => rfl
  | act r _ rest ih =>
    rw [Nest.code, List.filterMap_append, filterMap_label_runCode, ih]
    rfl
  | loop _ body _ rest ihb ihr =>
    simp only [Nest.code, List.filterMap_append, ihb, ihr]
    rfl

/-- The labels of a nest carry the numbers of its loops. -/
theorem mem_labels {t : Nest} {n : Nat} {l : Label} (h : l ∈ t.labels n) :
    ∃ m, (l = .loopHead m ∨ l = .loopTail m) ∧ n ≤ m ∧ m < n + t.loops := by
  induction t generalizing n with
  | done => cases h
  | act r _ rest ih => exact ih h
  | loop _ body _ rest ihb ihr =>
    rw [Nest.loops]
    rcases List.mem_cons.mp h with rfl | h
    · exact ⟨n, .inl rfl, by omega, by omega⟩
    rcases List.mem_append.mp h with h | h
    · obtain ⟨m, hm, h1, h2⟩ := ihb h
      exact ⟨m, hm, by omega, by omega⟩
    rcases List.mem_cons.mp h with rfl | h
    · exact ⟨n, .inr rfl, by omega, by omega⟩
    · obtain ⟨m, hm, h1, h2⟩ := ihr h
      exact ⟨m, hm, by omega, by omega⟩

theorem nodup_labels (t : Nest) (n : Nat) : (t.labels n).Nodup := by
  induction t generalizing n with
  | done => exact List.nodup_nil
  | act r _ rest ih => exact ih n
  | loop _ body _ rest ihb ihr =>
    rw [Nest.labels, List.nodup_cons, List.nodup_append, List.nodup_cons]
    -- the numbers inside a loop are larger than its own, and those behind it are larger still
    refine ⟨?_, ihb _, ⟨?_, ihr _⟩, ?_⟩
    · intro h
      rcases List.mem_append.mp h with h | h
      · obtain ⟨m, hm, h1, -⟩ := mem_labels h
        grind
      · rcases List.mem_cons.mp h with h | h
        · cases h
        · obtain ⟨m, hm, h1, -⟩ := mem_labels h
          grind
    · intro h
      obtain ⟨m, hm, h1, -⟩ := mem_labels h
      grind
    · intro l hl l' hl'
      obtain ⟨m, hm, h1, h2⟩ := mem_labels hl
      rcases List.mem_cons.mp hl' with rfl | hl'
      · grind
      · obtain ⟨m', hm', h1', -⟩ := mem_labels hl'
        grind

/-! ### Loading a listing -/

/-- All lines of a complete listing. -/
def listingOf (t : Nest) (size : Int) : List Line :=
  prologue size ++ (t.code size false 0 (.start size) ++ epilogue)

theorem filterMap_label_listingOf (t : Nest) (size : Int) :
    (listingOf t size).filterMap Line.label? = .start :: t.labels 0 := by
  rw [listingOf, List.filterMap_append, List.filterMap_append, filterMap_label_code]
  show [Label.start] ++ (t.labels 0 ++ []) = _
  simp

theorem nodup_listingOf (t : Nest) (size : Int) :
    ((labelTable 0 (listingOf t size)).map Prod.fst).Nodup := by
  rw [map_fst_labelTable, filterMap_label_listingOf, List.nodup_cons]
  refine ⟨?_, nodup_labels t 0⟩
  intro h
  obtain ⟨m, hm, -⟩ := mem_labels h
  rcases hm with hm | hm <;> cases hm

/-- Some lines as they are loaded, with a tape of the given size. -/
def loaded (lines : List Line) (size : Int) : Image := ⟨instrs lines, labelTable 0 lines, size⟩

theorem ofText?_text {ε : Type} {l : Listing ε} {t : Nest} {size : Int}
    (h : l.code.toList = listingOf t size) :
    Image.ofText? l.text = some (loaded (listingOf t size) size) := by
  have hcells : reserved? (listingOf t size) = some size := by
    simp [reserved?, listingOf, prologue]
  rw [Image.ofText?, Listing.text, readListing?_render, h, Option.bind_some, Image.ofLines?,
    if_pos (nodup_listingOf t size), hcells]
  rfl

end Assembly

end TapeLang
