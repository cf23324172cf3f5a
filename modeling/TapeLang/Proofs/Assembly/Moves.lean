import Mathlib.Algebra.Group.Int.Defs
import TapeLang.Proofs.Assembly.Pointer

/-!
Moves of the data pointer, from wherever it stands.

The code of a move computes in registers only: it writes `r9`, `rcx` and `r11` and nothing else
(`Cpu.Keeps`), so wherever it lies it runs as a fold over its instructions.  A corrected move needs
no cursor to be right: from every cell of the tape it ends on the cell that the count leads to.  A
move without a correction is right from the cell at which the cursor stands.  The step was reduced
modulo the size before, so one correction is enough, and every constant fits its instruction.

Main statement: `move_lands`, all of this for the lines that the emitter writes.
-/

namespace TapeLang.Assembly

open Function

variable {h : Host} {img : Image} {c : Cpu} {is : List Instr}

/-! ### Code that computes in registers -/

/-- The register that an instruction computes, if it does nothing else. -/
def Instr.result? : Instr → Option Reg
  | .xor _ t => some t
  | .mov _ t => some t
  | .movabs _ t => some t
  | .lea _ t => some t
  | .add _ t => some t
  | .sub _ t => some t
  | .cmovae _ t => some t
  | .cmovb _ t => some t
  | _ => none

/-- The instructions compute some of the registers and do nothing else. -/
def Computes (rs : List Reg) (is : List Instr) : Prop := ∀ i ∈ is, ∃ t ∈ rs, i.result? = some t

theorem Computes.straight {rs : List Reg} (hc : Computes rs is) : ∀ i ∈ is, i.straight = true := by
  intro i hi
  obtain ⟨t, -, ht⟩ := hc i hi
  cases i with
  | je l => cases ht
  | jne l => cases ht
  | syscall => cases ht
  | _ => rfl

theorem Computes.append {rs : List Reg} {is js : List Instr} (hi : Computes rs is)
    (hj : Computes rs js) : Computes rs (is ++ js) :=
  List.forall_mem_append.mpr ⟨hi, hj⟩

namespace Cpu

/-- At most the given registers and the flags differ, and the place in the code. -/
structure Keeps (rs : List Reg) (c c' : Cpu) : Prop where
  regs : ∀ r ∉ rs, c'.regs r = c.regs r
  memory : c'.memory = c.memory
  input : c'.input = c.input
  output : c'.output = c.output
  calls : c'.calls = c.calls
  status : c'.status = c.status

theorem Keeps.refl (rs : List Reg) (c : Cpu) : c.Keeps rs c :=
  ⟨fun _ _ => rfl, rfl, rfl, rfl, rfl, rfl⟩

theorem Keeps.trans {rs : List Reg} {c₁ c₂ c₃ : Cpu} (h₁ : c₁.Keeps rs c₂) (h₂ : c₂.Keeps rs c₃) :
    c₁.Keeps rs c₃ :=
  ⟨fun r hr => (h₂.regs r hr).trans (h₁.regs r hr), h₂.memory.trans h₁.memory,
    h₂.input.trans h₁.input, h₂.output.trans h₁.output, h₂.calls.trans h₁.calls,
    h₂.status.trans h₁.status⟩

theorem keeps_exec {rs : List Reg} {i : Instr} {t : Reg} (ht : t ∈ rs) (hi : i.result? = some t)
    (c : Cpu) : c.Keeps rs (c.exec h img i) := by
  have hset : ∀ v, c.Keeps rs (c.next.set t v) := by
    intro v
    refine ⟨?_, rfl, rfl, rfl, rfl, rfl⟩
    intro r hr
    have hne : r ≠ t := fun heq => hr (heq ▸ ht)
    exact update_of_ne hne _ _
  have hflag : ∀ v a b, c.Keeps rs ((c.next.set t v).flag a b) := fun v _ _ =>
    ⟨(hset v).regs, rfl, rfl, rfl, rfl, rfl⟩
  cases i with
  | xor s t => cases hi; exact hflag _ _ _
  | mov s t => cases hi; exact hset _
  | movabs n t => cases hi; exact hset _
  | lea a t => cases hi; exact hset _
  | add s t => cases hi; exact hflag _ _ _
  | sub s t => cases hi; exact hflag _ _ _
  | cmovae s t => cases hi; exact hset _
  | cmovb s t => cases hi; exact hset _
  | _ => cases hi

theorem keeps_foldl {rs : List Reg} (hc : Computes rs is) (c : Cpu) :
    c.Keeps rs (is.foldl (Cpu.exec h img) c) := by
  induction is generalizing c with
  | nil => exact .refl rs c
  | cons i is ih =>
    obtain ⟨t, ht, hi⟩ := hc i (by simp)
    have hone : c.Keeps rs (c.exec h img i) := keeps_exec ht hi c
    exact hone.trans (ih (fun j hj => hc j (by simp [hj])) _)

/-- Straight code runs through, wherever it lies. -/
theorem run_straight (hstraight : ∀ i ∈ is, i.straight = true) (hrun : c.status = .running)
    (hcode : is <+: img.code.drop c.pc) :
    c.run h img is.length = is.foldl (Cpu.exec h img) c := by
  induction is generalizing c with
  | nil => rfl
  | cons i is ih =>
    obtain ⟨rest, hrest⟩ := hcode
    have hi : img.code[c.pc]? = some i := by
      have hhead := congrArg List.head? hrest
      rw [List.head?_drop] at hhead
      exact hhead.symm
    have his : is <+: img.code.drop (c.pc + 1) := by
      have htail := congrArg List.tail hrest
      rw [List.tail_drop] at htail
      exact ⟨rest, htail⟩
    obtain ⟨hstatus, hpc⟩ := @exec_straight h img i (hstraight i (by simp)) c
    have hmore := ih (c := c.exec h img i) (fun j hj => hstraight j (by simp [hj]))
      (hstatus.trans hrun) (hpc ▸ his)
    rw [List.length_cons, run, iterate_succ_apply, step_of_code hrun hi]
    exact hmore

end Cpu

/-! ### The instructions of a move -/

/-- The constant of a sum or a difference fits its field, as does the constant of a load. -/
def Instr.Encodable : Instr → Prop
  | .add (.imm n) _ => 0 ≤ n ∧ n ≤ 2 ^ 31 - 1
  | .sub (.imm n) _ => 0 ≤ n ∧ n ≤ 2 ^ 31 - 1
  | .movabs n _ => 0 ≤ n ∧ n < 2 ^ 64
  | _ => True

theorem computes_shiftCode (d : Direction) (step : Int) :
    Computes [.r9, .rcx, .r11] (instrs (shiftCode d step)) := by
  rw [shiftCode_eq]
  split <;> cases d <;> simp [Computes, instrs, Line.instr?, shiftOp, Instr.result?]

theorem computes_wrapInstrs (d : Direction) (size : Int) :
    Computes [.r9, .rcx, .r11] (wrapInstrs size d) := by
  cases d <;> simp [Computes, wrapInstrs, Instr.result?]

theorem encodable_shiftCode (d : Direction) {step : Int} (hstep : 0 ≤ step) (hlt : step < 2 ^ 64) :
    ∀ i ∈ instrs (shiftCode d step), i.Encodable := by
  rw [shiftCode_eq]
  split
  · rename_i hshort
    rw [maxImmediate] at hshort
    cases d <;> simp [instrs, Line.instr?, shiftOp, Instr.Encodable] <;> omega
  · cases d <;> simp [instrs, Line.instr?, shiftOp, Instr.Encodable] <;> omega

theorem encodable_wrapInstrs (d : Direction) {size : Int} (hpos : 0 ≤ size) (hlt : size < 2 ^ 64) :
    ∀ i ∈ wrapInstrs size d, i.Encodable := by
  cases d <;> simp [wrapInstrs, Instr.Encodable, hpos] <;> omega

/-- The instructions of a move, without the lines around them. -/
theorem instrs_moveCode {size : Int} {d : Direction} {m : Move} {checked : Bool} :
    instrs (moveCode size d m checked) =
      if m.step = 0 then []
      else instrs (shiftCode d m.step) ++
        (if m.wraps || checked then wrapInstrs size d else []) := by
  rw [moveCode]
  split
  · rfl
  · rw [instrs_append]
    split
    · rw [wrapCode_eq, instrs_map_instr]
    · rfl

/-! ### Where a move ends -/

/-- The cell that a count leads to from a cell of a ring. -/
def ringTarget (size p count : Nat) : Direction → Int
  | .right => ((p : Int) + count) % size
  | .left => ((p : Int) - count) % size

/-- To reduce the count first makes no difference. -/
theorem landing_mod {size p : Nat} (hp : p < size) (d : Direction) (count : Nat) :
    (landing size p (count % size) d : Int) = ringTarget size p count d := by
  cases d with
  | right => exact landing_right size p count
  | left => exact landing_left hp count

theorem landing_zero {size p : Nat} (hp : p < size) (d : Direction) : landing size p 0 d = p := by
  cases d <;> simp [landing, Nat.mod_eq_of_lt hp]

variable {size : Nat} {ring : Cursor}

/-- The code of a move takes the pointer to the cell that the count leads to: always if it is
checked, else from the cell at which the cursor stands. -/
theorem toNat_foldl_moveCode (hsize : size ≤ 2 ^ 32) (hring : ring.size = size)
    (hp : (c.regs .r9).toNat < size) {checked : Bool}
    (htrust : checked = true ∨ ((c.regs .r9).toNat : Int) = ring.offset) (d : Direction)
    (count : Nat) :
    (((instrs (moveCode size d (ring.moveOf d count) checked)).foldl (Cpu.exec h img) c).regs
      .r9).toNat = landing size (c.regs .r9).toNat (count % size) d := by
  have hlt : count % size < size := Nat.mod_lt _ (Nat.zero_lt_of_lt hp)
  rw [instrs_moveCode, step_moveOf hring]
  split
  · rename_i hzero
    rw [Int.natCast_eq_zero.mp hzero, landing_zero hp]
    rfl
  · rw [List.foldl_append]
    have hshift : Shifted d (count % size) c _ := @shifted_foldl h d _ (by omega) c img
    split
    · exact hshift.toNat_wrap hsize hp hlt img
    · rename_i hbare
      simp only [Bool.or_eq_true, not_or, Bool.not_eq_true] at hbare
      obtain ⟨hwraps, hunchecked⟩ := hbare
      have hstands : ring.offset = (c.regs .r9).toNat := by
        rcases htrust with hchecked | hstands
        · rw [hunchecked] at hchecked
          cases hchecked
        · exact hstands.symm
      rw [List.foldl_nil, hshift.pointer]
      exact toNat_shifted_of_short hsize hp (short_of_wraps hring hstands hwraps)

theorem computes_moveCode (size : Int) (d : Direction) (m : Move) (checked : Bool) :
    Computes [.r9, .rcx, .r11] (instrs (moveCode size d m checked)) := by
  rw [instrs_moveCode]
  split
  · intro i hi
    cases hi
  · refine (computes_shiftCode d m.step).append ?_
    split
    · exact computes_wrapInstrs d size
    · intro i hi
      cases hi

theorem encodable_moveCode {size : Int} (hpos : 0 ≤ size) (hlt : size < 2 ^ 64) (d : Direction)
    {m : Move} (hstep : 0 ≤ m.step) (hmod : m.step < 2 ^ 64) (checked : Bool) :
    ∀ i ∈ instrs (moveCode size d m checked), i.Encodable := by
  rw [instrs_moveCode]
  split
  · intro i hi
    cases hi
  · refine List.forall_mem_append.mpr ⟨encodable_shiftCode d hstep hmod, ?_⟩
    split
    · exact encodable_wrapInstrs d hpos hlt
    · intro i hi
      cases hi

/-- A step that no sum takes as it is goes through a register. -/
theorem wide_moveCode {size : Int} {d : Direction} {m : Move} {checked : Bool}
    (hwide : 2 ^ 31 - 1 < m.step) :
    [.movabs m.step .rcx, shiftOp d (.reg .rcx)] <+: instrs (moveCode size d m checked) := by
  have hlong : ¬ m.step ≤ maxImmediate := by
    rw [maxImmediate]
    omega
  rw [instrs_moveCode, if_neg (by omega), shiftCode_eq, if_neg hlong]
  exact List.prefix_append _ _

/-- The code that the emitter writes for a move.  Wherever it lies in an image, it runs through and
leaves the pointer on the cell that the count leads to, from any cell if the move is checked and
from the tracked one if it is not; of the registers it changes at most `r9`, `rcx` and `r11`.  Its
constants fit their instructions. -/
theorem move_lands (hpos : 1 ≤ size) (hsize : size ≤ 2 ^ 32) {e : Emitter} (he : e.size = size)
    (hring : e.cursor.size = size) (d : Direction) (count : Nat) (checked : Bool) :
    ∃ lines : List Line,
      (e.move d count checked).code = e.code ++ lines ∧
      (e.move d count checked).error = e.error ∧
      readListing? (render lines.toArray) = some lines ∧
      (∀ i ∈ instrs lines, i.Encodable) ∧
      (2 ^ 31 - 1 < count % size →
        [.movabs (count % size : Nat) .rcx, shiftOp d (.reg .rcx)] <+: instrs lines) ∧
      ∀ (h : Host) (img : Image) (c : Cpu), c.status = .running →
        instrs lines <+: img.code.drop c.pc → (c.regs .r9).toNat < size →
        checked = true ∨ ((c.regs .r9).toNat : Int) = e.cursor.offset →
        ∃ c', c.run h img (instrs lines).length = c' ∧
          ((c'.regs .r9).toNat : Int) = ringTarget size (c.regs .r9).toNat count d ∧
          c.Keeps [.r9, .rcx, .r11] c' ∧ c'.pc = c.pc + (instrs lines).length := by
  have hmove : e.cursor.move? d count =
      some (e.cursor.moveOf d count, { e.cursor with offset := (e.cursor.moveOf d count).after }) :=
    if_neg (by omega)
  have hlt : count % size < size := Nat.mod_lt _ hpos
  have hstep := step_moveOf hring d count
  refine ⟨moveCode size d (e.cursor.moveOf d count) checked, ?_, ?_, readListing?_render _, ?_, ?_,
    ?_⟩
  · rw [Emitter.move, hmove, ← he]
    rfl
  · rw [Emitter.move, hmove]
    rfl
  · exact encodable_moveCode (by omega) (by omega) d (by omega) (by omega) checked
  · intro hwide
    rw [← hstep]
    exact wide_moveCode (by omega)
  · intro h img c hrun hcode hp htrust
    have hcomputes := computes_moveCode size d (e.cursor.moveOf d count) checked
    refine ⟨_, Cpu.run_straight hcomputes.straight hrun hcode, ?_, Cpu.keeps_foldl hcomputes c,
      (foldl_straight hcomputes.straight c).2⟩
    rw [toNat_foldl_moveCode hsize hring hp htrust, landing_mod hp]

/-- On the largest tape, half a turn to the left and a whole one takes a register, and from cell 5,
where the cursor does not stand, leads over the first cell. -/
theorem move_lands_half_turn :
    ∃ (lines : List Line) (c' : Cpu),
      ((Emitter.start 4294967296).move .left 6442450944 true).code = (#[] : Array Line) ++ lines ∧
      [.movabs 2147483648 .rcx, .sub (.reg .rcx) .r9] <+: instrs lines ∧
      Cpu.run ⟨0, fun _ _ => 0⟩ ⟨instrs lines, [], 4294967296⟩ (instrs lines).length
        ⟨fun _ => 5, true, true, fun _ => 0, [], [], 0, 0, .running⟩ = c' ∧
      (c'.regs .r9).toNat = 2147483653 ∧ c'.regs .r10 = 5 ∧ c'.status = .running := by
  have hpos : 1 ≤ 4294967296 := by omega
  have hring : (Emitter.start 4294967296).cursor.size = (4294967296 : Nat) := rfl
  obtain ⟨lines, hcode, -, -, -, hwide, heffect⟩ :=
    move_lands hpos (by omega) rfl hring .left 6442450944 true
  obtain ⟨c', hrun, hpointer, hkeeps, -⟩ :=
    heffect ⟨0, fun _ _ => 0⟩ ⟨instrs lines, [], 4294967296⟩
      ⟨fun _ => 5, true, true, fun _ => 0, [], [], 0, 0, .running⟩ rfl (List.prefix_refl _)
      (by simp) (.inl rfl)
  refine ⟨lines, c', hcode, hwide (by omega), hrun, ?_, hkeeps.regs .r10 (by simp), hkeeps.status⟩
  rw [ringTarget] at hpointer
  simpa using Int.natCast_inj.mp (hpointer.trans (by simp : _ = ((2147483653 : Nat) : Int)))

end TapeLang.Assembly
