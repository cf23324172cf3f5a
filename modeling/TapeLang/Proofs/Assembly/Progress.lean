import TapeLang.Proofs.Assembly.Layout

/-!
Progress of the processor, under watch.

`Advances n c c'` says that `n` instructions lead from `c` to `c'`, and that each of them found the
process running and was `Safe`: an instruction or a system call that uses the current cell has the
pointer on the tape and the tape at its address, and a shift of the pointer that is not followed by
a correction ends on the tape.  What is proved of a piece of code in this form is both what it
computes and that it does no harm on the way.

Straight code, which neither jumps nor calls the host, advances instruction by instruction
(`advances_straight`).
-/

namespace TapeLang.Assembly

/-! ### Safe instructions -/

/-- The memory operand of an instruction. -/
def Instr.operand? : Instr → Option Address
  | .lea a _ => some a
  | .addb _ a => some a
  | .subb _ a => some a
  | .cmpb _ a => some a
  | _ => none

/-- The instruction changes the data pointer by a step. -/
def Instr.shifts : Instr → Bool
  | .add _ .r9 => true
  | .sub _ .r9 => true
  | _ => false

/-- The instruction that a correction begins with. -/
def Instr.corrects : Instr → Bool
  | .movabs _ .r11 => true
  | _ => false

namespace Cpu

/-- Executing the instruction, the processor uses the current cell, by itself or through the host.
-/
def Uses (c : Cpu) (i : Instr) : Prop :=
  i.operand? = some currentCell ∨ (i = .syscall ∧ (c.regs .eax = 0 ∨ c.regs .eax = 1))

/-- The pointer is on the tape, and the tape is where it was put. -/
structure Inside (h : Host) (size : Nat) (c : Cpu) : Prop where
  pointer : (c.regs .r9).toNat < size
  base : c.regs .r10 = h.base

/-- Nothing that is done next can go wrong outside the tape. -/
structure Safe (h : Host) (img : Image) (size : Nat) (c : Cpu) : Prop where
  /-- What uses the current cell finds the pointer on the tape. -/
  inside : ∀ i, img.code[c.pc]? = some i → c.Uses i → c.Inside h size
  /-- A system call uses no other cell than the current one. -/
  passes : img.code[c.pc]? = some .syscall → c.Uses .syscall →
    c.regs .rsi = c.regs .r10 + c.regs .r9
  /-- A shift without a correction does not leave the tape. -/
  bare : ∀ i, img.code[c.pc]? = some i → i.shifts = true →
    (∀ j, img.code[c.pc + 1]? = some j → j.corrects = false) →
    ((c.step h img).regs .r9).toNat < size

end Cpu

/-! ### Watched progress -/

variable {h : Host} {img : Image} {size : Nat}

/-- A number of instructions, all of them safe, leads from one state to another. -/
inductive Advances (h : Host) (img : Image) (size : Nat) : Nat → Cpu → Cpu → Prop
  | refl (c : Cpu) : Advances h img size 0 c c
  | head {n : Nat} {c c' : Cpu} :
      c.status = .running → c.Safe h img size → Advances h img size n (c.step h img) c' →
      Advances h img size (n + 1) c c'

namespace Advances

theorem trans {a b : Nat} {c₁ c₂ c₃ : Cpu} (h₁ : Advances h img size a c₁ c₂)
    (h₂ : Advances h img size b c₂ c₃) : Advances h img size (a + b) c₁ c₃ := by
  induction h₁ with
  | refl => simpa using h₂
  | head hrun hsafe _ ih =>
    rw [Nat.add_right_comm]
    exact .head hrun hsafe (ih h₂)

theorem run_eq {n : Nat} {c c' : Cpu} (ha : Advances h img size n c c') : c.run h img n = c' := by
  induction ha with
  | refl => rfl
  | head _ _ _ ih => exact ih

/-- On the way the process runs, and all it does is safe. -/
theorem before {n : Nat} {c c' : Cpu} (ha : Advances h img size n c c') {j : Nat} (hj : j < n) :
    (c.run h img j).status = .running ∧ (c.run h img j).Safe h img size := by
  induction ha generalizing j with
  | refl => cases hj
  | head hrun hsafe _ ih =>
    cases j with
    | zero => exact ⟨hrun, hsafe⟩
    | succ j => exact ih (Nat.lt_of_succ_lt_succ hj)

end Advances

/-! ### One instruction -/

namespace Cpu

theorem step_of_code {c : Cpu} {i : Instr} (hrun : c.status = .running)
    (hcode : img.code[c.pc]? = some i) : c.step h img = c.exec h img i := by
  simp [step, hrun, hcode]

/-- An instruction is safe if the pointer is on the tape and stays there. -/
theorem Inside.safe {c : Cpu} {i : Instr} (hin : c.Inside h size)
    (hcode : img.code[c.pc]? = some i) (hcall : i ≠ .syscall) (hshift : i.shifts = false) :
    c.Safe h img size := by
  refine ⟨fun _ _ _ => hin, ?_, ?_⟩
  · intro hcode'
    rw [hcode, Option.some.injEq] at hcode'
    exact absurd hcode' hcall
  · intro j hcode' hshift'
    rw [hcode, Option.some.injEq] at hcode'
    rw [← hcode', hshift] at hshift'
    cases hshift'

/-- An instruction that has nothing to do with the tape is safe. -/
theorem safe_of_apart {c : Cpu} {i : Instr} (hcode : img.code[c.pc]? = some i)
    (happart : i.operand? ≠ some currentCell) (hcall : i ≠ .syscall)
    (hshift : i.shifts = true → (∀ j, img.code[c.pc + 1]? = some j → j.corrects = false) →
      ((c.step h img).regs .r9).toNat < size) : c.Safe h img size := by
  refine ⟨?_, ?_, ?_⟩
  · intro j hcode' huse
    rw [hcode, Option.some.injEq] at hcode'
    subst hcode'
    rcases huse with huse | ⟨huse, -⟩
    · exact absurd huse happart
    · exact absurd huse hcall
  · intro hcode'
    rw [hcode, Option.some.injEq] at hcode'
    exact absurd hcode' hcall
  · intro j hcode' hj hbare
    rw [hcode, Option.some.injEq] at hcode'
    subst hcode'
    exact hshift hj hbare

end Cpu

theorem advances_one {c : Cpu} {i : Instr} (hrun : c.status = .running)
    (hcode : img.code[c.pc]? = some i) (hsafe : c.Safe h img size) :
    Advances h img size 1 c (c.exec h img i) := by
  rw [← Cpu.step_of_code hrun hcode]
  exact .head hrun hsafe (.refl _)

/-! ### Straight code -/

/-- The instruction leads to the next one. -/
def Instr.straight : Instr → Bool
  | .je _ => false
  | .jne _ => false
  | .syscall => false
  | _ => true

/-- The instruction leaves the data pointer and the address of the tape as they are. -/
def Instr.steady : Instr → Bool
  | .xor _ t => t != .r9 && t != .r10
  | .mov _ t => t != .r9 && t != .r10
  | .movabs _ t => t != .r9 && t != .r10
  | .lea _ t => t != .r9 && t != .r10
  | .add _ t => t != .r9 && t != .r10
  | .sub _ t => t != .r9 && t != .r10
  | .cmovae _ t => t != .r9 && t != .r10
  | .cmovb _ t => t != .r9 && t != .r10
  | _ => true

/-- The instruction needs no care: it is straight, and neither uses the current cell nor shifts the
pointer. -/
def Instr.quiet (i : Instr) : Bool :=
  i.straight && i.operand? != some currentCell && !i.shifts

namespace Cpu

theorem exec_straight {i : Instr} (hi : i.straight = true) (c : Cpu) :
    (c.exec h img i).status = c.status ∧ (c.exec h img i).pc = c.pc + 1 := by
  cases i with
  | je l => cases hi
  | jne l => cases hi
  | syscall => cases hi
  | _ => exact ⟨rfl, rfl⟩

theorem Inside.exec {i : Instr} (hi : i.straight = true) (hsteady : i.steady = true) {c : Cpu}
    (hin : c.Inside h size) : (c.exec h img i).Inside h size := by
  have hset : ∀ (t : Reg) (v : Word), (t != .r9 && t != .r10) = true →
      (c.next.set t v).Inside h size := by
    intro t v ht
    simp only [Bool.and_eq_true, bne_iff_ne, ne_eq] at ht
    refine ⟨?_, ?_⟩
    · simp [Cpu.set, Cpu.next, Ne.symm ht.1, hin.pointer]
    · simp [Cpu.set, Cpu.next, Ne.symm ht.2, hin.base]
  cases i with
  | je l => cases hi
  | jne l => cases hi
  | syscall => cases hi
  | mov s t => exact hset t _ hsteady
  | movabs n t => exact hset t _ hsteady
  | lea a t => exact hset t _ hsteady
  | cmovae s t => exact hset t _ hsteady
  | cmovb s t => exact hset t _ hsteady
  -- the flags that come with a result are in no register
  | xor s t => exact ⟨(hset t _ hsteady).1, (hset t _ hsteady).2⟩
  | add s t => exact ⟨(hset t _ hsteady).1, (hset t _ hsteady).2⟩
  | sub s t => exact ⟨(hset t _ hsteady).1, (hset t _ hsteady).2⟩
  | addb n a => exact ⟨hin.pointer, hin.base⟩
  | subb n a => exact ⟨hin.pointer, hin.base⟩
  | cmpb n a => exact ⟨hin.pointer, hin.base⟩

theorem shifts_of_steady {i : Instr} (hi : i.steady = true) : i.shifts = false := by
  cases i with
  | add s t =>
    cases t with
    | r9 => cases hi
    | _ => rfl
  | sub s t =>
    cases t with
    | r9 => cases hi
    | _ => rfl
  | _ => rfl

end Cpu

variable {lines : List Line} {is : List Instr} {c : Cpu}

theorem foldl_straight (hstraight : ∀ i ∈ is, i.straight = true) (c : Cpu) :
    (is.foldl (Cpu.exec h img) c).status = c.status ∧
      (is.foldl (Cpu.exec h img) c).pc = c.pc + is.length := by
  induction is generalizing c with
  | nil => exact ⟨rfl, rfl⟩
  | cons i is ih =>
    obtain ⟨hstatus, hpc⟩ := @Cpu.exec_straight h img i (hstraight i (by simp)) c
    obtain ⟨hstatus', hpc'⟩ := ih (fun j hj => hstraight j (by simp [hj])) (c.exec h img i)
    rw [List.foldl_cons, List.length_cons]
    exact ⟨hstatus'.trans hstatus, by omega⟩

/-- Straight code advances under an invariant that makes each of its instructions safe. -/
theorem advances_straight {I : Cpu → Prop} (hstraight : ∀ i ∈ is, i.straight = true)
    (hkeep : ∀ i ∈ is, ∀ c, I c → I (c.exec h (loaded lines size) i))
    (hsafe : ∀ i ∈ is, ∀ c, I c → (instrs lines)[c.pc]? = some i →
      c.Safe h (loaded lines size) size)
    (hrun : c.status = .running) (hat : At lines c.pc (is.map .instr)) (hI : I c) :
    Advances h (loaded lines size) size is.length c
      (is.foldl (Cpu.exec h (loaded lines size)) c) := by
  induction is generalizing c with
  | nil => exact .refl c
  | cons i is ih =>
    have hi : i ∈ i :: is := by simp
    obtain ⟨hstatus, hpc⟩ := @Cpu.exec_straight h (loaded lines size) i (hstraight i hi) c
    have hone := advances_one hrun hat.code (hsafe i hi c hI hat.code)
    have hmore := ih (fun j hj => hstraight j (by simp [hj])) (fun j hj => hkeep j (by simp [hj]))
      (fun j hj => hsafe j (by simp [hj])) (hstatus.trans hrun) (hpc ▸ hat.tail) (hkeep i hi c hI)
    rw [List.length_cons, Nat.add_comm]
    exact hone.trans hmore

/-- Code that has nothing to do with the tape. -/
theorem advances_quiet (is : List Instr) (hquiet : is.all Instr.quiet = true)
    (hrun : c.status = .running) (hat : At lines c.pc (is.map .instr)) :
    Advances h (loaded lines size) size is.length c
      (is.foldl (Cpu.exec h (loaded lines size)) c) := by
  have hall : ∀ i ∈ is, i.straight = true ∧ i.operand? ≠ some currentCell ∧ i.shifts = false := by
    intro i hi
    have hq := List.all_eq_true.mp hquiet i hi
    simpa [Instr.quiet, and_assoc] using hq
  refine advances_straight (I := fun _ => True) (fun i hi => (hall i hi).1) (fun _ _ _ _ => trivial)
    ?_ hrun hat trivial
  intro i hi c _ hcode
  obtain ⟨hstraight, happart, hshift⟩ := hall i hi
  refine Cpu.safe_of_apart hcode happart ?_ ?_
  · rintro rfl
    cases hstraight
  · intro hs
    rw [hshift] at hs
    cases hs

/-- Code that may use the current cell, and leaves pointer and address as they are. -/
theorem advances_steady (is : List Instr)
    (hsteady : is.all (fun i => i.straight && i.steady) = true) (hrun : c.status = .running)
    (hat : At lines c.pc (is.map .instr)) (hin : c.Inside h size) :
    Advances h (loaded lines size) size is.length c
      (is.foldl (Cpu.exec h (loaded lines size)) c) := by
  have hall : ∀ i ∈ is, i.straight = true ∧ i.steady = true := by
    intro i hi
    have hs := List.all_eq_true.mp hsteady i hi
    simpa using hs
  refine advances_straight (I := Cpu.Inside h size) (fun i hi => (hall i hi).1)
    (fun i hi c hc => hc.exec (hall i hi).1 (hall i hi).2) ?_ hrun hat hin
  intro i hi c hc hcode
  refine hc.safe hcode ?_ (Cpu.shifts_of_steady (hall i hi).2)
  rintro rfl
  cases (hall _ hi).1

end TapeLang.Assembly
