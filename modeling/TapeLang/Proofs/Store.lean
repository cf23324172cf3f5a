import Mathlib.Logic.Function.Iterate
import Mathlib.Tactic.Common
import TapeLang.Machine

/-!
What a single symbol does.

A store is a machine without a program: the tape, the data pointer, the bytes written and the input
that is left.  `Store.act` is the whole meaning of one symbol that is no bracket: a cell changes by
one modulo 256, the pointer moves by one cell along the ring, one input item is taken or, where none
is left, nothing happens, and the current cell is written.

Main statement: `Machine.exec_eq_iterate`, executing an instruction with a count is the symbol
acting that many times, however the count relates to 256, to the size of the tape or to what is left
of the input.
-/

namespace TapeLang

open Function

/-- Tape, data pointer, bytes written and input left. -/
structure Store where
  tape : Array UInt8
  pointer : Nat
  output : Array UInt8
  input : List Int

namespace Store

/-- A store with `size` zero cells, ready to read `input`. -/
def start (size : Nat) (input : List Int) : Store := ⟨Array.replicate size 0, 0, #[], input⟩

/-- The current cell. -/
def cell (s : Store) : UInt8 := s.tape.getD s.pointer 0

/-- Apply a change to the current cell. -/
def change (s : Store) (f : UInt8 → UInt8) : Store :=
  { s with tape := s.tape.modify s.pointer f }

/-- What one symbol does; a bracket does nothing by itself. -/
def act (a : Symbol) (s : Store) : Store :=
  match a with
  | .increment => s.change (· + 1)
  | .decrement => s.change (· - 1)
  | .moveRight => { s with pointer := (s.pointer + 1) % s.tape.size }
  | .moveLeft => { s with pointer := (s.pointer + (s.tape.size - 1)) % s.tape.size }
  | .read =>
    match s.input with
    | [] => s
    | x :: rest => { s with input := rest }.change fun _ => byteOf x
  | .write => { s with output := s.output.push s.cell }
  | .loopOpen => s
  | .loopClose => s

/-- The store has `size` cells, and the pointer stands on one of them. -/
structure Fits (size : Nat) (s : Store) : Prop where
  cells : s.tape.size = size
  pointer : s.pointer < size

/-- The machine that is about to execute the instruction at `pc`. -/
def machineAt (s : Store) (pc : Nat) : Machine := ⟨s.tape, s.pointer, s.output, s.input, pc⟩

end Store

/-- A machine without its place in the program. -/
def Machine.store (m : Machine) : Store := ⟨m.tape, m.pointer, m.output, m.input⟩

namespace Store

@[simp] theorem store_machineAt (s : Store) (pc : Nat) : (s.machineAt pc).store = s := rfl

@[simp] theorem machineAt_store (m : Machine) : m.store.machineAt m.pc = m := rfl

/-! ### Every symbol keeps the store in shape -/

theorem Fits.change {size : Nat} {s : Store} (h : s.Fits size) (f : UInt8 → UInt8) :
    (s.change f).Fits size :=
  ⟨by simp [Store.change, h.cells], h.pointer⟩

theorem Fits.act {size : Nat} {s : Store} (h : s.Fits size) (a : Symbol) : (s.act a).Fits size := by
  have hpos : 0 < s.tape.size := by
    rw [h.cells]
    exact Nat.zero_lt_of_lt h.pointer
  cases a with
  | increment => exact h.change _
  | decrement => exact h.change _
  | moveRight => exact ⟨h.cells, h.cells ▸ Nat.mod_lt _ hpos⟩
  | moveLeft => exact ⟨h.cells, h.cells ▸ Nat.mod_lt _ hpos⟩
  | read =>
    cases hin : s.input with
    | nil => simpa [Store.act, hin] using h
    | cons x rest =>
      have h' : ({ s with input := rest } : Store).Fits size := ⟨h.cells, h.pointer⟩
      simpa [Store.act, hin] using h'.change fun _ => byteOf x
  | write => exact ⟨h.cells, h.pointer⟩
  | loopOpen => exact h
  | loopClose => exact h

theorem Fits.iterate {size : Nat} {s : Store} (h : s.Fits size) (a : Symbol) (n : Nat) :
    ((Store.act a)^[n] s).Fits size := by
  induction n with
  | zero => exact h
  | succ n ih =>
    rw [iterate_succ_apply']
    exact ih.act a

theorem fits_start {size : Nat} (h : 0 < size) (input : List Int) :
    (start size input).Fits size :=
  ⟨by simp [start], h⟩

/-! ### A symbol that acts many times -/

theorem change_change (s : Store) (f g : UInt8 → UInt8) :
    (s.change f).change g = s.change (g ∘ f) := by
  have ht : (s.tape.modify s.pointer f).modify s.pointer g = s.tape.modify s.pointer (g ∘ f) := by
    ext i hi hi'
    · simp
    · simp only [Array.getElem_modify, comp_apply]
      split <;> rfl
  simp only [Store.change, ht]

theorem change_id (s : Store) : s.change id = s := by
  have ht : s.tape.modify s.pointer id = s.tape := by
    ext i hi hi'
    · simp
    · simp [Array.getElem_modify]
  simp only [Store.change, ht]

theorem iterate_increment (s : Store) (n : Nat) :
    (act .increment)^[n] s = s.change (· + UInt8.ofNat n) := by
  induction n with
  | zero =>
    have hid : (· + UInt8.ofNat 0) = id := by
      funext v
      simp
    rw [hid, change_id]
    rfl
  | succ n ih =>
    have hadd : (· + 1) ∘ (· + UInt8.ofNat n) = (· + UInt8.ofNat (n + 1)) := by
      funext v
      simp [UInt8.ofNat_add, UInt8.add_assoc]
    rw [iterate_succ_apply', ih, act, change_change, hadd]

theorem iterate_decrement (s : Store) (n : Nat) :
    (act .decrement)^[n] s = s.change (· - UInt8.ofNat n) := by
  induction n with
  | zero =>
    have hid : (· - UInt8.ofNat 0) = id := by
      funext v
      simp
    rw [hid, change_id]
    rfl
  | succ n ih =>
    have hsub : (· - 1) ∘ (· - UInt8.ofNat n) = (· - UInt8.ofNat (n + 1)) := by
      funext v
      simp only [comp_apply, UInt8.ofNat_add]
      grind
    rw [iterate_succ_apply', ih, act, change_change, hsub]

theorem iterate_moveRight {size : Nat} {s : Store} (h : s.Fits size) (n : Nat) :
    (act .moveRight)^[n] s = { s with pointer := (s.pointer + n) % size } := by
  induction n with
  | zero =>
    rw [Nat.add_zero, Nat.mod_eq_of_lt h.pointer]
    rfl
  | succ n ih =>
    rw [iterate_succ_apply', ih]
    simp [act, h.cells, Nat.add_assoc]

/-- One step to the left undoes one to the right. -/
theorem left_step {size p : Nat} (hp : p < size) (n : Nat) :
    ((p + (size - n % size)) % size + (size - 1)) % size =
      (p + (size - (n + 1) % size)) % size := by
  have hr : n % size < size := Nat.mod_lt _ (by omega)
  have hsucc : (n + 1) % size = if n % size + 1 = size then 0 else n % size + 1 := by
    rw [Nat.add_mod]
    rcases Nat.lt_or_ge 1 size with h1 | h1
    · rw [Nat.mod_eq_of_lt h1]
      split
      · rename_i he
        rw [he, Nat.mod_self]
      · exact Nat.mod_eq_of_lt (by omega)
    · obtain rfl : size = 1 := by omega
      simp [Nat.mod_one]
  -- both sides go around the ring at most once more than needed
  rw [Nat.mod_add_mod, hsucc]
  split
  · rename_i he
    rw [show p + (size - n % size) + (size - 1) = p + (size - 0) by omega]
  · rw [show p + (size - n % size) + (size - 1) = p + (size - (n % size + 1)) + size by omega,
      Nat.add_mod_right]

theorem iterate_moveLeft {size : Nat} {s : Store} (h : s.Fits size) (n : Nat) :
    (act .moveLeft)^[n] s = { s with pointer := (s.pointer + (size - n % size)) % size } := by
  induction n with
  | zero =>
    rw [Nat.zero_mod, Nat.sub_zero, Nat.add_mod_right, Nat.mod_eq_of_lt h.pointer]
    rfl
  | succ n ih =>
    rw [iterate_succ_apply', ih]
    simp only [act, h.cells, left_step h.pointer]

theorem iterate_write (s : Store) (n : Nat) :
    (act .write)^[n] s = { s with output := s.output ++ Array.replicate n s.cell } := by
  induction n with
  | zero => simp
  | succ n ih =>
    rw [iterate_succ_apply', ih]
    simp only [act, cell, Array.replicate_succ, Array.push_eq_append, Array.append_assoc]

/-- Of several items read one after the other, the last one stays. -/
theorem iterate_read (s : Store) (n : Nat) :
    (act .read)^[n] s = match (s.input.take n).getLast? with
      | none => s
      | some x => { s with input := s.input.drop n }.change fun _ => byteOf x := by
  induction n generalizing s with
  | zero => simp
  | succ n ih =>
    rw [iterate_succ_apply, ih]
    cases hin : s.input with
    | nil => simp [act, hin]
    | cons x rest =>
      have hact : s.act .read = { s with input := rest }.change fun _ => byteOf x := by
        simp [act, hin]
      rw [hact, List.take_succ_cons, List.getLast?_cons, List.drop_succ_cons]
      show (match (rest.take n).getLast? with
        | none => _
        | some y => _) = _
      cases hl : (rest.take n).getLast? with
      | none =>
        -- nothing more is read, and `x` stays in the cell
        have hnil : rest.take n = [] := List.getLast?_eq_none_iff.mp hl
        have hdrop : rest.drop n = rest := by
          conv_rhs => rw [← List.take_append_drop n rest, hnil]
          rfl
        rw [hdrop]
        rfl
      | some y =>
        -- a later item takes the place of `x`
        exact change_change { s with input := rest.drop n } (fun _ => byteOf x) fun _ => byteOf y

end Store

/-! ### Instructions with a count -/

namespace Machine

/-- What an instruction without a bracket does to the store. -/
theorem exec_eq_iterate {size : Nat} {s : Store} (h : s.Fits size) (pc partner : Nat)
    {i : Instruction} (hi : i.symbol.isBracket = false) :
    (s.machineAt pc).exec i partner =
      (((Store.act i.symbol)^[i.count] s).machineAt (pc + 1), .running) := by
  obtain ⟨a, n⟩ := i
  have hlt : s.pointer < s.tape.size := by
    rw [h.cells]
    exact h.pointer
  -- a machine reads the cell and writes it back, a store changes it in place
  have hset : ∀ f : UInt8 → UInt8, s.tape.set s.pointer (f s.tape[s.pointer]) =
      s.tape.modify s.pointer f := by
    intro f
    ext j hj hj'
    · simp
    · rw [Array.getElem_set, Array.getElem_modify]
      split <;> simp_all
  cases a with
  | increment =>
    rw [Store.iterate_increment]
    simp [exec, changeCell, Store.machineAt, Store.change, hlt, hset (· + UInt8.ofNat n)]
  | decrement =>
    rw [Store.iterate_decrement]
    simp [exec, changeCell, Store.machineAt, Store.change, hlt, hset (· - UInt8.ofNat n)]
  | moveRight =>
    rw [Store.iterate_moveRight h]
    simp [exec, shift, Store.machineAt, h.cells, Nat.ne_zero_of_lt h.pointer]
  | moveLeft =>
    rw [Store.iterate_moveLeft h]
    simp [exec, shift, Store.machineAt, h.cells, Nat.ne_zero_of_lt h.pointer]
  | read =>
    rw [Store.iterate_read]
    simp only [exec, read, Store.machineAt]
    cases (s.input.take n).getLast? with
    | none => rfl
    | some x => simp [Store.change, hlt, hset fun _ => byteOf x]
  | write =>
    rw [Store.iterate_write]
    simp [exec, write, Store.machineAt, Store.cell, hlt]
  | loopOpen => cases hi
  | loopClose => cases hi

theorem exec_loopOpen {size : Nat} {s : Store} (h : s.Fits size) (pc partner n : Nat) :
    (s.machineAt pc).exec ⟨.loopOpen, n⟩ partner =
      (s.machineAt ((if s.cell = 0 then partner else pc) + 1), .running) := by
  have hlt : s.pointer < s.tape.size := by
    rw [h.cells]
    exact h.pointer
  simp [exec, branch, Store.machineAt, Store.cell, hlt]

theorem exec_loopClose {size : Nat} {s : Store} (h : s.Fits size) (pc partner n : Nat) :
    (s.machineAt pc).exec ⟨.loopClose, n⟩ partner =
      (s.machineAt ((if s.cell = 0 then pc else partner) + 1), .running) := by
  have hlt : s.pointer < s.tape.size := by
    rw [h.cells]
    exact h.pointer
  by_cases h0 : s.cell = 0
  · simp_all [exec, branch, Store.machineAt, Store.cell]
  · simp_all [exec, branch, Store.machineAt, Store.cell]

end Machine

end TapeLang
