import TapeLang.Execution
import TapeLang.Proofs.Nest
import TapeLang.Proofs.Store

/-!
Executions of nested programs.

`Program.Steps` counts the instructions of an execution, so that halting, pausing and going on for
ever are all about it (`runFor_eq_ended_iff`, `execute_eq_ok_iff`).  `Located` says where in a
program the instructions and jumps of a nest lie, and the step lemmas say what the instruction at
the head of a located nest does: a run acts on the store as often as its count says, and both
brackets of a loop lead to the body or behind the loop, by the current cell alone.
-/

namespace TapeLang

open Function

namespace Program

/-! ### Counted executions -/

/-- A number of instructions leads from one machine to another. -/
inductive Steps (p : Program) : Nat → Machine → Machine → Prop
  | refl (m : Machine) : Steps p 0 m m
  | head {n : Nat} {m m₁ m' : Machine} :
      p.step m = (m₁, .running) → Steps p n m₁ m' → Steps p (n + 1) m m'

/-- There is no instruction left. -/
def Finished (p : Program) (m : Machine) : Prop := p.code[m.pc]? = none

variable {p : Program}

theorem Steps.trans {a b : Nat} {m₁ m₂ m₃ : Machine} (h : Steps p a m₁ m₂)
    (h' : Steps p b m₂ m₃) : Steps p (a + b) m₁ m₃ := by
  induction h with
  | refl => simpa using h'
  | head hs _ ih =>
    rw [Nat.add_right_comm]
    exact .head hs (ih h')

theorem Steps.single {m m' : Machine} (h : p.step m = (m', .running)) : Steps p 1 m m' :=
  .head h (.refl m')

/-- Only a program without a next instruction ends. -/
theorem finished_of_step_ended {m m' : Machine} (h : p.step m = (m', .ended)) :
    m' = m ∧ p.Finished m := by
  unfold step at h
  split at h
  · rename_i hnone
    cases h
    exact ⟨rfl, hnone⟩
  · -- an instruction goes on to another one, or it fails
    rename_i i _
    obtain ⟨tape, pointer, output, input, pc⟩ := m
    cases hs : i.symbol <;>
      simp only [Machine.exec, hs, Machine.changeCell, Machine.shift, Machine.write, Machine.read,
        Machine.branch] at h <;> grind

theorem step_of_finished {m : Machine} (h : p.Finished m) : p.step m = (m, .ended) := by
  unfold step
  rw [h]

theorem runFrom_of_steps {k : Nat} {m m' : Machine} (h : Steps p k m m') (n d : Nat) :
    p.runFrom (n + k) d m = p.runFrom n (d + k) m' := by
  induction h generalizing d with
  | refl => rfl
  | head hs _ ih =>
    rw [← Nat.add_assoc, runFrom, hs]
    show p.runFrom _ (d + 1) _ = _
    rw [ih, Nat.add_right_comm, Nat.add_assoc d]

theorem runFrom_of_finished {m : Machine} (h : p.Finished m) (n d : Nat) :
    p.runFrom n d m = (m, .ended, d) := by
  cases n with
  | zero =>
    have hle : p.code.size ≤ m.pc := Array.getElem?_eq_none_iff.mp h
    rw [runFrom, if_neg (by omega)]
  | succ n => rw [runFrom, step_of_finished h]

theorem steps_of_runFrom_ended {n d k : Nat} {m m' : Machine}
    (h : p.runFrom n d m = (m', .ended, k)) :
    ∃ j ≤ n, k = d + j ∧ Steps p j m m' ∧ p.Finished m' := by
  induction n generalizing d m with
  | zero =>
    rw [runFrom] at h
    split at h
    · cases h
    · rename_i hpc
      cases h
      exact ⟨0, Nat.le_refl 0, rfl, .refl _, Array.getElem?_eq_none_iff.mpr (by omega)⟩
  | succ n ih =>
    rw [runFrom] at h
    split at h
    · rename_i m₁ hs
      obtain ⟨j, hj, hk, hsteps, hfin⟩ := ih h
      exact ⟨j + 1, by omega, by omega, .head hs hsteps, hfin⟩
    · rename_i m₁ hs
      cases h
      obtain ⟨rfl, hfin⟩ := finished_of_step_ended hs
      exact ⟨0, Nat.zero_le _, rfl, .refl _, hfin⟩
    · cases h

/-- An execution ends by itself within `n` instructions if and only if some number of them, at most
`n`, leads to a machine with nothing left to execute. -/
theorem runFor_eq_ended_iff {n k : Nat} {m m' : Machine} :
    p.runFor n m = (m', .ended, k) ↔ k ≤ n ∧ Steps p k m m' ∧ p.Finished m' := by
  constructor
  · intro h
    obtain ⟨j, hj, hk, hsteps, hfin⟩ := steps_of_runFrom_ended h
    rw [Nat.zero_add] at hk
    subst hk
    exact ⟨hj, hsteps, hfin⟩
  · rintro ⟨hk, hsteps, hfin⟩
    obtain ⟨n, rfl⟩ := Nat.exists_eq_add_of_le' hk
    rw [runFor, runFrom_of_steps hsteps, runFrom_of_finished hfin, Nat.zero_add]

/-- An execution ends in one way only. -/
theorem Steps.unique {a b : Nat} {m m₁ m₂ : Machine} (h₁ : Steps p a m m₁)
    (h₂ : Steps p b m m₂) (f₁ : p.Finished m₁) (f₂ : p.Finished m₂) : a = b ∧ m₁ = m₂ := by
  have e₁ := runFor_eq_ended_iff.mpr ⟨Nat.le_max_left a b, h₁, f₁⟩
  have e₂ := runFor_eq_ended_iff.mpr ⟨Nat.le_max_right a b, h₂, f₂⟩
  rw [e₁] at e₂
  cases e₂
  exact ⟨rfl, rfl⟩

end Program

/-- A source is executed to its end if it compiles and its program ends. -/
theorem execute_eq_ok_iff {ε : Type} {source : Source ε} {p : Program}
    (hp : compile source = .ok p) {size : Nat} {input : List Int} {fuel k : Nat} {m : Machine} :
    execute size source input none fuel = ⟨m, .ok k⟩ ↔
      k ≤ fuel ∧ p.Steps k (.start size input) m ∧ p.Finished m := by
  rw [← Program.runFor_eq_ended_iff, execute, hp]
  simp only [allowance]
  rcases hr : p.runFor fuel (.start size input) with ⟨m', halt, k'⟩
  cases halt <;> simp [exhaustion]

/-- An execution with as much fuel as steps stops at the machine they lead to. -/
theorem machine_execute_of_steps {ε : Type} {source : Source ε} {p : Program}
    (hp : compile source = .ok p) {size : Nat} {input : List Int} {n : Nat} {m : Machine}
    (h : p.Steps n (.start size input) m) :
    (execute size source input none n).machine = m := by
  have hrun := Program.runFrom_of_steps h 0 0
  rw [Nat.zero_add, Program.runFrom] at hrun
  rw [execute, hp]
  simp only [allowance, Program.runFor, hrun]
  split <;> simp_all

/-! ### Nests in programs -/

theorem getElem?_middle {α : Type} {l before after : List α} {x : α} {n : Nat}
    (h : l = before ++ x :: after) (hn : before.length = n) : l[n]? = some x := by
  subst h hn
  simp

/-- The instructions and jumps of a nest lie in a program from index `k` on. -/
structure Located (p : Program) (t : Nest) (k : Nat) : Prop where
  code : ∃ before after, p.code.toList = before ++ (t.instructions ++ after) ∧ before.length = k
  jumps : ∃ before after, p.jumps.toList = before ++ (t.jumps k ++ after) ∧ before.length = k

/-- Behind its last instruction, the program of a nest is finished. -/
theorem finished_program {t : Nest} {m : Machine} (h : m.pc = t.size) : t.program.Finished m := by
  simp [Program.Finished, Nest.program, h]

theorem lt_size_of_step {t : Nest} {s : Store} {k : Nat} {m : Machine}
    (h : t.program.step (s.machineAt k) = (m, .running)) : k < t.size := by
  by_contra hk
  have hfin : t.program.Finished (s.machineAt k) := by
    simpa [Program.Finished, Store.machineAt, Nest.program] using hk
  rw [Program.step_of_finished hfin] at h
  cases h

namespace Located

variable {p : Program} {k : Nat}

theorem whole (t : Nest) : Located t.program t 0 :=
  ⟨⟨[], [], by simp [Nest.program], rfl⟩, ⟨[], [], by simp [Nest.program], rfl⟩⟩

theorem act {r : Run} {plain : r.symbol.isBracket = false} {rest : Nest}
    (h : Located p (.act r plain rest) k) :
    p.code[k]? = some ⟨r.symbol, r.count⟩ ∧ Located p rest (k + 1) := by
  obtain ⟨⟨a, b, hcode, rfl⟩, ⟨a', b', hjumps, ha'⟩⟩ := h
  refine ⟨?_, ⟨a ++ [⟨r.symbol, r.count⟩], b, ?_, by simp⟩, ⟨a' ++ [none], b', ?_, by simp [ha']⟩⟩
  · rw [← Array.getElem?_toList, hcode]
    simp [Nest.instructions]
  · rw [hcode]
    simp [Nest.instructions]
  · rw [hjumps]
    simp [Nest.jumps]

section

variable {enter leave : Token} {body rest : Nest} (h : Located p (.loop enter body leave rest) k)

include h

theorem code_open : p.code[k]? = some ⟨.loopOpen, 1⟩ := by
  obtain ⟨⟨a, b, hcode, rfl⟩, -⟩ := h
  rw [← Array.getElem?_toList, hcode]
  simp [Nest.instructions]

theorem code_close : p.code[k + 1 + body.size]? = some ⟨.loopClose, 1⟩ := by
  obtain ⟨⟨a, b, hcode, rfl⟩, -⟩ := h
  have hsplit : p.code.toList = (a ++ ⟨.loopOpen, 1⟩ :: body.instructions) ++
      ⟨.loopClose, 1⟩ :: (rest.instructions ++ b) := by
    rw [hcode]
    simp [Nest.instructions]
  rw [← Array.getElem?_toList]
  refine getElem?_middle hsplit ?_
  simp
  omega

theorem jump_open : p.jump? k = some (k + 1 + body.size) := by
  obtain ⟨-, ⟨a, b, hjumps, rfl⟩⟩ := h
  rw [Program.jump?, ← Array.getElem?_toList, hjumps]
  simp [Nest.jumps]

theorem jump_close : p.jump? (k + 1 + body.size) = some k := by
  obtain ⟨-, ⟨a, b, hjumps, rfl⟩⟩ := h
  have hsplit : p.jumps.toList = (a ++ some (a.length + 1 + body.size) ::
      body.jumps (a.length + 1)) ++
      some a.length :: (rest.jumps (a.length + 2 + body.size) ++ b) := by
    rw [hjumps]
    simp [Nest.jumps]
  rw [Program.jump?, ← Array.getElem?_toList, getElem?_middle hsplit]
  · rfl
  · simp
    omega

theorem inner : Located p body (k + 1) := by
  obtain ⟨⟨a, b, hcode, rfl⟩, ⟨a', b', hjumps, ha'⟩⟩ := h
  refine ⟨⟨a ++ [⟨.loopOpen, 1⟩], ⟨.loopClose, 1⟩ :: (rest.instructions ++ b), ?_, by simp⟩,
    ⟨a' ++ [some (a.length + 1 + body.size)],
      some a.length :: (rest.jumps (a.length + 2 + body.size) ++ b'), ?_, by simp [ha']⟩⟩
  · rw [hcode]
    simp [Nest.instructions]
  · rw [hjumps]
    simp [Nest.jumps]

theorem behind : Located p rest (k + 2 + body.size) := by
  obtain ⟨⟨a, b, hcode, rfl⟩, ⟨a', b', hjumps, ha'⟩⟩ := h
  refine ⟨⟨a ++ ⟨.loopOpen, 1⟩ :: (body.instructions ++ [⟨.loopClose, 1⟩]), b, ?_, ?_⟩,
    ⟨a' ++ some (a.length + 1 + body.size) :: (body.jumps (a.length + 1) ++ [some a.length]), b',
      ?_, ?_⟩⟩
  · rw [hcode]
    simp [Nest.instructions]
  · simp
    omega
  · rw [hjumps]
    simp [Nest.jumps]
  · simp [ha']
    omega

end

end Located

/-! ### What the next instruction of a nest does -/

/-- Where both brackets of a loop with index `k` lead to. -/
def Store.loopTarget (s : Store) (k : Nat) (body : Nest) : Nat :=
  if s.cell = 0 then k + 2 + body.size else k + 1

namespace Program

variable {p : Program} {size k : Nat} {s : Store} (hs : s.Fits size)

include hs

theorem step_act {r : Run} {plain : r.symbol.isBracket = false} {rest : Nest}
    (h : Located p (.act r plain rest) k) :
    p.step (s.machineAt k) =
      (((Store.act r.symbol)^[r.count] s).machineAt (k + 1), .running) := by
  unfold step
  rw [show (s.machineAt k).pc = k from rfl, h.act.1]
  exact Machine.exec_eq_iterate hs k _ plain

variable {enter leave : Token} {body rest : Nest}

theorem step_open (h : Located p (.loop enter body leave rest) k) :
    p.step (s.machineAt k) = (s.machineAt (s.loopTarget k body), .running) := by
  unfold step
  rw [show (s.machineAt k).pc = k from rfl, h.code_open, h.jump_open]
  show (s.machineAt k).exec ⟨.loopOpen, 1⟩ (k + 1 + body.size) = _
  rw [Machine.exec_loopOpen hs, Store.loopTarget]
  split
  · rw [show k + 1 + body.size + 1 = k + 2 + body.size by omega]
  · rfl

theorem step_close (h : Located p (.loop enter body leave rest) k) :
    p.step (s.machineAt (k + 1 + body.size)) = (s.machineAt (s.loopTarget k body), .running) := by
  unfold step
  rw [show (s.machineAt (k + 1 + body.size)).pc = k + 1 + body.size from rfl, h.code_close,
    h.jump_close]
  show (s.machineAt (k + 1 + body.size)).exec ⟨.loopClose, 1⟩ k = _
  rw [Machine.exec_loopClose hs, Store.loopTarget]
  split
  · rw [show k + 1 + body.size + 1 = k + 2 + body.size by omega]
  · rfl

end Program

end TapeLang
