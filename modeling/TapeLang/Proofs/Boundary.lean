import TapeLang.Proofs.Matching
import TapeLang.Proofs.Observation

/-!
The current cell at the edges of loops.

Behind a bracket control arrives from two sides: from the bracket itself, and in a jump from its
partner.  Either way it has just looked at the current cell, and `Machine.AtEdge` holds: behind an
opening bracket the cell is not zero, and behind a closing one it is zero.  This depends on the last
step only, whatever machine that step was made from (`Machine.Effect.atEdge`).

Loops are entered and left by their edges alone.  A step goes on behind an instruction or behind the
partner of a bracket, and the partner lies in a loop if the bracket does, unless the two are the
brackets of the loop (`Partners.beside`).  So no jump leads into a loop or out of it
(`Onward.enters`, `Onward.leaves`).

Main statement: `loops_cross_at_edges`, in every execution a loop is entered at its beginning with a
cell that is not zero, and left behind its end with a cell that is.
-/

namespace TapeLang

/-! ### Where a step leads -/

/-- From one instruction of a list control goes on to another: the next one, or the one behind the
partner of a bracket. -/
inductive Onward (l : List Symbol) (i : Nat) : Nat → Prop
  | next : Onward l i (i + 1)
  | jump {j : Nat} : Partners l i j → Onward l i (j + 1)

/-- Control stands in a loop: behind the bracket that opens it, and not yet behind the one that
closes it. -/
def InLoop (i j pc : Nat) : Prop := i < pc ∧ pc ≤ j

/-- A bracket and its partner lie on the same side of the edges of a loop, unless they are its
brackets. -/
theorem Partners.beside {l : List Symbol} {i j a b : Nat} (h : Partners l a b)
    (hloop : Encloses l i j) :
    (a = i ∧ b = j) ∨ (a = j ∧ b = i) ∨ ((i < a ∧ a < j) ∧ (i < b ∧ b < j)) ∨
      ((a < i ∨ j < a) ∧ (b < i ∨ j < b)) := by
  have hlt := hloop.lt
  rcases h with h | h
  · have hlaminar := hloop.laminar h
    have hlt' := h.lt
    omega
  · have hlaminar := hloop.laminar h
    have hlt' := h.lt
    omega

namespace Onward

variable {l : List Symbol} {i j pc pc' : Nat} (h : Onward l pc pc') (hloop : Encloses l i j)

include h hloop

/-- A loop is entered at its beginning. -/
theorem enters (hout : ¬ InLoop i j pc) (hin : InLoop i j pc') : pc' = i + 1 := by
  unfold InLoop at hout hin
  cases h with
  | next => omega
  | jump hpartners =>
    have hbeside := hpartners.beside hloop
    omega

/-- A loop is left behind its end. -/
theorem leaves (hin : InLoop i j pc) (hout : ¬ InLoop i j pc') : pc' = j + 1 := by
  unfold InLoop at hout hin
  cases h with
  | next => omega
  | jump hpartners =>
    have hlt := hloop.lt
    have hbeside := hpartners.beside hloop
    omega

end Onward

/-! ### What holds behind a bracket -/

/-- The current cell is as the bracket in front of the next instruction demands, if there is one. -/
structure Machine.AtEdge (p : Program) (m : Machine) : Prop where
  opened : ∀ k, m.pc = k + 1 → p.symbols[k]? = some .loopOpen →
    ∃ v, m.tape[m.pointer]? = some v ∧ v ≠ 0
  closed : ∀ k, m.pc = k + 1 → p.symbols[k]? = some .loopClose →
    m.tape[m.pointer]? = some 0

theorem Store.Fits.getElem?_pointer {size : Nat} {s : Store} (h : s.Fits size) :
    s.tape[s.pointer]? = some s.cell := by
  have hlt : s.pointer < s.tape.size := by
    rw [h.cells]
    exact h.pointer
  rw [Array.getElem?_eq_getElem hlt, Store.cell, Array.getD_eq_getD_getElem?,
    Array.getElem?_eq_getElem hlt, Option.getD_some]

theorem Program.symbols_getElem? {p : Program} {k n : Nat} {a : Symbol}
    (h : p.code[k]? = some ⟨a, n⟩) : p.symbols[k]? = some a := by
  rw [symbols, List.getElem?_map, Array.getElem?_toList, h]
  rfl

/-- A machine of a store whose cell is as the instruction in front of its place demands. -/
theorem atEdge_machineAt {p : Program} {size : Nat} {s : Store} (hs : s.Fits size) {k : Nat}
    {a : Symbol} (ha : p.symbols[k]? = some a) (hopen : a = .loopOpen → s.cell ≠ 0)
    (hclose : a = .loopClose → s.cell = 0) : (s.machineAt (k + 1)).AtEdge p where
  opened := by
    rintro k' ⟨⟩ hk
    rw [ha, Option.some.injEq] at hk
    exact ⟨s.cell, hs.getElem?_pointer, hopen hk⟩
  closed := by
    rintro k' ⟨⟩ hk
    rw [ha, Option.some.injEq] at hk
    rw [← hclose hk]
    exact hs.getElem?_pointer

section

variable {ε : Type} {source : Source ε} {p : Program} (hp : compile source = .ok p)

include hp

theorem partners_of_compile {i j : Nat} (h : p.jump? i = some j) : Partners p.symbols i j := by
  obtain ⟨t, rfl, -⟩ := exists_program_nest hp
  exact Nest.partners_of_jump? h

variable {size : Nat} {m m' : Machine}

theorem Machine.Effect.onward (h : Machine.Effect p m m') : Onward p.symbols m.pc m'.pc := by
  cases h with
  | act _ _ => exact .next
  | enter _ _ => exact .next
  | skip _ hjump _ _ => exact .jump (partners_of_compile hp hjump)
  | leave _ _ => exact .next
  | again _ hjump _ _ => exact .jump (partners_of_compile hp hjump)

/-- A step leads to an edge, from wherever it was made. -/
theorem Machine.Effect.atEdge (hm : m.Sound p size) (h : Machine.Effect p m m') :
    m'.AtEdge p := by
  cases h with
  | @act a n hi hb =>
    refine atEdge_machineAt (hm.fits.iterate a n) (Program.symbols_getElem? hi) ?_ ?_
    · rintro rfl
      cases hb
    · rintro rfl
      cases hb
  | enter hi hcell =>
    exact atEdge_machineAt hm.fits (Program.symbols_getElem? hi) (fun _ => hcell) nofun
  | skip hi hjump _ hcell =>
    have hloop := (partners_of_compile hp hjump).encloses_of_open (Program.symbols_getElem? hi)
    exact atEdge_machineAt hm.fits hloop.closes nofun fun _ => hcell
  | leave hi hcell =>
    exact atEdge_machineAt hm.fits (Program.symbols_getElem? hi) nofun fun _ => hcell
  | again hi hjump _ hcell =>
    have hloop := (partners_of_compile hp hjump).encloses_of_close (Program.symbols_getElem? hi)
    exact atEdge_machineAt hm.fits hloop.opens (fun _ => hcell) nofun

theorem Machine.AtEdge.steps {n : Nat} (hsteps : p.Steps n m m') (hm : m.Sound p size)
    (h : m.AtEdge p) : m'.AtEdge p := by
  have hlinked := linked_of_compile hp
  induction hsteps with
  | refl => exact h
  | head hs _ ih =>
    have heffect := hm.effect hs
    exact ih (heffect.sound hlinked hm) (heffect.atEdge hp hm)

variable (hsize : 0 < size) (input : List Int)

include hsize

theorem atEdge_of_steps {n : Nat} (h : p.Steps n (.start size input) m) : m.AtEdge p := by
  apply Machine.AtEdge.steps hp h (Machine.sound_start (linked_of_compile hp) hsize input)
  -- there is no instruction in front of the first one
  constructor
  · intro k hk
    cases hk
  · intro k hk
    cases hk

/-- **Edges of loops**: whatever a program of a source has executed on a tape with a cell, behind
an opening bracket the current cell is not zero and behind a closing one it is.  So each of its
loops is entered at the beginning, with a cell that is not zero, and left behind the end, with one
that is. -/
theorem loops_cross_at_edges :
    (∀ n m, p.Steps n (.start size input) m → m.AtEdge p) ∧
    (∀ budget fuel, (execute size source input budget fuel).machine.AtEdge p ∧
      ∀ before take, before.tape.size = size → take ≠ some 0 →
        (observe before source input budget take fuel).machine.AtEdge p) ∧
    ∀ i j, Encloses p.symbols i j → ∀ n m m', p.Steps n (.start size input) m →
      p.step m = (m', .running) →
      (¬ InLoop i j m.pc → InLoop i j m'.pc →
        m'.pc = i + 1 ∧ ∃ v, m'.tape[m'.pointer]? = some v ∧ v ≠ 0) ∧
      (InLoop i j m.pc → ¬ InLoop i j m'.pc →
        m'.pc = j + 1 ∧ m'.tape[m'.pointer]? = some 0) := by
  have hedge : ∀ n m, p.Steps n (.start size input) m → m.AtEdge p :=
    fun _ _ => atEdge_of_steps hp hsize input
  refine ⟨hedge, ?_, ?_⟩
  · intro budget fuel
    obtain ⟨n, hsteps⟩ := (orderly_execute hsize source input budget fuel).machine p hp
    refine ⟨hedge n _ hsteps, ?_⟩
    intro before take hbefore htake
    obtain ⟨n, hsteps⟩ :=
      (orderly_observe hbefore hsize source input budget take fuel).machine htake p hp
    exact hedge n _ hsteps
  · intro i j hloop n m m' hsteps hstep
    have hlinked := linked_of_compile hp
    have hsound := (Machine.sound_start hlinked hsize input).steps hlinked hsteps
    have honward := (hsound.effect hstep).onward hp
    have hedge' : m'.AtEdge p := hedge _ _ (hsteps.trans (.single hstep))
    constructor
    · intro hout hin
      have hpc := honward.enters hloop hout hin
      exact ⟨hpc, hedge'.opened i hpc hloop.opens⟩
    · intro hin hout
      have hpc := honward.leaves hloop hin hout
      exact ⟨hpc, hedge'.closed j hpc hloop.closes⟩

end

/-- A loop that clears the cell, in a loop that reads the next item. -/
def nestedClearing : Source Empty := .ofString ",[[-],]"

/-- Of the item 2 the inner loop has taken one, and jumps back behind its opening bracket. -/
theorem loops_cross_at_edges_nestedClearing :
    ∃ p, compile nestedClearing = .ok p ∧
      (observe (.start 1 []) nestedClearing [2] none (some 5) 9).machine.AtEdge p ∧
      (observe (.start 1 []) nestedClearing [2] none (some 5) 9).machine.pc = 3 ∧
      (observe (.start 1 []) nestedClearing [2] none (some 5) 9).machine.tape = #[1] := by
  obtain ⟨p, hp⟩ : ∃ p, compile nestedClearing = .ok p := ⟨_, rfl⟩
  refine ⟨p, hp, ?_, by decide +kernel, by decide +kernel⟩
  exact ((loops_cross_at_edges hp Nat.one_pos [2]).2.1 none 9).2 _ (some 5) rfl (by decide)

end TapeLang
