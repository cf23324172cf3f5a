import Mathlib.Algebra.Ring.Int.Defs
import Mathlib.Data.List.Induction
import TapeLang.Cursor

/-!
Where a cursor gets to by any sequence of moves.

A cursor may be asked for moves by any counts, negative ones among them and ones that lead around
the ring many times.  On a ring with a cell it always has an answer, and stays on the ring
(`Cursor.OnRing`).  Two reductions make up a move: that of the count to a step, and that of the sum
of place and step to the place behind the move.  The step is shorter than the ring, so the sum is
off the ring by less than one turn, and the second reduction is to take one turn off or to add one,
where the move says that it wraps (`Move.Exact`, `Cursor.exact_moveOf`).  Over many moves the
reductions come to one: the place is the sum of all counts, reduced once
(`Cursor.movedBy_concat`).

Main statement: `Cursor.asked_moves_exact`, both of this for every call after every sequence of
calls.
-/

namespace TapeLang

/-! ### One move -/

/-- Where a move would end on a tape that goes on at both ends. -/
def Move.reach (m : Move) : Direction → Int
  | .right => m.before + m.step
  | .left => m.before - m.step

/-- Where a move ends if it is corrected by one turn, provided that it says to wrap. -/
def Move.corrected (m : Move) (size : Int) : Direction → Int
  | .right => m.before + m.step - if m.wraps then size else 0
  | .left => m.before - m.step + if m.wraps then size else 0

/-- A move by some count on a ring: its step is the count, as far as this is not whole turns, and
one correction brings it to its end, where and only where it would end off the ring. -/
structure Move.Exact (size : Int) (d : Direction) (count : Int) (m : Move) : Prop where
  step_eq : m.step = count % size
  step_nonneg : 0 ≤ m.step
  step_lt : m.step < size
  after_eq : m.after = m.corrected size d
  wraps_iff : m.wraps = true ↔ ¬ (0 ≤ m.reach d ∧ m.reach d < size)

namespace Cursor

/-- The cursor stands on a cell of its ring. -/
structure OnRing (c : Cursor) : Prop where
  nonneg : 0 ≤ c.offset
  lt_size : c.offset < c.size

variable {c : Cursor}

theorem OnRing.size_pos (hc : c.OnRing) : 0 < c.size := Int.lt_of_le_of_lt hc.nonneg hc.lt_size

@[simp] theorem before_moveOf (c : Cursor) (d : Direction) (count : Int) :
    (c.moveOf d count).before = c.offset := by
  cases d <;> rfl

section Reduction

variable (hsize : 0 ≤ c.size)

include hsize

theorem step_moveOf (d : Direction) (count : Int) :
    (c.moveOf d count).step = count % c.size := by
  rw [← Int.fmod_eq_emod_of_nonneg count hsize]
  cases d <;> rfl

/-- To reduce the count before the sum makes no difference. -/
theorem after_moveOf_right (count : Int) :
    (c.moveOf .right count).after = (c.offset + count) % c.size := by
  simp only [moveOf, Int.fmod_eq_emod_of_nonneg _ hsize, Int.add_emod_emod]

theorem after_moveOf_left (count : Int) :
    (c.moveOf .left count).after = (c.offset - count) % c.size := by
  simp only [moveOf, Int.fmod_eq_emod_of_nonneg _ hsize, Int.sub_emod_emod]

theorem wraps_moveOf_right (count : Int) :
    (c.moveOf .right count).wraps = true ↔ c.size ≤ c.offset + count % c.size := by
  simp only [moveOf, Int.fmod_eq_emod_of_nonneg _ hsize, decide_eq_true_eq]

theorem wraps_moveOf_left (count : Int) :
    (c.moveOf .left count).wraps = true ↔ c.offset - count % c.size < 0 := by
  simp only [moveOf, Int.fmod_eq_emod_of_nonneg _ hsize, decide_eq_true_eq]

end Reduction

/-- Less than one turn beyond the last cell, one turn is taken off. -/
theorem emod_of_beyond {size x : Int} (hnonneg : 0 ≤ x) (hlt : x < size + size) :
    x % size = x - if size ≤ x then size else 0 := by
  split
  · rw [← Int.sub_emod_right, Int.emod_eq_of_lt (by omega) (by omega)]
  · rw [Int.sub_zero, Int.emod_eq_of_lt hnonneg (by omega)]

/-- Less than one turn in front of the first cell, one turn is added. -/
theorem emod_of_short {size x : Int} (hge : -size ≤ x) (hlt : x < size) :
    x % size = x + if x < 0 then size else 0 := by
  split
  · rw [← Int.add_emod_right, Int.emod_eq_of_lt (by omega) (by omega)]
  · rw [Int.add_zero, Int.emod_eq_of_lt (by omega) hlt]

/-- On a ring, every move is exact. -/
theorem exact_moveOf (hc : c.OnRing) (d : Direction) (count : Int) :
    (c.moveOf d count).Exact c.size d count := by
  have hsize : 0 ≤ c.size := Int.le_of_lt hc.size_pos
  have hstep := step_moveOf hsize d count
  have hnonneg : 0 ≤ count % c.size := Int.emod_nonneg count (Int.ne_of_gt hc.size_pos)
  have hlt : count % c.size < c.size := Int.emod_lt_of_pos count hc.size_pos
  have hfirst := hc.nonneg
  have hlast := hc.lt_size
  -- the place is on the ring and the step is shorter, so their sum is off by less than one turn
  refine ⟨hstep, by omega, by omega, ?_, ?_⟩
  · cases d with
    | right =>
      rw [after_moveOf_right hsize, Move.corrected, before_moveOf, hstep, ← Int.add_emod_emod,
        emod_of_beyond (by omega) (by omega)]
      simp only [wraps_moveOf_right hsize]
    | left =>
      rw [after_moveOf_left hsize, Move.corrected, before_moveOf, hstep, ← Int.sub_emod_emod,
        emod_of_short (by omega) (by omega)]
      simp only [wraps_moveOf_left hsize]
  · cases d with
    | right =>
      rw [wraps_moveOf_right hsize, Move.reach, before_moveOf, hstep]
      omega
    | left =>
      rw [wraps_moveOf_left hsize, Move.reach, before_moveOf, hstep]
      omega

/-! ### Many moves -/

/-- What a cursor is asked for: a move in a direction, by any count. -/
structure Request where
  direction : Direction
  count : Int
  deriving DecidableEq, Repr

/-- The cursor after some requests, made one after the other, if each of them got a move. -/
def after? (c : Cursor) (requests : List Request) : Option Cursor :=
  requests.foldlM (fun c r => (c.move? r.direction r.count).map Prod.snd) c

/-- The sum of the counts of the requests for one direction. -/
def total (d : Direction) (requests : List Request) : Int :=
  ((requests.filter fun r => r.direction = d).map Request.count).sum

/-- The cursor that stands away from this one by all counts to the right less all to the left. -/
def movedBy (c : Cursor) (requests : List Request) : Cursor :=
  { c with offset := (c.offset + total .right requests - total .left requests) % c.size }

theorem total_concat (d : Direction) (requests : List Request) (r : Request) :
    total d (requests ++ [r]) = total d requests + if r.direction = d then r.count else 0 := by
  rw [total, List.filter_append, List.map_append, List.sum_append, ← total]
  by_cases hr : r.direction = d <;> simp [hr]

theorem OnRing.movedBy_nil (hc : c.OnRing) : c.movedBy [] = c := by
  have hstays : c.offset % c.size = c.offset := Int.emod_eq_of_lt hc.nonneg hc.lt_size
  simp [movedBy, total, hstays]

theorem OnRing.movedBy (hc : c.OnRing) (requests : List Request) : (c.movedBy requests).OnRing where
  nonneg := Int.emod_nonneg _ (Int.ne_of_gt hc.size_pos)
  lt_size := Int.emod_lt_of_pos _ hc.size_pos

/-- One request more: the cursor reduces a place that it reduced before, and this comes to reducing
the sum of all counts. -/
theorem movedBy_concat (hc : c.OnRing) (requests : List Request) (r : Request) :
    c.movedBy (requests ++ [r]) =
      { c with offset := ((c.movedBy requests).moveOf r.direction r.count).after } := by
  have hsize : 0 ≤ (c.movedBy requests).size := Int.le_of_lt hc.size_pos
  obtain ⟨d, count⟩ := r
  cases d with
  | right =>
    rw [after_moveOf_right hsize]
    simp only [Cursor.movedBy, total_concat, reduceCtorEq, ↓reduceIte, Int.add_zero,
      Int.emod_add_emod]
    congr 2
    omega
  | left =>
    rw [after_moveOf_left hsize]
    simp only [Cursor.movedBy, total_concat, reduceCtorEq, ↓reduceIte, Int.add_zero,
      Int.emod_sub_emod]
    congr 2
    omega

/-- A request takes the cursor from where the requests before it led to where they lead with it. -/
theorem move?_movedBy (hc : c.OnRing) (requests : List Request) (r : Request) :
    (c.movedBy requests).move? r.direction r.count =
      some ((c.movedBy requests).moveOf r.direction r.count, c.movedBy (requests ++ [r])) := by
  rw [movedBy_concat hc]
  exact if_neg (Int.ne_of_gt hc.size_pos)

/-- On a ring every request is granted. -/
theorem after?_eq_movedBy (hc : c.OnRing) (requests : List Request) :
    c.after? requests = some (c.movedBy requests) := by
  induction requests using List.reverseRecOn with
  | nil => exact congrArg some hc.movedBy_nil.symm
  | append_singleton requests r ih =>
    have hsplit : c.after? (requests ++ [r]) =
        (c.after? requests).bind fun c' => c'.after? [r] := List.foldlM_append
    rw [hsplit, ih, Option.bind_some]
    simp [after?, move?_movedBy hc]

/-- **Tracking**: a cursor on a ring that was asked for any moves, by any counts, stands on the ring,
where all counts together lead to; and whatever it is asked for next, the move it tells leads from
there to where the counts lead with this one, by a step shorter than the ring and at most one
correction, made if and only if the step leads off the ring. -/
theorem asked_moves_exact (hc : c.OnRing) (requests : List Request) :
    ∃ c', c.after? requests = some c' ∧ c'.size = c.size ∧ c'.certain = c.certain ∧
      0 ≤ c'.offset ∧ c'.offset < c.size ∧
      c'.offset = (c.offset + total .right requests - total .left requests) % c.size ∧
      ∀ d count, ∃ m c'', c'.move? d count = some (m, c'') ∧
        c.after? (requests ++ [⟨d, count⟩]) = some c'' ∧
        m.before = c'.offset ∧ m.after = c''.offset ∧ m.Exact c.size d count := by
  have hring := hc.movedBy requests
  refine ⟨c.movedBy requests, after?_eq_movedBy hc requests, rfl, rfl, hring.nonneg, hring.lt_size,
    rfl, ?_⟩
  intro d count
  have hmove := move?_movedBy hc requests ⟨d, count⟩
  have hafter := after?_eq_movedBy hc (requests ++ [⟨d, count⟩])
  have hend : ((c.movedBy requests).moveOf d count).after =
      (c.movedBy (requests ++ [⟨d, count⟩])).offset := by
    rw [movedBy_concat hc]
  exact ⟨_, _, hmove, hafter, before_moveOf .., hend, exact_moveOf hring d count⟩

/-- A cursor on cell 3 of five, asked for more than two turns, for a negative count, for almost five
turns and for nothing at all. -/
theorem asked_moves_exact_turns :
    (⟨5, 3, true⟩ : Cursor).OnRing ∧
    ∃ c' m c'', after? ⟨5, 3, true⟩ [⟨.right, 13⟩, ⟨.left, -7⟩, ⟨.left, 24⟩, ⟨.right, 0⟩] =
      some c' ∧ c'.offset = 4 ∧ c'.move? .right (-1) = some (m, c'') ∧
      m.step = 4 ∧ m.wraps = true ∧ m.before = 4 ∧ m.after = 3 ∧ c''.offset = 3 := by
  have hring : (⟨5, 3, true⟩ : Cursor).OnRing := ⟨by decide, by decide⟩
  obtain ⟨c', hafter, -, -, -, -, hoffset, hnext⟩ :=
    asked_moves_exact hring [⟨.right, 13⟩, ⟨.left, -7⟩, ⟨.left, 24⟩, ⟨.right, 0⟩]
  obtain ⟨m, c'', hmove, -, hbefore, hplace, hexact⟩ := hnext .right (-1)
  have hstands : c'.offset = 4 := hoffset.trans (by decide)
  have hstep : m.step = 4 := hexact.step_eq.trans (by decide)
  have hwraps : m.wraps = true := by
    rw [hexact.wraps_iff, Move.reach, hbefore, hstands, hstep]
    decide
  have hend : m.after = 3 := by
    rw [hexact.after_eq, Move.corrected, hbefore, hstands, hstep, hwraps]
    decide
  exact ⟨hring, c', m, c'', hafter, hstands, hmove, hstep, hwraps, hbefore.trans hstands, hend,
    hplace.symm.trans hend⟩

end Cursor

end TapeLang
