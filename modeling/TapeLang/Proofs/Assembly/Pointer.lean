import TapeLang.Proofs.Assembly.Block
import TapeLang.Proofs.Tracking

/-!
What the cursor knows of the running program.

A cursor is sound for a pointer if it is uncertain or stands where the pointer stands.  Outside of
loops a run keeps the cursor sound (`Sound.runCursor`), and inside of loops the cursor is not asked:
every move is corrected there.  So the code of every run without a bracket does what the run does,
whether or not it corrects its moves (`implements_run`).
-/

namespace TapeLang.Assembly

open Function

variable {h : Host} {lines : List Line} {size : Nat} {s : Store} {p : Nat}

/-- The cursor does not claim a wrong pointer. -/
def Sound (c : Cursor) (p : Nat) : Prop := c.certain = true → c.offset = p

/-! ### The cursor's arithmetic -/

theorem step_moveOf {c : Cursor} (hc : c.size = size) (d : Direction) (n : Nat) :
    (c.moveOf d n).step = (n % size : Nat) := by
  have hsize : 0 ≤ c.size := by omega
  rw [Cursor.step_moveOf hsize, hc, Int.natCast_emod]

/-- A move that is not said to wrap is short, if the cursor stands at the pointer. -/
theorem short_of_wraps {c : Cursor} (hc : c.size = size) (hoffset : c.offset = p) {d : Direction}
    {n : Nat} (hw : (c.moveOf d n).wraps = false) : Short size p (n % size) d := by
  have hsize : 0 ≤ c.size := by omega
  rw [← Bool.not_eq_true] at hw
  cases d with
  | right =>
    rw [Cursor.wraps_moveOf_right hsize, hc, hoffset] at hw
    rw [Short]
    omega
  | left =>
    rw [Cursor.wraps_moveOf_left hsize, hc, hoffset] at hw
    rw [Short]
    omega

/-- To reduce the count first makes no difference to the cell that it leads to. -/
theorem landing_right (size p n : Nat) :
    (landing size p (n % size) .right : Int) = ((p : Int) + n) % size := by
  rw [landing, Nat.add_mod_mod, Int.natCast_emod, Int.natCast_add]

theorem landing_left (hp : p < size) (n : Nat) :
    (landing size p (n % size) .left : Int) = ((p : Int) - n) % size := by
  have hlt : n % size < size := Nat.mod_lt _ (Nat.zero_lt_of_lt hp)
  have hsub : ((p + (size - n % size) : Nat) : Int) = p - (n : Int) % size + size := by
    omega
  rw [landing, Int.natCast_emod, hsub, Int.add_emod_right, Int.sub_emod_emod]

/-- A cursor that stands at the pointer moves as the pointer does. -/
theorem after_moveOf {c : Cursor} (hc : c.size = size) (hoffset : c.offset = p) (hp : p < size)
    (d : Direction) (n : Nat) : (c.moveOf d n).after = landing size p (n % size) d := by
  have hsize : 0 ≤ c.size := by omega
  cases d with
  | right => rw [Cursor.after_moveOf_right hsize, hc, hoffset, landing_right]
  | left => rw [Cursor.after_moveOf_left hsize, hc, hoffset, landing_left hp]

/-! ### Runs and the pointer -/

theorem symbol_eq_moveSymbol {a : Symbol} {d : Direction} (ha : a.direction? = some d) :
    a = moveSymbol d := by
  cases a <;> cases ha <;> rfl

theorem pointer_act_of_still {a : Symbol} (ha : a.direction? = none) (s : Store) :
    (s.act a).pointer = s.pointer := by
  cases a with
  | moveRight => cases ha
  | moveLeft => cases ha
  | read => cases hin : s.input <;> simp [Store.act, hin, Store.change]
  | _ => rfl

theorem pointer_iterate_of_still {a : Symbol} (ha : a.direction? = none) (s : Store) (n : Nat) :
    ((Store.act a)^[n] s).pointer = s.pointer := by
  induction n with
  | zero => rfl
  | succ n ih => rw [iterate_succ_apply', pointer_act_of_still ha, ih]

/-- Outside of loops, the cursor follows the pointer. -/
theorem Sound.runCursor {c : Cursor} (hc : c.size = size) (hs : s.Fits size)
    (hsound : Sound c s.pointer) (r : Run) :
    Sound (runCursor false c r) ((Store.act r.symbol)^[r.count] s).pointer := by
  intro hcertain
  unfold Assembly.runCursor at hcertain ⊢
  cases hd : r.symbol.direction? with
  | none =>
    rw [hd] at hcertain
    rw [pointer_iterate_of_still hd]
    exact hsound hcertain
  | some d =>
    rw [hd] at hcertain
    rw [symbol_eq_moveSymbol hd, iterate_move hs]
    exact after_moveOf hc (hsound hcertain) hs.pointer d r.count

/-! ### The code of runs -/

/-- A move is implemented, with a correction or without one. -/
theorem implements_runMove (hsize : size ≤ 2 ^ 32) {c : Cursor} (hc : c.size = size)
    (hs : s.Fits size) {inLoop : Bool} (hsound : inLoop = false → Sound c s.pointer)
    (d : Direction) (n : Nat) :
    Implements h lines size (runMoveCode size inLoop c d n) s
      ((Store.act (moveSymbol d))^[n] s) := by
  have hheld : (heldCursor inLoop c).size = size := by
    unfold heldCursor
    split
    · exact hc
    · exact hc
  have hlt : n % size < size := Nat.mod_lt _ (Nat.zero_lt_of_lt hs.pointer)
  rw [iterate_move hs, runMoveCode, moveCode, step_moveOf hheld]
  split
  · rename_i hzero
    have hland : landing size s.pointer (n % size) d = s.pointer := by
      rw [Int.natCast_eq_zero.mp hzero]
      cases d <;> simp [landing, Nat.mod_eq_of_lt hs.pointer]
    rw [hland]
    exact .nil s
  · split
    · exact implements_corrected hsize hlt d
    · rename_i hbare
      simp only [Bool.or_eq_true, not_or, Bool.not_eq_true, Bool.not_eq_false'] at hbare
      obtain ⟨hwraps, hcertain⟩ := hbare
      -- a certain cursor is not that of a loop, so it may be trusted
      have houtside : inLoop = false := by
        cases inLoop with
        | false => rfl
        | true => cases hcertain
      subst houtside
      rw [List.append_nil]
      exact implements_bare hsize hlt (short_of_wraps hheld (hsound rfl hcertain) hwraps)

/-- The code of a run that is no bracket does what the run does. -/
theorem implements_run (hsize : size ≤ 2 ^ 32) {c : Cursor} (hc : c.size = size)
    (hs : s.Fits size) {inLoop : Bool} (hsound : inLoop = false → Sound c s.pointer) {r : Run}
    (plain : r.symbol.isBracket = false) :
    Implements h lines size (runCode size inLoop c r) s ((Store.act r.symbol)^[r.count] s) := by
  unfold runCode
  cases hr : r.symbol with
  | increment => exact implements_increment hsize r.count s
  | decrement => exact implements_decrement hsize r.count s
  | moveRight => exact implements_runMove hsize hc hs hsound .right r.count
  | moveLeft => exact implements_runMove hsize hc hs hsound .left r.count
  | read => exact implements_read hsize hs r.count
  | write => exact implements_write hs r.count
  | loopOpen =>
    rw [hr] at plain
    cases plain
  | loopClose =>
    rw [hr] at plain
    cases plain

end TapeLang.Assembly
