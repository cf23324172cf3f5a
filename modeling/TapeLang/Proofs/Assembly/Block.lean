import TapeLang.Proofs.Assembly.Progress
import TapeLang.Proofs.Store

/-!
What the code of each construct does to the store.

A processor mirrors a store if its pointer, its tape, its input and its output are those of the
store.  `Implements` says of some lines that, wherever they lie in a listing, they take a processor
that mirrors one store to the end of the lines and to another store.  There is one such statement
for each construct without a bracket; the code of the brackets, of the prologue and of the epilogue
comes with the place it leads to.

A move is correct in two ways: with a correction from wherever the pointer stands, and without one
if the step does not lead over the end of the tape.
-/

namespace TapeLang.Assembly

open Function

/-- Bytes as input items. -/
def itemsOf (bytes : List UInt8) : List Int := bytes.map fun b => (b.toNat : Int)

/-- The processor has the store in its registers, its memory and its streams. -/
structure Mirrors (h : Host) (size : Nat) (s : Store) (c : Cpu) : Prop where
  fits : s.Fits size
  running : c.status = .running
  base : c.regs .r10 = h.base
  pointer : (c.regs .r9).toNat = s.pointer
  cells : ∀ i < size, c.memory (h.base + BitVec.ofNat 64 i) = s.tape.getD i 0
  input : s.input = itemsOf c.input
  output : c.output = s.output.toList

/-- The lines take one store to another, wherever they lie. -/
def Implements (h : Host) (lines : List Line) (size : Nat) (block : List Line) (s s' : Store) :
    Prop :=
  ∀ c, At lines c.pc block → Mirrors h size s c →
    ∃ c', Advances h (loaded lines size) size (instrs block).length c c' ∧
      Mirrors h size s' c' ∧ c'.pc = c.pc + (instrs block).length

variable {h : Host} {lines : List Line} {size : Nat} {s s' : Store} {c : Cpu}

namespace Mirrors

theorem inside (hm : Mirrors h size s c) : c.Inside h size :=
  ⟨hm.pointer ▸ hm.fits.pointer, hm.base⟩

/-- The address of the current cell. -/
theorem address (hm : Mirrors h size s c) :
    c.regs .r10 + c.regs .r9 = h.base + BitVec.ofNat 64 s.pointer := by
  rw [hm.base, ← hm.pointer, BitVec.ofNat_toNat, BitVec.setWidth_eq]

theorem cell (hm : Mirrors h size s c) : c.memory (c.regs .r10 + c.regs .r9) = s.cell := by
  rw [hm.address, hm.cells _ hm.fits.pointer]
  rfl

/-- A store is mirrored by every running processor that agrees on its parts. -/
theorem congr (hm : Mirrors h size s c) {c' : Cpu} (hstatus : c'.status = c.status)
    (hbase : c'.regs .r10 = c.regs .r10) (hpointer : c'.regs .r9 = c.regs .r9)
    (hmemory : c'.memory = c.memory) (hinput : c'.input = c.input)
    (houtput : c'.output = c.output) : Mirrors h size s c' :=
  ⟨hm.fits, hstatus.trans hm.running, hbase.trans hm.base, hpointer ▸ hm.pointer,
    hmemory ▸ hm.cells, hinput ▸ hm.input, houtput ▸ hm.output⟩

/-- Distinct cells have distinct addresses. -/
theorem address_inj (hsize : size ≤ 2 ^ 32) {i j : Nat} (hi : i < size) (hj : j < size)
    (he : h.base + BitVec.ofNat 64 i = h.base + BitVec.ofNat 64 j) : i = j := by
  have hij : BitVec.ofNat 64 i = BitVec.ofNat 64 j := by
    simpa using he
  have hnat := congrArg BitVec.toNat hij
  rw [BitVec.toNat_ofNat, BitVec.toNat_ofNat, Nat.mod_eq_of_lt (by omega),
    Nat.mod_eq_of_lt (by omega)] at hnat
  exact hnat

/-- Writing the current cell changes no other cell. -/
theorem change (hsize : size ≤ 2 ^ 32) (hm : Mirrors h size s c) (f : UInt8 → UInt8) :
    Mirrors h size (s.change f) (c.store (c.regs .r10 + c.regs .r9) (f s.cell)) := by
  refine ⟨hm.fits.change f, hm.running, hm.base, hm.pointer, ?_, hm.input, hm.output⟩
  intro i hi
  have hlt : i < s.tape.size := by
    rw [hm.fits.cells]
    exact hi
  show update c.memory (c.regs .r10 + c.regs .r9) (f s.cell) (h.base + BitVec.ofNat 64 i) =
    (s.tape.modify s.pointer f).getD i 0
  rw [hm.address]
  by_cases he : i = s.pointer
  · subst he
    rw [update_self, Store.cell]
    simp [hlt, Array.getElem_modify]
  · rw [update_of_ne, hm.cells i hi]
    · simp [hlt, Array.getElem_modify, Ne.symm he]
    · intro ha
      exact he (address_inj hsize hi hm.fits.pointer ha)

end Mirrors

namespace Implements

theorem nil (s : Store) : Implements h lines size [] s s :=
  fun c _ hm => ⟨c, .refl c, hm, rfl⟩

theorem append {a b : List Line} {s₁ s₂ s₃ : Store} (h₁ : Implements h lines size a s₁ s₂)
    (h₂ : Implements h lines size b s₂ s₃) : Implements h lines size (a ++ b) s₁ s₃ := by
  intro c hat hm
  obtain ⟨c₁, hadv₁, hm₁, hpc₁⟩ := h₁ c hat.left hm
  obtain ⟨c₂, hadv₂, hm₂, hpc₂⟩ := h₂ c₁ (hpc₁ ▸ hat.right) hm₁
  refine ⟨c₂, ?_, hm₂, ?_⟩
  · rw [instrs_append, List.length_append]
    exact hadv₁.trans hadv₂
  · rw [hpc₂, hpc₁, instrs_append, List.length_append, Nat.add_assoc]

/-- Lines written several times act several times. -/
theorem replicate {block : List Line} {f : Store → Store}
    (hf : ∀ s, s.Fits size → Implements h lines size block s (f s)) (hfits : s.Fits size)
    (hkeep : ∀ s, s.Fits size → (f s).Fits size) (n : Nat) :
    Implements h lines size (List.replicate n block).flatten s (f^[n] s) := by
  induction n generalizing s with
  | zero => exact .nil s
  | succ n ih =>
    rw [List.replicate_succ, List.flatten_cons, iterate_succ_apply]
    exact (hf s hfits).append (ih (hkeep s hfits))

end Implements

/-! ### Changing the current cell -/

theorem ofInt_mod (n : Nat) : UInt8.ofInt ((n % 256 : Nat) : Int) = UInt8.ofNat n := by
  apply UInt8.toNat_inj.mp
  simp [UInt8.ofInt]
  omega

/-- An instruction that changes the current cell, and no other cell, register or stream. -/
theorem implements_change (hsize : size ≤ 2 ^ 32) {i : Instr} {f : UInt8 → UInt8}
    (hi : [i].all (fun i => i.straight && i.steady) = true)
    (hexec : ∀ c : Cpu, ∃ carry zero,
      c.exec h (loaded lines size) i = (c.next.store (c.regs .r10 + c.regs .r9)
        (f (c.memory (c.regs .r10 + c.regs .r9)))).flag carry zero) (s : Store) :
    Implements h lines size [.instr i] s (s.change f) := by
  intro c hat hm
  obtain ⟨carry, zero, hc⟩ := hexec c
  have hadv := advances_steady (h := h) [i] hi hm.running hat hm.inside
  rw [List.foldl_cons, List.foldl_nil, hc, hm.cell] at hadv
  refine ⟨_, hadv, ?_, rfl⟩
  exact (hm.change hsize f).congr rfl rfl rfl rfl rfl rfl

theorem implements_increment (hsize : size ≤ 2 ^ 32) (n : Nat) (s : Store) :
    Implements h lines size (incrementCode n) s ((Store.act .increment)^[n] s) := by
  rw [Store.iterate_increment]
  refine implements_change hsize rfl ?_ s
  intro c
  rw [← ofInt_mod]
  exact ⟨_, _, rfl⟩

theorem implements_decrement (hsize : size ≤ 2 ^ 32) (n : Nat) (s : Store) :
    Implements h lines size (decrementCode n) s ((Store.act .decrement)^[n] s) := by
  rw [Store.iterate_decrement]
  refine implements_change hsize rfl ?_ s
  intro c
  rw [← ofInt_mod]
  exact ⟨_, _, rfl⟩

/-! ### Transfers -/

/-- What a system call finds: the address of the current cell, and the three numbers that say what
to do. -/
structure Calling (h : Host) (size : Nat) (s : Store) (n : Word) (c : Cpu) : Prop
    extends Mirrors h size s c where
  number : c.regs .eax = n
  stream : c.regs .edi = n
  count : c.regs .edx = 1
  place : c.regs .rsi = c.regs .r10 + c.regs .r9

/-- A system call that was prepared is safe. -/
theorem Calling.advances {n : Word} (hc : Calling h size s n c)
    (hcode : (loaded lines size).code[c.pc]? = some .syscall) :
    Advances h (loaded lines size) size 1 c (c.next.call h) := by
  refine advances_one hc.running hcode ⟨fun _ _ _ => hc.inside, fun _ _ => hc.place, ?_⟩
  intro i hi hshift
  rw [hcode, Option.some.injEq] at hi
  subst hi
  cases hshift

theorem pc_call (c : Cpu) : (c.call h).pc = c.pc := by
  unfold Cpu.call
  dsimp only
  split
  · split <;> rfl
  · split
    · rfl
    · split <;> rfl

/-- Lines that prepare a call, and the call. -/
theorem implements_call (is : List Instr) {n : Word}
    (his : is.all (fun i => i.straight && i.steady) = true)
    (hprepare : ∀ c, Mirrors h size s c →
      Calling h size s n (is.foldl (Cpu.exec h (loaded lines size)) c))
    (hcall : ∀ c, Calling h size s n c → Mirrors h size s' (c.next.call h)) :
    Implements h lines size (is.map .instr ++ [.instr .syscall]) s s' := by
  intro c hat hm
  have hstraight : ∀ i ∈ is, i.straight = true := by
    intro i hi
    have hs := List.all_eq_true.mp his i hi
    rw [Bool.and_eq_true] at hs
    exact hs.1
  obtain ⟨-, hpc⟩ := @foldl_straight h (loaded lines size) is hstraight c
  have hcall' : At lines (is.foldl (Cpu.exec h (loaded lines size)) c).pc [.instr .syscall] := by
    rw [hpc]
    simpa using hat.right
  have hcalling := hprepare c hm
  have hadv := (advances_steady is his hm.running hat.left hm.inside).trans
    (hcalling.advances hcall'.code)
  rw [instrs_append, instrs_map_instr, List.length_append]
  refine ⟨_, hadv, hcall _ hcalling, ?_⟩
  rw [pc_call]
  show (is.foldl _ c).pc + 1 = _
  rw [hpc]
  rfl

theorem calling_read (hm : Mirrors h size s c) :
    Calling h size s 0 ([.xor .eax .eax, .xor .edi .edi, .lea currentCell .rsi,
      .mov (.imm 1) .edx].foldl (Cpu.exec h (loaded lines size)) c) := by
  refine ⟨hm.congr rfl rfl rfl rfl rfl rfl, ?_, ?_, ?_, ?_⟩ <;>
    simp [Cpu.exec, Cpu.next, Cpu.set, Cpu.flag, Reg.fit, Reg.width, Cpu.value, Cpu.address,
      currentCell]

theorem calling_write (hm : Mirrors h size s c) :
    Calling h size s 1 ([.mov (.imm 1) .eax, .mov (.imm 1) .edi, .lea currentCell .rsi,
      .mov (.imm 1) .edx].foldl (Cpu.exec h (loaded lines size)) c) := by
  refine ⟨hm.congr rfl rfl rfl rfl rfl rfl, ?_, ?_, ?_, ?_⟩ <;>
    simp [Cpu.exec, Cpu.next, Cpu.set, Reg.fit, Reg.width, Cpu.value, Cpu.address, currentCell]

theorem byteOf_toNat (b : UInt8) : byteOf (b.toNat : Int) = b := by
  have hb := b.toNat_lt
  have hmod : ((b.toNat : Int) % 256).toNat = b.toNat := by omega
  rw [byteOf, hmod, UInt8.ofNat_toNat]

/-- At the end of the input nothing is stored; else the first byte of it is. -/
theorem Calling.read (hsize : size ≤ 2 ^ 32) (hc : Calling h size s 0 c) :
    Mirrors h size (s.act .read) (c.next.call h) := by
  have hcall : c.regs .eax = 0 ∧ c.regs .edi = 0 ∧ c.regs .edx = 1 :=
    ⟨hc.number, hc.stream, hc.count⟩
  cases hin : c.input with
  | nil =>
    have hs : s.act .read = s := by simp [Store.act, hc.input, hin, itemsOf]
    rw [hs]
    refine hc.congr ?_ ?_ ?_ ?_ ?_ ?_ <;> simp [Cpu.call, Cpu.next, hcall, hin]
  | cons b rest =>
    have hs : s.act .read = { s with input := itemsOf rest }.change fun _ => b := by
      simp [Store.act, hc.input, hin, itemsOf, byteOf_toNat]
    -- the byte is taken from the input first, and stored then
    have hm : Mirrors h size { s with input := itemsOf rest } { c with input := rest } :=
      ⟨⟨hc.fits.cells, hc.fits.pointer⟩, hc.running, hc.base, hc.pointer, hc.cells, rfl, hc.output⟩
    have hchange := hm.change hsize fun _ => b
    rw [hs]
    refine hchange.congr ?_ ?_ ?_ ?_ ?_ ?_ <;>
      simp [Cpu.call, Cpu.next, Cpu.store, hcall, hin, hc.place]

theorem Calling.write (hc : Calling h size s 1 c) :
    Mirrors h size (s.act .write) (c.next.call h) := by
  have hcall : c.regs .eax = 1 ∧ c.regs .edi = 1 ∧ c.regs .edx = 1 :=
    ⟨hc.number, hc.stream, hc.count⟩
  have hm : Mirrors h size (s.act .write) { c with output := c.output ++ [s.cell] } := by
    refine ⟨hc.fits.act .write, hc.running, hc.base, hc.pointer, hc.cells, hc.input, ?_⟩
    simp [Store.act, hc.output]
  refine hm.congr ?_ ?_ ?_ ?_ ?_ ?_ <;>
    simp [Cpu.call, Cpu.next, hcall, hc.place, hc.cell]

theorem implements_read (hsize : size ≤ 2 ^ 32) (hfits : s.Fits size) (n : Nat) :
    Implements h lines size (List.replicate n readCode).flatten s ((Store.act .read)^[n] s) := by
  refine .replicate ?_ hfits (fun s hs => hs.act .read) n
  intro s _
  exact implements_call [.xor .eax .eax, .xor .edi .edi, .lea currentCell .rsi,
    .mov (.imm 1) .edx] rfl (fun c => calling_read) fun c => Calling.read hsize

theorem implements_write (hfits : s.Fits size) (n : Nat) :
    Implements h lines size (List.replicate n writeCode).flatten s ((Store.act .write)^[n] s) := by
  refine .replicate ?_ hfits (fun s hs => hs.act .write) n
  intro s _
  exact implements_call [.mov (.imm 1) .eax, .mov (.imm 1) .edi, .lea currentCell .rsi,
    .mov (.imm 1) .edx] rfl (fun c => calling_write) fun c => Calling.write

/-! ### Moves -/

/-- The instruction that shifts the pointer by an operand. -/
def shiftOp : Direction → Operand → Instr
  | .right, o => .add o .r9
  | .left, o => .sub o .r9

/-- Where a shift of `k` leads to from `v`. -/
def shifted (v : Word) (k : Nat) : Direction → Word
  | .right => v + BitVec.ofNat 64 k
  | .left => v - BitVec.ofNat 64 k

theorem shiftCode_eq (d : Direction) (step : Int) :
    shiftCode d step =
      if step ≤ maxImmediate then [.instr (shiftOp d (.imm step))]
      else [.instr (.movabs step .rcx), .instr (shiftOp d (.reg .rcx))] := by
  cases d <;> rfl

/-- What a shift leaves as it is, and what it changes. -/
structure Shifted (d : Direction) (k : Nat) (c c' : Cpu) : Prop where
  status : c'.status = c.status
  base : c'.regs .r10 = c.regs .r10
  pointer : c'.regs .r9 = shifted (c.regs .r9) k d
  borrow : d = .left → c'.carry = decide ((c.regs .r9).toNat < k)
  memory : c'.memory = c.memory
  input : c'.input = c.input
  output : c'.output = c.output

theorem shifted_exec {d : Direction} {k : Nat} (hk : k < 2 ^ 64) {o : Operand}
    (hvalue : c.value o = BitVec.ofNat 64 k) (img : Image) :
    Shifted d k c (c.exec h img (shiftOp d o)) := by
  have hnat : (BitVec.ofNat 64 k).toNat = k := by
    rw [BitVec.toNat_ofNat, Nat.mod_eq_of_lt hk]
  cases d with
  | right =>
    refine ⟨rfl, rfl, ?_, ?_, rfl, rfl, rfl⟩
    · simp [Cpu.exec, shiftOp, Cpu.flag, Cpu.set, Cpu.next, Cpu.get, shifted, hvalue, Reg.fit,
        Reg.width]
    · intro hd
      cases hd
  | left =>
    refine ⟨rfl, rfl, ?_, ?_, rfl, rfl, rfl⟩
    · simp [Cpu.exec, shiftOp, Cpu.flag, Cpu.set, Cpu.next, Cpu.get, shifted, hvalue, Reg.fit,
        Reg.width]
    · intro _
      simp [Cpu.exec, shiftOp, Cpu.flag, Cpu.get, hvalue, Reg.fit, Reg.width, hnat]

/-- A shift is safe if it stays on the tape, or if a correction follows. -/
theorem advances_shiftOp {d : Direction} {k : Nat} (hk : k < 2 ^ 64) {o : Operand}
    {rest : List Line} (hat : At lines c.pc (.instr (shiftOp d o) :: rest))
    (hrun : c.status = .running) (hvalue : c.value o = BitVec.ofNat 64 k)
    (hsafe : (shifted (c.regs .r9) k d).toNat < size ∨
      ∃ i more, rest = .instr i :: more ∧ i.corrects = true) :
    Advances h (loaded lines size) size 1 c (c.exec h (loaded lines size) (shiftOp d o)) := by
  have hcode : (loaded lines size).code[c.pc]? = some (shiftOp d o) := hat.code
  refine advances_one hrun hcode (Cpu.safe_of_apart hcode ?_ ?_ ?_)
  · cases d <;> simp [shiftOp, Instr.operand?]
  · cases d <;> simp [shiftOp]
  · -- a shift that leaves the tape is not bare, since a correction stands behind it
    intro _ hbare
    rcases hsafe with hon | ⟨i, more, rfl, hi⟩
    · rw [Cpu.step_of_code hrun hcode, (shifted_exec hk hvalue _).pointer]
      exact hon
    · rw [hbare i hat.tail.code] at hi
      cases hi

theorem value_imm (c : Cpu) (k : Nat) : c.value (.imm k) = BitVec.ofNat 64 k :=
  BitVec.ofInt_natCast ..

theorem value_movabs (h : Host) (img : Image) (c : Cpu) (k : Nat) :
    (c.exec h img (.movabs k .rcx)).value (.reg .rcx) = BitVec.ofNat 64 k := by
  simp [Cpu.value, Cpu.get, Cpu.exec, Cpu.set, Reg.fit, Reg.width]

/-- Both forms of a shift, with the step in the instruction or in a register. -/
theorem shifted_foldl {d : Direction} {k : Nat} (hk : k < 2 ^ 64) (c : Cpu) (img : Image) :
    Shifted d k c ((instrs (shiftCode d k)).foldl (Cpu.exec h img) c) := by
  rw [shiftCode_eq]
  split
  · exact shifted_exec hk (value_imm c k) img
  · -- the step goes through `rcx`, which no later instruction relies on
    have heffect := shifted_exec (h := h) (d := d) hk (value_movabs h img c k) img
    exact ⟨heffect.status, heffect.base, heffect.pointer, heffect.borrow, heffect.memory,
      heffect.input, heffect.output⟩

theorem advances_shift {d : Direction} {k : Nat} (hk : k < 2 ^ 64) {rest : List Line}
    (hat : At lines c.pc (shiftCode d k ++ rest)) (hrun : c.status = .running)
    (hsafe : (shifted (c.regs .r9) k d).toNat < size ∨
      ∃ i more, rest = .instr i :: more ∧ i.corrects = true) :
    ∃ c', Advances h (loaded lines size) size (instrs (shiftCode d k)).length c c' ∧
      Shifted d k c c' ∧ c'.pc = c.pc + (instrs (shiftCode d k)).length := by
  refine ⟨_, ?_, @shifted_foldl h d k hk c (loaded lines size), ?_⟩
  · rw [shiftCode_eq] at hat ⊢
    split at hat
    · rename_i hshort
      rw [if_pos hshort]
      exact advances_shiftOp hk hat hrun (value_imm c k) hsafe
    · rename_i hlong
      rw [if_neg hlong]
      have hload : Advances h (loaded lines size) size 1 c _ :=
        advances_quiet [.movabs k .rcx] rfl hrun (At.left (a := [.instr (.movabs k .rcx)]) hat)
      exact hload.trans
        (advances_shiftOp hk hat.tail hrun (value_movabs h (loaded lines size) c k) hsafe)
  · rw [shiftCode_eq]
    split <;> cases d <;> rfl

/-- The correction after a shift, as instructions. -/
def wrapInstrs (size : Int) : Direction → List Instr
  | .right => [.movabs size .r11, .mov (.reg .r9) .rcx, .sub (.reg .r11) .rcx, .cmovae .rcx .r9]
  | .left => [.movabs size .r11, .lea (.sum .r9 .r11) .rcx, .cmovb .rcx .r9]

theorem wrapCode_eq (d : Direction) (size : Int) :
    wrapCode d size = (wrapInstrs size d).map .instr := by
  cases d <;> rfl

/-- What a correction makes of the pointer: after a shift to the right it subtracts the size unless
that borrows, after one to the left it adds the size if the shift borrowed. -/
def corrected (size : Nat) (v : Word) (borrowed : Bool) : Direction → Word
  | .right => if v.toNat < size then v else v - BitVec.ofNat 64 size
  | .left => if borrowed then v + BitVec.ofNat 64 size else v

theorem foldl_wrapInstrs (hsize : size < 2 ^ 64) (d : Direction) (img : Image) :
    ((wrapInstrs size d).foldl (Cpu.exec h img) c).regs .r9 =
      corrected size (c.regs .r9) c.carry d := by
  have hnat : (BitVec.ofNat 64 size).toNat = size := by
    rw [BitVec.toNat_ofNat, Nat.mod_eq_of_lt hsize]
  cases d with
  | right =>
    simp [wrapInstrs, Cpu.exec, Cpu.flag, Cpu.set, Cpu.next, Cpu.get, Cpu.value, corrected, Reg.fit,
      Reg.width, hnat]
  | left =>
    simp [wrapInstrs, Cpu.exec, Cpu.set, Cpu.next, Cpu.get, Cpu.address, corrected, Reg.fit,
      Reg.width]

/-- The symbol that moves into a direction. -/
def moveSymbol : Direction → Symbol
  | .right => .moveRight
  | .left => .moveLeft

/-- The cell that a reduced step leads to. -/
def landing (size p k : Nat) : Direction → Nat
  | .right => (p + k) % size
  | .left => (p + (size - k)) % size

theorem iterate_move (hs : s.Fits size) (d : Direction) (n : Nat) :
    (Store.act (moveSymbol d))^[n] s =
      { s with pointer := landing size s.pointer (n % size) d } := by
  cases d with
  | right =>
    have hp := Store.iterate_moveRight hs n
    simpa [moveSymbol, landing] using hp
  | left => exact Store.iterate_moveLeft hs n

theorem toNat_shifted {v : Word} {k : Nat} {d : Direction} (hv : v.toNat < 2 ^ 63)
    (hk : k < 2 ^ 63) :
    (shifted v k d).toNat = match d with
      | .right => v.toNat + k
      | .left => if v.toNat < k then 2 ^ 64 + v.toNat - k else v.toNat - k := by
  have hnat : (BitVec.ofNat 64 k).toNat = k := by
    rw [BitVec.toNat_ofNat, Nat.mod_eq_of_lt (by omega)]
  cases d with
  | right =>
    simp only [shifted]
    rw [BitVec.toNat_add, hnat, Nat.mod_eq_of_lt (by omega)]
  | left =>
    simp only [shifted]
    rw [BitVec.toNat_sub, hnat]
    -- a step beyond the first cell borrows, and the pointer comes out far above the tape
    split
    · rw [Nat.mod_eq_of_lt (by omega)]
      omega
    · omega

/-- A step does not lead over the end of the tape. -/
def Short (size p k : Nat) : Direction → Prop
  | .right => p + k < size
  | .left => k ≤ p

theorem toNat_shifted_of_short (hsize : size ≤ 2 ^ 32) {v : Word} {k : Nat} {d : Direction}
    (hv : v.toNat < size) (hshort : Short size v.toNat k d) :
    (shifted v k d).toNat = landing size v.toNat k d := by
  cases d with
  | right =>
    rw [Short] at hshort
    rw [toNat_shifted (by omega) (by omega), landing, Nat.mod_eq_of_lt hshort]
  | left =>
    rw [Short] at hshort
    rw [toNat_shifted (by omega) (by omega), landing]
    simp only [Nat.not_lt.mpr hshort, if_false]
    rw [show v.toNat + (size - k) = v.toNat - k + size by omega, Nat.add_mod_right,
      Nat.mod_eq_of_lt (by omega)]

theorem toNat_corrected (hsize : size ≤ 2 ^ 32) {v : Word} {k : Nat} (d : Direction)
    (hv : v.toNat < size) (hk : k < size) :
    (corrected size (shifted v k d) (decide (v.toNat < k)) d).toNat = landing size v.toNat k d := by
  have hnat : (BitVec.ofNat 64 size).toNat = size := by
    rw [BitVec.toNat_ofNat, Nat.mod_eq_of_lt (by omega)]
  have hshift := toNat_shifted (v := v) (k := k) (d := d) (by omega) (by omega)
  cases d with
  | right =>
    simp only at hshift
    rw [corrected, landing, hshift]
    split
    · rename_i hlt
      rw [hshift, Nat.mod_eq_of_lt hlt]
    · rename_i hge
      have hmod : (v.toNat + k) % size = v.toNat + k - size := by
        rw [Nat.mod_eq_sub_mod (by omega), Nat.mod_eq_of_lt (by omega)]
      rw [BitVec.toNat_sub, hnat, hshift, hmod]
      omega
  | left =>
    simp only at hshift
    rw [corrected, landing]
    by_cases hlt : v.toNat < k
    · rw [if_pos hlt] at hshift
      rw [decide_eq_true hlt, if_pos rfl, BitVec.toNat_add, hnat, hshift,
        Nat.mod_eq_of_lt (by omega : v.toNat + (size - k) < size)]
      omega
    · rw [if_neg hlt] at hshift
      rw [decide_eq_false hlt, if_neg (by decide), hshift,
        show v.toNat + (size - k) = v.toNat - k + size by omega, Nat.add_mod_right,
        Nat.mod_eq_of_lt (by omega)]

theorem landing_lt {p k : Nat} (d : Direction) (hp : p < size) : landing size p k d < size := by
  cases d <;> exact Nat.mod_lt _ (by omega)

/-- A correction brings the pointer back onto the tape, to the cell that the step leads to. -/
theorem Shifted.toNat_wrap (hsize : size ≤ 2 ^ 32) {d : Direction} {k : Nat} {c' : Cpu}
    (hshift : Shifted d k c c') (hin : (c.regs .r9).toNat < size) (hk : k < size) (img : Image) :
    (((wrapInstrs size d).foldl (Cpu.exec h img) c').regs .r9).toNat =
      landing size (c.regs .r9).toNat k d := by
  -- only a shift to the left is followed by a look at its borrow
  have hborrow : corrected size (c'.regs .r9) c'.carry d =
      corrected size (shifted (c.regs .r9) k d) (decide ((c.regs .r9).toNat < k)) d := by
    rw [hshift.pointer]
    cases d with
    | right => rfl
    | left => rw [hshift.borrow rfl]
  rw [foldl_wrapInstrs (by omega), hborrow, toNat_corrected hsize d hin hk]

/-- The processor after a move that came out right. -/
theorem Mirrors.move (hm : Mirrors h size s c) {c' : Cpu} {k : Nat} {d : Direction}
    (hshift : Shifted d k c c') {c'' : Cpu} (hstatus : c''.status = c'.status)
    (hbase : c''.regs .r10 = c'.regs .r10) (hmemory : c''.memory = c'.memory)
    (hinput : c''.input = c'.input) (houtput : c''.output = c'.output)
    (hpointer : (c''.regs .r9).toNat = landing size (c.regs .r9).toNat k d) :
    Mirrors h size { s with pointer := landing size s.pointer k d } c'' := by
  refine ⟨⟨hm.fits.cells, landing_lt d hm.fits.pointer⟩, ?_, ?_, ?_, ?_, ?_, ?_⟩
  · rw [hstatus, hshift.status, hm.running]
  · rw [hbase, hshift.base, hm.base]
  · rw [hpointer, hm.pointer]
  · rw [hmemory, hshift.memory]
    exact hm.cells
  · rw [hinput, hshift.input]
    exact hm.input
  · rw [houtput, hshift.output]
    exact hm.output

/-- A move without a correction. -/
theorem implements_bare (hsize : size ≤ 2 ^ 32) {k : Nat} {d : Direction} (hk : k < size)
    (hshort : Short size s.pointer k d) :
    Implements h lines size (shiftCode d k) s
      { s with pointer := landing size s.pointer k d } := by
  intro c hat hm
  have hin := hm.inside.pointer
  rw [← hm.pointer] at hshort
  have hpointer := toNat_shifted_of_short hsize hin hshort
  have hon : (shifted (c.regs .r9) k d).toNat < size := by
    rw [hpointer]
    exact landing_lt d hin
  have hat' : At lines c.pc (shiftCode d k ++ []) := by simpa using hat
  obtain ⟨c', hadv, hshift, hpc⟩ := advances_shift (h := h) (by omega) hat' hm.running (.inl hon)
  refine ⟨c', hadv, hm.move hshift rfl rfl rfl rfl rfl ?_, hpc⟩
  rw [hshift.pointer, hpointer]

/-- A move with a correction. -/
theorem implements_corrected (hsize : size ≤ 2 ^ 32) {k : Nat} (hk : k < size) (d : Direction) :
    Implements h lines size (shiftCode d k ++ wrapCode d size) s
      { s with pointer := landing size s.pointer k d } := by
  intro c hat hm
  have hnext : ∃ i more, wrapCode d size = .instr i :: more ∧ i.corrects = true := by
    cases d <;> exact ⟨_, _, rfl, rfl⟩
  obtain ⟨c', hadv, hshift, hpc⟩ :=
    @advances_shift h lines size c d k (by omega) _ hat hm.running (.inr hnext)
  have hwrap := hat.right
  rw [← hpc, wrapCode_eq] at hwrap
  have hadv' := @advances_quiet h size lines c' (wrapInstrs size d) (by cases d <;> rfl)
    (hshift.status.trans hm.running) hwrap
  rw [instrs_append, List.length_append, wrapCode_eq, instrs_map_instr]
  refine ⟨_, hadv.trans hadv', hm.move hshift ?_ ?_ ?_ ?_ ?_ ?_, ?_⟩
  · cases d <;> rfl
  · cases d <;> rfl
  · cases d <;> rfl
  · cases d <;> rfl
  · cases d <;> rfl
  · exact hshift.toNat_wrap hsize hm.inside.pointer hk _
  · rw [← Nat.add_assoc, ← hpc]
    cases d <;> rfl

end TapeLang.Assembly
