import TapeLang.Proofs.Assembly.Pointer
import TapeLang.Proofs.Execution

/-!
The processor follows the machine.

`Focus` goes through the parts of a nest and says for each where its instructions and its code lie,
which label comes next, and what the cursor is.  Inside a loop the cursor at a place says nothing
about later rounds; what can be relied on there is the cursor behind the outermost loop around the
place, which is certain only if that loop contains no move (`Focus.still`).

`Tracks` relates a machine between two instructions to a processor between two pieces of code.  Main
statement: `Tracks.step`, whatever the machine does next, the processor does too, and where the
machine has come to its end the process exits.
-/

namespace TapeLang.Assembly

open Function

/-! ### Places in a program -/

/-- Where a part of a nest lies, in the program and in its listing, and what is known there. -/
structure Spot where
  /-- The index of the next instruction of the program. -/
  index : Nat
  /-- The index of the next instruction of the processor. -/
  position : Nat
  /-- The number of the next loop. -/
  label : Nat
  cursor : Cursor
  /-- Inside a loop, the cursor behind the outermost one. -/
  outer : Option Cursor

namespace Spot

/-- There is a loop around the place. -/
def inLoop (p : Spot) : Bool := p.outer.isSome

/-- The cursor that can be relied on. -/
def trusted (p : Spot) : Cursor := p.outer.getD p.cursor

/-- The cursor that can be relied on all over a loop. -/
def loopTrusted (p : Spot) (body : Nest) : Cursor := p.outer.getD (body.cursorAfter true p.cursor)

/-- How many instructions the code of a nest has at a place. -/
def extent (p : Spot) (size : Int) (t : Nest) : Nat :=
  (instrs (t.code size p.inLoop p.label p.cursor)).length

/-- The place after a run. -/
def next (p : Spot) (size : Int) (r : Run) : Spot :=
  { p with
    index := p.index + 1
    position := p.position + (instrs (runCode size p.inLoop p.cursor r)).length
    cursor := runCursor p.inLoop p.cursor r }

/-- The place behind the opening bracket of a loop. -/
def inner (p : Spot) (body : Nest) : Spot :=
  ⟨p.index + 1, p.position + 2, p.label + 1, p.cursor, some (p.loopTrusted body)⟩

/-- The place of the closing bracket of a loop, in its listing. -/
def closing (p : Spot) (size : Int) (body : Nest) : Nat :=
  p.position + 2 + (p.inner body).extent size body

/-- The place behind a loop. -/
def behind (p : Spot) (size : Int) (body : Nest) : Spot :=
  ⟨p.index + 2 + body.size, p.closing size body + 2, p.label + 1 + body.loops,
    body.cursorAfter true p.cursor, p.outer⟩

end Spot

/-- The parts of a nest, each with its place. -/
inductive Focus (size : Int) (t : Nest) : Nest → Spot → Prop
  | whole : Focus size t t ⟨0, 2, 0, .start size, none⟩
  | next {r : Run} {plain : r.symbol.isBracket = false} {rest : Nest} {p : Spot} :
      Focus size t (.act r plain rest) p → Focus size t rest (p.next size r)
  | inner {enter leave : Token} {body rest : Nest} {p : Spot} :
      Focus size t (.loop enter body leave rest) p → Focus size t body (p.inner body)
  | behind {enter leave : Token} {body rest : Nest} {p : Spot} :
      Focus size t (.loop enter body leave rest) p → Focus size t rest (p.behind size body)

namespace Focus

variable {size : Int} {t u : Nest} {p : Spot}

theorem located (hf : Focus size t u p) :
    Located t.program u p.index := by
  induction hf with
  | whole => exact Located.whole t
  | next _ ih => exact ih.act.2
  | inner _ ih => exact ih.inner
  | behind _ ih => exact ih.behind

theorem size_cursor (hf : Focus size t u p) : p.cursor.size = size := by
  induction hf with
  | whole => rfl
  | next _ ih => exact (Nest.size_runCursor ..).trans ih
  | inner _ ih => exact ih
  | behind _ ih => exact (Nest.size_cursorAfter ..).trans ih

/-- The code of a part lies at its place. -/
theorem placed (hf : Focus size t u p) :
    At (listingOf t size) p.position (u.code size p.inLoop p.label p.cursor) := by
  induction hf with
  | whole => exact ⟨prologue size, epilogue, rfl, rfl⟩
  | next _ ih => exact ih.right
  | inner _ ih => exact ih.right.left
  | behind _ ih => exact ih.right.right.right

/-- A loop that the pointer is trusted behind contains no move. -/
theorem still (hf : Focus size t u p) {c : Cursor} (hc : p.outer = some c)
    (hcertain : c.certain = true) : u.Still := by
  induction hf generalizing c with
  | whole => cases hc
  | next _ ih => exact (ih hc hcertain).2
  | @inner _ _ body _ p _ ih =>
    cases hc
    unfold Spot.loopTrusted at hcertain
    cases hp : p.outer with
    | none =>
      -- the outermost loop: its own cursor says whether something moves inside
      rw [hp] at hcertain
      exact (Nest.certain_cursorAfter hcertain).1
    | some c =>
      rw [hp] at ih hcertain
      exact (ih rfl hcertain).1
  | behind _ ih => exact (ih hc hcertain).2

/-- Behind a part comes the closing bracket of a loop, or the end of the program. -/
theorem ends (hf : Focus size t u p) :
    (p.index + u.size = t.size ∧ At (listingOf t size) (p.position + p.extent size u) epilogue) ∨
    ∃ enter body leave rest q, Focus size t (.loop enter body leave rest) q ∧
      p.index + u.size = q.index + 1 + body.size ∧
      p.position + p.extent size u = q.closing size body ∧
      p.outer = some (q.loopTrusted body) := by
  induction hf with
  | whole =>
    refine .inl ⟨Nat.zero_add _, ?_⟩
    refine ⟨prologue size ++ t.code size false 0 (.start size), [], ?_, ?_⟩
    · simp [listingOf]
    · rw [instrs_append, List.length_append]
      rfl
  | @next r plain rest p _ ih =>
    have hindex : (p.next size r).index + rest.size = p.index + (Nest.act r plain rest).size := by
      show p.index + 1 + rest.size = p.index + (rest.size + 1)
      omega
    have hposition : (p.next size r).position + (p.next size r).extent size rest =
        p.position + p.extent size (.act r plain rest) := by
      simp only [Spot.next, Spot.extent, Nest.code, instrs_append, List.length_append]
      rw [Nat.add_assoc]
      rfl
    rw [hindex, hposition]
    exact ih
  | @inner enter leave body rest p hf _ =>
    exact .inr ⟨enter, body, leave, rest, p, hf, rfl, rfl, rfl⟩
  | @behind enter leave body rest p _ ih =>
    have hindex : (p.behind size body).index + rest.size =
        p.index + (Nest.loop enter body leave rest).size := by
      show p.index + 2 + body.size + rest.size = p.index + (body.size + rest.size + 2)
      omega
    have hposition : (p.behind size body).position + (p.behind size body).extent size rest =
        p.position + p.extent size (.loop enter body leave rest) := by
      simp only [Spot.behind, Spot.closing, Spot.inner, Spot.extent, Spot.inLoop, Nest.code,
        instrs_append, List.length_append, Option.isSome_some]
      show _ = p.position + (2 + (_ + (2 + _)))
      omega
    rw [hindex, hposition]
    exact ih

end Focus

/-! ### Brackets -/

section

variable {h : Host} {lines : List Line} {size : Nat} {s : Store} {c : Cpu} {l : Label} {q : Nat}

/-- Comparing the current cell with zero. -/
theorem advances_compare (hat : At lines c.pc [.instr (.cmpb 0 currentCell)])
    (hm : Mirrors h size s c) :
    ∃ c', Advances h (loaded lines size) size 1 c c' ∧ Mirrors h size s c' ∧
      c'.pc = c.pc + 1 ∧ c'.zero = decide (s.cell = 0) := by
  have hadv := advances_steady (h := h) [.cmpb 0 currentCell] rfl hm.running hat hm.inside
  refine ⟨_, hadv, hm.congr rfl rfl rfl rfl rfl rfl, rfl, ?_⟩
  show (c.memory (c.regs .r10 + c.regs .r9) == UInt8.ofInt 0) = decide (s.cell = 0)
  rw [hm.cell]
  exact beq_eq_decide s.cell 0

/-- A comparison of the current cell with zero, and a jump that depends on it.  Whichever way it
goes, nothing but the place changes. -/
theorem advances_branch {i : Instr} (hat : At lines c.pc [.instr (.cmpb 0 currentCell), .instr i])
    (hm : Mirrors h size s c) (hcall : i ≠ .syscall) (hshift : i.shifts = false)
    (hexec : ∀ c₁ : Cpu, c₁.pc = c.pc + 1 → c₁.zero = decide (s.cell = 0) →
      c₁.exec h (loaded lines size) i = { c₁ with pc := q }) :
    ∃ c', Advances h (loaded lines size) size 2 c c' ∧ Mirrors h size s c' ∧ c'.pc = q := by
  obtain ⟨c₁, hadv, hm₁, hpc, hzero⟩ :=
    advances_compare (At.left (a := [.instr (.cmpb 0 currentCell)]) hat) hm
  have hcode : (loaded lines size).code[c₁.pc]? = some i := by
    rw [hpc]
    exact hat.tail.code
  have hjump := advances_one hm₁.running hcode (hm₁.inside.safe hcode hcall hshift)
  rw [hexec c₁ hpc hzero] at hjump
  exact ⟨_, hadv.trans hjump, hm₁.congr rfl rfl rfl rfl rfl rfl, rfl⟩

/-- The opening bracket: on a zero cell, go behind the loop. -/
theorem advances_open
    (hat : At lines c.pc [.instr (.cmpb 0 currentCell), .instr (.je l)])
    (htarget : (loaded lines size).target? l = some q) (hm : Mirrors h size s c) :
    ∃ c', Advances h (loaded lines size) size 2 c c' ∧ Mirrors h size s c' ∧
      c'.pc = if s.cell = 0 then q else c.pc + 2 := by
  refine advances_branch hat hm Instr.noConfusion rfl ?_
  intro c₁ hpc hzero
  by_cases hcell : s.cell = 0
  · simp [Cpu.exec, hzero, hcell, Cpu.jump, htarget]
  · simp [Cpu.exec, hzero, hcell, Cpu.next, hpc]

/-- The closing bracket: on a cell that is not zero, go back to the opening one. -/
theorem advances_close
    (hat : At lines c.pc [.instr (.cmpb 0 currentCell), .instr (.jne l)])
    (htarget : (loaded lines size).target? l = some q) (hm : Mirrors h size s c) :
    ∃ c', Advances h (loaded lines size) size 2 c c' ∧ Mirrors h size s c' ∧
      c'.pc = if s.cell = 0 then c.pc + 2 else q := by
  refine advances_branch hat hm Instr.noConfusion rfl ?_
  intro c₁ hpc hzero
  by_cases hcell : s.cell = 0
  · simp [Cpu.exec, hzero, hcell, Cpu.next, hpc]
  · simp [Cpu.exec, hzero, hcell, Cpu.jump, htarget]

/-! ### The ends of a program -/

/-- The epilogue leaves everything as it is, and exits with status zero. -/
theorem advances_epilogue (hat : At lines c.pc epilogue) (hm : Mirrors h size s c) :
    ∃ c₀, Mirrors h size s c₀ ∧
      Advances h (loaded lines size) size 3 c { c₀ with status := .exited 0 } := by
  have hadv := advances_steady (h := h) [.mov (.imm 60) .eax, .xor .edi .edi] rfl hm.running
    (At.left (a := [.instr (.mov (.imm 60) .eax), .instr (.xor .edi .edi)]) hat) hm.inside
  generalize hc₁ : [Instr.mov (.imm 60) .eax, .xor .edi .edi].foldl
    (Cpu.exec h (loaded lines size)) c = c₁ at hadv
  have hm₁ : Mirrors h size s c₁ := hc₁ ▸ hm.congr rfl rfl rfl rfl rfl rfl
  have heax : c₁.regs .eax = 60 := by
    rw [← hc₁]
    simp [Cpu.exec, Cpu.next, Cpu.set, Cpu.flag, Reg.fit, Reg.width, Cpu.value]
  have hedi : c₁.regs .edi = 0 := by
    rw [← hc₁]
    simp [Cpu.exec, Cpu.next, Cpu.set, Cpu.flag, Reg.fit, Reg.width]
  have hcode : (loaded lines size).code[c₁.pc]? = some .syscall := by
    rw [← hc₁]
    exact hat.tail.tail.code
  have hsafe : c₁.Safe h (loaded lines size) size := by
    refine ⟨fun _ _ _ => hm₁.inside, ?_, ?_⟩
    · rintro - (huse | ⟨-, huse⟩)
      · cases huse
      · rw [heax] at huse
        exact absurd huse (by decide)
    · intro i hi hshift
      rw [hcode, Option.some.injEq] at hi
      subst hi
      cases hshift
  have hexit : c₁.exec h (loaded lines size) .syscall = { c₁.next with status := .exited 0 } := by
    simp [Cpu.exec, Cpu.call, Cpu.next, heax, hedi]
  have hcall := advances_one hm₁.running hcode hsafe
  rw [hexit] at hcall
  exact ⟨c₁.next, hm₁.congr rfl rfl rfl rfl rfl rfl, hadv.trans hcall⟩

/-- The entry point of a listing, which is its first instruction. -/
theorem at_start (t : Nest) (size : Int) :
    At (listingOf t size) 0 [.label .start, .instr (.xor .r9 .r9), .instr (.lea .tape .r10)] :=
  ⟨[.setTapeSize size, .blank, .enter .bss, .reserveTape, .blank, .enter .text, .exportStart,
    .blank], t.code size false 0 (.start size) ++ epilogue, rfl, rfl⟩

theorem target_start (t : Nest) (size : Int) :
    (loaded (listingOf t size) size).target? .start = some 0 :=
  (at_start t size).target (nodup_listingOf t size)

/-- The prologue puts the pointer on the first cell of a cleared tape. -/
theorem advances_prologue {t : Nest} {input : List UInt8} (hpos : 0 < size)
    (hfresh : Fresh h (loaded (listingOf t size) size) input c) :
    ∃ c', Advances h (loaded (listingOf t size) size) size 2 c c' ∧
      Mirrors h size (.start size (itemsOf input)) c' ∧ c'.pc = 2 := by
  have hpc : c.pc = 0 := Option.some.inj (hfresh.entry.symm.trans (target_start t size))
  have hat := (at_start t size).label
  rw [← hpc] at hat
  have hadv := @advances_quiet h size _ c [.xor .r9 .r9, .lea .tape .r10] rfl hfresh.running hat
  refine ⟨_, hadv, ⟨Store.fits_start hpos _, hfresh.running, ?_, ?_, ?_, ?_, hfresh.output⟩, ?_⟩
  · simp [Cpu.exec, Cpu.next, Cpu.set, Cpu.address, Reg.fit, Reg.width]
  · simp [Cpu.exec, Cpu.next, Cpu.set, Cpu.flag, Reg.fit, Reg.width, Store.start]
  · intro i hi
    show c.memory (h.base + BitVec.ofNat 64 i) = (Array.replicate size 0).getD i 0
    rw [hfresh.cleared i (Int.ofNat_lt.mpr hi)]
    simp [hi]
  · exact congrArg itemsOf hfresh.input.symm
  · show c.pc + 1 + 1 = 2
    rw [hpc]

end

/-! ### The simulation -/

section

variable {h : Host} {size : Nat} {t : Nest} {s : Store} {k : Nat} {c : Cpu}

/-- A machine with store `s` that is about to execute the instruction at `k`, and a processor that
has come to the code of that instruction. -/
structure Tracks (h : Host) (size : Nat) (t : Nest) (s : Store) (k : Nat) (c : Cpu) : Prop where
  mirrors : Mirrors h size s c
  focus : ∃ u p, Focus size t u p ∧ p.index = k ∧ c.pc = p.position ∧ Sound p.trusted s.pointer

/-- What is known before a loop holds all over it, or is given up. -/
theorem sound_loopTrusted {p : Spot} {n : Nat} (hsound : Sound p.trusted n) (body : Nest) :
    Sound (p.loopTrusted body) n := by
  unfold Spot.trusted at hsound
  unfold Spot.loopTrusted
  cases hp : p.outer with
  | none =>
    rw [hp] at hsound
    intro hcertain
    have hsame := (Nest.certain_cursorAfter hcertain).2
    rw [Option.getD_none, hsame] at hcertain ⊢
    exact hsound hcertain
  | some c =>
    rw [hp] at hsound
    exact hsound

/-- A run takes what is known from its place to the next. -/
theorem sound_next {r : Run} {plain : r.symbol.isBracket = false} {rest : Nest} {p : Spot}
    (hf : Focus size t (.act r plain rest) p) (hs : s.Fits size)
    (hsound : Sound p.trusted s.pointer) :
    Sound (p.next size r).trusted ((Store.act r.symbol)^[r.count] s).pointer := by
  cases hp : p.outer with
  | none =>
    -- outside of loops the cursor moves with the pointer
    rw [Spot.trusted, hp] at hsound
    simp only [Spot.trusted, Spot.next, Spot.inLoop, hp]
    exact Sound.runCursor hf.size_cursor hs hsound r
  | some c =>
    -- inside, a cursor that is still certain has no move to follow
    rw [Spot.trusted, hp] at hsound
    simp only [Spot.trusted, Spot.next, hp]
    intro hcertain
    rw [pointer_iterate_of_still (hf.still hp hcertain).1]
    exact hsound hcertain

/-- A run that is no bracket. -/
theorem Tracks.act (hsize : size ≤ 2 ^ 32) {r : Run} {plain : r.symbol.isBracket = false}
    {rest : Nest} {p : Spot} (hf : Focus size t (.act r plain rest) p) (hm : Mirrors h size s c)
    (hpc : c.pc = p.position) (hsound : Sound p.trusted s.pointer) :
    ∃ n c', Advances h (loaded (listingOf t size) size) size n c c' ∧
      Tracks h size t ((Store.act r.symbol)^[r.count] s) (p.index + 1) c' := by
  have hat := hf.placed.left
  rw [← hpc] at hat
  have houtside : p.inLoop = false → Sound p.cursor s.pointer := by
    intro hout
    have hnone : p.outer = none := by simpa [Spot.inLoop] using hout
    rw [Spot.trusted, hnone] at hsound
    exact hsound
  obtain ⟨c', hadv, hm', hpc'⟩ :=
    implements_run (h := h) hsize hf.size_cursor hm.fits houtside plain c hat hm
  refine ⟨_, c', hadv, hm', rest, p.next size r, .next hf, rfl, ?_, sound_next hf hm.fits hsound⟩
  rw [hpc', hpc]
  rfl

section

variable {enter leave : Token} {body rest : Nest} {p : Spot}
  (hf : Focus size t (.loop enter body leave rest) p)

include hf

/-- The label of the opening bracket leads to its code. -/
theorem target_loopHead :
    (loaded (listingOf t size) size).target? (.loopHead p.label) = some p.position :=
  hf.placed.blank.target (nodup_listingOf t size)

/-- The label of the closing bracket leads behind the loop. -/
theorem target_loopTail :
    (loaded (listingOf t size) size).target? (.loopTail p.label) =
      some (p.behind size body).position :=
  hf.placed.right.right.tail.tail.blank.target (nodup_listingOf t size)

/-- From the opening bracket of a loop into its body or behind it. -/
theorem Tracks.open (hm : Mirrors h size s c) (hpc : c.pc = p.position)
    (hsound : Sound (p.loopTrusted body) s.pointer) :
    ∃ c', Advances h (loaded (listingOf t size) size) size 2 c c' ∧
      Tracks h size t s (s.loopTarget p.index body) c' := by
  have hat := hf.placed.blank.label
  rw [← hpc] at hat
  obtain ⟨c', hadv, hm', hpc'⟩ := advances_open (h := h)
    (At.left (a := [.instr (.cmpb 0 currentCell), .instr (.je _)]) hat) (target_loopTail hf) hm
  refine ⟨c', hadv, hm', ?_⟩
  by_cases hcell : s.cell = 0
  · rw [if_pos hcell] at hpc'
    rw [Store.loopTarget, if_pos hcell]
    exact ⟨rest, p.behind size body, .behind hf, rfl, hpc', hsound⟩
  · rw [if_neg hcell, hpc] at hpc'
    rw [Store.loopTarget, if_neg hcell]
    exact ⟨body, p.inner body, .inner hf, rfl, hpc', hsound⟩

/-- From the closing bracket of a loop into its body or behind it.  The way into the body leads past
the opening bracket, which finds the cell unchanged. -/
theorem Tracks.close (hm : Mirrors h size s c) (hpc : c.pc = p.closing size body)
    (hsound : Sound (p.loopTrusted body) s.pointer) :
    ∃ n c', 0 < n ∧ Advances h (loaded (listingOf t size) size) size n c c' ∧
      Tracks h size t s (s.loopTarget p.index body) c' := by
  have hat : At (listingOf t size) (p.closing size body) (closeCode p.label) :=
    hf.placed.right.right.left
  rw [← hpc] at hat
  obtain ⟨c', hadv, hm', hpc'⟩ := advances_close (h := h)
    (At.left (a := [.instr (.cmpb 0 currentCell), .instr (.jne _)]) hat) (target_loopHead hf) hm
  by_cases hcell : s.cell = 0
  · rw [if_pos hcell, hpc] at hpc'
    refine ⟨2, c', by decide, hadv, hm', ?_⟩
    rw [Store.loopTarget, if_pos hcell]
    exact ⟨rest, p.behind size body, .behind hf, rfl, hpc', hsound⟩
  · -- the label of the opening bracket stands before its comparison
    rw [if_neg hcell] at hpc'
    obtain ⟨c'', hadv', htracks⟩ := Tracks.open hf hm' hpc' hsound
    exact ⟨4, c'', by decide, hadv.trans hadv', htracks⟩

end

/-- **One step**: where the machine has come to its end the process exits, and else the processor
follows the next instruction.  It does so without executing an instruction of its own only for a run
of moves that leads nowhere. -/
theorem Tracks.step (hsize : size ≤ 2 ^ 32) (ht : Tracks h size t s k c) :
    (k = t.size ∧ ∃ n c₀, Mirrors h size s c₀ ∧
      Advances h (loaded (listingOf t size) size) size n c { c₀ with status := .exited 0 }) ∨
    ∃ s' k' n c', t.program.step (s.machineAt k) = (s'.machineAt k', .running) ∧
      Advances h (loaded (listingOf t size) size) size n c c' ∧ Tracks h size t s' k' c' ∧
      (n = 0 → k' = k + 1) := by
  obtain ⟨hm, u, p, hf, rfl, hpc, hsound⟩ := ht
  cases u with
  | act r plain rest =>
    obtain ⟨n, c', hadv, htracks⟩ := Tracks.act hsize hf hm hpc hsound
    exact .inr ⟨_, _, n, c', Program.step_act hm.fits hf.located, hadv, htracks, fun _ => rfl⟩
  | loop enter body leave rest =>
    obtain ⟨c', hadv, htracks⟩ := Tracks.open hf hm hpc (sound_loopTrusted hsound body)
    refine .inr ⟨_, _, 2, c', Program.step_open hm.fits hf.located, hadv, htracks, ?_⟩
    intro h0
    cases h0
  | done =>
    -- nothing is left of this part: the program ends, or the loop around it does
    rcases hf.ends with ⟨hindex, hat⟩ | ⟨enter, body, leave, rest, q, hq, hindex, hposition, houter⟩
    · left
      have hat' : At (listingOf t size) c.pc epilogue := hpc ▸ hat
      obtain ⟨c₀, hm₀, hadv⟩ := advances_epilogue hat' hm
      exact ⟨hindex, 3, c₀, hm₀, hadv⟩
    · have hclosing : c.pc = q.closing size body := hpc.trans hposition
      have hindex' : p.index = q.index + 1 + body.size := hindex
      rw [Spot.trusted, houter] at hsound
      obtain ⟨n, c', hpos, hadv, htracks⟩ := Tracks.close hq hm hclosing hsound
      right
      rw [hindex']
      exact ⟨_, _, n, c', Program.step_close hm.fits hq.located, hadv, htracks, by omega⟩

end

end TapeLang.Assembly
