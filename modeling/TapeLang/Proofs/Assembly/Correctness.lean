import TapeLang.Proofs.Assembly.Simulation
import TapeLang.Proofs.Coalescing

/-!
Generated code is correct and safe.

A listing is loaded from its text and started on any host.  The simulation of single steps is
carried over to whole runs in both directions: `Tracks.steps` follows the machine, and
`Tracks.exhausts` goes on until the processor has executed as many instructions as asked for, which
is possible because runs that leave no code behind follow each other only finitely often.

Main statements: `Listing.refines`, a process that was started from a complete listing does what the
execution of the source does, whether that ends or not, and `Listing.never_leaves_tape`, whatever it
does with the current cell, the pointer is on the tape.
-/

namespace TapeLang.Assembly

open Function

variable {h : Host} {size : Nat} {t : Nest} {s : Store} {k : Nat} {c : Cpu}

/-! ### Whole runs -/

/-- A machine at the end of the program, and a process that has exited. -/
structure Ended (h : Host) (size : Nat) (t : Nest) (m : Machine) (c : Cpu) : Prop where
  place : m.pc = t.size
  exited : ∃ c₀, Mirrors h size m.store c₀ ∧ c = { c₀ with status := .exited 0 }

/-- A machine that is tracked is not at its end if it makes a step. -/
theorem Tracks.step_running (hsize : size ≤ 2 ^ 32) (ht : Tracks h size t s k c) {m : Machine}
    (hstep : t.program.step (s.machineAt k) = (m, .running)) :
    ∃ n c', Advances h (loaded (listingOf t size) size) size n c c' ∧
      Tracks h size t m.store m.pc c' ∧ (n = 0 → m.pc = k + 1) := by
  rcases ht.step hsize with ⟨rfl, -⟩ | ⟨s', k', n, c', hstep', hadv, htracks, hn⟩
  · rw [Program.step_of_finished (finished_program rfl)] at hstep
    cases hstep
  · rw [hstep'] at hstep
    cases hstep
    exact ⟨n, c', hadv, htracks, hn⟩

/-- The processor follows every execution of the machine. -/
theorem Tracks.steps (hsize : size ≤ 2 ^ 32) {n : Nat} {m m' : Machine}
    (hsteps : t.program.Steps n m m') (ht : Tracks h size t m.store m.pc c) :
    ∃ j c', Advances h (loaded (listingOf t size) size) size j c c' ∧
      Tracks h size t m'.store m'.pc c' := by
  induction hsteps generalizing c with
  | refl => exact ⟨0, c, .refl c, ht⟩
  | head hstep _ ih =>
    obtain ⟨i, c₁, hadv, ht₁, -⟩ := ht.step_running hsize hstep
    obtain ⟨j, c', hadv', ht'⟩ := ih ht₁
    exact ⟨i + j, c', hadv.trans hadv', ht'⟩

/-- At the end of the program the process exits. -/
theorem Tracks.exits (hsize : size ≤ 2 ^ 32) {m : Machine} (hm : t.program.Finished m)
    (ht : Tracks h size t m.store m.pc c) :
    ∃ j c', Advances h (loaded (listingOf t size) size) size j c c' ∧ Ended h size t m c' := by
  rcases ht.step hsize with ⟨hk, n, c₀, hm₀, hadv⟩ | ⟨s', k', n, c', hstep, -⟩
  · exact ⟨n, _, hadv, hk, c₀, hm₀, rfl⟩
  · rw [Store.machineAt_store, Program.step_of_finished hm] at hstep
    cases hstep

/-- A tracked process goes on, or exits at the end of the program. -/
theorem Tracks.advances (hsize : size ≤ 2 ^ 32) (ht : Tracks h size t s k c) :
    ∃ i m j c', t.program.Steps i (s.machineAt k) m ∧
      Advances h (loaded (listingOf t size) size) size j c c' ∧
      ((0 < j ∧ Tracks h size t m.store m.pc c') ∨ Ended h size t m c') := by
  -- a run without code leads to the next index, and there are only so many
  induction hd : t.size - k using Nat.strongRecOn generalizing s k c with
  | ind d ih =>
    rcases ht.step hsize with ⟨hk, n, c₀, hm₀, hadv⟩ | ⟨s', k', n, c', hstep, hadv, ht', hn⟩
    · exact ⟨0, _, n, _, .refl _, hadv, .inr ⟨hk, c₀, hm₀, rfl⟩⟩
    · rcases Nat.eq_zero_or_pos n with h0 | hpos
      · have hk' := hn h0
        have hlt := lt_size_of_step hstep
        obtain ⟨i, m, j, c'', hsteps, hadv', hend⟩ := ih (t.size - k') (by omega) ht' rfl
        subst h0
        cases hadv
        exact ⟨i + 1, m, j, c'', .head hstep hsteps, hadv', hend⟩
      · exact ⟨1, _, n, c', .single hstep, hadv, .inl ⟨hpos, ht'⟩⟩

/-- A tracked process goes on for as long as one likes, unless it exits at the end of the
program. -/
theorem Tracks.exhausts (hsize : size ≤ 2 ^ 32) (ht : Tracks h size t s k c) (n : Nat) :
    ∃ i m j c', t.program.Steps i (s.machineAt k) m ∧
      Advances h (loaded (listingOf t size) size) size j c c' ∧
      ((n ≤ j ∧ Tracks h size t m.store m.pc c') ∨ Ended h size t m c') := by
  induction n with
  | zero => exact ⟨0, _, 0, c, .refl _, .refl c, .inl ⟨Nat.le_refl 0, ht⟩⟩
  | succ n ih =>
    obtain ⟨i, m, j, c₁, hsteps, hadv, ⟨hj, ht₁⟩ | hend⟩ := ih
    · obtain ⟨i', m', j', c', hsteps', hadv', hmore⟩ := ht₁.advances hsize
      refine ⟨i + i', m', j + j', c', hsteps.trans hsteps', hadv.trans hadv', ?_⟩
      rcases hmore with ⟨hj', ht'⟩ | hend
      · exact .inl ⟨by omega, ht'⟩
      · exact .inr hend
    · exact ⟨i, m, j, c₁, hsteps, hadv, .inr hend⟩

/-- The prologue leads to a tracked processor. -/
theorem exists_tracks {input : List UInt8} (hpos : 0 < size)
    (hfresh : Fresh h (loaded (listingOf t size) size) input c) :
    ∃ c', Advances h (loaded (listingOf t size) size) size 2 c c' ∧
      Tracks h size t (.start size (itemsOf input)) 0 c' := by
  obtain ⟨c', hadv, hm, hpc⟩ := advances_prologue hpos hfresh
  exact ⟨c', hadv, hm, t, _, .whole, rfl, hpc, fun _ => rfl⟩

/-! ### Output -/

theorem prefix_output_step (img : Image) (c : Cpu) : c.output <+: (c.step h img).output := by
  unfold Cpu.step
  split
  · split
    · rename_i i _
      cases i with
      | syscall =>
        unfold Cpu.exec Cpu.call
        dsimp only
        split
        · split <;> exact List.prefix_refl _
        · split
          · -- a write, which is all that ever adds to the output
            exact List.prefix_append _ _
          · split <;> exact List.prefix_refl _
      | je l =>
        simp only [Cpu.exec, Cpu.jump]
        split
        · split <;> exact List.prefix_refl _
        · exact List.prefix_refl _
      | jne l =>
        simp only [Cpu.exec, Cpu.jump]
        split
        · exact List.prefix_refl _
        · split <;> exact List.prefix_refl _
      | _ => exact List.prefix_refl _
    · exact List.prefix_refl _
  · exact List.prefix_refl _

/-- What was written stays. -/
theorem prefix_output_run (img : Image) (n j : Nat) (c : Cpu) :
    (c.run h img n).output <+: (c.run h img (n + j)).output := by
  induction j with
  | zero => exact List.prefix_refl _
  | succ j ih =>
    refine ih.trans ?_
    rw [← Nat.add_assoc]
    show _ <+: ((Cpu.step h img)^[n + j + 1] c).output
    rw [iterate_succ_apply']
    exact prefix_output_step img _

/-! ### Listings -/

/-- A machine that never ends makes every number of steps. -/
theorem Tracks.exists_steps (hsize : size ≤ 2 ^ 32) (ht : Tracks h size t s k c)
    (hnever : ∀ i m, t.program.Steps i (s.machineAt k) m → ¬ t.program.Finished m) (n : Nat) :
    ∃ m, t.program.Steps n (s.machineAt k) m := by
  induction n with
  | zero => exact ⟨_, .refl _⟩
  | succ n ih =>
    obtain ⟨m, hsteps⟩ := ih
    obtain ⟨j, c', -, ht'⟩ := Tracks.steps hsize hsteps ht
    rcases ht'.step hsize with ⟨hk, -⟩ | ⟨s', k', i, c'', hstep, -⟩
    · exact absurd (finished_program hk) (hnever n m hsteps)
    · exact ⟨_, hsteps.trans (.single hstep)⟩

/-- What a process has in common with a machine when both have come to their end. -/
structure Agrees (h : Host) (size : Nat) (m : Machine) (c : Cpu) : Prop where
  exited : c.status = .exited 0
  output : c.output = m.output.toList
  pointer : (c.regs .r9).toNat = m.pointer
  cells : m.tape.size = size
  tape : ∀ i < size, m.tape[i]? = some (c.memory (h.base + BitVec.ofNat 64 i))

theorem Ended.agrees {m : Machine} (he : Ended h size t m c) : Agrees h size m c := by
  obtain ⟨-, c₀, hm, rfl⟩ := he
  have hcells : m.tape.size = size := hm.fits.cells
  refine ⟨rfl, hm.output, hm.pointer, hcells, ?_⟩
  intro i hi
  show m.tape[i]? = some (c₀.memory (h.base + BitVec.ofNat 64 i))
  rw [hm.cells i hi]
  have hlt : i < m.tape.size := by
    rw [hcells]
    exact hi
  show m.tape[i]? = some (m.tape.getD i 0)
  simp [hlt]

/-- A process that has ended stays as it is. -/
theorem run_of_exited {img : Image} {code : Word} (hc : c.status = .exited code) (n : Nat) :
    c.run h img n = c := by
  induction n with
  | zero => rfl
  | succ n ih =>
    show (Cpu.step h img)^[n] (c.step h img) = c
    have hstep : c.step h img = c := by simp [Cpu.step, hc]
    rw [hstep]
    exact ih

section

variable {ε : Type} {source : Source ε} {input : List UInt8}

/-- Where the execution of a source does not end, no number of steps ends it. -/
theorem not_finished_of_never (hp : compile source = .ok t.program)
    (hnever : ∀ fuel n m, execute size source (itemsOf input) none fuel ≠ ⟨m, .ok n⟩) (i : Nat)
    (m : Machine) (hsteps : t.program.Steps i (.start size (itemsOf input)) m) :
    ¬ t.program.Finished m := by
  intro hfin
  exact hnever i i m ((execute_eq_ok_iff hp).mpr ⟨Nat.le_refl i, hsteps, hfin⟩)

variable (hpos : 0 < size) (hsize : size ≤ 2 ^ 32)
  (hfresh : Fresh h (loaded (listingOf t size) size) input c)

include hpos hsize hfresh

/-- A process goes on for as long as one likes, unless it exits at the end of the program. -/
theorem Fresh.exhausts (n : Nat) :
    ∃ i m j c', t.program.Steps i (.start size (itemsOf input)) m ∧
      Advances h (loaded (listingOf t size) size) size j c c' ∧
      ((n ≤ j ∧ Tracks h size t m.store m.pc c') ∨ Ended h size t m c') := by
  obtain ⟨c₁, hadv, ht⟩ := exists_tracks hpos hfresh
  obtain ⟨i, m, j, c', hsteps, hadv', hmore⟩ := ht.exhausts hsize n
  refine ⟨i, m, 2 + j, c', hsteps, hadv.trans hadv', ?_⟩
  rcases hmore with ⟨hj, ht'⟩ | hend
  · exact .inl ⟨by omega, ht'⟩
  · exact .inr hend

/-- Where the execution of a source ends, the process exits with the same output, pointer and
tape. -/
theorem Fresh.exists_agrees (hp : compile source = .ok t.program) {fuel n : Nat} {m : Machine}
    (hend : execute size source (itemsOf input) none fuel = ⟨m, .ok n⟩) :
    ∃ j, Agrees h size m (c.run h (loaded (listingOf t size) size) j) := by
  obtain ⟨-, hsteps, hfin⟩ := (execute_eq_ok_iff hp).mp hend
  obtain ⟨c₁, hadv, ht⟩ := exists_tracks hpos hfresh
  obtain ⟨i, c₂, hadv', ht'⟩ := Tracks.steps hsize hsteps ht
  obtain ⟨j, c₃, hadv'', hended⟩ := ht'.exits hsize hfin
  refine ⟨2 + i + j, ?_⟩
  rw [((hadv.trans hadv').trans hadv'').run_eq]
  exact hended.agrees

section

variable (hnever : ∀ i m, t.program.Steps i (.start size (itemsOf input)) m →
  ¬ t.program.Finished m)

include hnever

/-- A process whose machine does not end is tracked after as many instructions as one likes. -/
theorem Fresh.exists_tracked (n : Nat) :
    ∃ i m j c', t.program.Steps i (.start size (itemsOf input)) m ∧
      Advances h (loaded (listingOf t size) size) size j c c' ∧ n ≤ j ∧
      Tracks h size t m.store m.pc c' := by
  obtain ⟨i, m, j, c', hsteps, hadv, ⟨hj, ht⟩ | hend⟩ := hfresh.exhausts hpos hsize n
  · exact ⟨i, m, j, c', hsteps, hadv, hj, ht⟩
  · exact absurd (finished_program hend.place) (hnever i m hsteps)

theorem Fresh.running_of_never (n : Nat) :
    (c.run h (loaded (listingOf t size) size) n).status = .running := by
  obtain ⟨i, m, j, c', -, hadv, hj, -⟩ := hfresh.exists_tracked hpos hsize hnever (n + 1)
  exact (hadv.before hj).1

/-- What the process has written by some time, the execution writes by some time. -/
theorem Fresh.output_of_run (hp : compile source = .ok t.program) (n : Nat) :
    ∃ fuel, (c.run h (loaded (listingOf t size) size) n).output <+:
      (execute size source (itemsOf input) none fuel).machine.output.toList := by
  obtain ⟨i, m, j, c', hsteps, hadv, hj, ht⟩ := hfresh.exists_tracked hpos hsize hnever n
  obtain ⟨j, rfl⟩ := Nat.exists_eq_add_of_le hj
  refine ⟨i, ?_⟩
  have hout : c'.output = m.output.toList := ht.mirrors.output
  rw [machine_execute_of_steps hp hsteps, ← hout, ← hadv.run_eq]
  exact prefix_output_run _ n j c

/-- What the execution has written by some time, the process writes by some time. -/
theorem Fresh.output_of_execute (hp : compile source = .ok t.program) (fuel : Nat) :
    ∃ n, (execute size source (itemsOf input) none fuel).machine.output.toList <+:
      (c.run h (loaded (listingOf t size) size) n).output := by
  obtain ⟨c₁, hadv, ht⟩ := exists_tracks hpos hfresh
  obtain ⟨m, hsteps⟩ := ht.exists_steps hsize hnever fuel
  obtain ⟨j, c', hadv', ht'⟩ := Tracks.steps hsize hsteps ht
  have hout : c'.output = m.output.toList := ht'.mirrors.output
  have hmachine : (execute size source (itemsOf input) none fuel).machine = m :=
    machine_execute_of_steps hp hsteps
  have hsame : (execute size source (itemsOf input) none fuel).machine.output.toList =
      (c.run h (loaded (listingOf t size) size) (2 + j)).output := by
    rw [hmachine, (hadv.trans hadv').run_eq, hout]
  exact ⟨2 + j, hsame ▸ List.prefix_refl _⟩

end

/-- Whatever the process does next, it is safe. -/
theorem Fresh.safe (n : Nat)
    (hrun : (c.run h (loaded (listingOf t size) size) n).status = .running) :
    (c.run h (loaded (listingOf t size) size) n).Safe h (loaded (listingOf t size) size) size := by
  obtain ⟨i, m, j, c', -, hadv, hmore⟩ := hfresh.exhausts hpos hsize (n + 1)
  rcases Nat.lt_or_ge n j with hlt | hge
  · exact (hadv.before hlt).2
  · rcases hmore with ⟨hj, -⟩ | hend
    · omega
    · -- the process has exited by then, against the assumption
      obtain ⟨d, rfl⟩ := Nat.exists_eq_add_of_le hge
      have hexited := hend.agrees.exited
      have hsame : c.run h (loaded (listingOf t size) size) (j + d) = c' := by
        rw [Cpu.run, Nat.add_comm, iterate_add_apply]
        show Cpu.run h _ d (c.run h _ j) = c'
        rw [hadv.run_eq, run_of_exited hexited]
      rw [hsame, hexited] at hrun
      cases hrun

end

namespace Listing

variable {ε : Type} {source : Source ε} {summary : Summary}

/-- There is a process to start from every complete listing, on every host and for every input. -/
theorem exists_fresh {size : Int} (hsize : size ≠ 0)
    (haccepted : (ofSource size source).result = .ok summary) {img : Image}
    (himg : Image.ofText? (ofSource size source).text = some img) (h : Host)
    (input : List UInt8) : ∃ c, Fresh h img input c := by
  obtain ⟨t, -, hcode⟩ := exists_nest hsize haccepted
  rw [ofText?_text hcode, Option.some.injEq] at himg
  subst himg
  refine ⟨⟨fun _ => 0, false, false, fun _ => 0, input, [], 0, 0, .running⟩, ?_⟩
  exact ⟨rfl, target_start t size, rfl, rfl, fun _ _ => rfl⟩

/-- **Correctness of generated code**: the text of a complete listing loads, and on every host a
process that is started from it does what the execution of the source does.  If the execution ends,
the process exits with status zero and with the output, the pointer and the tape of the execution;
if it does not, the process runs for ever, and what one side has written at some time the other one
writes at some time. -/
theorem refines (hpos : 0 < size) (hsize : size ≤ 2 ^ 32)
    (haccepted : (ofSource size source).result = .ok summary) :
    ∃ img, Image.ofText? (ofSource size source).text = some img ∧ img.cells = size ∧
      ∀ (h : Host) (input : List UInt8) (c : Cpu), Fresh h img input c →
        (∀ fuel n m, execute size source (itemsOf input) none fuel = ⟨m, .ok n⟩ →
          ∃ j, Agrees h size m (c.run h img j)) ∧
        ((∀ fuel n m, execute size source (itemsOf input) none fuel ≠ ⟨m, .ok n⟩) →
          (∀ n, (c.run h img n).status = .running) ∧
          (∀ n, ∃ fuel, (c.run h img n).output <+:
            (execute size source (itemsOf input) none fuel).machine.output.toList) ∧
          (∀ fuel, ∃ n, (execute size source (itemsOf input) none fuel).machine.output.toList <+:
            (c.run h img n).output)) := by
  obtain ⟨t, hp, hcode⟩ := exists_nest (by omega) haccepted
  refine ⟨loaded (listingOf t size) size, ofText?_text hcode, rfl, ?_⟩
  intro h input c hfresh
  refine ⟨fun fuel n m => hfresh.exists_agrees hpos hsize hp, ?_⟩
  intro hnever
  have hnever' := not_finished_of_never hp hnever
  exact ⟨hfresh.running_of_never hpos hsize hnever', hfresh.output_of_run hpos hsize hnever' hp,
    hfresh.output_of_execute hpos hsize hnever' hp⟩

/-- A host with the tape at address 4096, where system calls leave ones behind. -/
def sampleHost : Host := ⟨4096, fun _ _ => BitVec.allOnes 64⟩

/-- A process started from the listing of `doubling` writes its first byte twice as large. -/
theorem refines_doubling :
    ∃ img c j, Image.ofText? (ofSource 2 doubling).text = some img ∧
      Fresh sampleHost img [3, 7] c ∧ (c.run sampleHost img j).status = .exited 0 ∧
      (c.run sampleHost img j).output = [6] := by
  have haccepted : (ofSource (2 : Nat) doubling).result = .ok ⟨2, 9, 1, 1⟩ := rfl
  obtain ⟨img, himg, -, hrefines⟩ := refines (by decide) (by decide) haccepted
  obtain ⟨c, hfresh⟩ := exists_fresh (by decide) haccepted himg sampleHost [3, 7]
  have hend : (execute 2 doubling (itemsOf [3, 7]) none 30).result.toOption = some 19 := by
    decide +kernel
  have houtput : (execute 2 doubling (itemsOf [3, 7]) none 30).machine.output = #[6] := by
    decide +kernel
  obtain ⟨m, result, hrun⟩ :
      ∃ m result, execute 2 doubling (itemsOf [3, 7]) none 30 = ⟨m, result⟩ := ⟨_, _, rfl⟩
  rw [hrun] at hend houtput
  cases result with
  | error => cases hend
  | ok n =>
    obtain ⟨j, hagrees⟩ := (hrefines sampleHost [3, 7] c hfresh).1 30 n m hrun
    refine ⟨img, c, j, himg, hfresh, hagrees.exited, ?_⟩
    rw [hagrees.output]
    exact congrArg Array.toList houtput

/-- **Memory safety of generated code**: at every time in the life of a process that was started
from a complete listing, an instruction or system call that uses the current cell finds the pointer
on the tape and the tape at its address, and a shift of the pointer without a correction does not
leave the tape. -/
theorem never_leaves_tape (hpos : 0 < size) (hsize : size ≤ 2 ^ 32)
    (haccepted : (ofSource size source).result = .ok summary) :
    ∃ img, Image.ofText? (ofSource size source).text = some img ∧
      ∀ (h : Host) (input : List UInt8) (c : Cpu), Fresh h img input c →
        ∀ n, (c.run h img n).status = .running → (c.run h img n).Safe h img size := by
  obtain ⟨t, -, hcode⟩ := exists_nest (by omega) haccepted
  refine ⟨loaded (listingOf t size) size, ofText?_text hcode, ?_⟩
  intro h input c hfresh
  exact hfresh.safe hpos hsize

/-- A process started from the listing of `doubling`, with moves inside and outside of its loop. -/
theorem doubling_never_leaves_tape :
    ∃ img c, Image.ofText? (ofSource 2 doubling).text = some img ∧
      Fresh sampleHost img [3, 7] c ∧
      ∀ n, (c.run sampleHost img n).status = .running →
        (c.run sampleHost img n).Safe sampleHost img 2 := by
  have haccepted : (ofSource (2 : Nat) doubling).result = .ok ⟨2, 9, 1, 1⟩ := rfl
  obtain ⟨img, himg, hsafe⟩ := never_leaves_tape (by decide) (by decide) haccepted
  obtain ⟨c, hfresh⟩ := exists_fresh (by decide) haccepted himg sampleHost [3, 7]
  exact ⟨img, c, himg, hfresh, hsafe sampleHost [3, 7] c hfresh⟩

end Listing

end TapeLang.Assembly
