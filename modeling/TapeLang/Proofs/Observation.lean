import TapeLang.Proofs.Execution
import TapeLang.Proofs.JumpTable

/-!
What an observer of an execution can rely on.

`Machine.Sound` is what holds between any two instructions: the tape has its cells, the pointer
stands on one of them, the next instruction is in the program or just behind it, and a bracket that
is about to be executed has a partner.  `Machine.Effect` is what the next instruction makes of a
machine, case by case.  It keeps a machine sound, and a sound machine never fails to execute its
next instruction (`Machine.Sound.step`), so that all machines an execution goes through are sound
(`Machine.Sound.steps`).

`Program.Trail` lists the snapshots that are taken on the way from one machine to another.  The
snapshots of an observation are a trail from the start, with a last one behind it if the execution
ended by itself (`Program.Seen`).

Main statement: `executions_orderly`, for every source, input and budget an execution or observation
on a tape with at least one cell ends in one of the ways that are meant, and the snapshots count the
steps and only ever add to the output.
-/

namespace TapeLang

/-! ### Between two instructions -/

/-- A machine as a program on a tape of `size` cells may leave it. -/
structure Machine.Sound (p : Program) (size : Nat) (m : Machine) : Prop where
  cells : m.tape.size = size
  bytes : ∀ v ∈ m.tape, v.toNat ≤ 255
  pointer : m.pointer < size
  pc : m.pc ≤ p.code.size
  /-- A bracket that is executed next is in the jump table. -/
  partner : ∀ a n, p.code[m.pc]? = some ⟨a, n⟩ → a.isBracket = true →
    ∃ j < p.code.size, p.jump? m.pc = some j

namespace Machine

variable {p : Program} {size : Nat} {m m' : Machine}

theorem sound_machineAt (hp : p.Linked) {s : Store} (hs : s.Fits size) {pc : Nat}
    (hpc : pc ≤ p.code.size) : (s.machineAt pc).Sound p size where
  cells := hs.cells
  bytes := fun v _ => Nat.le_of_lt_succ v.toNat_lt
  pointer := hs.pointer
  pc := hpc
  partner := fun a n => hp pc a n

theorem sound_start (hp : p.Linked) (hsize : 0 < size) (input : List Int) :
    (start size input).Sound p size :=
  sound_machineAt hp (Store.fits_start hsize input) (Nat.zero_le _)

/-- What the next instruction makes of a machine.  Either bracket goes on behind its partner or
behind itself, by the current cell alone. -/
inductive Effect (p : Program) (m : Machine) : Machine → Prop
  | act {a : Symbol} {n : Nat} : p.code[m.pc]? = some ⟨a, n⟩ → a.isBracket = false →
      Effect p m (((Store.act a)^[n] m.store).machineAt (m.pc + 1))
  | enter {n : Nat} : p.code[m.pc]? = some ⟨.loopOpen, n⟩ → m.store.cell ≠ 0 →
      Effect p m (m.store.machineAt (m.pc + 1))
  | skip {n j : Nat} : p.code[m.pc]? = some ⟨.loopOpen, n⟩ → p.jump? m.pc = some j →
      j < p.code.size → m.store.cell = 0 → Effect p m (m.store.machineAt (j + 1))
  | leave {n : Nat} : p.code[m.pc]? = some ⟨.loopClose, n⟩ → m.store.cell = 0 →
      Effect p m (m.store.machineAt (m.pc + 1))
  | again {n j : Nat} : p.code[m.pc]? = some ⟨.loopClose, n⟩ → p.jump? m.pc = some j →
      j < p.code.size → m.store.cell ≠ 0 → Effect p m (m.store.machineAt (j + 1))

theorem Sound.fits (h : m.Sound p size) : m.store.Fits size := ⟨h.cells, h.pointer⟩

/-- A sound machine executes its next instruction. -/
theorem Sound.exists_step (h : m.Sound p size) {i : Instruction} (hi : p.code[m.pc]? = some i) :
    ∃ m', p.step m = (m', .running) ∧ Effect p m m' := by
  obtain ⟨a, n⟩ := i
  unfold Program.step
  rw [hi]
  cases hb : a.isBracket with
  | false => exact ⟨_, exec_eq_iterate h.fits m.pc _ hb, .act hi hb⟩
  | true =>
    obtain ⟨j, hj, hjump⟩ := h.partner a n hi hb
    rw [hjump]
    cases a with
    | loopOpen =>
      refine ⟨_, exec_loopOpen h.fits m.pc j n, ?_⟩
      by_cases hcell : m.store.cell = 0
      · rw [if_pos hcell]
        exact .skip hi hjump hj hcell
      · rw [if_neg hcell]
        exact .enter hi hcell
    | loopClose =>
      refine ⟨_, exec_loopClose h.fits m.pc j n, ?_⟩
      by_cases hcell : m.store.cell = 0
      · rw [if_pos hcell]
        exact .leave hi hcell
      · rw [if_neg hcell]
        exact .again hi hjump hj hcell
    | _ => cases hb

theorem Sound.effect (h : m.Sound p size) (hs : p.step m = (m', .running)) : Effect p m m' := by
  cases hcode : p.code[m.pc]? with
  | none =>
    rw [Program.step_of_finished hcode] at hs
    cases hs
  | some i =>
    obtain ⟨m₁, hm₁, heffect⟩ := h.exists_step hcode
    rw [hs] at hm₁
    cases hm₁
    exact heffect

/-- Whatever is executed, it goes on with or behind an instruction of the program. -/
theorem Effect.sound (hp : p.Linked) (h : m.Sound p size) (he : Effect p m m') :
    m'.Sound p size := by
  have hnext : ∀ {i : Instruction}, p.code[m.pc]? = some i → m.pc + 1 ≤ p.code.size :=
    fun hi => (Array.getElem?_eq_some_iff.mp hi).1
  cases he with
  | @act a n hi _ => exact sound_machineAt hp (h.fits.iterate a n) (hnext hi)
  | enter hi _ => exact sound_machineAt hp h.fits (hnext hi)
  | skip _ _ hj _ => exact sound_machineAt hp h.fits hj
  | leave hi _ => exact sound_machineAt hp h.fits (hnext hi)
  | again _ _ hj _ => exact sound_machineAt hp h.fits hj

/-- A sound machine executes its next instruction and is sound again, unless there is none. -/
theorem Sound.step (hp : p.Linked) (h : m.Sound p size) :
    (∃ m', p.step m = (m', .running) ∧ m'.Sound p size) ∨
      (p.step m = (m, .ended) ∧ m.pc = p.code.size) := by
  cases hcode : p.code[m.pc]? with
  | none =>
    have hge := Array.getElem?_eq_none_iff.mp hcode
    exact .inr ⟨Program.step_of_finished hcode, Nat.le_antisymm h.pc hge⟩
  | some i =>
    obtain ⟨m', hs, heffect⟩ := h.exists_step hcode
    exact .inl ⟨m', hs, heffect.sound hp h⟩

theorem Sound.steps (hp : p.Linked) {n : Nat} (hsteps : p.Steps n m m') (h : m.Sound p size) :
    m'.Sound p size := by
  induction hsteps with
  | refl => exact h
  | head hs _ ih => exact ih ((h.effect hs).sound hp h)

/-- An instruction only adds to the output. -/
theorem prefix_output_exec (i : Instruction) (partner : Nat) (m : Machine) :
    m.output.toList <+: (m.exec i partner).1.output.toList := by
  obtain ⟨tape, pointer, output, input, pc⟩ := m
  unfold exec
  split
  · dsimp only [changeCell]
    split <;> exact List.prefix_refl _
  · dsimp only [changeCell]
    split <;> exact List.prefix_refl _
  · dsimp only [shift]
    split <;> exact List.prefix_refl _
  · dsimp only [shift]
    split <;> exact List.prefix_refl _
  · dsimp only [read]
    split
    · exact List.prefix_refl _
    · split <;> exact List.prefix_refl _
  · dsimp only [write]
    split
    · simp
    · exact List.prefix_refl _
  · dsimp only [branch]
    split <;> exact List.prefix_refl _
  · dsimp only [branch]
    split <;> exact List.prefix_refl _

end Machine

namespace Program

variable {p : Program} {m m' : Machine}

theorem prefix_output_step (h : p.step m = (m', .running)) :
    m.output.toList <+: m'.output.toList := by
  unfold step at h
  split at h
  · cases h
  · rename_i i _
    have hprefix := m.prefix_output_exec i ((p.jump? m.pc).getD m.pc)
    rwa [h] at hprefix

/-! ### Trails -/

/-- The snapshots taken on the way from one machine to another, of which the first is at step
`d + 1`. -/
inductive Trail (p : Program) : Nat → Machine → List Snapshot → Machine → Prop
  | refl (d : Nat) (m : Machine) : Trail p d m [] m
  | head {d : Nat} {m m₁ m' : Machine} {i : Instruction} {ss : List Snapshot} :
      p.code[m.pc]? = some i → p.step m = (m₁, .running) → Trail p (d + 1) m₁ ss m' →
      Trail p d m (m₁.snapshot (d + 1) (some i.symbol) :: ss) m'

/-- The snapshot behind `i` others: of the machine that `i + 1` instructions lead to, with the
symbol of the last one, or of the machine that `i` instructions lead to if there is no more. -/
inductive Shows (p : Program) (start : Machine) (i : Nat) : Snapshot → Prop
  | executed {m m' : Machine} {instr : Instruction} :
      p.Steps i start m → p.code[m.pc]? = some instr → p.step m = (m', .running) →
      Shows p start i (m'.snapshot (i + 1) (some instr.symbol))
  | finished {m : Machine} :
      p.Steps i start m → m.pc = p.code.size → Shows p start i (m.snapshot i none)

namespace Trail

variable {d : Nat} {ss : List Snapshot}

theorem steps (h : p.Trail d m ss m') : p.Steps ss.length m m' := by
  induction h with
  | refl d m => exact .refl m
  | head _ hs _ ih => exact .head hs ih

/-- A trail shows each machine it leads to. -/
theorem executed (h : p.Trail d m ss m') {i : Nat} {s : Snapshot} (hi : ss[i]? = some s) :
    ∃ m₁ m₂ instr, p.Steps i m m₁ ∧ p.code[m₁.pc]? = some instr ∧
      p.step m₁ = (m₂, .running) ∧ s = m₂.snapshot (d + i + 1) (some instr.symbol) := by
  induction h generalizing i with
  | refl => cases hi
  | @head d m m₁ m' instr ss hcode hs _ ih =>
    cases i with
    | zero =>
      cases hi
      exact ⟨m, m₁, instr, .refl m, hcode, hs, rfl⟩
    | succ i =>
      obtain ⟨m₂, m₃, instr', hsteps, hcode', hs', hsnapshot⟩ := ih hi
      refine ⟨m₂, m₃, instr', .head hs hsteps, hcode', hs', ?_⟩
      rw [hsnapshot, Nat.add_right_comm d 1 i, Nat.add_assoc d i 1]

theorem shows (h : p.Trail 0 m ss m') {i : Nat} {s : Snapshot} (hi : ss[i]? = some s) :
    s.symbol ≠ none ∧ p.Shows m i s := by
  obtain ⟨m₁, m₂, instr, hsteps, hcode, hs, hsnapshot⟩ := h.executed hi
  rw [Nat.zero_add] at hsnapshot
  subst hsnapshot
  exact ⟨Option.some_ne_none _, .executed hsteps hcode hs⟩

/-- What is seen on a trail lies between what was written before it and what is written after it. -/
theorem prefix_output (h : p.Trail d m ss m') :
    m.output.toList <+: m'.output.toList ∧
      ∀ s ∈ ss, m.output.toList <+: s.output.toList ∧ s.output.toList <+: m'.output.toList := by
  induction h with
  | refl => exact ⟨List.prefix_refl _, by simp⟩
  | head _ hs _ ih =>
    have hstep := prefix_output_step hs
    refine ⟨hstep.trans ih.1, ?_⟩
    intro s hs'
    rcases List.mem_cons.mp hs' with rfl | hs'
    · exact ⟨hstep, ih.1⟩
    · exact ⟨hstep.trans (ih.2 s hs').1, (ih.2 s hs').2⟩

theorem outputs (h : p.Trail d m ss m') :
    ss.Pairwise fun s s' => s.output.toList <+: s'.output.toList := by
  induction h with
  | refl => exact .nil
  | head _ _ htrail ih => exact .cons (fun s hs => (htrail.prefix_output.2 s hs).1) ih

end Trail

/-- A trace is a trail: up to the end of the program, or as long as was asked for. -/
theorem traceFrom_cases (hp : p.Linked) {size : Nat} (h : m.Sound p size) (n d : Nat)
    (seen : Array Snapshot) :
    ∃ ss m', p.Trail d m ss m' ∧
      ((p.traceFrom n d m seen = (m', .ended, seen ++ ss.toArray) ∧ ss.length ≤ n ∧
          m'.pc = p.code.size) ∨
        (p.traceFrom n d m seen = (m', .paused, seen ++ ss.toArray) ∧ ss.length = n ∧
          m'.pc < p.code.size)) := by
  induction n generalizing d m seen with
  | zero =>
    -- nothing more is allowed, and whether that is the end is decided by the place in the program
    refine ⟨[], m, .refl d m, ?_⟩
    rw [traceFrom]
    rcases Nat.lt_or_eq_of_le h.pc with hlt | heq
    · exact .inr ⟨by simp [hlt], rfl, hlt⟩
    · exact .inl ⟨by simp [heq], Nat.le_refl _, heq⟩
  | succ n ih =>
    rcases h.step hp with ⟨m₁, hs, hsound⟩ | ⟨hs, hpc⟩
    · obtain ⟨i, hi⟩ : ∃ i, p.code[m.pc]? = some i := by
        cases hcode : p.code[m.pc]? with
        | none =>
          rw [step_of_finished hcode] at hs
          cases hs
        | some i => exact ⟨i, rfl⟩
      obtain ⟨ss, m', htrail, hcases⟩ :=
        ih hsound (d + 1) (seen.push (m₁.snapshot (d + 1) (some i.symbol)))
      refine ⟨m₁.snapshot (d + 1) (some i.symbol) :: ss, m', .head hi hs htrail, ?_⟩
      have hseen : seen.push (m₁.snapshot (d + 1) (some i.symbol)) ++ ss.toArray =
          seen ++ (m₁.snapshot (d + 1) (some i.symbol) :: ss).toArray := by
        apply Array.ext'
        simp
      rw [traceFrom, hs, hi, ← hseen]
      rcases hcases with ⟨htrace, hlength, hpc⟩ | ⟨htrace, hlength, hpc⟩
      · exact .inl ⟨htrace, Nat.succ_le_succ hlength, hpc⟩
      · exact .inr ⟨htrace, congrArg Nat.succ hlength, hpc⟩
    · refine ⟨[], m, .refl d m, .inl ⟨?_, Nat.zero_le _, hpc⟩⟩
      rw [traceFrom, hs]
      simp

/-- What is seen of an execution up to some machine: a trail, and the last snapshot if the program
is over there. -/
inductive Seen (p : Program) (start : Machine) : List Snapshot → Machine → Prop
  | going {ss : List Snapshot} {m : Machine} : p.Trail 0 start ss m → Seen p start ss m
  | complete {ss : List Snapshot} {m : Machine} : p.Trail 0 start ss m → m.pc = p.code.size →
      Seen p start (ss ++ [m.snapshot ss.length none]) m

namespace Seen

variable {start : Machine} {ss : List Snapshot}

theorem steps (h : p.Seen start ss m) : ∃ n, p.Steps n start m := by
  cases h with
  | going htrail => exact ⟨_, htrail.steps⟩
  | complete htrail => exact ⟨_, htrail.steps⟩

/-- Every snapshot shows what it should, and the last one is the only one without a symbol. -/
theorem shows (h : p.Seen start ss m) {i : Nat} {s : Snapshot} (hi : ss[i]? = some s) :
    p.Shows start i s ∧ (s.symbol = none → i + 1 = ss.length) := by
  cases h with
  | going htrail =>
    obtain ⟨hsymbol, hshows⟩ := htrail.shows hi
    exact ⟨hshows, fun hnone => absurd hnone hsymbol⟩
  | @complete ss _ htrail hpc =>
    rcases Nat.lt_or_ge i ss.length with hlt | hge
    · rw [List.getElem?_append_left hlt] at hi
      obtain ⟨hsymbol, hshows⟩ := htrail.shows hi
      exact ⟨hshows, fun hnone => absurd hnone hsymbol⟩
    · obtain ⟨j, rfl⟩ := Nat.exists_eq_add_of_le hge
      rw [List.getElem?_append_right hge, Nat.add_sub_cancel_left] at hi
      cases j with
      | zero =>
        cases hi
        exact ⟨.finished htrail.steps hpc, fun _ => by simp⟩
      | succ j => cases hi

theorem outputs (h : p.Seen start ss m) :
    ss.Pairwise fun s s' => s.output.toList <+: s'.output.toList := by
  cases h with
  | going htrail => exact htrail.outputs
  | complete htrail =>
    rw [List.pairwise_append]
    refine ⟨htrail.outputs, List.pairwise_singleton _ _, ?_⟩
    intro s hs s' hs'
    obtain rfl := List.mem_singleton.mp hs'
    exact (htrail.prefix_output.2 s hs).2

end Seen

end Program

/-! ### Executions and observations -/

variable {ε : Type}

/-- The errors that an execution may end with: what the source deserves, a budget that does not
suffice or, where there is none, fuel that does not suffice. -/
inductive RunError.Expected (source : Source ε) (budget : Option Int) : RunError ε → Prop
  | interrupted {i : Interruption ε} :
      compile source = .error i → Expected source budget (.interrupted i)
  | stepLimit {n : Int} : budget = some n → Expected source budget .stepLimit
  | unsettled : budget = none → Expected source budget .unsettled

theorem expected_exhaustion (source : Source ε) (budget : Option Int) :
    RunError.Expected source budget (exhaustion budget) := by
  cases budget with
  | none => exact .unsettled rfl
  | some n => exact .stepLimit rfl

/-- An execution that ends as it may, at a machine that its program leads to. -/
structure Execution.Orderly (x : Execution ε) (source : Source ε) (size : Nat) (input : List Int)
    (budget : Option Int) : Prop where
  error : ∀ e, x.result = .error e → RunError.Expected source budget e
  machine : ∀ p, compile source = .ok p → ∃ n, p.Steps n (.start size input) x.machine
  /-- A source that does not compile leaves a cleared tape. -/
  refused : ∀ i, compile source = .error i → x.machine = .start size []

/-- An observation that ends as it may, with snapshots that show what was executed. -/
structure Observation.Orderly (o : Observation ε) (source : Source ε) (size : Nat)
    (input : List Int) (budget : Option Int) (take : Option Nat) : Prop where
  error : ∀ e, o.error = some e → RunError.Expected source budget e
  machine : take ≠ some 0 → ∀ p, compile source = .ok p →
    ∃ n, p.Steps n (.start size input) o.machine
  /-- There is nothing to see of a source that does not compile, and the tape is cleared. -/
  refused : take ≠ some 0 → ∀ i, compile source = .error i →
    o.snapshots = #[] ∧ o.machine = .start size []
  shows : ∀ p, compile source = .ok p → ∀ i s, o.snapshots[i]? = some s →
    p.Shows (.start size input) i s
  /-- A snapshot without a symbol is the last one. -/
  last : ∀ i s, o.snapshots[i]? = some s → s.symbol = none → i + 1 = o.snapshots.size
  /-- Unless the observer has had enough or there was an error, the last snapshot is without a
  symbol. -/
  ended : o.error = none → take ≠ some o.snapshots.size →
    ∃ s, o.snapshots.back? = some s ∧ s.symbol = none
  outputs : o.snapshots.toList.Pairwise fun s s' => s.output.toList <+: s'.output.toList

/-- What is observed of a trace that was allowed `n` instructions. -/
def Observation.ofTrace (budget : Option Int) (take : Option Nat) (n : Nat) :
    Machine × Program.Halt × Array Snapshot → Observation ε
  | (m, .fault f, seen) => ⟨seen, m, some (.fault f)⟩
  | (m, .ended, seen) =>
    ⟨if take = some seen.size then seen else seen.push (m.snapshot seen.size none), m, none⟩
  | (m, .paused, seen) => ⟨seen, m, if take = some n then none else some (exhaustion budget)⟩

section

variable {source : Source ε} {p : Program} (hp : compile source = .ok p) {size : Nat}
  (hsize : 0 < size) (input : List Int) (budget : Option Int) (fuel : Nat)

include hp hsize

/-- An execution leads to the end of the program, or uses up its allowance. -/
theorem execute_cases :
    ∃ m n, p.Steps n (.start size input) m ∧
      (execute size source input budget fuel = ⟨m, .ok n⟩ ∨
        execute size source input budget fuel = ⟨m, .error (exhaustion budget)⟩) := by
  have hlinked := linked_of_compile hp
  obtain ⟨ss, m, htrail, hcases⟩ := Program.traceFrom_cases hlinked
    (Machine.sound_start hlinked hsize input) (allowance budget fuel) 0 #[]
  refine ⟨m, ss.length, htrail.steps, ?_⟩
  rw [execute, hp]
  rcases hcases with ⟨-, hlength, hpc⟩ | ⟨-, hlength, hpc⟩
  · have hfinished : p.Finished m := Array.getElem?_eq_none_iff.mpr (Nat.le_of_eq hpc.symm)
    have hrun := Program.runFor_eq_ended_iff.mpr ⟨hlength, htrail.steps, hfinished⟩
    exact .inl (by simp only [hrun])
  · have hrun := Program.runFrom_of_steps htrail.steps 0 0
    rw [Nat.zero_add, hlength, Program.runFrom, if_pos hpc] at hrun
    exact .inr (by simp only [Program.runFor, hrun])

/-- An observation sees a trail, up to the end of the program, as long as the observer wants, or
until the allowance is used up. -/
theorem observe_cases {before : Machine} (hbefore : before.tape.size = size) {take : Option Nat}
    (htake : take ≠ some 0) :
    ∃ ss m err, p.Seen (.start size input) ss m ∧
      observe before source input budget take fuel = ⟨ss.toArray, m, err⟩ ∧
      (∀ e, err = some e → e = exhaustion budget) ∧
      (err = none → take ≠ some ss.length → ∃ s, ss.getLast? = some s ∧ s.symbol = none) := by
  subst hbefore
  have hlinked := linked_of_compile hp
  -- how many snapshots are taken at most does not matter here
  obtain ⟨n, hobserve⟩ : ∃ n, observe before source input budget take fuel =
      .ofTrace budget take n (p.traceFrom n 0 (.start before.tape.size input) #[]) := by
    rw [observe, if_neg htake, hp]
    exact ⟨_, rfl⟩
  obtain ⟨ss, m, htrail, hcases⟩ := Program.traceFrom_cases hlinked
    (Machine.sound_start hlinked hsize input) n 0 #[]
  rw [hobserve]
  rcases hcases with ⟨htrace, -, hpc⟩ | ⟨htrace, hlength, hpc⟩
  · simp only [htrace, Observation.ofTrace, Array.empty_append, List.size_toArray]
    by_cases henough : take = some ss.length
    · refine ⟨ss, m, none, .going htrail, by rw [if_pos henough], nofun, ?_⟩
      intro _ hmore
      exact absurd henough hmore
    · refine ⟨ss ++ [m.snapshot ss.length none], m, none, .complete htrail hpc, ?_, nofun, ?_⟩
      · rw [if_neg henough, List.push_toArray]
      · intro _ _
        exact ⟨_, List.getLast?_concat, rfl⟩
  · simp only [htrace, Observation.ofTrace, Array.empty_append]
    refine ⟨ss, m, _, .going htrail, rfl, ?_, ?_⟩
    · intro e he
      split at he
      · cases he
      · exact (Option.some.inj he).symm
    · intro hnone hmore
      rw [hlength] at hmore
      rw [if_neg hmore] at hnone
      cases hnone

end

theorem orderly_execute {size : Nat} (hsize : 0 < size) (source : Source ε) (input : List Int)
    (budget : Option Int) (fuel : Nat) :
    (execute size source input budget fuel).Orderly source size input budget := by
  cases hp : compile source with
  | error i =>
    rw [execute, hp]
    refine ⟨?_, by simp [hp], fun _ _ => rfl⟩
    intro e he
    cases he
    exact .interrupted hp
  | ok p =>
    obtain ⟨m, n, hsteps, hrun⟩ := execute_cases hp hsize input budget fuel
    refine ⟨?_, ?_, by simp [hp]⟩
    · intro e he
      rcases hrun with hrun | hrun
      · rw [hrun] at he
        cases he
      · rw [hrun] at he
        cases he
        exact expected_exhaustion source budget
    · intro p' hp'
      rw [hp] at hp'
      cases hp'
      refine ⟨n, ?_⟩
      rcases hrun with hrun | hrun
      · rwa [hrun]
      · rwa [hrun]

theorem orderly_observe {before : Machine} {size : Nat} (hbefore : before.tape.size = size)
    (hsize : 0 < size) (source : Source ε) (input : List Int) (budget : Option Int)
    (take : Option Nat) (fuel : Nat) :
    (observe before source input budget take fuel).Orderly source size input budget take := by
  by_cases htake : take = some 0
  · -- nothing was asked for, and nothing happens
    rw [observe, if_pos htake]
    exact ⟨nofun, fun h => absurd htake h, fun h => absurd htake h, by simp, by simp,
      fun _ h => absurd htake h, .nil⟩
  · cases hp : compile source with
    | error i =>
      rw [observe, if_neg htake, hp, hbefore]
      refine ⟨?_, by simp [hp], fun _ _ _ => ⟨rfl, rfl⟩, by simp, by simp, nofun, .nil⟩
      intro e he
      cases he
      exact .interrupted hp
    | ok p =>
      obtain ⟨ss, m, err, hseen, hobserve, herr, hended⟩ :=
        observe_cases hp hsize input budget fuel hbefore htake
      rw [hobserve]
      refine ⟨?_, ?_, by simp [hp], ?_, ?_, ?_, hseen.outputs⟩
      · intro e he
        rw [herr e he]
        exact expected_exhaustion source budget
      · intro _ p' hp'
        rw [hp] at hp'
        cases hp'
        exact hseen.steps
      · intro p' hp' i s hs
        rw [hp] at hp'
        cases hp'
        exact (hseen.shows (by simpa using hs)).1
      · intro i s hs hnone
        simpa using (hseen.shows (i := i) (by simpa using hs)).2 hnone
      · intro hnone hmore
        obtain ⟨s, hs, hsymbol⟩ := hended hnone (by simpa using hmore)
        exact ⟨s, by simpa using hs, hsymbol⟩

/-- **Orderly executions**: on a tape with at least one cell, whatever the source and the input, no
table is ever asked for what it does not have, all machines on the way are sound and go on or have
come to the end of the program, and executions and observations end as they may. -/
theorem executions_orderly {size : Nat} (hsize : 0 < size) (source : Source ε) (input : List Int) :
    (∀ f, Flattening.Reached (runsOf source).runs f → f.Finds) ∧
    (∀ p, compile source = .ok p → ∀ n m, p.Steps n (.start size input) m →
      m.Sound p size ∧
        ((∃ m', p.step m = (m', .running)) ∨ (p.step m = (m, .ended) ∧ m.pc = p.code.size))) ∧
    ∀ budget fuel,
      (execute size source input budget fuel).Orderly source size input budget ∧
      ∀ before take, before.tape.size = size →
        (observe before source input budget take fuel).Orderly source size input budget take := by
  refine ⟨?_, ?_, ?_⟩
  · intro f hf
    exact hf.finds fun _ => proper_runs
  · intro p hp n m hsteps
    have hlinked := linked_of_compile hp
    have hsound := (Machine.sound_start hlinked hsize input).steps hlinked hsteps
    refine ⟨hsound, ?_⟩
    rcases hsound.step hlinked with ⟨m', hs, -⟩ | hended
    · exact .inl ⟨m', hs⟩
    · exact .inr hended
  · intro budget fuel
    refine ⟨orderly_execute hsize source input budget fuel, ?_⟩
    intro before take hbefore
    exact orderly_observe hbefore hsize source input budget take fuel

/-- A loop that clears what a negative item has left in its cell, with too small a budget. -/
theorem executions_orderly_clearing :
    (observe (.start 1 []) (.ofString ",[-]." : Source Empty) [-2] (some 3) none 0).Orderly
      (.ofString ",[-].") 1 [-2] (some 3) none ∧
    (observe (.start 1 []) (.ofString ",[-]." : Source Empty) [-2] (some 3) none 0).snapshots.size =
      3 :=
  ⟨((executions_orderly Nat.one_pos (.ofString ",[-].") [-2]).2.2 (some 3) 0).2 _ none rfl, rfl⟩

end TapeLang
