import TapeLang.Proofs.Observation

/-!
Step budgets.

An execution without a budget is determined by its source and its input alone: `Source.EndsAt` says
that it ends by itself, after how many instructions and at which machine.  Trails are determined by
where they start, so that the shorter of two is the beginning of the longer one (`Trail.isPrefix`),
and an execution that is over does not go on (`Steps.le_of_finished`).

Main statement: `budget_cuts`, a budget does one thing only.  It is exceeded exactly by executions
that do not end within it, of which it shows the beginning, and it leaves all others as they are.
-/

namespace TapeLang

variable {ε : Type}

/-- Without a budget, the execution of a source ends by itself: `k` instructions lead to the machine
`m`, and there is none left. -/
def Source.EndsAt (source : Source ε) (size : Nat) (input : List Int) (k : Nat) (m : Machine) :
    Prop :=
  ∃ fuel, execute size source input none fuel = ⟨m, .ok k⟩

/-- Without a budget, the execution of a source ends by itself within `n` instructions. -/
def Source.EndsWithin (source : Source ε) (size : Nat) (input : List Int) (n : Nat) : Prop :=
  ∃ k m, k ≤ n ∧ source.EndsAt size input k m

/-! ### Executions are determined by where they start -/

namespace Program

variable {p : Program} {m m₁ m₂ : Machine}

theorem Steps.eq {n : Nat} (h₁ : p.Steps n m m₁) (h₂ : p.Steps n m m₂) : m₁ = m₂ := by
  induction h₁ with
  | refl =>
    cases h₂
    rfl
  | head hs _ ih =>
    cases h₂ with
    | head hs' hsteps =>
      rw [hs] at hs'
      cases hs'
      exact ih hsteps

/-- Where an execution is over, no number of instructions leads any further. -/
theorem Steps.le_of_finished {k n : Nat} (h₁ : p.Steps k m m₁) (hfin : p.Finished m₁)
    (h₂ : p.Steps n m m₂) : n ≤ k := by
  induction h₁ generalizing n with
  | refl =>
    cases h₂ with
    | refl => exact Nat.le_refl 0
    | head hs _ =>
      rw [step_of_finished hfin] at hs
      cases hs
  | head hs _ ih =>
    cases h₂ with
    | refl => exact Nat.zero_le _
    | head hs' hsteps =>
      rw [hs] at hs'
      cases hs'
      exact Nat.succ_le_succ (ih hfin hsteps)

/-- As long as instructions are left, the end is still to come. -/
theorem Steps.lt_of_finished {k n : Nat} (h₁ : p.Steps k m m₁) (hfin : p.Finished m₁)
    (h₂ : p.Steps n m m₂) (hpc : m₂.pc < p.code.size) : n < k := by
  refine Nat.lt_of_le_of_ne (h₁.le_of_finished hfin h₂) ?_
  rintro rfl
  -- The same number of instructions leads to the same machine, which is over and is not.
  have hend : p.code.size ≤ m₁.pc := Array.getElem?_eq_none_iff.mp hfin
  rw [h₁.eq h₂] at hend
  omega

namespace Trail

variable {d : Nat} {ss ss₁ ss₂ : List Snapshot}

/-- Of two trails that start together, the shorter one is the beginning of the longer one. -/
theorem isPrefix (h₁ : p.Trail d m ss₁ m₁) (h₂ : p.Trail d m ss₂ m₂)
    (hlength : ss₁.length ≤ ss₂.length) : ss₁ <+: ss₂ := by
  induction h₁ generalizing ss₂ with
  | refl => exact List.nil_prefix
  | head hcode hs _ ih =>
    cases h₂ with
    | refl => cases hlength
    | head hcode' hs' htrail =>
      rw [hcode] at hcode'
      cases hcode'
      rw [hs] at hs'
      cases hs'
      exact List.cons_prefix_cons.mpr ⟨rfl, ih htrail (Nat.le_of_succ_le_succ hlength)⟩

/-- Every execution leaves a trail. -/
theorem of_steps {n : Nat} (h : p.Steps n m m₁) (d : Nat) :
    ∃ ss, p.Trail d m ss m₁ ∧ ss.length = n := by
  induction h generalizing d with
  | refl m => exact ⟨[], .refl d m, rfl⟩
  | @head n m m' m₁ hs _ ih =>
    obtain ⟨ss, htrail, hlength⟩ := ih (d + 1)
    cases hcode : p.code[m.pc]? with
    | none =>
      rw [step_of_finished hcode] at hs
      cases hs
    | some i => exact ⟨_, .head hcode hs htrail, congrArg Nat.succ hlength⟩

/-- A trace follows a trail as far as it is allowed to. -/
theorem traceFrom (h : p.Trail d m ss m₁) (n : Nat) (seen : Array Snapshot) :
    p.traceFrom (n + ss.length) d m seen =
      p.traceFrom n (d + ss.length) m₁ (seen ++ ss.toArray) := by
  induction h generalizing seen with
  | refl => simp
  | @head d m m' m₁ i ss hcode hs _ ih =>
    have hseen : seen.push (m'.snapshot (d + 1) (some i.symbol)) ++ ss.toArray =
        seen ++ (m'.snapshot (d + 1) (some i.symbol) :: ss).toArray := by
      apply Array.ext'
      simp
    rw [List.length_cons, ← Nat.add_assoc, Program.traceFrom, hs, hcode, ← hseen]
    show p.traceFrom _ (d + 1) m' _ = _
    rw [ih, Nat.add_right_comm, Nat.add_assoc d]
    rfl

end Trail

theorem traceFrom_of_finished (h : p.Finished m) (n d : Nat) (seen : Array Snapshot) :
    p.traceFrom n d m seen = (m, .ended, seen) := by
  cases n with
  | zero =>
    have hle : p.code.size ≤ m.pc := Array.getElem?_eq_none_iff.mp h
    rw [traceFrom, if_neg (by omega)]
  | succ n => rw [traceFrom, step_of_finished h]

end Program

/-! ### What an allowance comes to -/

/-- An execution as far as `n` instructions go: a trail that is over, or one that used them all. -/
inductive Program.Reaches (p : Program) (start : Machine) (n : Nat) : List Snapshot → Machine → Prop
  | ended {ss : List Snapshot} {m : Machine} :
      p.Trail 0 start ss m → ss.length ≤ n → p.Finished m → Reaches p start n ss m
  | paused {ss : List Snapshot} {m : Machine} :
      p.Trail 0 start ss m → ss.length = n → m.pc < p.code.size → Reaches p start n ss m

section

variable {source : Source ε} {p : Program} (hp : compile source = .ok p) {size : Nat}
  {input : List Int} {budget : Option Int} {fuel : Nat} {ss : List Snapshot} {m : Machine}

include hp

theorem exists_reaches (hsize : 0 < size) (input : List Int) (n : Nat) :
    ∃ ss m, p.Reaches (.start size input) n ss m := by
  have hlinked := linked_of_compile hp
  obtain ⟨ss, m, htrail, hcases⟩ := Program.traceFrom_cases hlinked
    (Machine.sound_start hlinked hsize input) n 0 #[]
  rcases hcases with ⟨-, hlength, hpc⟩ | ⟨-, hlength, hpc⟩
  · have hfin : p.Finished m := Array.getElem?_eq_none_iff.mpr (Nat.le_of_eq hpc.symm)
    exact ⟨ss, m, .ended htrail hlength hfin⟩
  · exact ⟨ss, m, .paused htrail hlength hpc⟩

theorem endsAt_iff {k : Nat} :
    source.EndsAt size input k m ↔ p.Steps k (.start size input) m ∧ p.Finished m := by
  constructor
  · rintro ⟨fuel, h⟩
    exact ((execute_eq_ok_iff hp).mp h).2
  · intro h
    exact ⟨k, (execute_eq_ok_iff hp).mpr ⟨Nat.le_refl k, h⟩⟩

/-- An execution that ends within its allowance ends like the one without a budget. -/
theorem execute_of_endsAt {k : Nat} (h : source.EndsAt size input k m)
    (hk : k ≤ allowance budget fuel) :
    execute size source input budget fuel = ⟨m, .ok k⟩ := by
  have hrun := Program.runFor_eq_ended_iff.mpr ⟨hk, (endsAt_iff hp).mp h⟩
  rw [execute, hp]
  simp only [hrun]

/-- An execution that does not end within its allowance uses all of it. -/
theorem execute_of_paused (h : p.Trail 0 (.start size input) ss m)
    (hlength : ss.length = allowance budget fuel) (hpc : m.pc < p.code.size) :
    execute size source input budget fuel = ⟨m, .error (exhaustion budget)⟩ := by
  have hrun := Program.runFrom_of_steps h.steps 0 0
  rw [Nat.zero_add, hlength, Program.runFrom, if_pos hpc] at hrun
  rw [execute, hp]
  simp only [Program.runFor, hrun]

variable {before : Machine}

/-- Whoever observes an execution that ends within its allowance sees all of it. -/
theorem observe_of_finished (h : p.Trail 0 (.start before.tape.size input) ss m)
    (hlength : ss.length ≤ allowance budget fuel) (hfin : p.Finished m) :
    observe before source input budget none fuel =
      ⟨(ss ++ [m.snapshot ss.length none]).toArray, m, none⟩ := by
  obtain ⟨n, hn⟩ := Nat.exists_eq_add_of_le' hlength
  have htrace := h.traceFrom n #[]
  rw [Program.traceFrom_of_finished hfin, ← hn] at htrace
  rw [observe, if_neg (by simp), hp]
  simp [htrace]

/-- Whoever observes an execution that ends by itself sees the same under every allowance that
suffices. -/
theorem observe_of_endsAt {k : Nat} (h : source.EndsAt before.tape.size input k m)
    {budget' : Option Int} {fuel' : Nat} (hk : k ≤ allowance budget fuel)
    (hk' : k ≤ allowance budget' fuel') :
    observe before source input budget none fuel =
      observe before source input budget' none fuel' := by
  obtain ⟨hsteps, hfin⟩ := (endsAt_iff hp).mp h
  obtain ⟨ss, htrail, rfl⟩ := Program.Trail.of_steps hsteps 0
  rw [observe_of_finished hp htrail hk hfin, observe_of_finished hp htrail hk' hfin]

/-- Whoever observes an execution that does not end within its allowance sees the beginning. -/
theorem observe_of_paused (h : p.Trail 0 (.start before.tape.size input) ss m)
    (hlength : ss.length = allowance budget fuel) (hpc : m.pc < p.code.size) :
    observe before source input budget none fuel = ⟨ss.toArray, m, some (exhaustion budget)⟩ := by
  have htrace := h.traceFrom 0 #[]
  rw [Nat.zero_add, hlength, Program.traceFrom, if_pos hpc] at htrace
  rw [observe, if_neg (by simp), hp]
  simp [htrace]

/-- An execution that is paused does not end within the instructions it was given. -/
theorem not_endsAt_of_paused (h : p.Trail 0 (.start size input) ss m)
    (hpc : m.pc < p.code.size) :
    ¬ source.EndsWithin size input ss.length := by
  rintro ⟨k, m', hk, hends⟩
  obtain ⟨hsteps, hfin⟩ := (endsAt_iff hp).mp hends
  have hlt := hsteps.lt_of_finished hfin h.steps hpc
  omega

end

/-! ### Budgets -/

/-- What is seen of an execution under a budget. -/
structure Observation.Cut (o : Observation ε) (source : Source ε) (before : Machine)
    (input : List Int) (budget : Int) : Prop where
  /-- The budget is exceeded if and only if the execution does not end within it. -/
  exceeded_iff : o.error = some .stepLimit ↔
    ¬ source.EndsWithin before.tape.size input budget.toNat
  /-- Then all of it was used, what is seen is the beginning of what there is to see without a
  budget, and the machine is the one that so many instructions lead to. -/
  beginning : o.error = some .stepLimit →
    o.snapshots.size = budget.toNat ∧
    (∀ fuel, budget.toNat ≤ fuel →
      o.snapshots.toList <+: (observe before source input none none fuel).snapshots.toList) ∧
    ∀ p, compile source = .ok p → p.Steps budget.toNat (.start before.tape.size input) o.machine
  /-- Otherwise the execution ended by itself, and nothing tells it from the one without a
  budget. -/
  whole : o.error ≠ some .stepLimit →
    o.error = none ∧ ∃ k, k ≤ budget.toNat ∧
      source.EndsAt before.tape.size input k o.machine ∧
      ∀ fuel, k ≤ fuel → o = observe before source input none none fuel

/-- What is left of an execution under a budget. -/
structure Execution.Cut (x : Execution ε) (source : Source ε) (size : Nat) (input : List Int)
    (budget : Int) : Prop where
  exceeded_iff : x.result = .error .stepLimit ↔
    ¬ source.EndsWithin size input budget.toNat
  beginning : x.result = .error .stepLimit →
    ∀ p, compile source = .ok p → p.Steps budget.toNat (.start size input) x.machine
  whole : x.result ≠ .error .stepLimit → ∃ k, x.result = .ok k ∧ k ≤ budget.toNat ∧
    source.EndsAt size input k x.machine ∧
    ∀ fuel, k ≤ fuel → x = execute size source input none fuel

section

variable {source : Source ε} {p : Program} (hp : compile source = .ok p) {before : Machine}
  (hsize : 0 < before.tape.size) (input : List Int) (budget : Int) (fuel : Nat)

include hp hsize

theorem observe_cut :
    (observe before source input (some budget) none fuel).Cut source before input budget := by
  obtain ⟨ss, m, hreaches⟩ := exists_reaches hp hsize input (allowance (some budget) fuel)
  cases hreaches with
  | ended htrail hlength hfin =>
    have hends : source.EndsAt before.tape.size input ss.length m :=
      (endsAt_iff hp).mpr ⟨htrail.steps, hfin⟩
    have hobserve := observe_of_finished hp htrail hlength hfin
    refine ⟨?_, ?_, ?_⟩
    · rw [hobserve]
      refine iff_of_false nofun ?_
      exact not_not_intro ⟨ss.length, m, hlength, hends⟩
    · rw [hobserve]
      nofun
    · intro _
      refine ⟨by rw [hobserve], ss.length, hlength, by rwa [hobserve], ?_⟩
      intro more hmore
      have henough : ss.length ≤ allowance none more := hmore
      exact observe_of_endsAt hp hends hlength henough
  | paused htrail hlength hpc =>
    have hobserve := observe_of_paused hp htrail hlength hpc
    have hnever := not_endsAt_of_paused hp htrail hpc
    change ss.length = budget.toNat at hlength
    rw [hlength] at hnever
    rw [hobserve]
    refine ⟨iff_of_true rfl hnever, ?_, fun h => absurd rfl h⟩
    intro _
    refine ⟨by simpa using hlength, ?_, ?_⟩
    · -- Without a budget there is more to see, to the end or as far as the fuel goes.
      intro more hmore
      obtain ⟨ss', m', hreaches⟩ := exists_reaches hp hsize input (allowance none more)
      cases hreaches with
      | ended htrail' hlength' hfin =>
        have hlt := htrail'.steps.lt_of_finished hfin htrail.steps hpc
        rw [observe_of_finished hp htrail' hlength' hfin]
        exact (htrail.isPrefix htrail' (Nat.le_of_lt hlt)).trans (List.prefix_append _ _)
      | paused htrail' hlength' hpc' =>
        rw [observe_of_paused hp htrail' hlength' hpc']
        refine htrail.isPrefix htrail' ?_
        rw [hlength, hlength']
        exact hmore
    · intro p' hp'
      rw [hp] at hp'
      cases hp'
      rw [← hlength]
      exact htrail.steps

theorem execute_cut :
    (execute before.tape.size source input (some budget) fuel).Cut source before.tape.size input
      budget := by
  obtain ⟨ss, m, hreaches⟩ := exists_reaches hp hsize input (allowance (some budget) fuel)
  cases hreaches with
  | ended htrail hlength hfin =>
    have hends : source.EndsAt before.tape.size input ss.length m :=
      (endsAt_iff hp).mpr ⟨htrail.steps, hfin⟩
    rw [execute_of_endsAt hp hends hlength]
    refine ⟨?_, nofun, ?_⟩
    · refine iff_of_false nofun ?_
      exact not_not_intro ⟨ss.length, m, hlength, hends⟩
    · intro _
      refine ⟨ss.length, rfl, hlength, hends, ?_⟩
      intro more hmore
      have henough : ss.length ≤ allowance none more := hmore
      exact (execute_of_endsAt hp hends henough).symm
  | paused htrail hlength hpc =>
    have hnever := not_endsAt_of_paused hp htrail hpc
    rw [execute_of_paused hp htrail hlength hpc]
    change ss.length = budget.toNat at hlength
    rw [hlength] at hnever
    refine ⟨iff_of_true rfl hnever, ?_, fun h => absurd rfl h⟩
    intro _ p' hp'
    rw [hp] at hp'
    cases hp'
    rw [← hlength]
    exact htrail.steps

end

/-- **Budgets**: on a tape with at least one cell, every budget cuts the execution of an accepted
source where it says, and changes nothing else.  Hence a larger budget does not change an execution
that ended within a smaller one, and a budget of just the instructions that are needed suffices. -/
theorem budget_cuts {source : Source ε} {p : Program} (hp : compile source = .ok p)
    {before : Machine} (hsize : 0 < before.tape.size) (input : List Int) :
    (∀ budget fuel,
      (observe before source input (some budget) none fuel).Cut source before input budget ∧
      (execute before.tape.size source input (some budget) fuel).Cut source before.tape.size input
        budget) ∧
    (∀ budget larger fuel fuel', budget ≤ larger →
      (observe before source input (some budget) none fuel).error ≠ some .stepLimit →
      observe before source input (some larger) none fuel' =
        observe before source input (some budget) none fuel ∧
      execute before.tape.size source input (some larger) fuel' =
        execute before.tape.size source input (some budget) fuel) ∧
    ∀ k m, source.EndsAt before.tape.size input k m → ∀ fuel,
      (observe before source input (some k) none fuel).error = none ∧
      execute before.tape.size source input (some k) fuel = ⟨m, .ok k⟩ := by
  refine ⟨?_, ?_, ?_⟩
  · intro budget fuel
    exact ⟨observe_cut hp hsize input budget fuel, execute_cut hp hsize input budget fuel⟩
  · intro budget larger fuel fuel' hle hwithin
    obtain ⟨-, k, hk, hends, -⟩ := (observe_cut hp hsize input budget fuel).whole hwithin
    have henough : k ≤ allowance (some budget) fuel := hk
    have henough' : k ≤ allowance (some larger) fuel' := hk.trans (Int.toNat_le_toNat hle)
    refine ⟨observe_of_endsAt hp hends henough' henough, ?_⟩
    rw [execute_of_endsAt hp hends henough', execute_of_endsAt hp hends henough]
  · intro k m hends fuel
    have hk : k ≤ allowance (some (k : Int)) fuel := by simp [allowance]
    refine ⟨?_, execute_of_endsAt hp hends hk⟩
    have hcut := observe_cut hp hsize input k fuel
    have hwithin := mt hcut.exceeded_iff.mp (not_not_intro ⟨k, m, hk, hends⟩)
    exact (hcut.whole hwithin).1

/-- A loop without an end exceeds a budget, and a loop that clears its cell needs all of its own. -/
theorem budget_cuts_loops :
    ¬ (.ofString "+[]" : Source Empty).EndsWithin 1 [] 5 ∧
    (observe (.start 1 []) (.ofString ",[-]." : Source Empty) [2] (some 6) none 0).error =
      some .stepLimit ∧
    (observe (.start 1 []) (.ofString ",[-]." : Source Empty) [2] (some 7) none 0).error =
      none := by
  have hendless : compile (.ofString "+[]" : Source Empty) =
      .ok ⟨#[⟨.increment, 1⟩, ⟨.loopOpen, 1⟩, ⟨.loopClose, 1⟩], #[none, some 2, some 1]⟩ := rfl
  have hclearing : compile (.ofString ",[-]." : Source Empty) =
      .ok ⟨#[⟨.read, 1⟩, ⟨.loopOpen, 1⟩, ⟨.decrement, 1⟩, ⟨.loopClose, 1⟩, ⟨.write, 1⟩],
        #[none, some 3, none, some 1, none]⟩ := rfl
  have hsize : 0 < (Machine.start 1 []).tape.size := by decide
  refine ⟨?_, rfl, ?_⟩
  · exact ((budget_cuts hendless hsize []).1 5 0).1.exceeded_iff.mp rfl
  · exact ((budget_cuts hclearing hsize [2]).2.2 7 _ ⟨7, rfl⟩ 0).1

end TapeLang
