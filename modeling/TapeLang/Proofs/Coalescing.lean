import TapeLang.Proofs.Execution

/-!
Coalescing keeps the meaning of a program.

`Evaluates` is the plain meaning of a list of symbols: every symbol acts on its own, and a loop,
which lies between a bracket and the partner it has by nesting, is left when the current cell is
zero and else repeats its body.  A list that never comes to an end evaluates to nothing.

Programs do not work like that.  A run of symbols is one instruction with a count, and loops are
jumps between two places of a flat list.  The two meanings are compared in two steps, with nests
between them: `evaluates_symbols_iff` takes runs apart, and `Nest.Exec.steps` and
`Program.exec_of_steps` turn nested loops into jumps and back.  Main statement:
`execute_agrees_with_evaluates`, one side halts if and only if the other does, and they leave the
same store.
-/

namespace TapeLang

open Function

/-! ### The plain meaning of symbols -/

/-- Some symbols lead from one store to another. -/
inductive Evaluates : List Symbol → Store → Store → Prop
  | done {s : Store} : Evaluates [] s s
  | act {a : Symbol} {l : List Symbol} {s s' : Store} :
      a.isBracket = false → Evaluates l (s.act a) s' → Evaluates (a :: l) s s'
  | skip {body rest : List Symbol} {s s' : Store} :
      Balanced body → s.cell = 0 → Evaluates rest s s' →
      Evaluates (.loopOpen :: (body ++ .loopClose :: rest)) s s'
  | again {body rest : List Symbol} {s s₁ s' : Store} :
      Balanced body → s.cell ≠ 0 → Evaluates body s s₁ →
      Evaluates (.loopOpen :: (body ++ .loopClose :: rest)) s₁ s' →
      Evaluates (.loopOpen :: (body ++ .loopClose :: rest)) s s'

namespace Evaluates

theorem act_iff {a : Symbol} (ha : a.isBracket = false) {l : List Symbol} {s s' : Store} :
    Evaluates (a :: l) s s' ↔ Evaluates l (s.act a) s' := by
  constructor
  · intro h
    cases h with
    | act _ h => exact h
    | skip => cases ha
    | again => cases ha
  · exact act ha

/-- Equal symbols in front of a list act one after the other. -/
theorem replicate_append_iff {a : Symbol} (ha : a.isBracket = false) (n : Nat) {l : List Symbol}
    {s s' : Store} :
    Evaluates (List.replicate n a ++ l) s s' ↔ Evaluates l ((Store.act a)^[n] s) s' := by
  induction n generalizing s with
  | zero => rfl
  | succ n ih => rw [List.replicate_succ, List.cons_append, act_iff ha, ih, iterate_succ_apply]

/-- A loop is left at once if the current cell is zero, and else it starts again after its body. -/
theorem loop_iff {body rest : List Symbol} (hb : Balanced body) {s s' : Store} :
    Evaluates (.loopOpen :: (body ++ .loopClose :: rest)) s s' ↔
      (s.cell = 0 ∧ Evaluates rest s s') ∨
      (s.cell ≠ 0 ∧ ∃ s₁, Evaluates body s s₁ ∧
        Evaluates (.loopOpen :: (body ++ .loopClose :: rest)) s₁ s') := by
  constructor
  · intro h
    generalize hl : Symbol.loopOpen :: (body ++ Symbol.loopClose :: rest) = l at h
    cases h with
    | done => cases hl
    | act ha h =>
      cases hl
      cases ha
    | skip hb' hcell h =>
      obtain ⟨rfl, rfl⟩ := hb.body_unique hb' (List.cons.inj hl).2
      exact .inl ⟨hcell, h⟩
    | again hb' hcell hbody h =>
      obtain ⟨rfl, rfl⟩ := hb.body_unique hb' (List.cons.inj hl).2
      exact .inr ⟨hcell, _, hbody, h⟩
  · rintro (⟨hcell, h⟩ | ⟨hcell, s₁, hbody, h⟩)
    · exact .skip hb hcell h
    · exact .again hb hcell hbody h

/-- Symbols lead to one store at most. -/
theorem unique {l : List Symbol} {s s₁ s₂ : Store} (h₁ : Evaluates l s s₁)
    (h₂ : Evaluates l s s₂) : s₁ = s₂ := by
  induction h₁ generalizing s₂ with
  | done =>
    cases h₂
    rfl
  | act ha _ ih => exact ih ((act_iff ha).mp h₂)
  | skip hb hcell _ ih =>
    rcases (loop_iff hb).mp h₂ with ⟨-, h⟩ | ⟨hcell', -⟩
    · exact ih h
    · exact absurd hcell hcell'
  | again hb hcell _ _ ihb ih =>
    rcases (loop_iff hb).mp h₂ with ⟨hcell', -⟩ | ⟨-, s', hbody, h⟩
    · exact absurd hcell' hcell
    · obtain rfl := ihb hbody
      exact ih h

end Evaluates

/-! ### The meaning of nests -/

/-- A nest leads from one store to another: every run acts as a whole. -/
inductive Nest.Exec : Nest → Store → Store → Prop
  | done {s : Store} : Exec .done s s
  | act {r : Run} {plain : r.symbol.isBracket = false} {rest : Nest} {s s' : Store} :
      Exec rest ((Store.act r.symbol)^[r.count] s) s' → Exec (.act r plain rest) s s'
  | skip {enter leave : Token} {body rest : Nest} {s s' : Store} :
      s.cell = 0 → Exec rest s s' → Exec (.loop enter body leave rest) s s'
  | again {enter leave : Token} {body rest : Nest} {s s₁ s' : Store} :
      s.cell ≠ 0 → Exec body s s₁ → Exec (.loop enter body leave rest) s₁ s' →
      Exec (.loop enter body leave rest) s s'

theorem Nest.Exec.evaluates {t : Nest} {s s' : Store} (h : t.Exec s s') :
    Evaluates t.symbols s s' := by
  induction h with
  | done => exact .done
  | @act r plain _ _ _ _ ih => exact (Evaluates.replicate_append_iff plain r.count).mpr ih
  | skip hcell _ ih => exact .skip (Nest.balanced_symbols _) hcell ih
  | again hcell _ _ ihb ih => exact .again (Nest.balanced_symbols _) hcell ihb ih

/-- Repetitions of a loop, once its body and what follows it are known to agree. -/
theorem Nest.exec_loop {enter leave : Token} {body rest : Nest}
    (hbody : ∀ {s s'}, Evaluates body.symbols s s' → body.Exec s s')
    (hrest : ∀ {s s'}, Evaluates rest.symbols s s' → rest.Exec s s') {s s' : Store}
    (h : Evaluates (Nest.loop enter body leave rest).symbols s s') :
    (Nest.loop enter body leave rest).Exec s s' := by
  -- the induction is on the derivation: the list of symbols stays that of the loop
  generalize hl : (Nest.loop enter body leave rest).symbols = l at h
  induction h with
  | done => cases hl
  | act ha =>
    cases hl
    cases ha
  | skip hb hcell h =>
    obtain ⟨rfl, rfl⟩ := (Nest.balanced_symbols body).body_unique hb (List.cons.inj hl).2
    exact .skip hcell (hrest h)
  | again hb hcell hev _ _ ih =>
    obtain ⟨rfl, rfl⟩ := (Nest.balanced_symbols body).body_unique hb (List.cons.inj hl).2
    exact .again hcell (hbody hev) (ih hl)

/-- A nest means what its symbols mean. -/
theorem evaluates_symbols_iff {t : Nest} {s s' : Store} :
    Evaluates t.symbols s s' ↔ t.Exec s s' := by
  refine ⟨?_, Nest.Exec.evaluates⟩
  intro h
  induction t generalizing s s' with
  | done =>
    cases h
    exact .done
  | act r plain rest ih => exact .act (ih ((Evaluates.replicate_append_iff plain r.count).mp h))
  | loop enter body leave rest ihb ihr => exact Nest.exec_loop ihb ihr h

/-! ### From nested loops to jumps -/

section

variable {p : Program} {size : Nat}

/-- What a machine does next depends on its next step only. -/
theorem Program.Steps.of_step_eq {n : Nat} {m m₁ m' : Machine} (h : p.Steps n m m')
    (hpc : m.pc ≠ m'.pc) (hstep : p.step m₁ = p.step m) : p.Steps n m₁ m' := by
  cases h with
  | refl => exact absurd rfl hpc
  | head hs hmore => exact .head (hstep.trans hs) hmore

/-- An execution that ends goes through every step it can make. -/
theorem Program.Steps.tail_of_step {n : Nat} {m m₁ m' : Machine} (h : p.Steps n m m')
    (hm : p.Finished m') (hstep : p.step m = (m₁, .running)) :
    ∃ n', n = n' + 1 ∧ p.Steps n' m₁ m' := by
  cases h with
  | refl =>
    rw [step_of_finished hm] at hstep
    cases hstep
  | head hs hmore =>
    rw [hs] at hstep
    cases hstep
    exact ⟨_, rfl, hmore⟩

/-- What a nest does, its program does, in the place where the nest lies. -/
theorem Nest.Exec.steps {t : Nest} {s s' : Store} (h : t.Exec s s') (hs : s.Fits size) {k : Nat}
    (hk : Located p t k) :
    s'.Fits size ∧ ∃ n, p.Steps n (s.machineAt k) (s'.machineAt (k + t.size)) := by
  induction h generalizing k with
  | done => exact ⟨hs, 0, .refl _⟩
  | @act r _ rest _ _ _ ih =>
    obtain ⟨hs', n, hsteps⟩ := ih (hs.iterate _ _) hk.act.2
    refine ⟨hs', n + 1, .head (Program.step_act hs hk) ?_⟩
    rw [Nest.size, Nat.add_comm rest.size 1, ← Nat.add_assoc]
    exact hsteps
  | @skip _ _ body rest s _ hcell _ ih =>
    obtain ⟨hs', n, hsteps⟩ := ih hs hk.behind
    have hopen := Program.step_open hs hk
    rw [Store.loopTarget, if_pos hcell] at hopen
    refine ⟨hs', n + 1, .head hopen ?_⟩
    rw [Nest.size, show k + (body.size + rest.size + 2) = k + 2 + body.size + rest.size by omega]
    exact hsteps
  | @again _ _ body rest s s₁ s' hcell _ _ ihb ih =>
    obtain ⟨hs₁, n, hbody⟩ := ihb hs hk.inner
    obtain ⟨hs', n', hloop⟩ := ih hs₁ hk
    have hopen := Program.step_open hs hk
    rw [Store.loopTarget, if_neg hcell] at hopen
    have hpc : (s₁.machineAt k).pc ≠ (s'.machineAt (k + (body.size + rest.size + 2))).pc := by
      show k ≠ k + (body.size + rest.size + 2)
      omega
    -- both brackets lead to the same place, so the next round may start at the closing one
    have hround := hloop.of_step_eq hpc
      ((Program.step_close hs₁ hk).trans (Program.step_open hs₁ hk).symm)
    exact ⟨hs', _, .head hopen (hbody.trans hround)⟩

/-- An execution that ends has executed the nest it started with, in no more steps. -/
theorem Program.exec_of_steps {n : Nat} {t : Nest} {s : Store} {k : Nat} {m : Machine}
    (hs : s.Fits size) (hk : Located p t k) (h : p.Steps n (s.machineAt k) m)
    (hm : p.Finished m) :
    ∃ s' j, j ≤ n ∧ t.Exec s s' ∧ s'.Fits size ∧ p.Steps j (s'.machineAt (k + t.size)) m := by
  -- on the number of steps, not on the nest: another round of a loop executes the same nest again
  induction n using Nat.strongRecOn generalizing t s k with
  | ind n ih =>
    cases t with
    | done => exact ⟨s, n, Nat.le_refl n, .done, hs, h⟩
    | act r plain rest =>
      obtain ⟨n, rfl, hrest⟩ := h.tail_of_step hm (step_act hs hk)
      obtain ⟨s', j, hj, hexec, hs', hsteps⟩ :=
        ih n (Nat.lt_succ_self n) (hs.iterate _ _) hk.act.2 hrest
      refine ⟨s', j, by omega, .act hexec, hs', ?_⟩
      rw [Nest.size, Nat.add_comm rest.size 1, ← Nat.add_assoc]
      exact hsteps
    | loop enter body leave rest =>
      obtain ⟨n, rfl, hin⟩ := h.tail_of_step hm (step_open hs hk)
      by_cases hcell : s.cell = 0
      · rw [Store.loopTarget, if_pos hcell] at hin
        obtain ⟨s', j, hj, hexec, hs', hsteps⟩ := ih n (Nat.lt_succ_self n) hs hk.behind hin
        refine ⟨s', j, by omega, .skip hcell hexec, hs', ?_⟩
        rw [Nest.size,
          show k + (body.size + rest.size + 2) = k + 2 + body.size + rest.size by omega]
        exact hsteps
      · rw [Store.loopTarget, if_neg hcell] at hin
        obtain ⟨s₁, i, hi, hbody, hs₁, hsteps₁⟩ := ih n (Nat.lt_succ_self n) hs hk.inner hin
        obtain ⟨i, rfl, hround⟩ := hsteps₁.tail_of_step hm (step_close hs₁ hk)
        -- the rest of the run is shorter, and it might as well have started at the opening bracket
        obtain ⟨s', j, hj, hexec, hs', hsteps⟩ :=
          ih (i + 1) (by omega) hs₁ hk (.head (step_open hs₁ hk) hround)
        exact ⟨s', j, by omega, .again hcell hbody hexec, hs', hsteps⟩

end

/-! ### Sources -/

/-- The nest of a source that compiles: its program, and its symbols. -/
theorem exists_nest_of_compile {ε : Type} {source : Source ε} {p : Program}
    (h : compile source = .ok p) :
    ∃ t : Nest, p = t.program ∧
      t.symbols = (scan source).tokens.map Token.symbol := by
  obtain ⟨t, hp, ht⟩ := exists_program_nest h
  refine ⟨t, hp, ?_⟩
  have hproper : ∀ r ∈ t.pieces, r.Proper := by
    intro r hr
    rw [ht] at hr
    exact (piece_of_mem_groupPieces hr).toProper
  rw [← Nest.map_symbol_tokens hproper, ht, groupPieces, Run.flatMap_tokens_flatMap_pieces,
    flatMap_tokens_groupRuns]

/-- A program of a nest ends in the stores that the nest leads to. -/
theorem execute_eq_ok_iff_exec {ε : Type} {source : Source ε} {t : Nest}
    (hp : compile source = .ok t.program) {size : Nat}
    (hsize : 0 < size) (input : List Int) (s : Store) :
    (∃ fuel k m, execute size source input none fuel = ⟨m, .ok k⟩ ∧ m.store = s) ↔
      t.Exec (.start size input) s := by
  have hs := Store.fits_start hsize input
  constructor
  · rintro ⟨fuel, k, m, hrun, rfl⟩
    obtain ⟨-, hsteps, hm⟩ := (execute_eq_ok_iff hp).mp hrun
    obtain ⟨s', j, -, hexec, -, hend⟩ := Program.exec_of_steps hs (Located.whole t) hsteps hm
    rw [Nat.zero_add] at hend
    obtain ⟨-, rfl⟩ := hend.unique (.refl _) hm (finished_program rfl)
    exact hexec
  · intro h
    obtain ⟨-, n, hsteps⟩ := h.steps hs (Located.whole t)
    rw [Nat.zero_add] at hsteps
    exact ⟨n, n, s.machineAt t.size,
      (execute_eq_ok_iff hp).mpr ⟨Nat.le_refl n, hsteps, finished_program rfl⟩, rfl⟩

/-- **Coalescing**: executing a source that compiles and evaluating its symbols one by one halt on
the same inputs, and then they leave the same tape, pointer, output and input. -/
theorem execute_agrees_with_evaluates {ε : Type} {source : Source ε} {p : Program}
    (hp : compile source = .ok p) {size : Nat} (hsize : 0 < size) (input : List Int) :
    ((∃ fuel k m, execute size source input none fuel = ⟨m, .ok k⟩) ↔
      ∃ s, Evaluates ((scan source).tokens.map Token.symbol) (.start size input) s) ∧
    ∀ fuel k m s, execute size source input none fuel = ⟨m, .ok k⟩ →
      Evaluates ((scan source).tokens.map Token.symbol) (.start size input) s →
      m.output = s.output ∧ m.pointer = s.pointer ∧ m.tape = s.tape ∧ m.input = s.input := by
  obtain ⟨t, rfl, ht⟩ := exists_nest_of_compile hp
  have key : ∀ s, (∃ fuel k m, execute size source input none fuel = ⟨m, .ok k⟩ ∧ m.store = s) ↔
      Evaluates ((scan source).tokens.map Token.symbol) (.start size input) s := by
    intro s
    rw [execute_eq_ok_iff_exec hp hsize, ← ht, evaluates_symbols_iff]
  refine ⟨⟨?_, ?_⟩, ?_⟩
  · rintro ⟨fuel, k, m, hrun⟩
    exact ⟨m.store, (key m.store).mp ⟨fuel, k, m, hrun, rfl⟩⟩
  · rintro ⟨s, h⟩
    obtain ⟨fuel, k, m, hrun, -⟩ := (key s).mpr h
    exact ⟨fuel, k, m, hrun⟩
  · intro fuel k m s hrun h
    obtain rfl := ((key m.store).mp ⟨fuel, k, m, hrun, rfl⟩).unique h
    exact ⟨rfl, rfl, rfl, rfl⟩

/-- A program that reads a byte and writes twice that byte, with the help of a second cell. -/
def doubling : Source Empty := .ofString ",[->++<]>."

/-- Of the two items 259 and 7, doubling takes the first, which is 3 modulo 256. -/
theorem evaluates_doubling :
    ∃ s, Evaluates ((scan doubling).tokens.map Token.symbol) (.start 2 [259, 7]) s ∧
      s.output = #[6] ∧ s.input = [7] := by
  obtain ⟨p, hp⟩ : ∃ p, compile doubling = .ok p := ⟨_, rfl⟩
  obtain ⟨hiff, hsame⟩ := execute_agrees_with_evaluates hp (show 0 < 2 by decide) [259, 7]
  have hend : (execute 2 doubling [259, 7] none 30).result.toOption = some 19 := by decide +kernel
  have houtput : (execute 2 doubling [259, 7] none 30).machine.output = #[6] := by decide +kernel
  have hinput : (execute 2 doubling [259, 7] none 30).machine.input = [7] := by decide +kernel
  obtain ⟨m, result, hrun⟩ : ∃ m result, execute 2 doubling [259, 7] none 30 = ⟨m, result⟩ :=
    ⟨_, _, rfl⟩
  rw [hrun] at hend houtput hinput
  cases result with
  | error => cases hend
  | ok k =>
    obtain ⟨s, hs⟩ := hiff.mp ⟨30, k, m, hrun⟩
    obtain ⟨hout, -, -, hin⟩ := hsame 30 k m s hrun hs
    exact ⟨s, hs, hout.symm.trans houtput, hin.symm.trans hinput⟩

end TapeLang
