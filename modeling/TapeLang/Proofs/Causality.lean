import Mathlib.Data.Int.ModEq
import TapeLang.Proofs.Budget

/-!
What an execution knows of its input.

As long as no read finds the input exhausted, an execution cannot tell what is behind the items that
it has read, nor one item from another that stands for the same byte.  Two machines are `Alike` if
they agree in everything but the input, and the input of the second one begins with the bytes of the
first one.  An instruction keeps machines alike unless it reads more than the first one has left
(`Machine.Alike.step`), and so machines that start alike leave the same trail
(`Machine.Alike.trail`).

Main statement: `fed_input_suffices`, an observer sees the same snapshots whatever the input goes on
with, and an execution that ends without having exhausted its input ends alike.
-/

namespace TapeLang

/-- The next instruction is a read that asks for more items than are left. -/
def Program.Starves (p : Program) (m : Machine) : Prop :=
  ∃ i ∈ p.code[m.pc]?, i.symbol = .read ∧ m.input.length < i.count

instance (p : Program) (m : Machine) : Decidable (p.Starves m) :=
  inferInstanceAs (Decidable (∃ i ∈ p.code[m.pc]?, i.symbol = .read ∧ m.input.length < i.count))

/-- None of the next `n` instructions finds the input exhausted. -/
def Program.Fed (p : Program) (m : Machine) (n : Nat) : Prop :=
  ∀ k < n, ∀ m', p.Steps k m m' → ¬ p.Starves m'

/-- The machines agree in everything but the input, and there the second one has the bytes that the
first one has, and `rest` behind them. -/
structure Machine.Alike (rest : List Int) (m m' : Machine) : Prop where
  tape : m'.tape = m.tape
  pointer : m'.pointer = m.pointer
  output : m'.output = m.output
  pc : m'.pc = m.pc
  input : ∃ b, m'.input = b ++ rest ∧ b.map byteOf = m.input.map byteOf

/-- Items that agree modulo 256 stand for the same byte. -/
theorem map_byteOf_eq {a b : List Int} (h : List.Forall₂ (fun x y => x ≡ y [ZMOD 256]) a b) :
    b.map byteOf = a.map byteOf := by
  induction h with
  | nil => rfl
  | cons hxy _ ih => rw [List.map_cons, List.map_cons, ih, byteOf, byteOf, hxy]

namespace Program

variable {p : Program} {m m₁ : Machine} {n k : Nat}

theorem Fed.mono (h : p.Fed m n) (hk : k ≤ n) : p.Fed m k :=
  fun j hj => h j (Nat.lt_of_lt_of_le hj hk)

theorem Fed.tail (h : p.Fed m (n + 1)) (hs : p.step m = (m₁, .running)) : p.Fed m₁ n :=
  fun k hk m' hsteps => h (k + 1) (Nat.succ_lt_succ hk) m' (.head hs hsteps)

end Program

namespace Machine.Alike

variable {rest : List Int} {p : Program} {m m' m₁ : Machine} {ss : List Snapshot} {n : Nat}

theorem snapshot (h : Alike rest m m') (step : Nat) (symbol : Option Symbol) :
    m'.snapshot step symbol = m.snapshot step symbol := by
  rw [Machine.snapshot, Machine.snapshot, h.pc, h.pointer, h.output]

/-- A read of what both machines have leaves the same byte in the cell. -/
theorem read (h : Alike rest m m') {count : Nat} (hcount : count ≤ m.input.length) :
    Alike rest (m.read count).1 (m'.read count).1 ∧ (m'.read count).2 = (m.read count).2 := by
  obtain ⟨tape, pointer, output, a, pc⟩ := m
  obtain ⟨tape', pointer', output', input', pc'⟩ := m'
  obtain ⟨htape, hpointer, houtput, hpc, b, hinput, hb⟩ := h
  dsimp only at htape hpointer houtput hpc hinput hb hcount
  subst htape hpointer houtput hpc hinput
  have hlength : count ≤ b.length := by
    have hmap := congrArg List.length hb
    rw [List.length_map, List.length_map] at hmap
    omega
  have hlast : (b.take count).getLast?.map byteOf = (a.take count).getLast?.map byteOf := by
    rw [← List.getLast?_map, ← List.getLast?_map, List.map_take, List.map_take, hb]
  have hdrop : (b.drop count).map byteOf = (a.drop count).map byteOf := by
    rw [List.map_drop, List.map_drop, hb]
  unfold Machine.read
  dsimp only
  rw [List.take_append_of_le_length hlength, List.drop_append_of_le_length hlength]
  cases ha : (a.take count).getLast? with
  | none =>
    rw [ha, Option.map_none, Option.map_eq_none_iff] at hlast
    rw [hlast]
    exact ⟨⟨rfl, rfl, rfl, rfl, b, rfl, hb⟩, rfl⟩
  | some x =>
    rw [ha, Option.map_some] at hlast
    obtain ⟨y, hy, hxy⟩ := Option.map_eq_some_iff.mp hlast
    rw [hy]
    dsimp only
    rw [hxy]
    split
    · exact ⟨⟨rfl, rfl, rfl, rfl, b.drop count, rfl, hdrop⟩, rfl⟩
    · exact ⟨⟨rfl, rfl, rfl, rfl, b, rfl, hb⟩, rfl⟩

/-- Whatever does not read does the same to both machines. -/
theorem exec (h : Alike rest m m') {i : Instruction}
    (hfed : i.symbol = .read → i.count ≤ m.input.length) (partner : Nat) :
    Alike rest (m.exec i partner).1 (m'.exec i partner).1 ∧
      (m'.exec i partner).2 = (m.exec i partner).2 := by
  cases hs : i.symbol with
  | read =>
    simp only [Machine.exec, hs]
    exact h.read (hfed hs)
  | _ =>
    obtain ⟨tape, pointer, output, a, pc⟩ := m
    obtain ⟨tape', pointer', output', input', pc'⟩ := m'
    obtain ⟨htape, hpointer, houtput, hpc, hinput⟩ := h
    dsimp only at htape hpointer houtput hpc
    subst htape hpointer houtput hpc
    simp only [Machine.exec, hs, changeCell, shift, write, branch]
    split <;> exact ⟨⟨rfl, rfl, rfl, rfl, hinput⟩, rfl⟩

theorem step (h : Alike rest m m') (hfed : ¬ p.Starves m) :
    Alike rest (p.step m).1 (p.step m').1 ∧ (p.step m').2 = (p.step m).2 := by
  unfold Program.step
  rw [h.pc]
  cases hcode : p.code[m.pc]? with
  | none => exact ⟨h, rfl⟩
  | some i =>
    refine h.exec ?_ _
    intro hs
    by_contra hlt
    exact hfed ⟨i, hcode, hs, Nat.lt_of_not_le hlt⟩

/-- Machines that are alike leave the same trail, as long as the first one is fed. -/
theorem trail {d : Nat} (htrail : p.Trail d m ss m₁) (h : Alike rest m m')
    (hfed : p.Fed m ss.length) : ∃ m₁', p.Trail d m' ss m₁' ∧ Alike rest m₁ m₁' := by
  induction htrail generalizing m' with
  | refl => exact ⟨m', .refl _ _, h⟩
  | @head d m m₂ _ i ss hcode hs _ ih =>
    obtain ⟨halike, hsignal⟩ := h.step (hfed 0 (Nat.succ_pos _) m (.refl m))
    rw [hs] at halike hsignal
    obtain ⟨m₂', hs'⟩ : ∃ m₂', p.step m' = (m₂', .running) := ⟨_, Prod.ext rfl hsignal⟩
    rw [hs'] at halike
    obtain ⟨m₁', htrail', halike'⟩ := ih halike (hfed.tail hs)
    have hcode' : p.code[m'.pc]? = some i := by rwa [h.pc]
    refine ⟨m₁', ?_, halike'⟩
    rw [← halike.snapshot]
    exact .head hcode' hs' htrail'

theorem reaches (hreaches : p.Reaches m n ss m₁) (h : Alike rest m m') (hfed : p.Fed m n) :
    ∃ m₁', p.Reaches m' n ss m₁' ∧ Alike rest m₁ m₁' := by
  cases hreaches with
  | ended htrail hlength hfin =>
    obtain ⟨m₁', htrail', halike⟩ := trail htrail h (hfed.mono hlength)
    refine ⟨m₁', .ended htrail' hlength ?_, halike⟩
    rwa [Program.Finished, halike.pc]
  | paused htrail hlength hpc =>
    obtain ⟨m₁', htrail', halike⟩ := trail htrail h (hfed.mono (Nat.le_of_eq hlength))
    exact ⟨m₁', .paused htrail' hlength (by rwa [halike.pc]), halike⟩

end Machine.Alike

/-! ### What is observed -/

/-- A trace goes as far as the instructions do that it was allowed. -/
theorem Program.Reaches.traceFrom_eq {p : Program} {start m : Machine} {n : Nat}
    {ss : List Snapshot} (h : p.Reaches start n ss m) :
    p.traceFrom n 0 start #[] =
      (m, if m.pc < p.code.size then .paused else .ended, ss.toArray) := by
  cases h with
  | ended htrail hlength hfin =>
    obtain ⟨k, rfl⟩ := Nat.exists_eq_add_of_le' hlength
    have hend : p.code.size ≤ m.pc := Array.getElem?_eq_none_iff.mp hfin
    rw [htrail.traceFrom, traceFrom_of_finished hfin, if_neg (by omega)]
    simp
  | paused htrail hlength hpc =>
    subst hlength
    have htrace := htrail.traceFrom 0 #[]
    rw [Nat.zero_add] at htrace
    rw [htrace, traceFrom, if_pos hpc]
    simp

/-- An observer of an accepted source that asks for a snapshot sees a trace. -/
theorem observe_of_compile {ε : Type} {source : Source ε} {p : Program}
    (hp : compile source = .ok p) (before : Machine) (input : List Int) (budget : Option Int)
    (fuel : Nat) {n : Nat} (hn : n ≠ 0) :
    observe before source input budget (some n) fuel =
      .ofTrace budget (some n) (min n (allowance budget fuel))
        (p.traceFrom (min n (allowance budget fuel)) 0 (.start before.tape.size input) #[]) := by
  have htake : ¬ (some n : Option Nat) = some 0 := by simpa using hn
  rw [observe, if_neg htake, hp]
  rfl

/-- What two machines that are alike let an observer see is the same. -/
theorem Observation.ofTrace_alike {ε : Type} {rest : List Int} {m m' : Machine}
    (h : m.Alike rest m') (budget : Option Int) (take : Option Nat) (n : Nat) (halt : Program.Halt)
    (seen : Array Snapshot) :
    let o : Observation ε := .ofTrace budget take n (m, halt, seen)
    let o' : Observation ε := .ofTrace budget take n (m', halt, seen)
    o'.snapshots = o.snapshots ∧ o'.machine.tape = o.machine.tape ∧ o'.error = o.error := by
  cases halt with
  | ended => exact ⟨by simp only [ofTrace, h.snapshot], h.tape, rfl⟩
  | fault f => exact ⟨rfl, h.tape, rfl⟩
  | paused => exact ⟨rfl, h.tape, rfl⟩

/-- **Causality**: as long as the execution of an accepted source does not find its input exhausted,
it goes the same way on every input that begins with the same bytes.  An observer of `n` snapshots
sees no difference if the first `n` instructions are fed, and an execution that is fed to its end
ends with the same output. -/
theorem fed_input_suffices {ε : Type} {source : Source ε} {p : Program}
    (hp : compile source = .ok p) {size : Nat} (hsize : 0 < size) {a b : List Int}
    (hab : List.Forall₂ (fun x y => x ≡ y [ZMOD 256]) a b) (c : List Int) :
    (∀ n, p.Fed (.start size a) n → ∀ before : Machine, before.tape.size = size →
      ∀ budget fuel,
        let o := observe before source a budget (some n) fuel
        let o' := observe before source (b ++ c) budget (some n) fuel
        o'.snapshots = o.snapshots ∧ o'.machine.tape = o.machine.tape ∧ o'.error = o.error) ∧
    ∀ k m, source.EndsAt size a k m → p.Fed (.start size a) k →
      ∃ m', source.EndsAt size (b ++ c) k m' ∧ m'.output = m.output ∧ m'.tape = m.tape ∧
        m'.pointer = m.pointer := by
  have hstart : (Machine.start size a).Alike c (.start size (b ++ c)) :=
    ⟨rfl, rfl, rfl, rfl, b, rfl, map_byteOf_eq hab⟩
  constructor
  · rintro n hfed before rfl budget fuel
    by_cases hn : n = 0
    · subst hn
      exact ⟨rfl, rfl, rfl⟩
    · obtain ⟨ss, m, hreaches⟩ := exists_reaches hp hsize a (min n (allowance budget fuel))
      obtain ⟨m', hreaches', halike⟩ :=
        Machine.Alike.reaches hreaches hstart (hfed.mono (Nat.min_le_left _ _))
      rw [observe_of_compile hp _ _ _ _ hn, observe_of_compile hp _ _ _ _ hn,
        hreaches.traceFrom_eq, hreaches'.traceFrom_eq, halike.pc]
      exact Observation.ofTrace_alike halike _ _ _ _ _
  · intro k m hends hfed
    obtain ⟨hsteps, hfin⟩ := (endsAt_iff hp).mp hends
    obtain ⟨ss, htrail, rfl⟩ := Program.Trail.of_steps hsteps 0
    obtain ⟨m', htrail', halike⟩ := Machine.Alike.trail htrail hstart hfed
    refine ⟨m', (endsAt_iff hp).mpr ⟨htrail'.steps, ?_⟩, halike.output, halike.tape,
      halike.pointer⟩
    rwa [Program.Finished, halike.pc]

/-- A program that writes what it reads, up to the first zero. -/
def copying : Source Empty := .ofString ",[.,]"

/-- Nothing behind the zero is ever asked for. -/
theorem fed_input_suffices_copying :
    List.Forall₂ (fun x y => x ≡ y [ZMOD 256]) [2, 256] [258, 0] ∧
    ∃ m, copying.EndsAt 1 ([258, 0] ++ [7]) 5 m ∧ m.output = #[2] := by
  have hp : compile copying = .ok
      ⟨#[⟨.read, 1⟩, ⟨.loopOpen, 1⟩, ⟨.write, 1⟩, ⟨.read, 1⟩, ⟨.loopClose, 1⟩],
        #[none, some 4, none, none, some 1]⟩ := rfl
  have hab : List.Forall₂ (fun x y => x ≡ y [ZMOD 256]) [2, 256] [258, 0] :=
    .cons (by decide) (.cons (by decide) .nil)
  have hends : copying.EndsAt 1 [2, 256] 5 ⟨#[0], 0, #[2], [], 5⟩ := ⟨5, rfl⟩
  refine ⟨hab, ?_⟩
  obtain ⟨m, hm, houtput, -⟩ :=
    (fed_input_suffices hp (show 0 < 1 by decide) hab [7]).2 5 _ hends (by
      intro k hk m hm
      rw [← machine_execute_of_steps hp hm]
      clear hm
      revert k
      decide +kernel)
  exact ⟨m, hm, houtput⟩

end TapeLang
