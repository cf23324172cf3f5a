import TapeLang.Proofs.Acceptance
import TapeLang.Proofs.Budget

/-!
What becomes of a program text.

A text that is given as a whole is refused, with its first error, or it is accepted.  Code
generation and flattening into a program agree on it because both follow the verdict on its runs,
which is the verdict on its visible characters (`verdict_runsOf`).  An accepted text that is
executed ends by itself within its allowance, or it does not.

Main statement: `execute_text_cases`, these are all the ways an execution can come out, each with
the condition on the text that leads to it.
-/

namespace TapeLang

open Assembly

variable {ε : Type}

/-! ### Compiled -/

/-- A text has a program, or it is refused with its first error. -/
theorem compile_text_cases (text : String) :
    (Acceptable (visible text.toList) ∧ ∃ p, compile (.ofString text : Source ε) = .ok p) ∨
    ∃ e, FirstError (visible text.toList) e ∧
      compile (.ofString text : Source ε) = .error (.invalid e) := by
  have hrs : ∀ r ∈ (runsOf (.ofString text : Source ε)).runs, r.Proper := fun _ => proper_runs
  obtain ⟨p, hp⟩ := flatten_eq hrs
  rw [compile, hp]
  rcases verdict_text_cases text with ⟨hacceptable, l, hl⟩ | ⟨e, hfirst, he⟩
  · rw [hl]
    exact .inl ⟨hacceptable, p, rfl⟩
  · rw [he]
    exact .inr ⟨e, hfirst, rfl⟩

/-! ### Executed -/

namespace Source.EndsAt

variable {source : Source ε} {size : Nat} {input : List Int} {k k' : Nat} {m m' : Machine}

/-- Only a source with a program is executed to an end. -/
theorem exists_program (h : source.EndsAt size input k m) : ∃ p, compile source = .ok p := by
  obtain ⟨fuel, hexecute⟩ := h
  cases hp : compile source with
  | ok p => exact ⟨p, rfl⟩
  | error i =>
    rw [execute, hp] at hexecute
    cases hexecute

/-- A source is executed to one end only. -/
theorem unique (h : source.EndsAt size input k m) (h' : source.EndsAt size input k' m') :
    k = k' ∧ m = m' := by
  obtain ⟨p, hp⟩ := h.exists_program
  obtain ⟨hsteps, hfin⟩ := (endsAt_iff hp).mp h
  obtain ⟨hsteps', hfin'⟩ := (endsAt_iff hp).mp h'
  exact hsteps.unique hsteps' hfin hfin'

end Source.EndsAt

/-- Only an acceptable text is executed to an end. -/
theorem acceptable_of_endsAt {text : String} {size : Nat} {input : List Int} {k : Nat}
    {m : Machine} (h : (.ofString text : Source ε).EndsAt size input k m) :
    Acceptable (visible text.toList) := by
  obtain ⟨p, hp⟩ := h.exists_program
  rcases compile_text_cases text with ⟨hacceptable, -⟩ | ⟨e, -, he⟩
  · exact hacceptable
  · rw [hp] at he
    cases he

/-- **Outcomes**: a text that is executed on a tape with at least one cell is refused with its first
error, or it ends by itself within its allowance, or it is acceptable and does not. -/
theorem execute_text_cases (text : String) {size : Nat} (hsize : 0 < size) (input : List Int)
    (budget : Option Int) (fuel : Nat) :
    (∃ e, FirstError (visible text.toList) e ∧
      execute size (.ofString text : Source ε) input budget fuel =
        ⟨.start size [], .error (.interrupted (.invalid e))⟩) ∨
    (∃ k m, k ≤ allowance budget fuel ∧ (.ofString text : Source ε).EndsAt size input k m ∧
      execute size (.ofString text : Source ε) input budget fuel = ⟨m, .ok k⟩) ∨
    (Acceptable (visible text.toList) ∧
      ¬ (.ofString text : Source ε).EndsWithin size input (allowance budget fuel) ∧
      (execute size (.ofString text : Source ε) input budget fuel).result =
        .error (exhaustion budget)) := by
  rcases compile_text_cases text with ⟨hacceptable, p, hp⟩ | ⟨e, hfirst, he⟩
  · -- The trail of the program is followed for as many instructions as are allowed.
    obtain ⟨ss, m, hreaches⟩ := exists_reaches hp hsize input (allowance budget fuel)
    cases hreaches with
    | ended htrail hlength hfin =>
      have hends := (endsAt_iff hp).mpr ⟨htrail.steps, hfin⟩
      exact .inr (.inl ⟨ss.length, m, hlength, hends, execute_of_endsAt hp hends hlength⟩)
    | paused htrail hlength hpc =>
      have hnever := not_endsAt_of_paused hp htrail hpc
      rw [hlength] at hnever
      refine .inr (.inr ⟨hacceptable, hnever, ?_⟩)
      rw [execute_of_paused hp htrail hlength hpc]
  · refine .inl ⟨e, hfirst, ?_⟩
    rw [execute, he]

/-- Bytes are shown one character for each. -/
theorem textOfBytes_eq (bytes : Array UInt8) :
    textOfBytes bytes = String.ofList (bytes.toList.map fun b => Char.ofNat b.toNat) := by
  have hpush : ∀ (l : List UInt8) (s : String),
      l.foldl (fun s b => s.push (Char.ofNat b.toNat)) s =
        s ++ String.ofList (l.map fun b => Char.ofNat b.toNat) := by
    intro l
    induction l with
    | nil => simp
    | cons b l ih =>
      intro s
      rw [List.foldl_cons, ih, List.map_cons, String.ofList_cons, ← String.append_assoc]
      congr 1
  rw [textOfBytes, ← Array.foldl_toList, hpush, String.empty_append]

end TapeLang
