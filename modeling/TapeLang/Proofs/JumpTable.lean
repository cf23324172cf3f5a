import Mathlib.Data.List.Nodup
import TapeLang.Proofs.Nest

/-!
The jump table while it is being made.

An opening bracket enters the program before its partner is known.  Flattening remembers its index
under the number of its loop, and when the loop is closed the two brackets become each other's
partners.  `Tracked` says how the tables stand in between, for texts that will be accepted and for
texts that will not: the loops that are open lead to different opening brackets without a partner,
and every other bracket has one.  Each operation keeps this up (`Tracked.push`, `Tracked.openLoop`,
`Tracked.closeLoop`), so it holds wherever flattening may get (`Reached.tracked`).

Main statements: `Reached.finds`, the number of a loop that is closed is always found, and not yet
used; and `linked_of_compile`, in a program that compiles every bracket has a partner.
-/

namespace TapeLang

/-- Every bracket of the program has a partner in it. -/
def Program.Linked (p : Program) : Prop :=
  ∀ i a n, p.code[i]? = some ⟨a, n⟩ → a.isBracket = true →
    ∃ j < p.code.size, p.jump? i = some j

namespace Flattening

/-- The loops that are open have their brackets at the indices `opens`, innermost first, and these
are the brackets without a partner. -/
structure Tracked (f : Flattening) (opens : List Nat) : Prop where
  jumps : f.jumps.size = f.code.size
  numbers : f.starts.size = f.labels.allocated
  starts : f.labels.stack.map (fun e => f.starts[e.1]?) = opens.map some
  distinct : opens.Nodup
  pending : ∀ i ∈ opens, f.code[i]? = some ⟨.loopOpen, 1⟩ ∧ f.jumps[i]? = some none
  paired : ∀ i a n, f.code[i]? = some ⟨a, n⟩ → a.isBracket = true → i ∉ opens →
    ∃ j < f.code.size, f.jumps[i]? = some (some j)

namespace Tracked

variable {f : Flattening} {opens : List Nat}

theorem start : Tracked .start [] where
  jumps := rfl
  numbers := rfl
  starts := rfl
  distinct := List.nodup_nil
  pending := by simp
  paired := by simp [Flattening.start]

theorem lt_size (h : f.Tracked opens) {i : Nat} (hi : i ∈ opens) : i < f.code.size :=
  (Array.getElem?_eq_some_iff.mp (h.pending i hi).1).1

/-- An open loop has its entry in the table of openings. -/
theorem lt_starts (h : f.Tracked opens) {e : Nat × Position} (he : e ∈ f.labels.stack) :
    e.1 < f.starts.size := by
  have hmem : f.starts[e.1]? ∈ opens.map some := by
    rw [← h.starts]
    exact List.mem_map_of_mem he
  obtain ⟨i, -, hi⟩ := List.mem_map.mp hmem
  exact (Array.getElem?_eq_some_iff.mp hi.symm).1

/-- Adding an entry to a table leaves the others as they are. -/
theorem getElem?_push_of_lt {α : Type} {xs : Array α} {x : α} {i : Nat} (h : i < xs.size) :
    (xs.push x)[i]? = xs[i]? := by
  rw [Array.getElem?_push, if_neg (Nat.ne_of_lt h)]

/-- Adding an instruction that is no bracket. -/
theorem push (h : f.Tracked opens) {i : Instruction} (hi : i.symbol.isBracket = false) :
    (f.push i).Tracked opens where
  jumps := by simp [Flattening.push, h.jumps]
  numbers := h.numbers
  starts := h.starts
  distinct := h.distinct
  pending := by
    intro j hj
    have hlt := h.lt_size hj
    simp only [Flattening.push, getElem?_push_of_lt hlt, getElem?_push_of_lt (h.jumps ▸ hlt)]
    exact h.pending j hj
  paired := by
    intro j a n hj ha hopen
    rw [Flattening.push] at hj ⊢
    rw [Array.getElem?_push] at hj
    split at hj
    · cases hj
      rw [hi] at ha
      cases ha
    · obtain ⟨k, hk, hjump⟩ := h.paired j a n hj ha hopen
      have hlt := (Array.getElem?_eq_some_iff.mp hjump).1
      refine ⟨k, by simp; omega, ?_⟩
      rw [getElem?_push_of_lt hlt, hjump]

/-- Opening a loop: one more bracket is without a partner. -/
theorem openLoop (h : f.Tracked opens) (t : Token) :
    (f.openLoop t).Tracked (f.code.size :: opens) := by
  rw [openLoop_eq]
  refine ⟨?_, ?_, ?_, ?_, ?_, ?_⟩
  · simp [h.jumps]
  · simp [h.numbers, Labels.enter]
  · -- the loops that were open before keep their entries
    have hold : ∀ e ∈ f.labels.stack, (f.starts.push f.code.size)[e.1]? = f.starts[e.1]? := by
      intro e he
      exact getElem?_push_of_lt (h.lt_starts he)
    show (f.starts.push f.code.size)[f.labels.allocated]? ::
      f.labels.stack.map (fun e => (f.starts.push f.code.size)[e.1]?) = _
    rw [List.map_congr_left hold, h.starts, ← h.numbers, Array.getElem?_push_size]
    rfl
  · rw [List.nodup_cons]
    refine ⟨?_, h.distinct⟩
    intro hmem
    exact Nat.lt_irrefl _ (h.lt_size hmem)
  · intro i hi
    rcases List.mem_cons.mp hi with rfl | hi
    · refine ⟨Array.getElem?_push_size, ?_⟩
      rw [← h.jumps]
      exact Array.getElem?_push_size
    · have hlt := h.lt_size hi
      simp only [getElem?_push_of_lt hlt, getElem?_push_of_lt (h.jumps ▸ hlt)]
      exact h.pending i hi
  · intro i a n hi ha hopen
    rw [List.mem_cons, not_or] at hopen
    rw [Array.getElem?_push, if_neg hopen.1] at hi
    obtain ⟨j, hj, hjump⟩ := h.paired i a n hi ha hopen.2
    have hlt := (Array.getElem?_eq_some_iff.mp hjump).1
    refine ⟨j, by simp; omega, ?_⟩
    rw [getElem?_push_of_lt hlt, hjump]

/-- The loop that is closed next has its bracket in the program, without a partner so far. -/
theorem leave (h : f.Tracked opens) {place : Position} {n : Nat} {l : Labels}
    (hl : f.labels.leave place = .ok (n, l)) :
    ∃ i rest, opens = i :: rest ∧ f.starts[n]? = some i ∧
      l.stack.map (fun e => f.starts[e.1]?) = rest.map some ∧ l.allocated = f.labels.allocated := by
  have hstarts := h.starts
  unfold Labels.leave at hl
  split at hl
  · cases hl
  · rename_i m p stack hstack
    cases hl
    rw [hstack, List.map_cons] at hstarts
    obtain ⟨i, rest, rfl, hi, hrest⟩ := List.map_eq_cons_iff.mp hstarts.symm
    exact ⟨i, rest, rfl, hi.symm, hrest.symm, rfl⟩

/-- Two brackets become partners: the opening one of the innermost loop, and a closing one that is
added. -/
theorem pair {start : Nat} {rest : List Nat} (h : f.Tracked (start :: rest)) {l : Labels}
    (hstarts : l.stack.map (fun e => f.starts[e.1]?) = rest.map some)
    (hnumbers : l.allocated = f.labels.allocated) :
    Tracked { f with
      code := f.code.push ⟨.loopClose, 1⟩
      jumps := (f.jumps.setIfInBounds start (some f.code.size)).push (some start)
      labels := l } rest := by
  have hdistinct := List.nodup_cons.mp h.distinct
  have hstart := h.lt_size (i := start) (by simp)
  refine ⟨by simp [h.jumps], h.numbers.trans hnumbers.symm, hstarts, hdistinct.2, ?_, ?_⟩
  · intro i hi
    have hne : start ≠ i := by
      rintro rfl
      exact hdistinct.1 hi
    have hi' := List.mem_cons_of_mem start hi
    have hlt := h.lt_size hi'
    obtain ⟨hcode, hjump⟩ := h.pending i hi'
    refine ⟨?_, ?_⟩
    · show (f.code.push _)[i]? = _
      rw [getElem?_push_of_lt hlt, hcode]
    · show ((f.jumps.setIfInBounds start _).push _)[i]? = _
      rw [getElem?_push_of_lt (by simpa [h.jumps] using hlt),
        Array.getElem?_setIfInBounds_ne hne, hjump]
  · intro i a n hi ha hopen
    show ∃ j < (f.code.push _).size, ((f.jumps.setIfInBounds start _).push _)[i]? = _
    rw [Array.size_push]
    -- the bracket is the new one, or its partner, or it had a partner before
    by_cases hnew : i = f.code.size
    · refine ⟨start, by omega, ?_⟩
      rw [Array.getElem?_push, if_pos (by simp [h.jumps, hnew])]
    · rw [Array.getElem?_push, if_neg (by simpa [h.jumps] using hnew)]
      by_cases hpartner : i = start
      · refine ⟨f.code.size, by omega, ?_⟩
        rw [hpartner, Array.getElem?_setIfInBounds_self_of_lt (h.jumps ▸ hstart)]
      · have hi' : f.code[i]? = some ⟨a, n⟩ := by
          rwa [Array.getElem?_push, if_neg hnew] at hi
        obtain ⟨j, hj, hjump⟩ := h.paired i a n hi' ha (by simp [hpartner, hopen])
        refine ⟨j, by omega, ?_⟩
        rw [Array.getElem?_setIfInBounds_ne (Ne.symm hpartner), hjump]

/-- Closing a loop, if there is one to close. -/
theorem closeLoop (h : f.Tracked opens) (t : Token) :
    ∃ opens', (f.closeLoop t).Tracked opens' := by
  cases herror : f.error with
  | some e =>
    rw [closeLoop_of_error herror]
    exact ⟨opens, h⟩
  | none =>
    cases hleave : f.labels.leave t.position with
    | error e =>
      rw [closeLoop_of_refused herror hleave]
      exact ⟨opens, h.jumps, h.numbers, h.starts, h.distinct, h.pending, h.paired⟩
    | ok closed =>
      obtain ⟨n, l⟩ := closed
      obtain ⟨start, rest, rfl, hstart, hrest, hnumbers⟩ := h.leave hleave
      rw [closeLoop_of_closed herror hleave, hstart]
      exact ⟨rest, h.pair hrest hnumbers⟩

/-- Flattening a piece. -/
theorem run (h : f.Tracked opens) {r : Run} (hr : r.Piece) :
    ∃ opens', (f.run r).Tracked opens' := by
  cases herror : f.error with
  | some e =>
    have hrun : f.run r = f := intake.run_of_error herror r
    rw [hrun]
    exact ⟨opens, h⟩
  | none =>
    cases hb : r.symbol.isBracket with
    | false =>
      rw [run_act herror hb]
      exact ⟨opens, h.push hb⟩
    | true =>
      obtain ⟨t, ht⟩ := hr.single hb
      obtain ⟨symbol, ts⟩ := r
      subst ht
      cases symbol with
      | loopOpen =>
        have hrun : f.run ⟨.loopOpen, [t]⟩ = f.openLoop t := intake.run_openLoop herror t
        rw [hrun]
        exact ⟨_, h.openLoop t⟩
      | loopClose =>
        have hrun : f.run ⟨.loopClose, [t]⟩ = f.closeLoop t := intake.run_closeLoop f t
        rw [hrun]
        exact h.closeLoop t
      | _ => cases hb

theorem foldl_run {ps : List Run} (hps : ∀ r ∈ ps, r.Piece) (h : f.Tracked opens) :
    ∃ opens', (ps.foldl Flattening.run f).Tracked opens' := by
  induction ps generalizing f opens with
  | nil => exact ⟨opens, h⟩
  | cons r ps ih =>
    obtain ⟨opens', hr⟩ := h.run (hps r (by simp))
    exact ih (fun p hp => hps p (List.mem_cons_of_mem r hp)) hr

end Tracked

/-! ### Wherever flattening may get -/

/-- A state that flattening goes through on its way through some runs, bracket by bracket. -/
def Reached (rs : List Run) (f : Flattening) : Prop :=
  ∃ ps, ps <+: rs.flatMap Run.pieces ∧ f = ps.foldl run .start

theorem reached_foldl_run (rs : List Run) : Reached rs (rs.foldl run .start) :=
  ⟨rs.flatMap Run.pieces, List.prefix_refl _, (intake.foldl_run_pieces rs .start).symm⟩

theorem Reached.tracked {rs : List Run} (hrs : ∀ r ∈ rs, r.Proper) {f : Flattening}
    (h : Reached rs f) : ∃ opens, f.Tracked opens := by
  obtain ⟨ps, hps, rfl⟩ := h
  refine Tracked.foldl_run ?_ .start
  intro r hr
  exact Run.piece_of_mem_flatMap hrs (hps.subset hr)

/-- A loop that is closed next is found in the table of openings, and its bracket is in the program
without a partner so far. -/
def Finds (f : Flattening) : Prop :=
  ∀ place n l, f.labels.leave place = .ok (n, l) →
    ∃ i, f.starts[n]? = some i ∧ f.code[i]? = some ⟨.loopOpen, 1⟩ ∧ f.jumps[i]? = some none

/-- Flattening always finds the loop it closes. -/
theorem Reached.finds {rs : List Run} (hrs : ∀ r ∈ rs, r.Proper) {f : Flattening}
    (h : Reached rs f) : f.Finds := by
  intro place n l hl
  obtain ⟨opens, htracked⟩ := h.tracked hrs
  obtain ⟨i, rest, rfl, hi, -⟩ := htracked.leave hl
  exact ⟨i, hi, htracked.pending i (by simp)⟩

end Flattening

/-- In a program that compiles, every bracket has a partner. -/
theorem linked_of_compile {ε : Type} {source : Source ε} {p : Program}
    (h : compile source = .ok p) : p.Linked := by
  rw [compile, flatten] at h
  split at h
  · cases h
  · cases h
  · cases h
  · rename_i u herr hstop hfinish
    cases h
    obtain ⟨opens, htracked⟩ :=
      (Flattening.reached_foldl_run (runsOf source).runs).tracked fun _ => proper_runs
    -- nothing is open at the end, so no bracket is left without a partner
    have hnil : opens = [] := by
      have hstarts := htracked.starts
      rw [Labels.finish_eq_ok_iff.mp ⟨u, hfinish⟩] at hstarts
      exact List.map_eq_nil_iff.mp hstarts.symm
    subst hnil
    intro i a n hi ha
    obtain ⟨j, hj, hjump⟩ := htracked.paired i a n hi ha (by simp)
    refine ⟨j, hj, ?_⟩
    rw [Program.jump?, hjump]
    rfl

end TapeLang
