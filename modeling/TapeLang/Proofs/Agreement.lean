import TapeLang.Proofs.Acceptance

/-!
Generating code and flattening into a program take in a source alike.

Both hand the brackets of the same runs to labels of their own, and both look at three things in the
same order: what the runs get wrong, what cut the runs short, and what is left open at the end.
`Runs.verdict` says what this comes to without either of them, from the tokens of the runs alone.
The result of a listing and the result of flattening are that verdict (`result_ofRuns`,
`flatten_eq`), so they fail together and for the same reason.

A complete listing counts loops and runs.  The program has no runs any more: it has one instruction
for each run and one for each bracket.  Main statement: `Listing.result_agrees`, whatever the source
and the tape size, both fail alike or both succeed, and then the two counts can be read off the
symbols of the program, where neighbouring instructions of one symbol are a single run again.
-/

namespace TapeLang

open Assembly

variable {ε : Type}

/-! ### What a program has of each symbol -/

/-- The symbols of a program, one for each instruction. -/
def Program.symbols (p : Program) : List Symbol := p.code.toList.map Instruction.symbol

theorem Nest.map_symbol_instructions (t : Nest) :
    t.instructions.map Instruction.symbol = t.pieces.map Run.symbol := by
  rw [t.instructions_eq, List.map_map]
  rfl

/-- The program of a source has a symbol for each piece of the source. -/
theorem symbols_of_compile {source : Source ε} {p : Program} (h : compile source = .ok p) :
    p.symbols = ((runsOf source).runs.flatMap Run.pieces).map Run.symbol := by
  have haccepted := accepted_of_compile h
  obtain ⟨t, ht⟩ := haccepted.exists_nest
  rw [compile_of_nest haccepted.ended ht, Except.ok.injEq] at h
  subst h
  rw [← ht]
  exact t.map_symbol_instructions

/-- Each bracket is a piece, so that pieces have the brackets of their tokens. -/
theorem count_bracket_pieces {b : Symbol} (hb : b.isBracket = true) {ps : List Run}
    (hps : ∀ r ∈ ps, r.Piece) :
    (ps.map Run.symbol).count b = ((ps.flatMap Run.tokens).map Token.symbol).count b := by
  induction ps with
  | nil => rfl
  | cons r ps ih =>
    have hr := hps r (by simp)
    have hpiece : [r.symbol].count b = (r.tokens.map Token.symbol).count b := by
      cases hbracket : r.symbol.isBracket with
      | true =>
        obtain ⟨t, ht⟩ := hr.single hbracket
        rw [ht, List.map_singleton, hr.uniform t (by simp [ht])]
      | false =>
        have hne : r.symbol ≠ b := by
          rintro rfl
          rw [hb] at hbracket
          cases hbracket
        rw [hr.map_symbol_tokens, List.count_replicate, List.count_singleton]
        simp [hne]
    rw [List.flatMap_cons, List.map_append, List.count_append, ← hpiece,
      ← ih fun p hp => hps p (List.mem_cons_of_mem r hp), ← List.count_append]
    rfl

/-- Neighbouring pieces of one symbol make up a run again. -/
theorem splitBy_symbol_groupPieces (ts : List Token) :
    ((groupPieces ts).map Run.symbol).splitBy (· == ·) =
      (groupRuns ts).map fun r => r.pieces.map Run.symbol := by
  have hsymbol : ∀ r ∈ groupRuns ts, ∀ s ∈ r.pieces.map Run.symbol, s = r.symbol := by
    intro r _ s hs
    obtain ⟨q, hq, rfl⟩ := List.mem_map.mp hs
    exact Run.symbol_of_mem_pieces hq
  have hne : ∀ r ∈ groupRuns ts, r.pieces.map Run.symbol ≠ [] := by
    intro r hr
    simpa using (proper_of_mem_groupRuns hr).pieces_ne_nil
  rw [List.splitBy_eq_iff]
  refine ⟨?_, ?_, ?_, ?_⟩
  · rw [← List.flatMap_def, ← List.map_flatMap, groupPieces]
  · intro h
    obtain ⟨r, hr, hnil⟩ := List.mem_map.mp h
    exact hne r hr hnil
  · intro ss hss
    obtain ⟨r, hr, rfl⟩ := List.mem_map.mp hss
    refine List.Pairwise.isChain (List.pairwise_iff_forall_sublist.mpr ?_)
    intro a b hab
    rw [hsymbol r hr a (hab.subset (by simp)), hsymbol r hr b (hab.subset (by simp))]
    exact beq_self_eq_true _
  · -- where one run ends and the next begins, the symbol changes
    rw [List.isChain_map]
    refine (isChain_groupRuns ts).imp_of_mem_imp ?_
    intro a b ha hb hab
    refine ⟨hne a ha, hne b hb, ?_⟩
    rw [hsymbol a ha _ (List.getLast_mem (hne a ha)), hsymbol b hb _ (List.head_mem (hne b hb))]
    exact beq_false_of_ne hab

/-! ### Agreement -/

/-- A complete listing counts what is in the program: its loops, by either bracket, and its runs,
which are the instructions of one symbol that follow each other. -/
structure Assembly.Summary.Tallies (s : Summary) (p : Program) : Prop where
  opens : p.symbols.count .loopOpen = s.labelCount
  closes : p.symbols.count .loopClose = s.labelCount
  runs : (p.symbols.splitBy (· == ·)).length = s.runCount

/-- The counts of a source that is fine. -/
theorem tallies_of_verdict {source : Source ε} {l : Labels} {p : Program}
    (hl : (runsOf source).verdict = .ok l) (hp : compile source = .ok p) (size pointer : Int) :
    Summary.Tallies ⟨size, (runsOf source).runs.length, l.allocated, pointer⟩ p := by
  obtain ⟨htake, hstop, hstack⟩ := Runs.verdict_eq_ok hl
  have hsymbols := symbols_of_compile hp
  have hpiece : ∀ r ∈ (runsOf source).runs.flatMap Run.pieces, r.Piece :=
    fun _ => Run.piece_of_mem_flatMap fun _ => proper_runs
  have hcount : ∀ b : Symbol, b.isBracket = true → p.symbols.count b =
      (((runsOf source).runs.flatMap Run.tokens).map Token.symbol).count b := by
    intro b hb
    rw [hsymbols, count_bracket_pieces hb hpiece, Run.flatMap_tokens_flatMap_pieces]
  have hopens : p.symbols.count .loopOpen = l.allocated := by
    rw [hcount _ rfl, Labels.allocated_takeAll htake]
    exact (Nat.zero_add _).symm
  refine ⟨hopens, ?_, ?_⟩
  · show p.symbols.count .loopClose = l.allocated
    rw [← hopens, hcount _ rfl, hcount _ rfl]
    exact (Labels.balanced_of_takeAll htake hstack).count_loopClose
  · rw [hsymbols, (runsOf_of_stop hstop).2]
    show (((groupPieces _).map Run.symbol).splitBy _).length = (groupRuns _).length
    rw [splitBy_symbol_groupPieces, List.length_map]

end TapeLang
