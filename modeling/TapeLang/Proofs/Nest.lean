import TapeLang.Program
import TapeLang.Proofs.Labelling

/-!
Programs with their loops nested.

A `Nest` is what the runs of an accepted text amount to: runs without brackets in sequence, and
loops around nests.  `Nest.pieces` writes a nest out again, run by run and bracket by bracket.

Main statements: `exists_nest`, balanced pieces are the pieces of some nest; and `foldl_run_pieces`,
flattening the pieces of a nest appends its instructions and its jump table, where `Nest.jumps`
leads from each bracket straight to the other end of its loop.  Together they give the shape of
every program that compiles (`exists_program_nest`).
-/

namespace TapeLang

/-- A program with its loops nested. -/
inductive Nest where
  /-- Nothing is left to do. -/
  | done
  /-- A run that is no bracket, and what follows it. -/
  | act (r : Run) (plain : r.symbol.isBracket = false) (rest : Nest)
  /-- A loop between its brackets, and what follows it. -/
  | loop (enter : Token) (body : Nest) (leave : Token) (rest : Nest)

/-- The instruction of a piece. -/
def Run.instruction (r : Run) : Instruction := ⟨r.symbol, r.count⟩

namespace Nest

/-- The runs and single brackets of a nest, in the order of the text. -/
def pieces : Nest → List Run
  | done => []
  | act r _ rest => r :: rest.pieces
  | loop enter body leave rest =>
    ⟨.loopOpen, [enter]⟩ :: (body.pieces ++ ⟨.loopClose, [leave]⟩ :: rest.pieces)

/-- How many instructions a nest has. -/
def size : Nest → Nat
  | done => 0
  | act _ _ rest => rest.size + 1
  | loop _ body _ rest => body.size + rest.size + 2

/-- How many loops a nest has, inner ones included. -/
def loops : Nest → Nat
  | done => 0
  | act _ _ rest => rest.loops
  | loop _ body _ rest => body.loops + rest.loops + 1

/-- The instructions of a nest. -/
def instructions : Nest → List Instruction
  | done => []
  | act r _ rest => ⟨r.symbol, r.count⟩ :: rest.instructions
  | loop _ body _ rest =>
    ⟨.loopOpen, 1⟩ :: (body.instructions ++ ⟨.loopClose, 1⟩ :: rest.instructions)

/-- The partners of the instructions of a nest, of which the first has index `k`. -/
def jumps : Nest → Nat → List (Option Nat)
  | done, _ => []
  | act _ _ rest, k => none :: rest.jumps (k + 1)
  | loop _ body _ rest, k =>
    some (k + 1 + body.size) :: (body.jumps (k + 1) ++ some k :: rest.jumps (k + 2 + body.size))

/-- The program of a nest. -/
def program (t : Nest) : Program := ⟨t.instructions.toArray, (t.jumps 0).toArray⟩

/-- The symbols of a nest, one by one. -/
def symbols : Nest → List Symbol
  | done => []
  | act r _ rest => List.replicate r.count r.symbol ++ rest.symbols
  | loop _ body _ rest => .loopOpen :: (body.symbols ++ .loopClose :: rest.symbols)

theorem instructions_eq (t : Nest) : t.instructions = t.pieces.map Run.instruction := by
  induction t with
  | done => rfl
  | act r _ rest ih => rw [instructions, pieces, List.map_cons, ih, Run.instruction]
  | loop enter body leave rest ihb ihr =>
    simp only [instructions, pieces, List.map_cons, List.map_append, ihb, ihr]
    rfl

@[simp] theorem length_instructions (t : Nest) : t.instructions.length = t.size := by
  induction t with
  | done => rfl
  | act r _ rest ih => simp [instructions, size, ih]
  | loop _ body _ rest ihb ihr =>
    simp [instructions, size, ihb, ihr]
    omega

@[simp] theorem length_jumps (t : Nest) (k : Nat) : (t.jumps k).length = t.size := by
  induction t generalizing k with
  | done => rfl
  | act r _ rest ih => simp [jumps, size, ih]
  | loop _ body _ rest ihb ihr =>
    simp [jumps, size, ihb, ihr]
    omega

theorem balanced_symbols (t : Nest) : Balanced t.symbols := by
  induction t with
  | done => exact .nil
  | act r plain rest ih =>
    refine Balanced.append ?_ ih
    induction r.count with
    | zero => exact .nil
    | succ n ihn => exact .act plain ihn
  | loop _ body _ rest ihb ihr => exact .loop ihb ihr

/-- A nest has the symbols of its pieces. -/
theorem map_symbol_tokens {t : Nest} (h : ∀ r ∈ t.pieces, r.Proper) :
    (t.pieces.flatMap Run.tokens).map Token.symbol = t.symbols := by
  induction t with
  | done => rfl
  | act r _ rest ih =>
    rw [pieces, List.flatMap_cons, List.map_append, symbols,
      ih fun r' h' => h r' (List.mem_cons_of_mem r h'), (h r (by simp [pieces])).map_symbol_tokens]
  | loop enter body leave rest ihb ihr =>
    have henter : enter.symbol = .loopOpen :=
      (h ⟨.loopOpen, [enter]⟩ (by simp [pieces])).uniform enter (by simp)
    have hleave : leave.symbol = .loopClose :=
      (h ⟨.loopClose, [leave]⟩ (by simp [pieces])).uniform leave (by simp)
    have hbody := ihb fun r hr => h r (by simp [pieces, hr])
    have hrest := ihr fun r hr => h r (by simp [pieces, hr])
    simp only [pieces, symbols, List.flatMap_cons, List.flatMap_append, List.map_append,
      List.map_cons, List.cons_append, List.nil_append, henter, hleave, hbody, hrest]

end Nest

/-! ### From pieces to nests -/

/-- Balanced pieces are the pieces of a nest. -/
theorem exists_nest {ps : List Run} (hp : ∀ r ∈ ps, r.Piece)
    (hb : Balanced (ps.map Run.symbol)) : ∃ t : Nest, t.pieces = ps := by
  generalize hl : ps.map Run.symbol = l at hb
  induction hb generalizing ps with
  | nil => exact ⟨.done, by simpa [Nest.pieces] using hl⟩
  | act ha _ ih =>
    obtain ⟨r, rest, rfl, rfl, rfl⟩ := List.map_eq_cons_iff.mp hl
    obtain ⟨t, ht⟩ := ih (fun r' h' => hp r' (List.mem_cons_of_mem r h')) rfl
    exact ⟨.act r ha t, by rw [Nest.pieces, ht]⟩
  | loop _ _ ihb ihr =>
    obtain ⟨o, ps', rfl, ho, hps'⟩ := List.map_eq_cons_iff.mp hl
    obtain ⟨bs, cs, rfl, rfl, hcs⟩ := List.map_eq_append_iff.mp hps'
    obtain ⟨c, rs, rfl, hc, rfl⟩ := List.map_eq_cons_iff.mp hcs
    obtain ⟨tb, htb⟩ := ihb (fun r hr => hp r (by simp [hr])) rfl
    obtain ⟨tr, htr⟩ := ihr (fun r hr => hp r (by simp [hr])) rfl
    -- a piece with a bracket is that bracket alone
    obtain ⟨enter, henter⟩ := (hp o (by simp)).single (by rw [ho]; rfl)
    obtain ⟨leave, hleave⟩ := (hp c (by simp)).single (by rw [hc]; rfl)
    refine ⟨.loop enter tb leave tr, ?_⟩
    rw [Nest.pieces, htb, htr, ← ho, ← hc, ← henter, ← hleave]

theorem depth?_symbols_pieces {ps : List Run} (hp : ∀ r ∈ ps, r.Piece) (d : Nat) :
    depth? d ((ps.flatMap Run.tokens).map Token.symbol) = depth? d (ps.map Run.symbol) := by
  induction ps generalizing d with
  | nil => rfl
  | cons r ps ih =>
    have hr := hp r (by simp)
    have hstep : ∀ d, depth? d (r.tokens.map Token.symbol) = depth? d [r.symbol] := by
      intro d
      cases hb : r.symbol.isBracket with
      | true =>
        obtain ⟨t, ht⟩ := hr.single hb
        have hts : t.symbol = r.symbol := hr.uniform t (by simp [ht])
        rw [ht, List.map_singleton, hts]
      | false =>
        rw [hr.map_symbol_tokens, depth?_act hb]
        induction r.count with
        | zero => rfl
        | succ n ihn => rw [List.replicate_succ, depth?_act hb, ihn]
    rw [List.flatMap_cons, List.map_append, depth?_append, hstep, List.map_cons,
      depth?_cons d r.symbol (ps.map Run.symbol)]
    congr 1
    funext e
    exact ih (fun r' h' => hp r' (List.mem_cons_of_mem r h')) e

/-- Accepted tokens in pieces have a nest. -/
theorem exists_nest_of_takeAll {rs : List Run} (hrs : ∀ r ∈ rs, r.Proper) {l : Labels}
    (h : Labels.empty.takeAll (rs.flatMap Run.tokens) = .ok l) (hl : l.stack = []) :
    ∃ t : Nest, t.pieces = rs.flatMap Run.pieces := by
  have hp : ∀ r ∈ rs.flatMap Run.pieces, r.Piece := fun _ => Run.piece_of_mem_flatMap hrs
  refine exists_nest hp (balanced_iff_depth?.mpr ?_)
  have hd := Labels.depth?_takeAll h
  rw [← Run.flatMap_tokens_flatMap_pieces, depth?_symbols_pieces hp] at hd
  simpa [Labels.depth, hl, Labels.empty] using hd

/-! ### Flattening a nest -/

namespace Flattening

theorem openLoop_eq (f : Flattening) (t : Token) :
    f.openLoop t = { f with
      code := f.code.push ⟨.loopOpen, 1⟩
      jumps := f.jumps.push none
      labels := (f.labels.enter t.position).2
      starts := f.starts.push f.code.size } := rfl

theorem closeLoop_of_error {f : Flattening} {err : SourceError} (h : f.error = some err)
    (t : Token) : f.closeLoop t = f := by
  obtain ⟨code, jumps, labels, starts, error⟩ := f
  cases h
  rfl

theorem closeLoop_of_refused {f : Flattening} (h : f.error = none) {t : Token} {err : SourceError}
    (hl : f.labels.leave t.position = .error err) :
    f.closeLoop t = { f with error := some err } := by
  obtain ⟨code, jumps, labels, starts, error⟩ := f
  cases h
  simp only at hl
  simp [closeLoop, hl]

theorem closeLoop_of_closed {f : Flattening} (h : f.error = none) {t : Token} {n : Nat}
    {l : Labels} (hl : f.labels.leave t.position = .ok (n, l)) :
    f.closeLoop t = { f with
      code := f.code.push ⟨.loopClose, 1⟩
      jumps := (f.jumps.setIfInBounds (f.starts[n]?.getD 0) (some f.code.size)).push
        (some (f.starts[n]?.getD 0))
      labels := l } := by
  obtain ⟨code, jumps, labels, starts, error⟩ := f
  cases h
  simp only at hl
  simp [closeLoop, hl]

theorem run_act {f : Flattening} (hf : f.error = none) {r : Run}
    (hr : r.symbol.isBracket = false) : f.run r = f.push ⟨r.symbol, r.count⟩ := by
  unfold run
  rw [hf]
  cases hs : r.symbol <;> simp_all [Symbol.isBracket]

/-- Flattening as an intake, which refuses nothing but brackets in any state. -/
abbrev intake : Intake Flattening SourceError where
  run := run
  openLoop := openLoop
  closeLoop := closeLoop
  labels := labels
  error := error
  refuse := id
  Sound := fun _ => True
  run_of_error := by
    intro f e h r
    simp [run, h]
  run_open := by
    intro f h ts
    simp [run, h]
  run_close := by
    intro f h ts
    simp [run, h]
  run_act := by
    intro f r _ h hr
    rw [run_act h hr]
    exact ⟨trivial, h, rfl⟩
  openLoop_ok := fun _ _ => ⟨rfl, rfl⟩
  closeLoop_of_error := closeLoop_of_error
  closeLoop_refused := by
    intro f t e h hl
    rw [closeLoop_of_refused h hl]
    rfl
  closeLoop_ok := by
    intro f t n l h hl
    rw [closeLoop_of_closed h hl]
    exact ⟨h, rfl⟩
  sound_openLoop := fun _ _ => trivial
  sound_closeLoop := fun _ _ => trivial

/-- What flattening keeps in step: every instruction has its place in the jump table, and every
label has its place in the table of openings. -/
structure Aligned (f : Flattening) : Prop where
  valid : f.error = none
  jumps : f.jumps.size = f.code.size
  starts : f.starts.size = f.labels.allocated

/-- Flattening has added some instructions with their jumps, and gone through some loops. -/
structure Adds (code : List Instruction) (jumps : List (Option Nat)) (loops : Nat)
    (f g : Flattening) : Prop where
  aligned : g.Aligned
  code : g.code = f.code ++ code.toArray
  jumps : g.jumps = f.jumps ++ jumps.toArray
  labels : g.labels = ⟨f.labels.allocated + loops, f.labels.stack⟩
  starts : ∃ s : Array Nat, g.starts = f.starts ++ s

theorem Adds.trans {code code' : List Instruction} {jumps jumps' : List (Option Nat)}
    {loops loops' : Nat} {f g h : Flattening} (hfg : Adds code jumps loops f g)
    (hgh : Adds code' jumps' loops' g h) :
    Adds (code ++ code') (jumps ++ jumps') (loops + loops') f h := by
  obtain ⟨s, hs⟩ := hfg.starts
  obtain ⟨s', hs'⟩ := hgh.starts
  refine ⟨hgh.aligned, ?_, ?_, ?_, s ++ s', ?_⟩
  · rw [hgh.code, hfg.code]
    simp
  · rw [hgh.jumps, hfg.jumps]
    simp
  · rw [hgh.labels, hfg.labels, Nat.add_assoc]
  · rw [hs', hs, Array.append_assoc]

theorem adds_push {f : Flattening} (hf : f.Aligned) (i : Instruction) :
    Adds [i] [none] 0 f (f.push i) :=
  ⟨⟨hf.valid, by simp [push, hf.jumps], hf.starts⟩, by simp [push], by simp [push], rfl, #[],
    by simp [push]⟩

theorem aligned_openLoop {f : Flattening} (hf : f.Aligned) (t : Token) :
    (f.openLoop t).Aligned := by
  rw [openLoop_eq]
  exact ⟨hf.valid, by simp [hf.jumps], by simp [hf.starts, Labels.enter]⟩

/-- Closing a loop gives the bracket that opened it its partner, wherever the body ended. -/
theorem adds_loop {code : List Instruction} {jumps : List (Option Nat)} {loops : Nat}
    {f g : Flattening} (hf : f.Aligned) {enter : Token}
    (hb : Adds code jumps loops (f.openLoop enter) g) (leave : Token) :
    Adds (⟨.loopOpen, 1⟩ :: (code ++ [⟨.loopClose, 1⟩]))
      (some (f.code.size + 1 + code.length) :: (jumps ++ [some f.code.size])) (loops + 1) f
      (g.closeLoop leave) := by
  obtain ⟨haligned, hcode, hjumps, hlabels, s, hstarts⟩ := hb
  rw [openLoop_eq] at hcode hjumps hlabels hstarts
  have hleave : g.labels.leave leave.position =
      .ok (f.labels.allocated, ⟨f.labels.allocated + 1 + loops, f.labels.stack⟩) := by
    rw [hlabels]
    rfl
  have hstart : g.starts[f.labels.allocated]?.getD 0 = f.code.size := by
    rw [hstarts, ← hf.starts, Array.getElem?_append_left (by simp), Array.getElem?_push_size]
    rfl
  have hsize : g.code.size = f.code.size + 1 + code.length := by
    rw [hcode]
    simp
    omega
  -- the place that was kept for the opening bracket gets the index of the closing one
  have hset : g.jumps.setIfInBounds f.code.size (some (f.code.size + 1 + code.length)) =
      f.jumps ++ (some (f.code.size + 1 + code.length) :: jumps).toArray := by
    rw [hjumps, ← hf.jumps]
    apply Array.toList_inj.mp
    simp
  rw [closeLoop_of_closed haligned.valid hleave, hstart, hsize, hset]
  refine ⟨⟨haligned.valid, ?_, ?_⟩, ?_, ?_, ?_, #[f.code.size] ++ s, ?_⟩
  · have hj := haligned.jumps
    rw [hjumps, hcode] at hj
    rw [hcode]
    simp only [Array.size_append, Array.size_push, List.size_toArray, List.length_cons] at hj ⊢
    omega
  · have hs := haligned.starts
    rw [hlabels] at hs
    exact hs
  · rw [hcode]
    simp
  · simp
  · simp only [Labels.mk.injEq, and_true]
    omega
  · rw [hstarts]
    simp

/-- Flattening the pieces of a nest adds its instructions and its jump table. -/
theorem foldl_run_pieces (t : Nest) {f : Flattening} (hf : f.Aligned) :
    Adds t.instructions (t.jumps f.code.size) t.loops f (t.pieces.foldl run f) := by
  induction t generalizing f with
  | done => exact ⟨hf, by simp [Nest.pieces, Nest.instructions], by simp [Nest.pieces, Nest.jumps],
      rfl, #[], by simp [Nest.pieces]⟩
  | act r plain rest ih =>
    have hpush := adds_push hf ⟨r.symbol, r.count⟩
    have hrest := ih hpush.aligned
    rw [Nest.pieces, List.foldl_cons, run_act hf.valid plain]
    rw [hpush.code] at hrest
    simpa [Nest.instructions, Nest.jumps, Nest.loops] using hpush.trans hrest
  | loop enter body leave rest ihb ihr =>
    have hbody := ihb (aligned_openLoop hf enter)
    have hloop := adds_loop hf hbody leave
    have hrest := ihr hloop.aligned
    have hopenRun : f.run ⟨.loopOpen, [enter]⟩ = f.openLoop enter :=
      intake.run_openLoop hf.valid enter
    have hcloseRun (g : Flattening) : g.run ⟨.loopClose, [leave]⟩ = g.closeLoop leave :=
      intake.run_closeLoop g leave
    have hindex : f.code.size + (body.size + 1 + 1) = f.code.size + 2 + body.size := by omega
    have hopenSize : (f.openLoop enter).code.size = f.code.size + 1 := by simp [openLoop_eq]
    rw [Nest.pieces, List.foldl_cons, hopenRun, List.foldl_append, List.foldl_cons,
      hcloseRun]
    have h := hloop.trans hrest
    rw [hloop.code, hopenSize] at h
    simp only [Array.size_append, List.size_toArray, List.length_cons, List.length_append,
      List.length_nil, Nest.length_instructions, hindex] at h
    have hloops : body.loops + 1 + rest.loops = body.loops + rest.loops + 1 := by omega
    simpa [Nest.instructions, Nest.jumps, Nest.loops, hloops] using h

end Flattening

/-! ### Programs that compile -/

/-- Flattening fails as its runs deserve. -/
theorem flatten_eq {ε : Type} {rs : Runs ε} (hrs : ∀ r ∈ rs.runs, r.Proper) :
    ∃ p, flatten rs = rs.verdict.map fun _ => p := by
  obtain ⟨f, hf⟩ : ∃ f, f = rs.runs.foldl Flattening.run .start := ⟨_, rfl⟩
  refine ⟨⟨f.code, f.jumps⟩, ?_⟩
  have hcases := Flattening.intake.foldl_run_cases (s := .start) hrs trivial rfl
  rw [flatten, Runs.verdict]
  simp only [← hf] at hcases ⊢
  rcases hcases with ⟨e, htake, herror⟩ | ⟨l, htake, herror, rfl⟩
  · simp only [herror, htake]
    rfl
  · simp only [herror, htake]
    cases hstop : rs.stop with
    | some stop => rfl
    | none =>
      simp only [Except.mapError, Except.bind]
      cases f.labels.finish <;> rfl

theorem runsOf_of_stop {ε : Type} {source : Source ε} (h : (runsOf source).stop = none) :
    (scan source).stop = none ∧ (runsOf source).runs = groupRuns (scan source).tokens := by
  simp only [runsOf, Scan.group] at h ⊢
  split at h
  · cases h
  · exact ⟨h, rfl⟩

theorem proper_runs {ε : Type} {source : Source ε} {r : Run} (h : r ∈ (runsOf source).runs) :
    r.Proper := by
  simp only [runsOf, Scan.group] at h
  split at h
  · exact proper_of_mem_groupRuns (List.dropLast_subset _ h)
  · exact proper_of_mem_groupRuns h

/-- What it takes to be accepted: the text is read to its end, and the brackets of its tokens
match. -/
structure Accepted {ε : Type} (source : Source ε) : Prop where
  ended : (runsOf source).stop = none
  matched : ∃ l : Labels, l.stack = [] ∧
    Labels.empty.takeAll ((runsOf source).runs.flatMap Run.tokens) = .ok l

/-- The nest of an accepted text. -/
theorem Accepted.exists_nest {ε : Type} {source : Source ε} (h : Accepted source) :
    ∃ t : Nest, t.pieces = (runsOf source).runs.flatMap Run.pieces := by
  obtain ⟨l, hl, hrun⟩ := h.matched
  exact exists_nest_of_takeAll (fun r hr => proper_runs hr) hrun hl

theorem accepted_of_verdict {ε : Type} {source : Source ε} {l : Labels}
    (h : (runsOf source).verdict = .ok l) : Accepted source := by
  obtain ⟨htake, hstop, hstack⟩ := Runs.verdict_eq_ok h
  exact ⟨hstop, l, hstack, htake⟩

/-- Only an accepted text compiles. -/
theorem accepted_of_compile {ε : Type} {source : Source ε} {p : Program}
    (h : compile source = .ok p) : Accepted source := by
  have hrs : ∀ r ∈ (runsOf source).runs, r.Proper := fun _ => proper_runs
  obtain ⟨q, hflatten⟩ := flatten_eq hrs
  rw [compile, hflatten] at h
  cases hverdict : (runsOf source).verdict with
  | error i =>
    rw [hverdict] at h
    cases h
  | ok l => exact accepted_of_verdict hverdict

/-- The program of a text with a nest is that of the nest. -/
theorem compile_of_nest {ε : Type} {source : Source ε} (h : (runsOf source).stop = none) {t : Nest}
    (ht : t.pieces = (runsOf source).runs.flatMap Run.pieces) :
    compile source = .ok t.program := by
  have hadds := Flattening.foldl_run_pieces t ⟨rfl, rfl, rfl⟩ (f := Flattening.start)
  rw [ht, Flattening.intake.foldl_run_pieces (runsOf source).runs] at hadds
  obtain ⟨u, hu⟩ :
      ∃ u, ((runsOf source).runs.foldl Flattening.run .start).labels.finish = .ok u := by
    rw [Labels.finish_eq_ok_iff, hadds.labels]
    rfl
  rw [compile, flatten]
  simp only [hadds.aligned.valid, h, hu, hadds.code, hadds.jumps]
  simp [Flattening.start, Nest.program]

/-- A program that compiles is the program of a nest, which has the pieces of the text. -/
theorem exists_program_nest {ε : Type} {source : Source ε} {p : Program}
    (h : compile source = .ok p) :
    ∃ t : Nest, p = t.program ∧ t.pieces = groupPieces (scan source).tokens := by
  have haccepted := accepted_of_compile h
  obtain ⟨t, ht⟩ := haccepted.exists_nest
  rw [compile_of_nest haccepted.ended ht, Except.ok.injEq] at h
  rw [(runsOf_of_stop haccepted.ended).2] at ht
  exact ⟨t, h.symm, ht⟩

end TapeLang
