import TapeLang.Assembly.Listing
import TapeLang.Proofs.Nest

/-!
The code of a nest.

Code generation goes from run to run and carries along the labels and the cursor.  For a nest the
result is written down by recursion: `Nest.code` lists the lines, and `Nest.cursorAfter` says where
the cursor is left.  Inside a loop every move costs the cursor its certainty, so a loop either
contains no move at all or nothing is known of the pointer behind it (`certain_cursorAfter`).

Main statements: `Emitter.foldl_run_pieces`, code generation on the pieces of a nest writes exactly
its code, `Listing.result_ofRuns`, a listing ends as the brackets of its runs say, and
`Listing.exists_nest`, the shape of every complete listing.
-/

namespace TapeLang

/-- Which way a symbol moves the pointer, if it does. -/
def Symbol.direction? : Symbol → Option Direction
  | .moveRight => some .right
  | .moveLeft => some .left
  | _ => none

namespace Assembly

/-- The cursor as a move finds it. -/
def heldCursor (inLoop : Bool) (c : Cursor) : Cursor := if inLoop then c.blur else c

/-- The cursor after a run that is no bracket. -/
def runCursor (inLoop : Bool) (c : Cursor) (r : Run) : Cursor :=
  match r.symbol.direction? with
  | some d =>
    let c := heldCursor inLoop c
    { c with offset := (c.moveOf d r.count).after }
  | none => c

/-- The code of a run of moves. -/
def runMoveCode (size : Int) (inLoop : Bool) (c : Cursor) (d : Direction) (count : Nat) :
    List Line :=
  let c := heldCursor inLoop c
  moveCode size d (c.moveOf d count) (!c.certain)

/-- The code of a run that is no bracket. -/
def runCode (size : Int) (inLoop : Bool) (c : Cursor) (r : Run) : List Line :=
  match r.symbol with
  | .increment => incrementCode r.count
  | .decrement => decrementCode r.count
  | .moveRight => runMoveCode size inLoop c .right r.count
  | .moveLeft => runMoveCode size inLoop c .left r.count
  | .read => (List.replicate r.count readCode).flatten
  | .write => (List.replicate r.count writeCode).flatten
  | .loopOpen => []
  | .loopClose => []

end Assembly

open Assembly

namespace Nest

/-- The cursor after a nest. -/
def cursorAfter : Nest → Bool → Cursor → Cursor
  | done, _, c => c
  | act r _ rest, inLoop, c => rest.cursorAfter inLoop (runCursor inLoop c r)
  | loop _ body _ rest, inLoop, c => rest.cursorAfter inLoop (body.cursorAfter true c)

/-- The code of a nest whose loops are numbered from `n` on. -/
def code (size : Int) : Nest → Bool → Nat → Cursor → List Line
  | done, _, _, _ => []
  | act r _ rest, inLoop, n, c =>
    runCode size inLoop c r ++ rest.code size inLoop n (runCursor inLoop c r)
  | loop _ body _ rest, inLoop, n, c =>
    openCode n ++ (body.code size true (n + 1) c ++
      (closeCode n ++ rest.code size inLoop (n + 1 + body.loops) (body.cursorAfter true c)))

/-- There is no move in the nest. -/
def Still : Nest → Prop
  | done => True
  | act r _ rest => r.symbol.direction? = none ∧ rest.Still
  | loop _ body _ rest => body.Still ∧ rest.Still

/-! ### What is left of the cursor -/

@[simp] theorem size_runCursor (inLoop : Bool) (c : Cursor) (r : Run) :
    (runCursor inLoop c r).size = c.size := by
  unfold runCursor heldCursor
  split
  · split <;> rfl
  · rfl

@[simp] theorem size_cursorAfter (t : Nest) (inLoop : Bool) (c : Cursor) :
    (t.cursorAfter inLoop c).size = c.size := by
  induction t generalizing inLoop c with
  | done => rfl
  | act r _ rest ih => rw [cursorAfter, ih, size_runCursor]
  | loop _ body _ rest ihb ihr => rw [cursorAfter, ihr, ihb]

theorem certain_runCursor {c : Cursor} {r : Run} (h : (runCursor true c r).certain = true) :
    r.symbol.direction? = none ∧ runCursor true c r = c := by
  unfold runCursor at h ⊢
  cases hd : r.symbol.direction? with
  | none => exact ⟨rfl, rfl⟩
  | some d =>
    rw [hd] at h
    cases h

/-- A cursor that is certain behind the body of a loop has not moved there. -/
theorem certain_cursorAfter {t : Nest} {c : Cursor} (h : (t.cursorAfter true c).certain = true) :
    t.Still ∧ t.cursorAfter true c = c := by
  induction t generalizing c with
  | done => exact ⟨trivial, rfl⟩
  | act r _ rest ih =>
    rw [cursorAfter] at h ⊢
    obtain ⟨hstill, hrest⟩ := ih h
    rw [hrest] at h ⊢
    obtain ⟨hd, hc⟩ := certain_runCursor h
    exact ⟨⟨hd, hstill⟩, hc⟩
  | loop _ body _ rest ihb ihr =>
    rw [cursorAfter] at h ⊢
    obtain ⟨hstill, hrest⟩ := ihr h
    rw [hrest] at h ⊢
    obtain ⟨hbody, hc⟩ := ihb h
    exact ⟨⟨hbody, hstill⟩, hc⟩

end Nest

/-! ### Generating the code of a nest -/

namespace Assembly.Emitter

theorem runMove_eq {e : Emitter} (hsize : e.cursor.size ≠ 0) {inLoop : Bool}
    (hd : inLoop = !decide (e.labels.depth = 0)) (d : Direction) (count : Nat) :
    e.runMove d count = { e with
      code := e.code ++ runMoveCode e.size inLoop e.cursor d count
      cursor := { heldCursor inLoop e.cursor with
        offset := ((heldCursor inLoop e.cursor).moveOf d count).after } } := by
  subst hd
  by_cases h0 : e.labels.depth = 0
  · simp [runMove, move, Cursor.move?, h0, hsize, append, runMoveCode, heldCursor]
  · have hblur : e.cursor.blur.size ≠ 0 := hsize
    simp [runMove, move, Cursor.move?, h0, hblur, append, runMoveCode, heldCursor]

/-- Generating the code of a run that is no bracket. -/
theorem run_act {e : Emitter} (he : e.error = none) (hsize : e.cursor.size ≠ 0) {inLoop : Bool}
    (hd : inLoop = !decide (e.labels.depth = 0)) {r : Run} (hr : r.symbol.isBracket = false) :
    e.run r = { e with
      code := e.code ++ runCode e.size inLoop e.cursor r
      cursor := runCursor inLoop e.cursor r } := by
  obtain ⟨size, code, labels, cursor, error⟩ := e
  cases he
  unfold run runCode runCursor
  cases hs : r.symbol with
  | moveRight => exact runMove_eq hsize hd .right r.count
  | moveLeft => exact runMove_eq hsize hd .left r.count
  | loopOpen =>
    rw [hs] at hr
    cases hr
  | loopClose =>
    rw [hs] at hr
    cases hr
  | _ => rfl

/-- Code generation as an intake, which refuses nothing but brackets on a tape with cells. -/
abbrev intake : Intake Emitter EmitError where
  run := run
  openLoop := openLoop
  closeLoop := closeLoop
  labels := labels
  error := error
  refuse := .source
  Sound := fun e => e.cursor.size ≠ 0
  run_of_error := by
    intro e err h r
    simp [run, h]
  run_open := by
    intro e h ts
    simp [run, h]
  run_close := by
    intro e h ts
    simp [run, h]
  run_act := by
    intro e r hsize h hr
    rw [run_act h hsize rfl hr]
    exact ⟨by rwa [Nest.size_runCursor], h, rfl⟩
  openLoop_ok := fun _ _ => ⟨rfl, rfl⟩
  closeLoop_of_error := by
    intro e err h t
    simp [closeLoop, h]
  closeLoop_refused := by
    intro e t err h hl
    simp [closeLoop, h, hl, fail]
  closeLoop_ok := by
    intro e t n l h hl
    simp [closeLoop, h, hl, append]
  sound_openLoop := fun _ h => h
  sound_closeLoop := by
    intro e t h
    unfold closeLoop
    split
    · exact h
    · split <;> exact h

theorem append_appendList (code : Array Line) (a b : List Line) :
    code ++ a ++ b = code ++ (a ++ b) := by
  apply Array.ext'
  simp

/-- What code generation makes of a nest: its code is written, its loops are numbered, and the
cursor has gone through it. -/
def after (e : Emitter) (t : Nest) (inLoop : Bool) : Emitter :=
  { e with
    code := e.code ++ t.code e.size inLoop e.labels.allocated e.cursor
    labels := ⟨e.labels.allocated + t.loops, e.labels.stack⟩
    cursor := t.cursorAfter inLoop e.cursor }

/-- Closing the loop that is open around a nest. -/
theorem run_close {e : Emitter} (he : e.error = none) (enter leave : Token) (body : Nest) :
    ((e.openLoop enter).after body true).run ⟨.loopClose, [leave]⟩ =
      e.after (.loop enter body leave .done) (!decide (e.labels.depth = 0)) := by
  simp [run, after, openLoop, append, he, closeLoop, Labels.leave, Labels.enter, Nest.code,
    Nest.loops, Nest.cursorAfter, append_appendList]
  omega

/-- Code generation on the pieces of a nest. -/
theorem foldl_run_pieces (t : Nest) {e : Emitter} (he : e.error = none)
    (hsize : e.cursor.size ≠ 0) :
    t.pieces.foldl run e = e.after t (!decide (e.labels.depth = 0)) := by
  induction t generalizing e with
  | done => simp [Nest.pieces, after, Nest.code, Nest.loops, Nest.cursorAfter]
  | act r plain rest ih =>
    rw [Nest.pieces, List.foldl_cons, run_act he hsize rfl plain, ih]
    · simp [after, Nest.code, Nest.loops, Nest.cursorAfter, append_appendList]
    · exact he
    · simpa using hsize
  | loop enter body leave rest ihb ihr =>
    have hopen : e.run ⟨.loopOpen, [enter]⟩ = e.openLoop enter := by simp [run, he]
    have hinside : (!decide ((e.openLoop enter).labels.depth = 0)) = true := by
      simp [openLoop, append, Labels.enter, Labels.depth]
    have hbody := ihb (e := e.openLoop enter) he hsize
    rw [hinside] at hbody
    have hnext : e.labels.allocated + (body.loops + 1) = e.labels.allocated + 1 + body.loops := by
      omega
    have hloops : e.labels.allocated + 1 + body.loops + rest.loops =
        e.labels.allocated + (body.loops + rest.loops + 1) := by
      omega
    rw [Nest.pieces, List.foldl_cons, hopen, List.foldl_append, List.foldl_cons, hbody,
      run_close he, ihr]
    · simp [after, Labels.depth, Nest.code, Nest.loops, Nest.cursorAfter, append_appendList, hnext,
        hloops]
    · exact he
    · simpa [after] using hsize

end Assembly.Emitter

/-! ### Complete listings -/

namespace Assembly.Listing

variable {ε : Type} {source : Source ε} {size : Int} {summary : Summary}

/-- A listing fails as its runs deserve. -/
theorem result_ofRuns {rs : Runs ε} (hrs : ∀ r ∈ rs.runs, r.Proper) (hsize : size ≠ 0) :
    ∃ pointer, (ofRuns size rs).result = (rs.verdict.map fun l =>
      ⟨size, rs.runs.length, l.allocated, pointer⟩).mapError .interrupted := by
  obtain ⟨start, hstart⟩ : ∃ s, s = (Emitter.start size).append (prologue size) := ⟨_, rfl⟩
  obtain ⟨e, he⟩ : ∃ e, e = rs.runs.foldl Emitter.run start := ⟨_, rfl⟩
  refine ⟨e.cursor.offset, ?_⟩
  have hsound : start.cursor.size ≠ 0 := by
    rw [hstart]
    exact hsize
  have hempty : Emitter.intake.outcome start = .ok .empty := by
    rw [hstart]
    rfl
  have hcases := Emitter.intake.foldl_run_cases hrs hsound hempty
  rw [ofRuns, Runs.verdict, ← hstart]
  simp only [← he] at hcases ⊢
  rcases hcases with ⟨err, htake, herror⟩ | ⟨l, htake, herror, rfl⟩
  · simp only [herror, htake]
    rfl
  · simp only [herror, htake]
    cases hstop : rs.stop with
    | some stop => rfl
    | none =>
      simp only [Except.mapError, Except.bind]
      cases e.labels.finish <;> rfl

/-- A complete listing has as many labels as were handed out for its runs. -/
theorem verdict_of_result (hsize : size ≠ 0) (h : (ofSource size source).result = .ok summary) :
    ∃ l, (runsOf source).verdict = .ok l ∧ summary.labelCount = l.allocated := by
  have hrs : ∀ r ∈ (runsOf source).runs, r.Proper := fun _ => proper_runs
  obtain ⟨pointer, hresult⟩ := result_ofRuns hrs hsize
  rw [ofSource, hresult] at h
  cases hverdict : (runsOf source).verdict with
  | error i =>
    rw [hverdict] at h
    cases h
  | ok l =>
    rw [hverdict] at h
    cases h
    exact ⟨l, rfl, rfl⟩

/-- Only an accepted text has a complete listing. -/
theorem accepted_of_result (hsize : size ≠ 0) (h : (ofSource size source).result = .ok summary) :
    Accepted source := by
  obtain ⟨l, hverdict, -⟩ := verdict_of_result hsize h
  exact accepted_of_verdict hverdict

/-- A complete listing is the code of the nest of its source, between prologue and epilogue. -/
theorem exists_nest (hsize : size ≠ 0) (h : (ofSource size source).result = .ok summary) :
    ∃ t : Nest, compile source = .ok t.program ∧
      (ofSource size source).code.toList =
        prologue size ++ (t.code size false 0 (.start size) ++ epilogue) := by
  have haccepted := accepted_of_result hsize h
  obtain ⟨t, ht⟩ := haccepted.exists_nest
  refine ⟨t, compile_of_nest haccepted.ended ht, ?_⟩
  have hcode := Emitter.foldl_run_pieces t (e := (Emitter.start size).append (prologue size)) rfl
    hsize
  rw [ht, Emitter.intake.foldl_run_pieces (runsOf source).runs] at hcode
  rw [ofSource, ofRuns] at h ⊢
  rw [hcode] at h ⊢
  split at h
  · cases h
  · cases h
  · cases h
  · simp [Emitter.after, Emitter.append, Emitter.start, Labels.depth, Labels.empty]

end Assembly.Listing

end TapeLang
