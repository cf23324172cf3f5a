import TapeLang.Assembly.Listing
import TapeLang.Execution
import TapeLang.Proofs.Grouping

/-!
Where the symbols of a program stand does not matter.

Tokens carry their places through grouping into the labels of the loops that are open, and from
there into errors.  They get nowhere else: forgetting all places first and generating code or a
program afterwards is the same as doing so first and forgetting the places afterwards.  Each
definition that handles tokens has a lemma that says so, from `Labels.leave_unplaced` up to
`Listing.ofRuns_unplaced` and `flatten_unplaced`.

Main statement: `layout_irrelevant`, two sources with the same symbols have the same listings,
programs, snapshots and executions, or errors that differ in their places only.
-/

namespace TapeLang

open Assembly

variable {ε : Type}

/-! ### Forgetting places -/

/-- The place of what has none. -/
def Position.nowhere : Position := ⟨0, 0⟩

/-- The kind of an error, without its place. -/
def SourceError.unplaced : SourceError → SourceError
  | unexpectedToken c _ => unexpectedToken c .nowhere
  | unmatchedClose _ => unmatchedClose .nowhere
  | unclosedLoop _ => unclosedLoop .nowhere

def Interruption.unplaced : Interruption ε → Interruption ε
  | invalid e => invalid e.unplaced
  | failed f => failed f

def Assembly.EmitError.unplaced : EmitError → EmitError
  | source e => source e.unplaced
  | emptyTape => emptyTape

def Assembly.ListingError.unplaced : ListingError ε → ListingError ε
  | interrupted i => interrupted i.unplaced
  | emptyTape => emptyTape

def RunError.unplaced : RunError ε → RunError ε
  | interrupted i => interrupted i.unplaced
  | stepLimit => stepLimit
  | fault f => fault f
  | unsettled => unsettled

def Token.unplaced (t : Token) : Token := ⟨t.symbol, .nowhere⟩

def Run.unplaced (r : Run) : Run := ⟨r.symbol, r.tokens.map Token.unplaced⟩

def Runs.unplaced (rs : Runs ε) : Runs ε :=
  ⟨rs.runs.map Run.unplaced, rs.stop.map Interruption.unplaced⟩

def Labels.unplaced (l : Labels) : Labels :=
  ⟨l.allocated, l.stack.map fun p => (p.1, .nowhere)⟩

def Assembly.Emitter.unplaced (e : Emitter) : Emitter :=
  { e with labels := e.labels.unplaced, error := e.error.map EmitError.unplaced }

def Flattening.unplaced (f : Flattening) : Flattening :=
  { f with labels := f.labels.unplaced, error := f.error.map SourceError.unplaced }

/-! ### Runs -/

theorem splitBy_map {α β : Type} (f : α → β) (r : β → β → Bool) (l : List α) :
    (l.map f).splitBy r = (l.splitBy fun a b => r (f a) (f b)).map (List.map f) := by
  rw [List.splitBy_eq_iff]
  refine ⟨?_, ?_, ?_, ?_⟩
  · rw [← List.map_flatten, List.flatten_splitBy]
  · intro h
    obtain ⟨g, hg, hnil⟩ := List.mem_map.mp h
    exact List.ne_nil_of_mem_splitBy hg (List.map_eq_nil_iff.mp hnil)
  · intro g' hg'
    obtain ⟨g, hg, rfl⟩ := List.mem_map.mp hg'
    rw [List.isChain_map]
    exact List.isChain_of_mem_splitBy hg
  · rw [List.isChain_map]
    refine (List.isChain_getLast_head_splitBy (fun a b => r (f a) (f b)) l).imp ?_
    rintro a b ⟨ha, hb, hr⟩
    refine ⟨by simpa using ha, by simpa using hb, ?_⟩
    simpa using hr

theorem Run.ofTokens?_unplaced (ts : List Token) :
    ofTokens? (ts.map Token.unplaced) = (ofTokens? ts).map Run.unplaced := by
  cases ts <;> rfl

/-- Which tokens make up a run is a matter of their symbols. -/
theorem groupRuns_unplaced (ts : List Token) :
    groupRuns (ts.map Token.unplaced) = (groupRuns ts).map Run.unplaced := by
  rw [groupRuns, splitBy_map, List.filterMap_map, groupRuns, List.map_filterMap]
  congr 1
  funext g
  exact Run.ofTokens?_unplaced g

@[simp] theorem Run.count_unplaced (r : Run) : r.unplaced.count = r.count :=
  List.length_map _

/-! ### Labels -/

namespace Labels

@[simp] theorem depth_unplaced (l : Labels) : l.unplaced.depth = l.depth := List.length_map _

theorem leave_unplaced (l : Labels) (p : Position) :
    l.unplaced.leave .nowhere =
      ((l.leave p).map fun x => (x.1, x.2.unplaced)).mapError SourceError.unplaced := by
  obtain ⟨allocated, stack⟩ := l
  cases stack <;> rfl

theorem finish_unplaced (l : Labels) :
    l.unplaced.finish = l.finish.mapError SourceError.unplaced := by
  unfold finish unplaced
  rw [List.getLast?_map]
  cases l.stack.getLast? <;> rfl

end Labels

/-! ### Code -/

namespace Assembly.Emitter

theorem append_unplaced (e : Emitter) (lines : List Line) :
    e.unplaced.append lines = (e.append lines).unplaced := rfl

theorem move_unplaced (e : Emitter) (d : Direction) (count : Int) (checked : Bool) :
    e.unplaced.move d count checked = (e.move d count checked).unplaced := by
  have hmove : e.unplaced.cursor.move? d count = e.cursor.move? d count := rfl
  simp only [move, hmove]
  cases e.cursor.move? d count <;> rfl

theorem runMove_unplaced (e : Emitter) (d : Direction) (count : Nat) :
    e.unplaced.runMove d count = (e.runMove d count).unplaced := by
  unfold runMove
  rw [show e.unplaced.labels.depth = e.labels.depth from e.labels.depth_unplaced]
  by_cases h : e.labels.depth = 0
  · simp only [h, ↓reduceIte]
    exact e.move_unplaced d count _
  · simp only [h, ↓reduceIte]
    exact move_unplaced { e with cursor := e.cursor.blur } d count _

theorem openLoop_unplaced (e : Emitter) (t : Token) :
    e.unplaced.openLoop t.unplaced = (e.openLoop t).unplaced := rfl

theorem closeLoop_unplaced (e : Emitter) (t : Token) :
    e.unplaced.closeLoop t.unplaced = (e.closeLoop t).unplaced := by
  obtain ⟨size, code, labels, cursor, error⟩ := e
  cases error with
  | some err => rfl
  | none =>
    simp only [closeLoop, unplaced, Token.unplaced, Option.map_none,
      labels.leave_unplaced t.position]
    cases labels.leave t.position <;> rfl

/-- The code of a run does not depend on its places. -/
theorem run_unplaced (e : Emitter) (r : Run) :
    e.unplaced.run r.unplaced = (e.run r).unplaced := by
  cases herror : e.error with
  | some err => simp [run, unplaced, herror]
  | none =>
    have herror' : e.unplaced.error = none := by simp [unplaced, herror]
    obtain ⟨symbol, ts⟩ := r
    unfold run
    rw [herror, herror', Run.count_unplaced]
    -- Only brackets are emitted token by token; of other runs just the length is used.
    cases symbol with
    | increment => exact e.append_unplaced _
    | decrement => exact e.append_unplaced _
    | moveRight => exact e.runMove_unplaced .right _
    | moveLeft => exact e.runMove_unplaced .left _
    | read => exact e.append_unplaced _
    | write => exact e.append_unplaced _
    | loopOpen =>
      show (ts.map Token.unplaced).foldl openLoop e.unplaced = _
      rw [List.foldl_map]
      exact List.foldl_hom unplaced openLoop_unplaced
    | loopClose =>
      show (ts.map Token.unplaced).foldl closeLoop e.unplaced = _
      rw [List.foldl_map]
      exact List.foldl_hom unplaced closeLoop_unplaced

end Assembly.Emitter

/-- A listing with its places forgotten. -/
def Assembly.Listing.unplaced (l : Listing ε) : Listing ε :=
  ⟨l.code, l.result.mapError ListingError.unplaced⟩

/-- The listing of some runs does not depend on their places. -/
theorem Assembly.Listing.ofRuns_unplaced (size : Int) (rs : Runs ε) :
    ofRuns size rs.unplaced = (ofRuns size rs).unplaced := by
  have hfold : rs.unplaced.runs.foldl Emitter.run
      ((Emitter.start size).append (prologue size)) =
      (rs.runs.foldl Emitter.run ((Emitter.start size).append (prologue size))).unplaced := by
    show (rs.runs.map Run.unplaced).foldl Emitter.run
      ((Emitter.start size).append (prologue size)).unplaced = _
    rw [List.foldl_map]
    exact List.foldl_hom Emitter.unplaced Emitter.run_unplaced
  obtain ⟨runs, stop⟩ := rs
  unfold ofRuns
  rw [hfold]
  generalize runs.foldl Emitter.run ((Emitter.start size).append (prologue size)) = e
  obtain ⟨_, code, labels, cursor, error⟩ := e
  dsimp only [Emitter.unplaced, Runs.unplaced]
  rw [labels.finish_unplaced, List.length_map]
  cases error with
  | some err => cases err <;> rfl
  | none =>
    cases stop with
    | some i => rfl
    | none => cases labels.finish <;> rfl

/-! ### Programs -/

namespace Flattening

theorem openLoop_unplaced (f : Flattening) (t : Token) :
    f.unplaced.openLoop t.unplaced = (f.openLoop t).unplaced := rfl

theorem closeLoop_unplaced (f : Flattening) (t : Token) :
    f.unplaced.closeLoop t.unplaced = (f.closeLoop t).unplaced := by
  obtain ⟨code, jumps, labels, starts, error⟩ := f
  cases error with
  | some err => rfl
  | none =>
    simp only [closeLoop, unplaced, Token.unplaced, Option.map_none,
      labels.leave_unplaced t.position]
    cases labels.leave t.position <;> rfl

/-- The instructions of a run do not depend on its places. -/
theorem run_unplaced (f : Flattening) (r : Run) :
    f.unplaced.run r.unplaced = (f.run r).unplaced := by
  cases herror : f.error with
  | some err => simp [run, unplaced, herror]
  | none =>
    have herror' : f.unplaced.error = none := by simp [unplaced, herror]
    obtain ⟨symbol, ts⟩ := r
    unfold run
    rw [herror, herror', Run.count_unplaced]
    cases symbol with
    | loopOpen =>
      show (ts.map Token.unplaced).foldl openLoop f.unplaced = _
      rw [List.foldl_map]
      exact List.foldl_hom unplaced openLoop_unplaced
    | loopClose =>
      show (ts.map Token.unplaced).foldl closeLoop f.unplaced = _
      rw [List.foldl_map]
      exact List.foldl_hom unplaced closeLoop_unplaced
    | _ => rfl

end Flattening

/-- The program of some runs does not depend on their places. -/
theorem flatten_unplaced (rs : Runs ε) :
    flatten rs.unplaced = (flatten rs).mapError Interruption.unplaced := by
  -- As for listings: places are forgotten run by run, and then where an error is looked at.
  have hfold : rs.unplaced.runs.foldl Flattening.run .start =
      (rs.runs.foldl Flattening.run .start).unplaced := by
    show (rs.runs.map Run.unplaced).foldl Flattening.run Flattening.start.unplaced = _
    rw [List.foldl_map]
    exact List.foldl_hom Flattening.unplaced Flattening.run_unplaced
  obtain ⟨runs, stop⟩ := rs
  unfold flatten
  rw [hfold]
  generalize runs.foldl Flattening.run Flattening.start = f
  obtain ⟨code, jumps, labels, starts, error⟩ := f
  dsimp only [Flattening.unplaced, Runs.unplaced]
  rw [labels.finish_unplaced]
  cases error with
  | some err => rfl
  | none =>
    cases stop with
    | some i => rfl
    | none => cases labels.finish <;> rfl

/-! ### Sources -/

def Scan.unplaced (s : Scan ε) : Scan ε :=
  ⟨s.tokens.map Token.unplaced, s.stop.map Interruption.unplaced⟩

theorem Scan.group_unplaced (s : Scan ε) : s.unplaced.group = s.group.unplaced := by
  obtain ⟨tokens, stop⟩ := s
  cases stop with
  | none => simp only [unplaced, group, Runs.unplaced, Option.map_none, groupRuns_unplaced]
  | some i =>
    cases i with
    | invalid e =>
      simp only [unplaced, group, Runs.unplaced, Option.map_some, Interruption.unplaced,
        groupRuns_unplaced]
    | failed f =>
      -- The last run is dropped here, since what was not read might have prolonged it.
      simp only [unplaced, group, Runs.unplaced, Option.map_some, Interruption.unplaced,
        groupRuns_unplaced, List.map_dropLast]

/-- Tokens without places are symbols. -/
theorem map_unplaced_eq {ts us : List Token} (h : ts.map Token.symbol = us.map Token.symbol) :
    ts.map Token.unplaced = us.map Token.unplaced := by
  have hsymbol : ∀ l : List Token,
      l.map Token.unplaced = (l.map Token.symbol).map fun s => ⟨s, .nowhere⟩ := by
    intro l
    rw [List.map_map]
    rfl
  rw [hsymbol, hsymbol, h]

/-- Nothing that is made of two sources tells one from the other, but for the places of errors: a
listing has the same lines and ends with the same summary or kind of error, a program has the same
instructions and jumps or there is none, for the same kind of error, and observations and executions
lead to the same snapshots and machines, and to the same kind of end. -/
structure Source.SameButPlaces (a b : Source ε) : Prop where
  lines : ∀ size, (Listing.ofSource size a).code = (Listing.ofSource size b).code
  text : ∀ size, (Listing.ofSource size a).text = (Listing.ofSource size b).text
  result : ∀ size, (Listing.ofSource size a).result.mapError ListingError.unplaced =
    (Listing.ofSource size b).result.mapError ListingError.unplaced
  program : (compile a).mapError Interruption.unplaced = (compile b).mapError Interruption.unplaced
  observation : ∀ before input budget take fuel,
    (observe before a input budget take fuel).snapshots =
      (observe before b input budget take fuel).snapshots ∧
    (observe before a input budget take fuel).machine =
      (observe before b input budget take fuel).machine ∧
    (observe before a input budget take fuel).error.map RunError.unplaced =
      (observe before b input budget take fuel).error.map RunError.unplaced
  execution : ∀ size input budget fuel,
    (execute size a input budget fuel).machine = (execute size b input budget fuel).machine ∧
    (execute size a input budget fuel).result.mapError RunError.unplaced =
      (execute size b input budget fuel).result.mapError RunError.unplaced

/-- Programs that are the same, or are refused for the same kind of error. -/
theorem compile_cases {a b : Source ε}
    (h : (compile a).mapError Interruption.unplaced = (compile b).mapError Interruption.unplaced) :
    (∃ p, compile a = .ok p ∧ compile b = .ok p) ∨
    ∃ i j, compile a = .error i ∧ compile b = .error j ∧ i.unplaced = j.unplaced := by
  cases ha : compile a with
  | error i =>
    cases hb : compile b with
    | error j =>
      rw [ha, hb] at h
      exact .inr ⟨i, j, rfl, rfl, Except.error.inj h⟩
    | ok q =>
      rw [ha, hb] at h
      cases h
  | ok p =>
    cases hb : compile b with
    | error j =>
      rw [ha, hb] at h
      cases h
    | ok q =>
      rw [ha, hb] at h
      exact .inl ⟨p, rfl, by rw [Except.ok.inj h]⟩

theorem Source.sameButPlaces_of_scan {a b : Source ε}
    (h : (scan a).unplaced = (scan b).unplaced) : a.SameButPlaces b := by
  have hruns : (runsOf a).unplaced = (runsOf b).unplaced := by
    rw [runsOf, runsOf, ← Scan.group_unplaced, ← Scan.group_unplaced, h]
  have hlisting : ∀ size, (Listing.ofSource size a).unplaced =
      (Listing.ofSource size b).unplaced := by
    intro size
    rw [Listing.ofSource, Listing.ofSource, ← Listing.ofRuns_unplaced, ← Listing.ofRuns_unplaced,
      hruns]
  have hlines : ∀ size, (Listing.ofSource size a).code = (Listing.ofSource size b).code := by
    intro size
    have hcode := congrArg Listing.code (hlisting size)
    exact hcode
  have hprogram : (compile a).mapError Interruption.unplaced =
      (compile b).mapError Interruption.unplaced := by
    rw [compile, compile, ← flatten_unplaced, ← flatten_unplaced, hruns]
  refine ⟨hlines, ?_, fun size => congrArg Listing.result (hlisting size), hprogram, ?_, ?_⟩
  · intro size
    rw [Listing.text, Listing.text, hlines]
  · intro before input budget take fuel
    by_cases htake : take = some 0
    · rw [observe, observe, if_pos htake, if_pos htake]
      exact ⟨rfl, rfl, rfl⟩
    · rw [observe, observe, if_neg htake, if_neg htake]
      rcases compile_cases hprogram with ⟨p, ha, hb⟩ | ⟨i, j, ha, hb, hij⟩
      · rw [ha, hb]
        exact ⟨rfl, rfl, rfl⟩
      · rw [ha, hb]
        exact ⟨rfl, rfl, congrArg (some ∘ RunError.interrupted) hij⟩
  · intro size input budget fuel
    rw [execute, execute]
    rcases compile_cases hprogram with ⟨p, ha, hb⟩ | ⟨i, j, ha, hb, hij⟩
    · rw [ha, hb]
      exact ⟨rfl, rfl⟩
    · rw [ha, hb]
      exact ⟨rfl, congrArg (Except.error ∘ RunError.interrupted) hij⟩

/-- **Layout**: two sources that are scanned to their ends and have the same symbols, wherever these
stand and whatever blanks, comments and line ends there are between them, are the same but for the
places of errors. -/
theorem layout_irrelevant {a b : Source ε} (ha : (scan a).stop = none) (hb : (scan b).stop = none)
    (hsymbols : (scan a).tokens.map Token.symbol = (scan b).tokens.map Token.symbol) :
    a.SameButPlaces b := by
  apply Source.sameButPlaces_of_scan
  rw [Scan.unplaced, Scan.unplaced, ha, hb, map_unplaced_eq hsymbols]

/-- A run that is broken up by a line end and a comment, and a bracket that is left open at one
place or the other. -/
theorem layout_irrelevant_comment :
    (Source.ofString "[++" : Source Empty).SameButPlaces (.ofString " [+#-\n\t+") ∧
    compile (.ofString "[++" : Source Empty) = .error (.invalid (.unclosedLoop ⟨1, 1⟩)) ∧
    compile (.ofString " [+#-\n\t+" : Source Empty) = .error (.invalid (.unclosedLoop ⟨1, 2⟩)) :=
  ⟨layout_irrelevant rfl rfl rfl, rfl, rfl⟩

end TapeLang
