import Mathlib.Data.List.TakeWhile
import TapeLang.Proofs.Assembly.LoopLabels
import TapeLang.Proofs.Outcome

/-!
Sources whose last read fails.

A failing read keeps the last run from being taken in, whereas a foreign character does not.  So
which error is reported depends on where the last run begins: a bracket in it that closes nothing
goes unnoticed, and one before it does not.  `settled` are the tokens before the last run, and
`settled_iff` finds them without any runs: a token is settled if one of another symbol follows it.

The code of each run is a block, which depends on what was written before it and not on what comes
behind (`Emitter.blocks`).  Main statement: `failing_read`, what becomes of the source and which
blocks are written for it, from its visible characters alone.
-/

namespace TapeLang

open Assembly

/-! ### Tokens before the last run -/

/-- The tokens before the last run. -/
def settled (ts : List Token) : List Token := (groupRuns ts).dropLast.flatMap Run.tokens

/-- The last run, the tokens before it, and how it differs from the run before it. -/
theorem exists_last_run {ts : List Token} (h : ts ≠ []) :
    ∃ rs r, groupRuns ts = rs ++ [r] ∧ settled ts = rs.flatMap Run.tokens ∧
      rs.flatMap Run.tokens ++ r.tokens = ts := by
  have hne : groupRuns ts ≠ [] := by
    intro hnil
    have hts := flatMap_tokens_groupRuns ts
    rw [hnil] at hts
    exact h hts.symm
  have hsplit := List.dropLast_append_getLast hne
  refine ⟨_, _, hsplit.symm, rfl, ?_⟩
  have hts := flatMap_tokens_groupRuns ts
  rw [← hsplit, List.flatMap_append, List.flatMap_singleton] at hts
  exact hts

theorem settled_prefix (ts : List Token) : settled ts <+: ts := by
  cases ts with
  | nil => exact List.prefix_refl _
  | cons t ts =>
    obtain ⟨rs, r, -, hsettled, hts⟩ := exists_last_run (List.cons_ne_nil t ts)
    rw [hsettled]
    exact ⟨r.tokens, hts⟩

/-- In front of the last run stands a token of another symbol. -/
theorem symbol_ne_of_getLast? {ts : List Token} {rs : List Run} {r : Run} {u : Token}
    (hgroup : groupRuns ts = rs ++ [r]) (hu : (rs.flatMap Run.tokens).getLast? = some u) :
    u.symbol ≠ r.symbol := by
  rcases List.eq_nil_or_concat' rs with rfl | ⟨rs', q, rfl⟩
  · cases hu
  · have hmem : q ∈ groupRuns ts := by simp [hgroup]
    have hq : q.Proper := proper_of_mem_groupRuns hmem
    rw [List.flatMap_append, List.flatMap_singleton,
      List.getLast?_append_of_ne_nil _ hq.nonempty] at hu
    have hchain := isChain_groupRuns ts
    rw [hgroup, List.append_assoc, List.singleton_append, List.isChain_append] at hchain
    rw [hq.uniform u (List.mem_of_mem_getLast? hu)]
    exact (List.isChain_cons_cons.mp hchain.2.1).1

/-- A token is settled if and only if one of another symbol follows it. -/
theorem settled_iff {ts a b : List Token} {t : Token} (h : ts = a ++ t :: b) :
    (∃ b', settled ts = a ++ t :: b') ↔ ∃ u ∈ b, u.symbol ≠ t.symbol := by
  have hne : ts ≠ [] := by simp [h]
  obtain ⟨rs, r, hgroup, hsettled, hts⟩ := exists_last_run hne
  have hmem : r ∈ groupRuns ts := by simp [hgroup]
  have hr : r.Proper := proper_of_mem_groupRuns hmem
  rw [hsettled]
  constructor
  · rintro ⟨b', hb'⟩
    have hb : b' ++ r.tokens = b := by
      rw [hb', h, List.append_assoc, List.append_cancel_left_eq, List.cons_append,
        List.cons.injEq] at hts
      exact hts.2
    by_contra hsame
    simp only [not_exists, not_and, not_not] at hsame
    -- then the last run would have the symbol of the token, and so would what stands before it
    obtain ⟨v, hv⟩ := List.exists_mem_of_ne_nil _ hr.nonempty
    have hlast : r.symbol = t.symbol := by
      rw [← hr.uniform v hv]
      exact hsame v (by rw [← hb]; simp [hv])
    have hend : (rs.flatMap Run.tokens).getLast? = some ((t :: b').getLast (by simp)) := by
      rw [hb', List.getLast?_append_of_ne_nil _ (by simp), List.getLast?_eq_some_getLast]
    refine symbol_ne_of_getLast? hgroup hend ?_
    rw [hlast]
    rcases List.mem_cons.mp (List.getLast_mem (List.cons_ne_nil t b')) with heq | hmem
    · rw [heq]
    · exact hsame _ (by rw [← hb]; simp [hmem])
  · rintro ⟨u, hu, hne⟩
    rw [h] at hts
    -- a token of the last run is followed by tokens of that run only
    have hlast : ∀ c, r.tokens ≠ c ++ t :: b := by
      intro c hc
      have ht := hr.uniform t (by rw [hc]; simp)
      have hu := hr.uniform u (by rw [hc]; simp [hu])
      exact hne (hu.trans ht.symm)
    rcases List.append_eq_append_iff.mp hts with ⟨c, -, hc⟩ | ⟨c, hc, htail⟩
    · exact absurd hc (hlast c)
    · cases c with
      | nil => exact absurd htail.symm (hlast [])
      | cons t' c =>
        rw [List.cons_append, List.cons.injEq] at htail
        exact ⟨c, by rw [hc, htail.1]⟩

/-! ### What is noticed of a text -/

/-- A closing bracket that closes nothing stands before the last run: a symbol of another kind
follows it. -/
def StraysEarly (gs : List Glyph) : Prop :=
  ∃ before g after, gs = before ++ g :: after ∧ g.char = ']' ∧ ¬ HasOpen before ∧
    ∃ s ∈ symbolsOf after, s ≠ .loopClose

/-- Nothing is wrong with the characters that would be noticed without their last run. -/
structure Passable (gs : List Glyph) : Prop where
  familiar : ∀ g ∈ gs, ¬ Foreign g.char
  settled : ¬ StraysEarly gs

/-- Some tokens are refused whatever follows them. -/
theorem Labels.takeAll_append_of_error {l : Labels} {a : List Token} {e : SourceError}
    (h : l.takeAll a = .error e) (b : List Token) : l.takeAll (a ++ b) = .error e := by
  rw [takeAll_append, h]
  rfl

/-- Where the settled tokens are refused, a bracket strays early. -/
theorem straysEarly_of_takeAll {gs : List Glyph} {e : SourceError}
    (h : Labels.empty.takeAll (TapeLang.settled (tokensOf gs)) = .error e) : StraysEarly gs := by
  obtain ⟨a, t, b', l, hsplit, ha, hstack, ht, -⟩ := Labels.takeAll_eq_error h
  obtain ⟨rest, hrest⟩ := settled_prefix (tokensOf gs)
  rw [hsplit, List.append_assoc, List.cons_append] at hrest
  obtain ⟨before, g, after, rfl, hg, -, rfl, hafter⟩ := exists_glyph_of_tokensOf hrest.symm
  obtain ⟨u, hu, hne⟩ := (settled_iff hrest.symm).mp ⟨b', hsplit⟩
  have hbalanced := Labels.balanced_of_takeAll ha hstack
  rw [map_symbol_tokensOf] at hbalanced
  rw [ht] at hg hne
  refine ⟨before, g, after, rfl, hg, ?_, u.symbol, ?_, hne⟩
  · rw [hasOpen_iff (hbalanced.depth?_eq 0)]
    exact Nat.lt_irrefl 0
  · rw [← map_symbol_tokensOf, hafter]
    exact List.mem_map_of_mem hu

/-- Where they are not refused, none does. -/
theorem not_straysEarly_of_takeAll {gs : List Glyph} {l : Labels}
    (h : Labels.empty.takeAll (TapeLang.settled (tokensOf gs)) = .ok l) : ¬ StraysEarly gs := by
  rintro ⟨before, g, after, rfl, hg, hopen, s, hs, hne⟩
  have htokens : tokensOf (before ++ g :: after) =
      tokensOf before ++ ⟨.loopClose, g.position⟩ :: tokensOf after := by
    simp [tokensOf, hg, Symbol.ofChar?]
  rw [← map_symbol_tokensOf] at hs
  obtain ⟨u, hu, rfl⟩ := List.mem_map.mp hs
  obtain ⟨b', hb'⟩ := (settled_iff htokens).mpr ⟨u, hu, hne⟩
  rw [hb'] at h
  obtain ⟨l₁, hbefore, hrest⟩ := Labels.takeAll_split h
  -- the labels let the bracket pass, so a loop was open for it
  have hdepth : depth? 0 ((tokensOf before).map Token.symbol) = some l₁.depth :=
    Labels.depth?_takeAll hbefore
  rw [map_symbol_tokensOf] at hdepth
  refine hopen ((hasOpen_iff hdepth).mpr ?_)
  rw [Nat.pos_iff_ne_zero]
  intro hzero
  have htake : l₁.take ⟨.loopClose, g.position⟩ = .error (.unmatchedClose g.position) := by
    rw [Labels.take_close rfl, Labels.leave, List.eq_nil_of_length_eq_zero hzero]
    rfl
  rw [Labels.takeAll, htake] at hrest
  cases hrest

variable {ε : Type}

/-- A failing read is not reached behind a foreign character, and else it ends the tokens. -/
theorem scan_failing {source : Source ε} {failure : ε} (h : source.outcome = some failure) :
    ((∀ g ∈ visible source.text, ¬ Foreign g.char) ∧
      scan source = ⟨tokensOf (visible source.text), some (.failed failure)⟩) ∨
    ∃ before g after, visible source.text = before ++ g :: after ∧ Foreign g.char ∧
      (∀ g' ∈ before, ¬ Foreign g'.char) ∧
      scan source = ⟨tokensOf before, some (.invalid (.unexpectedToken g.char g.position))⟩ := by
  have hline : ∀ g ∈ visible source.text, g.char ≠ '\n' := fun _ => ne_newline_of_mem_visible
  rw [scan_eq, h]
  rcases readGlyphs_cases hline with ⟨hall, hr⟩ | ⟨before, g, after, hgs, hg, hbefore, hr⟩
  · rw [hr]
    exact .inl ⟨hall, rfl⟩
  · rw [hr]
    exact .inr ⟨before, g, after, hgs, hg, hbefore, rfl⟩

/-- The verdict on a source whose last read fails: the failure if its text is passable, and else the
first error of its text. -/
theorem verdict_failing {source : Source ε} {failure : ε} (h : source.outcome = some failure) :
    (Passable (visible source.text) ∧ (runsOf source).verdict = .error (.failed failure)) ∨
    (¬ Passable (visible source.text) ∧ ∃ e, FirstError (visible source.text) e ∧
      (∀ p, e ≠ .unclosedLoop p) ∧ (runsOf source).verdict = .error (.invalid e)) := by
  have hbracket : ∀ {ts e}, Labels.empty.takeAll ts = .error e → ∀ p, e ≠ .unclosedLoop p := by
    intro ts e he p
    obtain ⟨-, -, -, -, -, -, -, -, rfl⟩ := Labels.takeAll_eq_error he
    exact SourceError.noConfusion
  have hscan := scan_failing h
  generalize visible source.text = gs at hscan ⊢
  rcases hscan with ⟨hall, hscan⟩ | ⟨before, g, after, rfl, hg, hbefore, hscan⟩
  · -- the last run is lost, so that the verdict is on the settled tokens
    have hverdict : (runsOf source).verdict =
        ((Labels.empty.takeAll (TapeLang.settled (tokensOf gs))).mapError .invalid).bind
          fun _ => .error (.failed failure) := by
      rw [runsOf, hscan]
      rfl
    rw [hverdict]
    cases htake : Labels.empty.takeAll (TapeLang.settled (tokensOf gs)) with
    | ok l => exact .inl ⟨⟨hall, not_straysEarly_of_takeAll htake⟩, rfl⟩
    | error e =>
      obtain ⟨rest, hrest⟩ := settled_prefix (tokensOf gs)
      have hfirst := firstError_of_takeAll hall
        (hrest ▸ Labels.takeAll_append_of_error htake rest) []
      rw [List.append_nil] at hfirst
      exact .inr ⟨fun hp => hp.settled (straysEarly_of_takeAll htake), e, hfirst,
        hbracket htake, rfl⟩
  · have hverdict : (runsOf source).verdict =
        ((Labels.empty.takeAll (tokensOf before)).mapError .invalid).bind
          fun _ => .error (.invalid (.unexpectedToken g.char g.position)) := by
      rw [runsOf, hscan, Scan.group, Runs.verdict, flatMap_tokens_groupRuns]
    refine .inr ⟨fun hp => hp.familiar g (by simp) hg, ?_⟩
    rw [hverdict]
    cases htake : Labels.empty.takeAll (tokensOf before) with
    | ok l =>
      exact ⟨_, .trouble rfl (clean_of_takeAll hbefore htake) (.foreign hg),
        fun _ => SourceError.noConfusion, rfl⟩
    | error e =>
      exact ⟨e, firstError_of_takeAll hbefore htake (g :: after), hbracket htake, rfl⟩

/-! ### The code of each run -/

namespace Assembly

/-- What is written for each of some runs. -/
def Emitter.blocks (e : Emitter) : List Run → List (List Line)
  | [] => []
  | r :: rs => (e.run r).code.toList.drop e.code.size :: (e.run r).blocks rs

theorem Emitter.code_foldl_run (rs : List Run) (e : Emitter) :
    (rs.foldl run e).code.toList = e.code.toList ++ (e.blocks rs).flatten := by
  induction rs generalizing e with
  | nil => exact (List.append_nil _).symm
  | cons r rs ih =>
    obtain ⟨block, hblock⟩ := prefix_run e r
    rw [List.foldl_cons, ih, blocks, List.flatten_cons, ← hblock, ← Array.length_toList,
      List.drop_left, List.append_assoc]

/-- A block depends on the runs before it only. -/
theorem Emitter.blocks_dropLast (rs : List Run) (e : Emitter) :
    e.blocks rs.dropLast = (e.blocks rs).dropLast := by
  induction rs generalizing e with
  | nil => rfl
  | cons r rs ih =>
    cases rs with
    | nil => rfl
    | cons r' rs =>
      rw [List.dropLast_cons_cons, blocks, ih]
      rfl

/-- What is written for each run of some tokens, in a listing for a tape of `size` cells. -/
def blocksOf (size : Int) (ts : List Token) : List (List Line) :=
  ((Emitter.start size).append (prologue size)).blocks (groupRuns ts)

/-- A listing is made of the prologue, its blocks and, if it is complete, the epilogue. -/
theorem Listing.code_ofRuns (size : Int) (rs : Runs ε) :
    (ofRuns size rs).code.toList = prologue size ++
      (((Emitter.start size).append (prologue size)).blocks rs.runs).flatten ++
        (match (ofRuns size rs).result with
          | .ok _ => epilogue
          | .error _ => []) := by
  have hcode := Emitter.code_foldl_run rs.runs ((Emitter.start size).append (prologue size))
  rw [Emitter.toList_code_append] at hcode
  change _ = prologue size ++ _ at hcode
  unfold ofRuns
  dsimp only
  split
  · rw [hcode, List.append_nil]
  · rw [hcode, List.append_nil]
  · rw [hcode, List.append_nil]
  · rw [Emitter.toList_code_append, hcode]

end Assembly

/-! ### Failing reads -/

theorem Source.outcome_of_ne {chunks : List String} (h : ∀ c ∈ chunks, c ≠ "") (failure : ε) :
    (⟨chunks, some failure⟩ : Source ε).outcome = some failure := by
  rw [outcome, if_pos]
  simpa using h

theorem Source.text_of_ne {chunks : List String} (h : ∀ c ∈ chunks, c ≠ "") (failure : Option ε) :
    (⟨chunks, failure⟩ : Source ε).text = (String.join chunks).toList := by
  have hpieces : (⟨chunks, failure⟩ : Source ε).pieces = chunks := by
    apply List.takeWhile_eq_self_iff.mpr
    simpa using h
  rw [text, hpieces, String.toList_join]

/-- A source whose last read fails ends as its text deserves. -/
theorem results_failing {source : Source ε} {failure : ε} (h : source.outcome = some failure)
    {size : Int} (hsize : size ≠ 0) :
    (Passable (visible source.text) ∧
      (Listing.ofSource size source).result = .error (.interrupted (.failed failure)) ∧
      compile source = .error (.failed failure)) ∨
    (¬ Passable (visible source.text) ∧ ∃ e, FirstError (visible source.text) e ∧
      (∀ p, e ≠ .unclosedLoop p) ∧
      (Listing.ofSource size source).result = .error (.interrupted (.invalid e)) ∧
      compile source = .error (.invalid e)) := by
  have hrs : ∀ r ∈ (runsOf source).runs, r.Proper := fun _ => proper_runs
  obtain ⟨pointer, hlisting⟩ := Listing.result_ofRuns hrs hsize
  obtain ⟨p, hcompile⟩ := flatten_eq hrs
  rw [Listing.ofSource, hlisting, compile, hcompile]
  rcases verdict_failing h with ⟨hpassable, hverdict⟩ | ⟨hno, e, hfirst, hbracket, hverdict⟩
  · rw [hverdict]
    exact .inl ⟨hpassable, rfl, rfl⟩
  · rw [hverdict]
    exact .inr ⟨hno, e, hfirst, hbracket, rfl, rfl⟩

/-- A text with an error, given as a whole, is refused with it. -/
theorem refused_of_firstError {text : String} {e : SourceError}
    (h : FirstError (visible text.toList) e) {size : Int} (hsize : size ≠ 0) :
    (Listing.ofSource size (.ofString text : Source ε)).result =
      .error (.interrupted (.invalid e)) ∧
    compile (.ofString text : Source ε) = .error (.invalid e) := by
  constructor
  · rcases listing_text_cases text hsize with ⟨hacceptable, -⟩ | ⟨e', hfirst, hresult⟩
    · exact absurd h (hacceptable.not_firstError e)
    · rw [hresult, hfirst.unique h]
  · rcases compile_text_cases text with ⟨hacceptable, -⟩ | ⟨e', hfirst, hresult⟩
    · exact absurd h (hacceptable.not_firstError e)
    · rw [hresult, hfirst.unique h]

/-- A text given as a whole is written run by run. -/
theorem code_whole (size : Int) (text : String) :
    ∃ rest, (Listing.ofSource size (.ofString text : Source ε)).code.toList =
      prologue size ++ (blocksOf size (scan (.ofString text : Source ε)).tokens).flatten ++ rest ∧
      (rest = epilogue ∨ rest = []) := by
  have hruns : (runsOf (.ofString text : Source ε)).runs =
      groupRuns (scan (.ofString text : Source ε)).tokens := by
    rw [runsOf_eq (Source.outcome_ofString text), scan_eq]
  rw [Listing.ofSource, Listing.code_ofRuns, hruns]
  refine ⟨_, rfl, ?_⟩
  split
  · exact .inl rfl
  · exact .inr rfl

/-- Up to a failing read, every run is written but the last one. -/
theorem code_failing (size : Int) {source : Source ε} {failure : ε}
    (h : source.outcome = some failure) (hpassable : Passable (visible source.text))
    (hresult : (Listing.ofSource size source).result = .error (.interrupted (.failed failure))) :
    (Listing.ofSource size source).code.toList =
      prologue size ++ (blocksOf size (scan source).tokens).dropLast.flatten := by
  rcases scan_failing h with ⟨-, hscan⟩ | ⟨before, g, after, hgs, hg, -⟩
  · have hruns : (runsOf source).runs = (groupRuns (scan source).tokens).dropLast := by
      rw [runsOf, hscan]
      rfl
    rw [Listing.ofSource] at hresult ⊢
    rw [Listing.code_ofRuns, hresult, hruns, Emitter.blocks_dropLast, List.append_nil]
    rfl
  · exact absurd hg (hpassable.familiar g (by rw [hgs]; simp))

/-- A source that delivers its text and fails with the read after it.  If nothing is wrong with the
text that would be noticed without its last run, the failure is reported, and every run but that one
has been written.  Otherwise the error is that of the text given as a whole. -/
theorem failing_read {chunks : List String} (hchunks : ∀ c ∈ chunks, c ≠ "") (failure : ε)
    {size : Int} (hsize : size ≠ 0) :
    let source : Source ε := ⟨chunks, some failure⟩
    let whole : Source ε := .ofString (String.join chunks)
    let gs := visible (String.join chunks).toList
    let blocks := blocksOf size (scan whole).tokens
    ((Listing.ofSource size source).result = .error (.interrupted (.failed failure)) ↔
      Passable gs) ∧
    (compile source = .error (.failed failure) ↔ Passable gs) ∧
    (¬ Passable gs → ∃ e, FirstError gs e ∧ (∀ p, e ≠ .unclosedLoop p) ∧
      (Listing.ofSource size source).result = .error (.interrupted (.invalid e)) ∧
      (Listing.ofSource size whole).result = .error (.interrupted (.invalid e)) ∧
      compile source = .error (.invalid e) ∧ compile whole = .error (.invalid e)) ∧
    (∃ rest, (Listing.ofSource size whole).code.toList =
      prologue size ++ blocks.flatten ++ rest ∧ (rest = epilogue ∨ rest = [])) ∧
    ((Listing.ofSource size source).result = .error (.interrupted (.failed failure)) →
      (Listing.ofSource size source).code.toList =
        prologue size ++ blocks.dropLast.flatten) := by
  intro source whole gs blocks
  have houtcome : source.outcome = some failure := Source.outcome_of_ne hchunks failure
  have htext : visible source.text = gs := by
    rw [Source.text_of_ne hchunks]
  have htokens : (scan source).tokens = (scan whole).tokens := by
    rw [scan_eq, scan_eq, Source.text_of_ne hchunks, Source.text_ofString]
  have hresults := results_failing houtcome hsize
  rw [htext] at hresults
  have hcode := code_failing size houtcome
  rw [htext, htokens] at hcode
  have hwhole := code_whole (ε := ε) size (String.join chunks)
  rcases hresults with ⟨hpassable, hlisting, hcompile⟩ |
    ⟨hno, e, hfirst, hbracket, hlisting, hcompile⟩
  · refine ⟨iff_of_true hlisting hpassable, iff_of_true hcompile hpassable,
      fun hno => absurd hpassable hno, hwhole, hcode hpassable⟩
  · obtain ⟨hlistingWhole, hcompileWhole⟩ := refused_of_firstError (ε := ε) hfirst hsize
    rw [hlisting, hcompile]
    refine ⟨iff_of_false ?_ hno, iff_of_false ?_ hno, ?_, hwhole, ?_⟩
    · intro hfailed
      cases hfailed
    · intro hfailed
      cases hfailed
    · intro _
      exact ⟨e, hfirst, hbracket, rfl, hlistingWhole, rfl, hcompileWhole⟩
    · intro hfailed
      cases hfailed

/-- The brackets that close nothing are not noticed here, and the additions before them are written.
-/
theorem failing_read_stray_brackets :
    let source : Source Unit := ⟨["+", "+]", "]"], some ()⟩
    Passable (visible "++]]".toList) ∧
      (Listing.ofSource 4 source).result = .error (.interrupted (.failed ())) ∧
      (Listing.ofSource 4 source).code.toList = prologue 4 ++ incrementCode 2 := by
  have hchunks : ∀ c ∈ ["+", "+]", "]"], c ≠ "" := by simp
  have hsize : (4 : Int) ≠ 0 := by omega
  have h := failing_read hchunks () hsize
  have hpassable : Passable (visible "++]]".toList) := by
    apply h.1.mp
    rfl
  have hresult := h.1.mpr hpassable
  refine ⟨hpassable, hresult, (h.2.2.2.2 hresult).trans ?_⟩
  rfl

end TapeLang
