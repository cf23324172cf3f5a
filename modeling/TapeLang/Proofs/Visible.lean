import Mathlib.Tactic.Common
import TapeLang.Token

/-!
What of a text counts.

A text falls into lines at its line feeds, and of each line only what stands before the first `#`
counts.  `visible` lists these characters with the line and the column they stand at, both counted
from one.  It knows nothing of a scanner; `scan_eq` says that scanning a source is reading its
visible characters one after the other, up to the first that is foreign.
-/

namespace TapeLang

/-- A character and the place it stands at. -/
structure Glyph where
  char : Char
  position : Position
  deriving DecidableEq

/-- The characters of a part of a line that begins at some column. -/
def placeLine (line column : Int) : List Char → List Glyph
  | [] => []
  | c :: cs => ⟨c, ⟨line, column⟩⟩ :: placeLine line (column + 1) cs

/-- The characters of some lines that count, where the first line has the given number. -/
def placeLines (line : Int) : List (List Char) → List Glyph
  | [] => []
  | l :: ls => placeLine line 1 (l.takeWhile (· != '#')) ++ placeLines (line + 1) ls

/-- The characters of a text outside of comments. -/
def visible (text : List Char) : List Glyph := placeLines 1 (text.splitOn '\n')

/-- The character is neither one of the eight symbols nor blank. -/
def Foreign (c : Char) : Prop :=
  c ∉ ['+', '-', '>', '<', ',', '.', '[', ']', ' ', '\t', '\r', '\n', '\x0c', '\x0b']

/-- The tokens among some characters. -/
def tokensOf (gs : List Glyph) : List Token :=
  gs.filterMap fun g => (Symbol.ofChar? g.char).map fun s => ⟨s, g.position⟩

/-- Read characters up to the first that is neither a symbol nor blank. -/
def readGlyphs : List Glyph → List Token × Option SourceError
  | [] => ([], none)
  | g :: gs =>
    match Symbol.ofChar? g.char with
    | some s => (⟨s, g.position⟩ :: (readGlyphs gs).1, (readGlyphs gs).2)
    | none =>
      if Scanner.isBlank g.char then readGlyphs gs
      else ([], some (.unexpectedToken g.char g.position))

/-! ### Following the scanner -/

/-- The visible characters from a place on, with or without a comment open there. -/
def visibleFrom : Int → Int → Bool → List Char → List Glyph
  | _, _, _, [] => []
  | line, column, inComment, c :: cs =>
    if c == '\n' then visibleFrom (line + 1) 1 false cs
    else if inComment then visibleFrom line column true cs
    else if c == '#' then visibleFrom line (column + 1) true cs
    else ⟨c, ⟨line, column⟩⟩ :: visibleFrom line (column + 1) false cs

/-- Inside a comment nothing counts up to the next line. -/
theorem visibleFrom_eq (cs : List Char) (line column : Int) :
    ∃ l ls, cs.splitOn '\n' = l :: ls ∧
      visibleFrom line column true cs = placeLines (line + 1) ls ∧
      visibleFrom line column false cs =
        placeLine line column (l.takeWhile (· != '#')) ++ placeLines (line + 1) ls := by
  induction cs generalizing line column with
  | nil => exact ⟨[], [], rfl, rfl, rfl⟩
  | cons c cs ih =>
    rw [List.splitOn_cons_eq_if_modifyHead]
    by_cases hc : c = '\n'
    · -- a new line begins, whether or not the old one ended in a comment
      obtain ⟨l, ls, hsplit, -, hvis⟩ := ih (line + 1) 1
      refine ⟨[], cs.splitOn '\n', by simp [hc], ?_, ?_⟩ <;>
        simp [visibleFrom, hc, hvis, hsplit, placeLines, placeLine]
    · -- inside a comment the column is not counted on, outside of one it is
      obtain ⟨l, ls, hsplit, hcomment, -⟩ := ih line column
      obtain ⟨l', ls', hsplit', hcomment', hvis'⟩ := ih line (column + 1)
      rw [hsplit, List.cons.injEq] at hsplit'
      obtain ⟨rfl, rfl⟩ := hsplit'
      refine ⟨c :: l, ls, by simp [hc, hsplit], by simp [visibleFrom, hc, hcomment], ?_⟩
      by_cases hs : c = '#'
      · simp [visibleFrom, hs, hcomment', placeLine]
      · simp [visibleFrom, hc, hs, hvis', placeLine]

theorem visible_eq (text : List Char) : visible text = visibleFrom 1 1 false text := by
  obtain ⟨l, ls, hsplit, -, hvis⟩ := visibleFrom_eq text 1 1
  rw [visible, hsplit, hvis]
  rfl

example : visible "[ #]\n].".toList =
    [⟨'[', ⟨1, 1⟩⟩, ⟨' ', ⟨1, 2⟩⟩, ⟨']', ⟨2, 1⟩⟩, ⟨'.', ⟨2, 2⟩⟩] := by
  decide

namespace Scanner

theorem foldl_feed_of_error {s : Scanner} {e : SourceError} (h : s.error = some e)
    (cs : List Char) : cs.foldl feed s = s := by
  induction cs with
  | nil => rfl
  | cons c cs ih =>
    obtain ⟨p, k, ts, err⟩ := s
    cases h
    exact ih

/-- Scanning from a place on reads what is visible from there. -/
theorem foldl_feed (cs : List Char) (line column : Int) (inComment : Bool) (ts : Array Token) :
    (cs.foldl feed ⟨⟨line, column⟩, inComment, ts, none⟩).tokens.toList =
      ts.toList ++ (readGlyphs (visibleFrom line column inComment cs)).1 ∧
    (cs.foldl feed ⟨⟨line, column⟩, inComment, ts, none⟩).error =
      (readGlyphs (visibleFrom line column inComment cs)).2 := by
  induction cs generalizing line column inComment ts with
  | nil => simp [visibleFrom, readGlyphs]
  | cons c cs ih =>
    rw [List.foldl_cons, visibleFrom]
    by_cases hc : c = '\n'
    · simpa [feed, hc] using ih (line + 1) 1 false ts
    · cases inComment with
      | true => simpa [feed, hc] using ih line column true ts
      | false =>
        by_cases hs : c = '#'
        · subst hs
          exact ih line (column + 1) true ts
        · cases hsym : Symbol.ofChar? c with
          | some s =>
            have hrest := ih line (column + 1) false (ts.push ⟨s, ⟨line, column⟩⟩)
            simpa [feed, hc, hs, hsym, readGlyphs, next] using hrest
          | none =>
            by_cases hb : isBlank c = true
            · have hrest := ih line (column + 1) false ts
              simpa [feed, hc, hs, hsym, hb, readGlyphs, next] using hrest
            · -- a foreign character: nothing behind it is looked at
              have hstop := foldl_feed_of_error (s := ⟨⟨line, column⟩, false, ts,
                some (.unexpectedToken c ⟨line, column⟩)⟩) rfl cs
              simp [feed, hc, hs, hsym, hb, readGlyphs, hstop]

end Scanner

/-- Scanning a source reads its visible characters, however the text is cut into pieces. -/
theorem scan_eq {ε : Type} (source : Source ε) :
    scan source = ⟨(readGlyphs (visible source.text)).1,
      ((readGlyphs (visible source.text)).2.map .invalid).or (source.outcome.map .failed)⟩ := by
  have hfold : source.pieces.foldl Scanner.feedPiece Scanner.start =
      source.text.foldl Scanner.feed Scanner.start := by
    rw [Source.text, List.foldl_flatMap]
    rfl
  obtain ⟨htokens, herror⟩ := Scanner.foldl_feed source.text 1 1 false #[]
  rw [scan, hfold, visible_eq]
  simp only [Scanner.start, htokens, herror]
  rfl

/-! ### The first foreign character -/

theorem foreign_iff {c : Char} :
    Foreign c ↔ Symbol.ofChar? c = none ∧ Scanner.isBlank c = false ∧ c ≠ '\n' := by
  unfold Symbol.ofChar?
  split <;> simp_all [Foreign, Scanner.isBlank]
  tauto

/-- A line feed is never visible. -/
theorem ne_newline_of_mem_visibleFrom {cs : List Char} {line column : Int} {inComment : Bool}
    {g : Glyph} (h : g ∈ visibleFrom line column inComment cs) : g.char ≠ '\n' := by
  induction cs generalizing line column inComment with
  | nil => cases h
  | cons c cs ih =>
    rw [visibleFrom] at h
    split at h
    · exact ih h
    · rename_i hc
      split at h
      · exact ih h
      · split at h
        · exact ih h
        · rcases List.mem_cons.mp h with rfl | h
          · simpa using hc
          · exact ih h

theorem ne_newline_of_mem_visible {text : List Char} {g : Glyph} (h : g ∈ visible text) :
    g.char ≠ '\n' := by
  rw [visible_eq] at h
  exact ne_newline_of_mem_visibleFrom h

/-- What is read of two texts that are read alike is the same behind a character more. -/
theorem readGlyphs_cons_congr {cs ds : List Char}
    (h : ∀ line column inComment, readGlyphs (visibleFrom line column inComment cs) =
      readGlyphs (visibleFrom line column inComment ds)) (c : Char) (line column : Int)
    (inComment : Bool) :
    readGlyphs (visibleFrom line column inComment (c :: cs)) =
      readGlyphs (visibleFrom line column inComment (c :: ds)) := by
  rw [visibleFrom, visibleFrom]
  split
  · exact h _ _ _
  · split
    · exact h _ _ _
    · split
      · exact h _ _ _
      · rw [readGlyphs, readGlyphs, h]

/-- A carriage return in front of a line feed is at most a blank at the end of its line. -/
theorem readGlyphs_lineEnd (line column : Int) (inComment : Bool) (cs : List Char) :
    readGlyphs (visibleFrom line column inComment ('\r' :: '\n' :: cs)) =
      readGlyphs (visibleFrom line column inComment ('\n' :: cs)) := by
  cases inComment with
  | true => simp [visibleFrom]
  | false =>
    have hblank : readGlyphs (⟨'\r', ⟨line, column⟩⟩ :: visibleFrom (line + 1) 1 false cs) =
        readGlyphs (visibleFrom (line + 1) 1 false cs) := rfl
    simpa [visibleFrom] using hblank

/-- Reading goes to the end, or to the first foreign character. -/
theorem readGlyphs_cases {gs : List Glyph} (hline : ∀ g ∈ gs, g.char ≠ '\n') :
    ((∀ g ∈ gs, ¬ Foreign g.char) ∧ readGlyphs gs = (tokensOf gs, none)) ∨
    ∃ before g after, gs = before ++ g :: after ∧ Foreign g.char ∧
      (∀ g' ∈ before, ¬ Foreign g'.char) ∧
      readGlyphs gs = (tokensOf before, some (.unexpectedToken g.char g.position)) := by
  induction gs with
  | nil => exact .inl ⟨by simp, rfl⟩
  | cons g gs ih =>
    have hrest := ih fun g' hg' => hline g' (List.mem_cons_of_mem g hg')
    by_cases hf : Foreign g.char
    · obtain ⟨hsym, hblank, -⟩ := foreign_iff.mp hf
      refine .inr ⟨[], g, gs, rfl, hf, by simp, ?_⟩
      simp [readGlyphs, hsym, hblank, tokensOf]
    · -- a character that is not foreign adds its token, if it has one, to what is read behind it
      have hread : readGlyphs (g :: gs) =
          (tokensOf [g] ++ (readGlyphs gs).1, (readGlyphs gs).2) := by
        cases hsym : Symbol.ofChar? g.char with
        | some s => simp [readGlyphs, tokensOf, hsym]
        | none =>
          have hblank : Scanner.isBlank g.char = true := by
            by_contra hb
            rw [Bool.not_eq_true] at hb
            exact hf (foreign_iff.mpr ⟨hsym, hb, hline g (by simp)⟩)
          simp [readGlyphs, tokensOf, hsym, hblank]
      have htokens : ∀ gs, tokensOf [g] ++ tokensOf gs = tokensOf (g :: gs) := by
        intro gs
        exact (List.filterMap_append ..).symm
      rcases hrest with ⟨hall, hr⟩ | ⟨before, g', after, rfl, hg', hbefore, hr⟩
      · refine .inl ⟨?_, ?_⟩
        · intro g' hg'
          rcases List.mem_cons.mp hg' with rfl | hg'
          · exact hf
          · exact hall g' hg'
        · rw [hread, hr, htokens]
      · refine .inr ⟨g :: before, g', after, rfl, hg', ?_, ?_⟩
        · intro v hv
          rcases List.mem_cons.mp hv with rfl | hv
          · exact hf
          · exact hbefore v hv
        · rw [hread, hr, htokens]

end TapeLang
