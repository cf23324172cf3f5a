import Mathlib.Data.List.Pairwise
import TapeLang.Proofs.Outcome

/-!
The coordinates of tokens.

A text falls into lines at its line feeds.  `Uncommented` says by line and column that a character
stands somewhere in a text and that no `#` comes before it in its line.  The visible characters of a
text are exactly these, but for the `#` that opens a comment (`mem_visible_iff`), and they are
listed from left to right and from top to bottom (`pairwise_visible`), so that what comes first in
the list is what comes first in the text.

Main statement: `scan_exact`, the tokens of a text are its uncommented symbols up to the first
intruder, each once and with its own coordinates; the error is that intruder; and neither changes
when the two characters of a line end are joined into one.
-/

namespace TapeLang

/-! ### Places and what stands there -/

/-- The first place is further up than the second, or in the same line further left. -/
def Position.Before (p q : Position) : Prop :=
  p.line < q.line ∨ p.line = q.line ∧ p.column < q.column

theorem Position.Before.asymm {p q : Position} (h : p.Before q) : ¬ q.Before p := by
  simp only [Before] at h ⊢
  omega

/-- A character stands at a place of a text and is not part of a comment, unless it opens one: in
the line of that number it has the number of the column, and there is no `#` in front of it.  Lines
are divided by line feeds alone, and lines and columns count from one. -/
inductive Uncommented (text : List Char) (c : Char) : Position → Prop
  | mk {i j : Nat} {l : List Char} : (text.splitOn '\n')[i]? = some l → l[j]? = some c →
      '#' ∉ l.take j → Uncommented text c ⟨i + 1, j + 1⟩

/-- The character is at fault at this place: it stands there outside of comments, and it is neither
a symbol nor blank nor the `#` of a comment. -/
structure Intrudes (text : List Char) (c : Char) (p : Position) : Prop where
  uncommented : Uncommented text c p
  foreign : Foreign c
  plain : c ≠ '#'

/-! ### The visible characters by their places -/

theorem mem_placeLine {line column : Int} {cs : List Char} {g : Glyph} :
    g ∈ placeLine line column cs ↔
      ∃ j : Nat, cs[j]? = some g.char ∧ g.position = ⟨line, column + j⟩ := by
  induction cs generalizing column with
  | nil => simp [placeLine]
  | cons c cs ih =>
    rw [placeLine, List.mem_cons, ih]
    constructor
    · rintro (rfl | ⟨j, hj, hp⟩)
      · exact ⟨0, rfl, by simp⟩
      · exact ⟨j + 1, hj, by rw [hp]; simp; omega⟩
    · rintro ⟨j, hj, hp⟩
      cases j with
      | zero =>
        obtain ⟨d, q⟩ := g
        cases hj
        exact .inl (by simpa using hp)
      | succ j => exact .inr ⟨j, hj, by rw [hp]; simp; omega⟩

/-- In front of the first `#` of a line stands what has no `#` in front of it and is none. -/
theorem getElem?_takeWhile {l : List Char} {j : Nat} {c : Char} :
    (l.takeWhile (· != '#'))[j]? = some c ↔ l[j]? = some c ∧ '#' ∉ l.take j ∧ c ≠ '#' := by
  induction l generalizing j with
  | nil => simp
  | cons d l ih =>
    by_cases hd : d = '#'
    · cases j with
      | zero => simp [hd, eq_comm]
      | succ j => simp [hd]
    · cases j with
      | zero =>
        simp only [List.takeWhile_cons, bne_iff_ne, ne_eq, hd, not_false_eq_true, if_true]
        grind
      | succ j =>
        have hd' : ¬ '#' = d := fun h => hd h.symm
        simp [hd, hd', ih]

theorem mem_placeLines {line : Int} {ls : List (List Char)} {g : Glyph} :
    g ∈ placeLines line ls ↔ ∃ (i j : Nat) (l : List Char), ls[i]? = some l ∧
      l[j]? = some g.char ∧ '#' ∉ l.take j ∧ g.char ≠ '#' ∧ g.position = ⟨line + i, j + 1⟩ := by
  induction ls generalizing line with
  | nil => simp [placeLines]
  | cons l ls ih =>
    rw [placeLines, List.mem_append, mem_placeLine, ih]
    constructor
    · rintro (⟨j, hj, hp⟩ | ⟨i, j, l', hl', hrest, hmark, hc, hp⟩)
      · obtain ⟨hj, hmark, hc⟩ := getElem?_takeWhile.mp hj
        exact ⟨0, j, l, rfl, hj, hmark, hc, by rw [hp]; simp; omega⟩
      · exact ⟨i + 1, j, l', hl', hrest, hmark, hc, by rw [hp]; simp; omega⟩
    · rintro ⟨i, j, l', hl', hj, hmark, hc, hp⟩
      cases i with
      | zero =>
        cases hl'
        exact .inl ⟨j, getElem?_takeWhile.mpr ⟨hj, hmark, hc⟩, by rw [hp]; simp; omega⟩
      | succ i => exact .inr ⟨i, j, l', hl', hj, hmark, hc, by rw [hp]; simp; omega⟩

/-- The visible characters are the uncommented ones, without those that open comments. -/
theorem mem_visible_iff {text : List Char} {g : Glyph} :
    g ∈ visible text ↔ Uncommented text g.char g.position ∧ g.char ≠ '#' := by
  rw [visible, mem_placeLines]
  constructor
  · rintro ⟨i, j, l, hl, hj, hmark, hc, hp⟩
    rw [hp, Int.add_comm 1 i]
    exact ⟨.mk hl hj hmark, hc⟩
  · obtain ⟨c, p⟩ := g
    rintro ⟨⟨hl, hj, hmark⟩, hc⟩
    exact ⟨_, _, _, hl, hj, hmark, hc, by rw [Int.add_comm 1]⟩

theorem pairwise_placeLine (line column : Int) (cs : List Char) :
    (placeLine line column cs).Pairwise fun a b => a.position.Before b.position := by
  induction cs generalizing column with
  | nil => exact .nil
  | cons c cs ih =>
    refine .cons ?_ (ih (column + 1))
    intro g hg
    obtain ⟨j, -, hp⟩ := mem_placeLine.mp hg
    rw [hp]
    exact .inr ⟨rfl, by show column < column + 1 + j; omega⟩

theorem pairwise_placeLines (line : Int) (ls : List (List Char)) :
    (placeLines line ls).Pairwise fun a b => a.position.Before b.position := by
  induction ls generalizing line with
  | nil => exact .nil
  | cons l ls ih =>
    rw [placeLines, List.pairwise_append]
    refine ⟨pairwise_placeLine line 1 _, ih (line + 1), ?_⟩
    intro a ha b hb
    obtain ⟨j, -, hp⟩ := mem_placeLine.mp ha
    obtain ⟨i, k, l', -, -, -, -, hq⟩ := mem_placeLines.mp hb
    rw [hp, hq]
    exact .inl (by show line < line + 1 + i; omega)

/-- Visible characters are listed in the order of the text. -/
theorem pairwise_visible (text : List Char) :
    (visible text).Pairwise fun a b => a.position.Before b.position :=
  pairwise_placeLines 1 _

theorem intrudes_iff {text : List Char} {c : Char} {p : Position} :
    Intrudes text c p ↔ ⟨c, p⟩ ∈ visible text ∧ Foreign c := by
  rw [mem_visible_iff]
  constructor
  · intro h
    exact ⟨⟨h.uncommented, h.plain⟩, h.foreign⟩
  · rintro ⟨⟨huncommented, hplain⟩, hforeign⟩
    exact ⟨huncommented, hforeign, hplain⟩

/-! ### The tokens by their places -/

theorem char_ne_mark (s : Symbol) : s.char ≠ '#' := by
  cases s <;> decide

theorem not_foreign_char (s : Symbol) : ¬ Foreign s.char := by
  cases s <;> simp [Foreign, Symbol.char]

/-- A token among some characters is the character that its symbol is written with. -/
theorem mem_tokensOf {gs : List Glyph} {t : Token} :
    t ∈ tokensOf gs ↔ ⟨t.symbol.char, t.position⟩ ∈ gs := by
  rw [tokensOf, List.mem_filterMap]
  constructor
  · rintro ⟨⟨c, p⟩, hg, ht⟩
    obtain ⟨s, hs, rfl⟩ := Option.map_eq_some_iff.mp ht
    obtain rfl : c = s.char := Symbol.ofChar?_eq_some_iff.mp hs
    exact hg
  · intro hg
    exact ⟨_, hg, by simp⟩

theorem pairwise_tokensOf {gs : List Glyph}
    (h : gs.Pairwise fun a b => a.position.Before b.position) :
    (tokensOf gs).Pairwise fun a b => a.position.Before b.position := by
  refine h.filterMap _ ?_
  intro a b hab t ht u hu
  obtain ⟨s, -, rfl⟩ := Option.map_eq_some_iff.mp ht
  obtain ⟨s', -, rfl⟩ := Option.map_eq_some_iff.mp hu
  exact hab

theorem count_of_ordered {ts : List Token}
    (h : ts.Pairwise fun a b => a.position.Before b.position) : ∀ t ∈ ts, ts.count t = 1 := by
  have hnodup : ts.Nodup := by
    refine h.imp ?_
    rintro a b hab rfl
    exact hab.asymm hab
  exact fun t ht => List.count_eq_one_of_mem hnodup ht

/-- The tokens of a text are where they should be: all of its uncommented symbols that come before
every intruder, each of them once, in the order of the text; and what ends them early is the first
intruder, at its own place. -/
structure Scan.Exact {ε : Type} (s : Scan ε) (text : List Char) : Prop where
  token_iff : ∀ t : Token, t ∈ s.tokens ↔
    Uncommented text t.symbol.char t.position ∧
      ∀ c p, Intrudes text c p → ¬ p.Before t.position
  once : ∀ t ∈ s.tokens, s.tokens.count t = 1
  ordered : s.tokens.Pairwise fun a b => a.position.Before b.position
  stopped_iff : (∃ i, s.stop = some i) ↔ ∃ c p, Intrudes text c p
  stop_iff : ∀ i, s.stop = some i ↔
    ∃ c p, i = .invalid (.unexpectedToken c p) ∧ Intrudes text c p ∧
      ∀ c' p', Intrudes text c' p' → ¬ p'.Before p

namespace Scan

variable {ε : Type} {text : List Char}

/-- A text without an intruder has all of its symbols as tokens. -/
theorem exact_of_familiar (hall : ∀ g ∈ visible text, ¬ Foreign g.char) :
    (⟨tokensOf (visible text), none⟩ : Scan ε).Exact text := by
  have hnone : ∀ c p, ¬ Intrudes text c p := by
    intro c p hi
    obtain ⟨hg, hforeign⟩ := intrudes_iff.mp hi
    exact hall _ hg hforeign
  have hordered := pairwise_tokensOf (pairwise_visible text)
  refine ⟨?_, count_of_ordered hordered, hordered, ?_, ?_⟩
  · intro t
    rw [mem_tokensOf, mem_visible_iff]
    constructor
    · rintro ⟨huncommented, -⟩
      exact ⟨huncommented, fun c p hi => absurd hi (hnone c p)⟩
    · rintro ⟨huncommented, -⟩
      exact ⟨huncommented, char_ne_mark t.symbol⟩
  · refine iff_of_false ?_ ?_
    · rintro ⟨i, hi⟩
      cases hi
    · rintro ⟨c, p, hi⟩
      exact hnone c p hi
  · intro i
    refine iff_of_false nofun ?_
    rintro ⟨c, p, -, hi, -⟩
    exact hnone c p hi

/-- A text with an intruder has the symbols in front of it as tokens. -/
theorem exact_of_foreign {before after : List Glyph} {g : Glyph}
    (hsplit : visible text = before ++ g :: after) (hg : Foreign g.char)
    (hbefore : ∀ g' ∈ before, ¬ Foreign g'.char) :
    (⟨tokensOf before, some (.invalid (.unexpectedToken g.char g.position))⟩ : Scan ε).Exact
      text := by
  have hvisible := pairwise_visible text
  rw [hsplit, List.pairwise_append, List.pairwise_cons] at hvisible
  obtain ⟨hfront, ⟨hafter, -⟩, hacross⟩ := hvisible
  have hmem : ∀ x, x ∈ visible text ↔ x ∈ before ∨ x = g ∨ x ∈ after := by
    intro x
    rw [hsplit, List.mem_append, List.mem_cons]
  have hgmem : Intrudes text g.char g.position :=
    intrudes_iff.mpr ⟨(hmem g).mpr (.inr (.inl rfl)), hg⟩
  -- every intruder is this one or comes behind it
  have hlate : ∀ c p, Intrudes text c p → ⟨c, p⟩ = g ∨ g.position.Before p := by
    intro c p hi
    obtain ⟨hx, hforeign⟩ := intrudes_iff.mp hi
    rcases (hmem _).mp hx with hx | hx | hx
    · exact absurd hforeign (hbefore _ hx)
    · exact .inl hx
    · exact .inr (hafter _ hx)
  have hordered := pairwise_tokensOf hfront
  refine ⟨?_, count_of_ordered hordered, hordered, ?_, ?_⟩
  · intro t
    rw [mem_tokensOf]
    constructor
    · intro ht
      refine ⟨(mem_visible_iff.mp ((hmem _).mpr (.inl ht))).1, ?_⟩
      intro c p hi
      obtain ⟨hx, hforeign⟩ := intrudes_iff.mp hi
      have hbehind : ⟨c, p⟩ ∈ g :: after := by
        rcases (hmem _).mp hx with hx | hx
        · exact absurd hforeign (hbefore _ hx)
        · exact List.mem_cons.mpr hx
      exact (hacross _ ht _ hbehind).asymm
    · rintro ⟨huncommented, hfirst⟩
      have hx := mem_visible_iff (g := ⟨t.symbol.char, t.position⟩)
        |>.mpr ⟨huncommented, char_ne_mark t.symbol⟩
      rcases (hmem _).mp hx with hx | hx | hx
      · exact hx
      · rw [← hx] at hg
        exact absurd hg (not_foreign_char t.symbol)
      · exact absurd (hafter _ hx) (hfirst _ _ hgmem)
  · exact iff_of_true ⟨_, rfl⟩ ⟨_, _, hgmem⟩
  · intro i
    constructor
    · intro hi
      cases hi
      refine ⟨_, _, rfl, hgmem, ?_⟩
      intro c p hi hp
      rcases hlate c p hi with rfl | hlater
      · exact hp.asymm hp
      · exact hp.asymm hlater
    · rintro ⟨c, p, rfl, hi, hfirst⟩
      rcases hlate c p hi with rfl | hlater
      · rfl
      · exact absurd hlater (hfirst _ _ hgmem)

end Scan

/-! ### Line ends of two characters -/

/-- Every carriage return that stands in front of a line feed is left out. -/
def joinLineEnds : List Char → List Char
  | [] => []
  | '\r' :: '\n' :: cs => '\n' :: joinLineEnds cs
  | c :: cs => c :: joinLineEnds cs

theorem readGlyphs_joinLineEnds (cs : List Char) (line column : Int) (inComment : Bool) :
    readGlyphs (visibleFrom line column inComment (joinLineEnds cs)) =
      readGlyphs (visibleFrom line column inComment cs) := by
  fun_induction joinLineEnds cs generalizing line column inComment with
  | case1 => rfl
  | case2 cs ih =>
    rw [readGlyphs_lineEnd]
    exact readGlyphs_cons_congr ih _ _ _ _
  | case3 c cs _ ih => exact readGlyphs_cons_congr ih _ _ _ _

/-- **Coordinates**: the tokens of a text and its error are exactly what stands where they say, and
they stay the same when each pair of a carriage return and a line feed becomes a line feed. -/
theorem scan_exact {ε : Type} (text : String) :
    (scan (.ofString text : Source ε)).Exact text.toList ∧
    scan (.ofString (String.ofList (joinLineEnds text.toList)) : Source ε) =
      scan (.ofString text) := by
  have hscan : ∀ t : String, scan (.ofString t : Source ε) =
      ⟨(readGlyphs (visible t.toList)).1, (readGlyphs (visible t.toList)).2.map .invalid⟩ := by
    intro t
    rw [scan_eq, Source.text_ofString, Source.outcome_ofString, Option.map_none, Option.or_none]
  constructor
  · rw [hscan]
    have hline : ∀ g ∈ visible text.toList, g.char ≠ '\n' := fun _ => ne_newline_of_mem_visible
    rcases readGlyphs_cases hline with
      ⟨hall, hread⟩ | ⟨before, g, after, hsplit, hg, hbefore, hread⟩
    · rw [hread]
      exact Scan.exact_of_familiar hall
    · rw [hread]
      exact Scan.exact_of_foreign hsplit hg hbefore
  · rw [hscan, hscan, String.toList_ofList, visible_eq, visible_eq, readGlyphs_joinLineEnds]

example : scan (.ofString "+#]\r\n\t-a+" : Source Empty) =
    ⟨[⟨.increment, ⟨1, 1⟩⟩, ⟨.decrement, ⟨2, 2⟩⟩],
      some (.invalid (.unexpectedToken 'a' ⟨2, 3⟩))⟩ := rfl

end TapeLang
