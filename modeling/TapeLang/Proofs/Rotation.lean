import TapeLang.Proofs.Assembly.Block
import TapeLang.Proofs.Coalescing
import TapeLang.Proofs.Displacement

/-!
The tape is a ring.

A store is turned if everything on its tape, and the pointer with it, has gone the same way along
the ring, while output and input stay as they are (`Store.Turned`).  No symbol can tell: stores that
are turned against each other are still so, by as much, after any symbol (`Store.Turned.act`) and
after any list of symbols that comes to an end (`Evaluates.turned`), wherever the two of them go
around the ring meanwhile.  All cells of the first store are zero, so that moves in front of a
program do nothing but turn the store that it starts with.

Main statement: `turned_of_leading_moves`, an execution of a text with moves in front of it ends if
and only if that of the text does, with the same output and with a store that is turned by the
moves.
-/

namespace TapeLang

open Assembly Function

/-! ### Going along the ring -/

/-- The cell that is `δ` cells to the right of a cell, on a ring of `size` cells. -/
def along (size : Nat) (δ : Int) (i : Nat) : Nat := ((i + δ) % size).toNat

section

variable {size i j : Nat} {δ ε : Int}

theorem cast_along (hsize : 0 < size) : (along size δ i : Int) = (i + δ) % size :=
  Int.toNat_of_nonneg (Int.emod_nonneg _ (by omega))

theorem along_lt (hsize : 0 < size) : along size δ i < size := by
  have hlt := Int.emod_lt_of_pos (i + δ) (Int.natCast_pos.mpr hsize)
  rw [← cast_along hsize] at hlt
  exact_mod_cast hlt

theorem along_comm (hsize : 0 < size) :
    along size ε (along size δ i) = along size δ (along size ε i) := by
  have hcast : (along size ε (along size δ i) : Int) = along size δ (along size ε i) := by
    simp only [cast_along hsize, Int.emod_add_emod]
    rw [Int.add_right_comm]
  exact_mod_cast hcast

/-- Going along the ring and back again leads to where it started. -/
theorem along_neg_along (hi : i < size) : along size (-δ) (along size δ i) = i := by
  have hsize : 0 < size := Nat.zero_lt_of_lt hi
  have hcast : (along size (-δ) (along size δ i) : Int) = i := by
    rw [cast_along hsize, cast_along hsize, Int.emod_add_emod, Int.add_neg_cancel_right,
      Int.emod_eq_of_lt (by omega) (by omega)]
  exact_mod_cast hcast

theorem along_inj (hi : i < size) (hj : j < size) :
    along size δ i = along size δ j ↔ i = j := by
  constructor
  · intro h
    rw [← along_neg_along (δ := δ) hi, h, along_neg_along hj]
  · rintro rfl
    rfl

end

/-! ### Turned stores -/

namespace Store

/-- The store `r` is the store `s` turned by `δ` cells to the right. -/
structure Turned (size : Nat) (δ : Int) (s r : Store) : Prop where
  fits : s.Fits size
  cells : r.tape.size = size
  /-- What is in a cell has gone `δ` cells to the right. -/
  tape : ∀ i < size, r.tape[along size δ i]? = s.tape[i]?
  pointer : r.pointer = along size δ s.pointer
  output : r.output = s.output
  input : r.input = s.input

/-- A symbol leads the pointer along the ring. -/
theorem pointer_act_eq_along {size : Nat} {s : Store} (hs : s.Fits size) (a : Symbol) :
    (s.act a).pointer = along size a.displacement s.pointer := by
  have hcast := pointer_act hs a
  rw [← cast_along (Nat.zero_lt_of_lt hs.pointer)] at hcast
  exact_mod_cast hcast

namespace Turned

variable {size : Nat} {δ : Int} {s r : Store} (h : s.Turned size δ r)

include h

theorem size_pos : 0 < size := Nat.zero_lt_of_lt h.fits.pointer

theorem fits_turned : r.Fits size := ⟨h.cells, h.pointer ▸ along_lt h.size_pos⟩

/-- The first store is the second one turned back. -/
theorem symm : r.Turned size (-δ) s where
  fits := h.fits_turned
  cells := h.fits.cells
  tape := by
    intro i hi
    -- the cell `i` of the turned tape is where the one `δ` cells before it has gone
    have hback : along size δ (along size (-δ) i) = i := by
      rw [along_comm h.size_pos, along_neg_along hi]
    rw [← h.tape _ (along_lt h.size_pos), hback]
  pointer := by rw [h.pointer, along_neg_along h.fits.pointer]
  output := h.output.symm
  input := h.input.symm

theorem cell : r.cell = s.cell := by
  rw [Store.cell, Store.cell, Array.getD_eq_getD_getElem?, Array.getD_eq_getD_getElem?, h.pointer,
    h.tape _ h.fits.pointer]

theorem change (f : UInt8 → UInt8) : (s.change f).Turned size δ (r.change f) where
  fits := h.fits.change f
  cells := by simp [Store.change, h.cells]
  tape := by
    intro i hi
    have hcurrent : r.pointer = along size δ i ↔ s.pointer = i := by
      rw [h.pointer, along_inj h.fits.pointer hi]
    simp only [Store.change, Array.getElem?_modify, hcurrent, h.tape i hi]
  pointer := h.pointer
  output := h.output
  input := h.input

/-- Stores that are turned against each other are still so after a symbol. -/
theorem act (a : Symbol) : (s.act a).Turned size δ (r.act a) := by
  have hpointer : (r.act a).pointer = along size δ (s.act a).pointer := by
    rw [pointer_act_eq_along h.fits_turned, pointer_act_eq_along h.fits, h.pointer,
      along_comm h.size_pos]
  -- whatever else a symbol does, it does to the current cell, which is the same one turned
  cases a with
  | increment => exact h.change (· + 1)
  | decrement => exact h.change (· - 1)
  | moveRight => exact ⟨h.fits.act .moveRight, h.cells, h.tape, hpointer, h.output, h.input⟩
  | moveLeft => exact ⟨h.fits.act .moveLeft, h.cells, h.tape, hpointer, h.output, h.input⟩
  | read =>
    have hinput := h.input
    cases hs : s.input with
    | nil =>
      rw [hs] at hinput
      simpa [Store.act, hs, hinput] using h
    | cons x rest =>
      rw [hs] at hinput
      have hrest : ({ s with input := rest } : Store).Turned size δ { r with input := rest } :=
        ⟨⟨h.fits.cells, h.fits.pointer⟩, h.cells, h.tape, h.pointer, h.output, rfl⟩
      simpa [Store.act, hs, hinput] using hrest.change fun _ => byteOf x
  | write =>
    have houtput : r.output.push r.cell = s.output.push s.cell := by rw [h.output, h.cell]
    exact ⟨h.fits.act .write, h.cells, h.tape, h.pointer, houtput, h.input⟩
  | loopOpen => exact h
  | loopClose => exact h

end Turned

/-- On a tape of zeros, moves do nothing but turn the store. -/
theorem turned_start {size : Nat} (hsize : 0 < size) (input : List Int) (d : Direction) (n : Nat) :
    (start size input).Turned size (n * (moveSymbol d).displacement)
      ((act (moveSymbol d))^[n] (start size input)) := by
  have hfits := fits_start hsize input
  have hpointer := pointer_iterate hfits (moveSymbol d) n
  rw [← cast_along hsize] at hpointer
  rw [iterate_move hfits] at hpointer ⊢
  have hzero : ∀ i < size, (Array.replicate size (0 : UInt8))[i]? = some 0 := by
    intro i hi
    rw [Array.getElem?_replicate, if_pos hi]
  refine ⟨hfits, hfits.cells, ?_, by exact_mod_cast hpointer, rfl, rfl⟩
  intro i hi
  exact (hzero _ (along_lt hsize)).trans (hzero i hi).symm

end Store

/-- Symbols do to a turned store what they do to the store. -/
theorem Evaluates.turned {l : List Symbol} {s s' : Store} (h : Evaluates l s s') {size : Nat}
    {δ : Int} {r : Store} (hr : s.Turned size δ r) :
    ∃ r', Evaluates l r r' ∧ s'.Turned size δ r' := by
  induction h generalizing r with
  | done => exact ⟨r, .done, hr⟩
  | act ha _ ih =>
    obtain ⟨r', hrest, hr'⟩ := ih (hr.act _)
    exact ⟨r', .act ha hrest, hr'⟩
  | skip hb hcell _ ih =>
    obtain ⟨r', hrest, hr'⟩ := ih hr
    exact ⟨r', .skip hb (hr.cell.trans hcell) hrest, hr'⟩
  | again hb hcell _ _ ihb ih =>
    obtain ⟨r₁, hbody, hr₁⟩ := ihb hr
    obtain ⟨r', hrest, hr'⟩ := ih hr₁
    exact ⟨r', .again hb (hr.cell ▸ hcell) hbody hrest, hr'⟩

/-! ### Symbols in front of a text -/

/-- Which characters count does not depend on the place where they begin. -/
theorem map_char_visibleFrom (line column line' column' : Int) (inComment : Bool)
    (cs : List Char) :
    (visibleFrom line column inComment cs).map Glyph.char =
      (visibleFrom line' column' inComment cs).map Glyph.char := by
  induction cs generalizing line column line' column' inComment with
  | nil => rfl
  | cons c cs ih =>
    rw [visibleFrom, visibleFrom]
    split
    · exact ih _ _ _ _ _
    · split
      · exact ih _ _ _ _ _
      · split
        · exact ih _ _ _ _ _
        · rw [List.map_cons, List.map_cons, ih _ _ line' (column' + 1)]

/-- Symbols in front of a text count, and nothing else changes. -/
theorem map_char_visible_append (a : Symbol) (n : Nat) (cs : List Char) :
    (visible (List.replicate n a.char ++ cs)).map Glyph.char =
      List.replicate n a.char ++ (visible cs).map Glyph.char := by
  have hchar : (a.char == '\n') = false ∧ (a.char == '#') = false := by
    cases a <;> exact ⟨rfl, rfl⟩
  have hfrom : ∀ column,
      (visibleFrom 1 column false (List.replicate n a.char ++ cs)).map Glyph.char =
        List.replicate n a.char ++ (visibleFrom 1 1 false cs).map Glyph.char := by
    induction n with
    | zero => exact fun column => map_char_visibleFrom 1 column 1 1 false cs
    | succ n ih =>
      intro column
      simp only [List.replicate_succ, List.cons_append, visibleFrom, hchar, Bool.false_eq_true,
        if_false, List.map_cons, ih]
  rw [visible_eq, visible_eq, hfrom]

theorem symbolsOf_eq_filterMap (gs : List Glyph) :
    symbolsOf gs = (gs.map Glyph.char).filterMap Symbol.ofChar? := by
  rw [symbolsOf, List.filterMap_map]
  rfl

theorem symbolsOf_visible_append (a : Symbol) (n : Nat) (cs : List Char) :
    symbolsOf (visible (List.replicate n a.char ++ cs)) =
      List.replicate n a ++ symbolsOf (visible cs) := by
  rw [symbolsOf_eq_filterMap, map_char_visible_append, List.filterMap_append,
    List.filterMap_replicate_of_some (Symbol.ofChar?_char a), ← symbolsOf_eq_filterMap]

/-- A text that is fine stays so with symbols in front of it that are no brackets. -/
theorem Acceptable.symbols_append {cs : List Char} (h : Acceptable (visible cs)) {a : Symbol}
    (ha : a.isBracket = false) (n : Nat) :
    Acceptable (visible (List.replicate n a.char ++ cs)) where
  familiar := by
    intro g hg hforeign
    have hmem := List.mem_map_of_mem (f := Glyph.char) hg
    rw [map_char_visible_append] at hmem
    rcases List.mem_append.mp hmem with hmem | hmem
    · rw [List.eq_of_mem_replicate hmem] at hforeign
      have hnone := (foreign_iff.mp hforeign).1
      rw [Symbol.ofChar?_char] at hnone
      cases hnone
    · obtain ⟨g', hg', hchar⟩ := List.mem_map.mp hmem
      exact h.familiar g' hg' (hchar ▸ hforeign)
  balanced := by
    rw [symbolsOf_visible_append]
    exact h.balanced.replicate_append ha n

/-! ### Executions -/

section

variable {ε : Type}

/-- The symbols of a text that is fine are scanned one and all. -/
theorem Acceptable.map_symbol_scan {text : String} (h : Acceptable (visible text.toList)) :
    (scan (.ofString text : Source ε)).tokens.map Token.symbol =
      symbolsOf (visible text.toList) := by
  rw [scan_eq, Source.text_ofString]
  have hline : ∀ g ∈ visible text.toList, g.char ≠ '\n' := fun _ => ne_newline_of_mem_visible
  rcases readGlyphs_cases hline with ⟨-, hread⟩ | ⟨before, g, after, hsplit, hg, -⟩
  · rw [hread]
    exact map_symbol_tokensOf _
  · exact absurd hg (h.familiar g (by rw [hsplit]; simp))

theorem exists_program_ofString_iff {text : String} :
    (∃ p, compile (.ofString text : Source ε) = .ok p) ↔ Acceptable (visible text.toList) := by
  rw [exists_program_iff, Source.text_ofString]
  exact and_iff_right (Source.outcome_ofString text)

/-- The execution of a text that is fine ends in the stores that its symbols lead to. -/
theorem exists_endsAt_iff_evaluates {text : String} (h : Acceptable (visible text.toList))
    {size : Nat} (hsize : 0 < size) (input : List Int) (s : Store) :
    (∃ k m, (.ofString text : Source ε).EndsAt size input k m ∧ m.store = s) ↔
      Evaluates (symbolsOf (visible text.toList)) (.start size input) s := by
  obtain ⟨p, hp⟩ := exists_program_ofString_iff (ε := ε).mpr h
  obtain ⟨t, rfl, ht⟩ := exists_nest_of_compile hp
  rw [← h.map_symbol_scan (ε := ε), ← ht, evaluates_symbols_iff,
    ← execute_eq_ok_iff_exec hp hsize input s]
  constructor
  · rintro ⟨k, m, ⟨fuel, hrun⟩, hm⟩
    exact ⟨fuel, k, m, hrun, hm⟩
  · rintro ⟨fuel, k, m, hrun, hm⟩
    exact ⟨k, m, ⟨fuel, hrun⟩, hm⟩

/-- **Rotation**: moves in front of an accepted text are accepted with it.  Then an execution ends
if and only if that of the text alone does, and it ends with the same output, and with a tape and a
pointer that are turned by the moves. -/
theorem turned_of_leading_moves {text : String} {p : Program}
    (hp : compile (.ofString text : Source ε) = .ok p) {size : Nat} (hsize : 0 < size)
    (input : List Int) (d : Direction) (n : Nat) :
    let alone : Source ε := .ofString text
    let moved : Source ε :=
      .ofString (String.ofList (List.replicate n (moveSymbol d).char) ++ text)
    (∃ q, compile moved = .ok q) ∧
    ((∃ k m, moved.EndsAt size input k m) ↔ ∃ k m, alone.EndsAt size input k m) ∧
    ∀ k m k' m', alone.EndsAt size input k m → moved.EndsAt size input k' m' →
      m.store.Turned size (n * (moveSymbol d).displacement) m'.store := by
  intro alone moved
  have halone : Acceptable (visible text.toList) := exists_program_ofString_iff.mp ⟨p, hp⟩
  have hplain : (moveSymbol d).isBracket = false := by cases d <;> rfl
  have htext : (String.ofList (List.replicate n (moveSymbol d).char) ++ text).toList =
      List.replicate n (moveSymbol d).char ++ text.toList := by
    rw [String.toList_append, String.toList_ofList]
  have hmoved := halone.symbols_append hplain n
  rw [← htext] at hmoved
  have hstart := Store.turned_start hsize input d n
  -- both executions follow the symbols of the text, from stores that are turned against each other
  have hends : ∀ s, (∃ k m, alone.EndsAt size input k m ∧ m.store = s) ↔
      Evaluates (symbolsOf (visible text.toList)) (.start size input) s :=
    exists_endsAt_iff_evaluates halone hsize input
  have hends' : ∀ r, (∃ k m, moved.EndsAt size input k m ∧ m.store = r) ↔
      Evaluates (symbolsOf (visible text.toList))
        ((Store.act (moveSymbol d))^[n] (.start size input)) r := by
    intro r
    rw [exists_endsAt_iff_evaluates hmoved hsize input, htext, symbolsOf_visible_append,
      Evaluates.replicate_append_iff hplain]
  refine ⟨exists_program_ofString_iff.mpr hmoved, ⟨?_, ?_⟩, ?_⟩
  · rintro ⟨k, m, hm⟩
    obtain ⟨s, heval, -⟩ := ((hends' _).mp ⟨k, m, hm, rfl⟩).turned hstart.symm
    obtain ⟨k', m', hm', -⟩ := (hends s).mpr heval
    exact ⟨k', m', hm'⟩
  · rintro ⟨k, m, hm⟩
    obtain ⟨r, heval, -⟩ := ((hends _).mp ⟨k, m, hm, rfl⟩).turned hstart
    obtain ⟨k', m', hm', -⟩ := (hends' r).mpr heval
    exact ⟨k', m', hm'⟩
  · intro k m k' m' hm hm'
    obtain ⟨r, heval, hturned⟩ := ((hends _).mp ⟨k, m, hm, rfl⟩).turned hstart
    rwa [((hends' _).mp ⟨k', m', hm', rfl⟩).unique heval]

end

/-- A program that goes around the left end of a tape of two cells, and carries two back around the
right end. -/
def carrying : String := "<++[->+<]>."

/-- Three moves to the left lead around the ring as well, and the other cell becomes the first. -/
theorem turned_of_leading_moves_carrying :
    ∃ k m, (.ofString (String.ofList (List.replicate 3 '<') ++ carrying) : Source Empty).EndsAt
      2 [] k m ∧ m.pointer = 1 ∧ m.output = #[2] ∧ m.tape[1]? = some 2 := by
  obtain ⟨p, hp⟩ : ∃ p, compile (.ofString carrying : Source Empty) = .ok p := ⟨_, rfl⟩
  obtain ⟨-, hiff, hturned⟩ := turned_of_leading_moves hp (show 0 < 2 by decide) [] .left 3
  obtain ⟨m, result, hrun⟩ :
      ∃ m result, execute 2 (.ofString carrying : Source Empty) [] none 15 = ⟨m, result⟩ :=
    ⟨_, _, rfl⟩
  have hresult : (execute 2 (.ofString carrying : Source Empty) [] none 15).result.toOption =
      some 15 := by decide +kernel
  have hmachine : let m := (execute 2 (.ofString carrying : Source Empty) [] none 15).machine
      m.pointer = 0 ∧ m.output = #[2] ∧ m.tape = #[2, 0] := by decide +kernel
  rw [hrun] at hresult hmachine
  cases result with
  | error => cases hresult
  | ok k =>
    obtain ⟨k', m', hm'⟩ := hiff.mpr ⟨k, m, 15, hrun⟩
    have hstore := hturned k m k' m' ⟨15, hrun⟩ hm'
    obtain ⟨hpointer, houtput, htape⟩ := hmachine
    have hcell : m.store.tape[0]? = some 2 := by rw [Machine.store, htape]; rfl
    refine ⟨k', m', hm', ?_, hstore.output.trans houtput, (hstore.tape 0 (by decide)).trans hcell⟩
    exact hstore.pointer.trans (congrArg (along 2 _) hpointer)

end TapeLang
