import TapeLang.Proofs.Assembly.Emission
import TapeLang.Proofs.Visible
import TapeLang.TapeSize

/-!
Which texts are accepted, and what is said of the others.

The rules are stated for the visible characters of a text alone.  There is `Trouble` at a character
if it is foreign, or if it is a closing bracket that has no partner among the characters before it;
the first trouble is the error of the text.  A text without trouble may still leave brackets open,
and then the error is the earliest bracket that is never closed.

Main statement: `Listing.result_iff`, a text has a complete listing exactly if none of this is the
case, and else `FirstError` is what the listing ends with, wherever in a run or in a comment the
characters around it stand.  The way there counts brackets: a text is without trouble if and only if
it has a depth at its end (`clean_iff`), and the labels handed out know that depth.
-/

namespace TapeLang

/-! ### The rules -/

/-- The symbols among some characters. -/
def symbolsOf (gs : List Glyph) : List Symbol := gs.filterMap fun g => Symbol.ofChar? g.char

/-- A closing bracket behind these characters has its partner among them. -/
def HasOpen (gs : List Glyph) : Prop :=
  ∃ before g after, gs = before ++ g :: after ∧ g.char = '[' ∧ Balanced (symbolsOf after)

/-- An opening bracket in front of these characters has its partner among them. -/
def HasClose (gs : List Glyph) : Prop :=
  ∃ before g after, gs = before ++ g :: after ∧ g.char = ']' ∧ Balanced (symbolsOf before)

/-- What is wrong with a character, given the characters before it. -/
inductive Trouble (before : List Glyph) (g : Glyph) : SourceError → Prop
  | foreign : Foreign g.char → Trouble before g (.unexpectedToken g.char g.position)
  | unmatched : g.char = ']' → ¬ HasOpen before → Trouble before g (.unmatchedClose g.position)

/-- There is no trouble with any of the characters. -/
def Clean (gs : List Glyph) : Prop :=
  ∀ before g after, gs = before ++ g :: after → ∀ e, ¬ Trouble before g e

/-- The text is fine. -/
structure Acceptable (gs : List Glyph) : Prop where
  familiar : ∀ g ∈ gs, ¬ Foreign g.char
  balanced : Balanced (symbolsOf gs)

/-- The error of a text: the first trouble or, where there is none, the earliest bracket that is
never closed. -/
inductive FirstError (gs : List Glyph) : SourceError → Prop
  | trouble {before after : List Glyph} {g : Glyph} {e : SourceError} :
      gs = before ++ g :: after → Clean before → Trouble before g e → FirstError gs e
  | unclosed {before after : List Glyph} {g : Glyph} :
      Clean gs → gs = before ++ g :: after → g.char = '[' → ¬ HasClose after →
      (∀ x g' y, before = x ++ g' :: y → g'.char = '[' → HasClose (y ++ g :: after)) →
      FirstError gs (.unclosedLoop g.position)

/-! ### Counting brackets -/

@[simp] theorem symbolsOf_append (a b : List Glyph) :
    symbolsOf (a ++ b) = symbolsOf a ++ symbolsOf b := by
  simp [symbolsOf]

theorem symbolsOf_open {g : Glyph} (hg : g.char = '[') (gs : List Glyph) :
    symbolsOf (g :: gs) = .loopOpen :: symbolsOf gs := by
  simp [symbolsOf, hg, Symbol.ofChar?]

theorem symbolsOf_close {g : Glyph} (hg : g.char = ']') (gs : List Glyph) :
    symbolsOf (g :: gs) = .loopClose :: symbolsOf gs := by
  simp [symbolsOf, hg, Symbol.ofChar?]

theorem map_symbol_tokensOf (gs : List Glyph) : (tokensOf gs).map Token.symbol = symbolsOf gs := by
  rw [tokensOf, List.map_filterMap, symbolsOf]
  congr 1
  funext g
  rw [Option.map_map]
  exact Option.map_id'

/-- A token among characters is that of a character. -/
theorem exists_glyph_of_tokensOf {gs : List Glyph} {t : Token} {x y : List Token}
    (h : tokensOf gs = x ++ t :: y) :
    ∃ before g after, gs = before ++ g :: after ∧ g.char = t.symbol.char ∧
      g.position = t.position ∧ tokensOf before = x ∧ tokensOf after = y := by
  obtain ⟨b₁, rest, rfl, hx, hrest⟩ := List.filterMap_eq_append_iff.mp h
  obtain ⟨b₂, g, after, rfl, hnone, hg, hy⟩ := List.filterMap_eq_cons_iff.mp hrest
  obtain ⟨a, ha, rfl⟩ := Option.map_eq_some_iff.mp hg
  refine ⟨b₁ ++ b₂, g, after, by simp, Symbol.ofChar?_eq_some_iff.mp ha, rfl, ?_, hy⟩
  have hb₂ : tokensOf b₂ = [] := List.filterMap_eq_nil_iff.mpr hnone
  rw [tokensOf, List.filterMap_append, ← tokensOf, ← tokensOf, hb₂, List.append_nil]
  exact hx

/-- A symbol among characters is that of a character. -/
theorem exists_glyph_of_symbolsOf {gs : List Glyph} {a : Symbol} {x y : List Symbol}
    (h : symbolsOf gs = x ++ a :: y) :
    ∃ before g after, gs = before ++ g :: after ∧ g.char = a.char ∧ symbolsOf before = x ∧
      symbolsOf after = y := by
  rw [← map_symbol_tokensOf] at h
  obtain ⟨tx, rest, htokens, rfl, hrest⟩ := List.map_eq_append_iff.mp h
  obtain ⟨t, ty, rfl, rfl, rfl⟩ := List.map_eq_cons_iff.mp hrest
  obtain ⟨before, g, after, hgs, hg, -, rfl, rfl⟩ := exists_glyph_of_tokensOf htokens
  exact ⟨before, g, after, hgs, hg, (map_symbol_tokensOf before).symm,
    (map_symbol_tokensOf after).symm⟩

/-- A list that leaves `d` loops open and closes none of its surroundings: balanced parts with
opening brackets between them. -/
inductive Leaves : Nat → List Symbol → Prop
  | zero {l : List Symbol} : Balanced l → Leaves 0 l
  | succ {d : Nat} {l y : List Symbol} :
      Leaves d l → Balanced y → Leaves (d + 1) (l ++ .loopOpen :: y)

theorem Leaves.extend {d : Nat} {l a : List Symbol} (h : Leaves d l) (ha : Balanced a) :
    Leaves d (l ++ a) := by
  cases h with
  | zero hl => exact .zero (hl.append ha)
  | succ hl hy =>
    rw [List.append_assoc, List.cons_append]
    exact .succ hl (hy.append ha)

theorem leaves_of_depth? {l : List Symbol} {d : Nat} (h : depth? 0 l = some d) : Leaves d l := by
  induction l using List.reverseRecOn generalizing d with
  | nil =>
    rw [depth?_nil] at h
    cases h
    exact .zero .nil
  | append_singleton l a ih =>
    obtain ⟨n, hn, ha⟩ := depth?_prefix h
    cases hb : a.isBracket with
    | false =>
      rw [depth?_act hb, depth?_nil, Option.some.injEq] at ha
      subst ha
      exact (ih hn).extend (.act hb .nil)
    | true =>
      cases a with
      | loopOpen =>
        rw [depth?_open, depth?_nil, Option.some.injEq] at ha
        subst ha
        exact .succ (ih hn) .nil
      | loopClose =>
        cases n with
        | zero => cases ha
        | succ n =>
          rw [depth?_close_succ, depth?_nil, Option.some.injEq] at ha
          subst ha
          -- the innermost open loop is closed, and becomes a balanced part of what is around it
          cases ih hn with
          | succ hl hy =>
            rw [List.append_assoc]
            exact hl.extend (.loop hy .nil)
      | _ => cases hb

/-- Behind a text with a depth, a bracket can be closed if and only if the depth is not zero. -/
theorem hasOpen_iff {gs : List Glyph} {d : Nat} (h : depth? 0 (symbolsOf gs) = some d) :
    HasOpen gs ↔ 0 < d := by
  constructor
  · rintro ⟨before, g, after, rfl, hg, hafter⟩
    rw [symbolsOf_append, symbolsOf_open hg] at h
    obtain ⟨n, -, hn⟩ := depth?_prefix h
    rw [depth?_open, hafter.depth?_eq, Option.some.injEq] at hn
    omega
  · intro hd
    generalize hl : symbolsOf gs = l at h
    cases leaves_of_depth? h with
    | zero => omega
    | succ _ hy =>
      obtain ⟨before, g, after, hgs, hg, -, hafter⟩ := exists_glyph_of_symbolsOf hl
      exact ⟨before, g, after, hgs, hg, hafter ▸ hy⟩

/-- Only a closing bracket can fail to have a depth. -/
theorem exists_depth?_of_ne_close {g : Glyph} (hg : g.char ≠ ']') (d : Nat) :
    ∃ e, depth? d (symbolsOf [g]) = some e := by
  cases hs : Symbol.ofChar? g.char with
  | none => exact ⟨d, by simp [symbolsOf, hs]⟩
  | some a =>
    have hsymbols : symbolsOf [g] = [a] := by simp [symbolsOf, hs]
    rw [hsymbols]
    cases hb : a.isBracket with
    | false => exact ⟨d, by rw [depth?_act hb, depth?_nil]⟩
    | true =>
      cases a with
      | loopOpen => exact ⟨d + 1, by rw [depth?_open, depth?_nil]⟩
      | loopClose => exact absurd (Symbol.ofChar?_eq_some_iff.mp hs) hg
      | _ => cases hb

/-- Characters are without trouble if none is foreign and their brackets have a depth at the end. -/
theorem clean_iff {gs : List Glyph} :
    Clean gs ↔ (∀ g ∈ gs, ¬ Foreign g.char) ∧ ∃ d, depth? 0 (symbolsOf gs) = some d := by
  constructor
  · intro h
    refine ⟨?_, ?_⟩
    · intro g hg hforeign
      obtain ⟨before, after, hgs⟩ := List.append_of_mem hg
      exact h before g after hgs _ (.foreign hforeign)
    · induction gs using List.reverseRecOn with
      | nil => exact ⟨0, rfl⟩
      | append_singleton gs g ih =>
        have hclean : Clean gs := by
          intro before g' after hgs
          exact h before g' (after ++ [g]) (by simp [hgs])
        obtain ⟨d, hd⟩ := ih hclean
        rw [symbolsOf_append, depth?_append, hd, Option.bind_some]
        by_cases hg : g.char = ']'
        · have hopen : HasOpen gs := by
            by_contra hno
            exact h gs g [] rfl _ (.unmatched hg hno)
          obtain ⟨d, rfl⟩ := Nat.exists_eq_succ_of_ne_zero ((hasOpen_iff hd).mp hopen).ne'
          exact ⟨d, by rw [symbolsOf_close hg]; rfl⟩
        · exact exists_depth?_of_ne_close hg d
  · rintro ⟨hfamiliar, d, hd⟩ before g after rfl e (hforeign | ⟨hg, hno⟩)
    · exact hfamiliar g (by simp) hforeign
    · rw [symbolsOf_append, symbolsOf_close hg] at hd
      obtain ⟨n, hn, hrest⟩ := depth?_prefix hd
      cases n with
      | zero => cases hrest
      | succ n => exact hno ((hasOpen_iff hn).mpr (Nat.succ_pos n))

theorem Clean.left {a b : List Glyph} (h : Clean (a ++ b)) : Clean a := by
  intro before g after ha
  exact h before g (after ++ b) (by simp [ha])

theorem clean_of_acceptable {gs : List Glyph} (h : Acceptable gs) : Clean gs :=
  clean_iff.mpr ⟨h.familiar, 0, h.balanced.depth?_eq 0⟩

/-! ### There is one error at most -/

/-- There is at most one trouble with a character. -/
theorem Trouble.unique {before : List Glyph} {g : Glyph} {e e' : SourceError}
    (h : Trouble before g e) (h' : Trouble before g e') : e = e' := by
  have hbracket : g.char = ']' → ¬ Foreign g.char := by
    intro hg
    simp [Foreign, hg]
  cases h with
  | foreign hf =>
    cases h' with
    | foreign => rfl
    | unmatched hg => exact absurd hf (hbracket hg)
  | unmatched hg =>
    cases h' with
    | foreign hf => exact absurd hf (hbracket hg)
    | unmatched => rfl

/-- Of two places in a list, one is the other or comes before it. -/
theorem split_cases {α : Type} {a b x y : List α} {u v : α} (h : a ++ u :: b = x ++ v :: y) :
    (a = x ∧ u = v ∧ b = y) ∨ (∃ z, x = a ++ u :: z ∧ b = z ++ v :: y) ∨
      ∃ z, a = x ++ v :: z ∧ y = z ++ u :: b := by
  rcases List.append_eq_append_iff.mp h with ⟨z, rfl, hz⟩ | ⟨z, rfl, hz⟩
  · cases z with
    | nil => simp_all
    | cons w z =>
      rw [List.cons_append, List.cons.injEq] at hz
      obtain ⟨rfl, rfl⟩ := hz
      exact .inr (.inl ⟨z, rfl, rfl⟩)
  · cases z with
    | nil => simp_all
    | cons w z =>
      rw [List.cons_append, List.cons.injEq] at hz
      obtain ⟨rfl, rfl⟩ := hz
      exact .inr (.inr ⟨z, rfl, rfl⟩)

theorem FirstError.unique {gs : List Glyph} {e e' : SourceError} (h : FirstError gs e)
    (h' : FirstError gs e') : e = e' := by
  cases h with
  | trouble hgs hclean ht =>
    cases h' with
    | trouble hgs' hclean' ht' =>
      rcases split_cases (hgs.symm.trans hgs') with ⟨rfl, rfl, -⟩ | ⟨z, rfl, -⟩ | ⟨z, rfl, -⟩
      · exact ht.unique ht'
      · exact absurd ht (hclean' _ _ _ rfl _)
      · exact absurd ht' (hclean _ _ _ rfl _)
    | unclosed hclean' => exact absurd ht (hclean' _ _ _ hgs _)
  | unclosed hclean hgs hg hopen hfirst =>
    cases h' with
    | trouble hgs' _ ht' => exact absurd ht' (hclean _ _ _ hgs' _)
    | unclosed _ hgs' hg' hopen' hfirst' =>
      rcases split_cases (hgs.symm.trans hgs') with ⟨-, rfl, -⟩ | ⟨z, rfl, rfl⟩ | ⟨z, rfl, rfl⟩
      · rfl
      · exact absurd (hfirst' _ _ _ rfl hg) hopen
      · exact absurd (hfirst _ _ _ rfl hg') hopen'

/-- Behind an opening bracket of a balanced text, that bracket is closed. -/
theorem hasClose_of_balanced {before after : List Glyph} {g : Glyph} (hg : g.char = '[')
    (h : Balanced (symbolsOf (before ++ g :: after))) : HasClose after := by
  rw [symbolsOf_append, symbolsOf_open hg] at h
  obtain ⟨body, rest, hafter, hbody⟩ := h.exists_close
  obtain ⟨x, g', y, hsplit, hg', hx, -⟩ := exists_glyph_of_symbolsOf hafter
  exact ⟨x, g', y, hsplit, hg', hx ▸ hbody⟩

/-- A text that is fine has no error. -/
theorem Acceptable.not_firstError {gs : List Glyph} (h : Acceptable gs) (e : SourceError) :
    ¬ FirstError gs e := by
  intro he
  cases he with
  | trouble hgs _ ht => exact clean_of_acceptable h _ _ _ hgs _ ht
  | unclosed _ hgs hg hopen =>
    have hb := h.balanced
    rw [hgs] at hb
    exact hopen (hasClose_of_balanced hg hb)

/-! ### What the labels know -/

namespace Labels

/-- Taking notice of tokens fails at a closing bracket that finds no loop open. -/
theorem takeAll_eq_error {l : Labels} {ts : List Token} {e : SourceError}
    (h : l.takeAll ts = .error e) :
    ∃ a t b l', ts = a ++ t :: b ∧ l.takeAll a = .ok l' ∧ l'.stack = [] ∧
      t.symbol = .loopClose ∧ e = .unmatchedClose t.position := by
  induction ts generalizing l with
  | nil => cases h
  | cons t ts ih =>
    rw [takeAll] at h
    cases ht : l.take t with
    | error e' =>
      rw [ht] at h
      cases h
      obtain ⟨hstack, hs, he⟩ := take_eq_error ht
      exact ⟨[], t, ts, l, rfl, rfl, hstack, hs, he⟩
    | ok l₁ =>
      rw [ht] at h
      obtain ⟨a, u, b, l', rfl, ha, hstack, hu, he⟩ := ih h
      refine ⟨t :: a, u, b, l', rfl, ?_, hstack, hu, he⟩
      rw [takeAll, ht]
      exact ha

/-- Tokens that hand out labels and leave nothing open are balanced. -/
theorem balanced_of_takeAll {ts : List Token} {l : Labels} (h : empty.takeAll ts = .ok l)
    (hl : l.stack = []) : Balanced (ts.map Token.symbol) := by
  have hd : depth? 0 (ts.map Token.symbol) = some l.stack.length := depth?_takeAll h
  rw [hl] at hd
  exact balanced_iff_depth?.mpr hd

/-- An outermost loop is open after some tokens: its place is at the bottom of the stack, and what
follows its bracket closes only what it opens itself. -/
structure Outermost (ts : List Token) (l : Labels) (before after : List Token) (t : Token) :
    Prop where
  split : ts = before ++ t :: after
  opens : t.symbol = .loopOpen
  balanced : Balanced (before.map Token.symbol)
  stack : ∃ st n, l.stack = st ++ [(n, t.position)] ∧
    depth? 0 (after.map Token.symbol) = some st.length

theorem Outermost.take {ts before after : List Token} {l l' : Labels} {t u : Token}
    (h : Outermost ts l before after t) (hu : l.take u = .ok l') :
    l'.stack = [] ∨ Outermost (ts ++ [u]) l' before (after ++ [u]) t := by
  obtain ⟨rfl, hopens, hbalanced, st, n, hstack, hdepth⟩ := h
  have hsplit : before ++ t :: after ++ [u] = before ++ t :: (after ++ [u]) := by simp
  -- one more token is counted by the depth behind the bracket
  have hnext : ∀ st', l'.stack = st' ++ [(n, t.position)] →
      depth? st.length [u.symbol] = some st'.length →
      Outermost (before ++ t :: after ++ [u]) l' before (after ++ [u]) t := by
    intro st' hst' hd
    refine ⟨hsplit, hopens, hbalanced, st', n, hst', ?_⟩
    rw [List.map_append, depth?_append, hdepth]
    exact hd
  rcases take_cases hu with ⟨hplain, rfl⟩ | ⟨hs, hpush⟩ | ⟨hs, p, hpop⟩
  · refine .inr (hnext st hstack ?_)
    rw [depth?_act hplain, depth?_nil]
  · refine .inr (hnext ((l.allocated, u.position) :: st) ?_ ?_)
    · rw [hpush, hstack, List.cons_append]
    · rw [hs, depth?_open, depth?_nil, List.length_cons]
  · rw [hstack] at hpop
    cases st with
    | nil => exact .inl (List.cons.inj hpop).2.symm
    | cons q st =>
      refine .inr (hnext st (List.cons.inj hpop).2.symm ?_)
      rw [hs, List.length_cons, depth?_close_succ, depth?_nil]

/-- After some tokens nothing is open, or there is an outermost loop. -/
theorem takeAll_outermost {ts : List Token} {l : Labels} (h : empty.takeAll ts = .ok l) :
    l.stack = [] ∨ ∃ before after t, Outermost ts l before after t := by
  induction ts using List.reverseRecOn generalizing l with
  | nil =>
    cases h
    exact .inl rfl
  | append_singleton ts u ih =>
    obtain ⟨l₁, hts, hu⟩ := takeAll_concat h
    rcases ih hts with hnil | ⟨before, after, t, hout⟩
    · rcases take_cases hu with ⟨-, rfl⟩ | ⟨hs, hpush⟩ | ⟨hs, p, hpop⟩
      · exact .inl hnil
      · -- nothing was open before, so the new loop is the outermost one
        rw [hnil] at hpush
        exact .inr ⟨ts, [], u, rfl, hs, balanced_of_takeAll hts hnil, [], l₁.allocated, hpush, rfl⟩
      · rw [hnil] at hpop
        cases hpop
    · rcases hout.take hu with hnil | hout'
      · exact .inl hnil
      · exact .inr ⟨_, _, _, hout'⟩

end Labels

/-! ### The verdict on a text -/

/-- What reading characters and handing out labels come to. -/
def verdict (gs : List Glyph) : Except SourceError Unit :=
  (Labels.empty.takeAll (readGlyphs gs).1).bind fun l =>
    match (readGlyphs gs).2 with
    | some e => .error e
    | none => l.finish

section

variable {gs : List Glyph} (hfamiliar : ∀ g ∈ gs, ¬ Foreign g.char)

include hfamiliar

theorem clean_of_takeAll {l : Labels} (h : Labels.empty.takeAll (tokensOf gs) = .ok l) :
    Clean gs := by
  have hd : depth? 0 ((tokensOf gs).map Token.symbol) = some l.depth := Labels.depth?_takeAll h
  rw [map_symbol_tokensOf] at hd
  exact clean_iff.mpr ⟨hfamiliar, l.depth, hd⟩

/-- Labels run out at the first closing bracket without a partner. -/
theorem firstError_of_takeAll {e : SourceError} (h : Labels.empty.takeAll (tokensOf gs) = .error e)
    (rest : List Glyph) : FirstError (gs ++ rest) e := by
  obtain ⟨a, t, b, l, hsplit, ha, hstack, ht, rfl⟩ := Labels.takeAll_eq_error h
  obtain ⟨before, g, after, rfl, hg, hplace, rfl, -⟩ := exists_glyph_of_tokensOf hsplit
  have hclean : Clean before := by
    refine clean_of_takeAll ?_ ha
    intro g' hg'
    exact hfamiliar g' (by simp [hg'])
  have hbalanced := Labels.balanced_of_takeAll ha hstack
  rw [map_symbol_tokensOf] at hbalanced
  have hno : ¬ HasOpen before := by
    rw [hasOpen_iff (hbalanced.depth?_eq 0)]
    exact Nat.lt_irrefl 0
  rw [ht] at hg
  rw [← hplace]
  exact .trouble (List.append_assoc before (g :: after) rest) hclean (.unmatched hg hno)

/-- A loop that is open at the end is reported at the earliest bracket that is never closed. -/
theorem firstError_of_outermost {l : Labels} {before after : List Token} {t : Token}
    (h : Labels.empty.takeAll (tokensOf gs) = .ok l)
    (hout : Labels.Outermost (tokensOf gs) l before after t) :
    FirstError gs (.unclosedLoop t.position) := by
  have hclean := clean_of_takeAll hfamiliar h
  obtain ⟨hsplit, hopens, hbalanced, st, n, -, hdepth⟩ := hout
  obtain ⟨x, g, y, rfl, hg, hplace, rfl, rfl⟩ := exists_glyph_of_tokensOf hsplit
  rw [map_symbol_tokensOf] at hbalanced hdepth
  rw [hopens] at hg
  rw [← hplace]
  refine .unclosed hclean rfl hg ?_ ?_
  · rintro ⟨u, g', v, rfl, hg', hu⟩
    rw [symbolsOf_append, symbolsOf_close hg', depth?_append, hu.depth?_eq] at hdepth
    cases hdepth
  · rintro u g' v rfl hg'
    obtain ⟨z, k, w, rfl, hk, hz⟩ := hasClose_of_balanced hg' hbalanced
    exact ⟨z, k, w ++ g :: y, by simp, hk, hz⟩

end

/-- Nothing is said against characters that are fine, and their first error against all others. -/
theorem verdict_cases {gs : List Glyph} (hline : ∀ g ∈ gs, g.char ≠ '\n') :
    (Acceptable gs ∧ verdict gs = .ok ()) ∨ ∃ e, FirstError gs e ∧ verdict gs = .error e := by
  rcases readGlyphs_cases hline with ⟨hall, hr⟩ | ⟨before, g, after, rfl, hg, hbefore, hr⟩
  · rw [verdict, hr]
    cases htake : Labels.empty.takeAll (tokensOf gs) with
    | error e =>
      have hfirst := firstError_of_takeAll hall htake []
      rw [List.append_nil] at hfirst
      exact .inr ⟨e, hfirst, rfl⟩
    | ok l =>
      show (_ ∧ l.finish = .ok ()) ∨ ∃ e, _ ∧ l.finish = .error e
      rcases Labels.takeAll_outermost htake with hnil | ⟨before, after, t, hout⟩
      · have hbalanced := Labels.balanced_of_takeAll htake hnil
        rw [map_symbol_tokensOf] at hbalanced
        refine .inl ⟨⟨hall, hbalanced⟩, ?_⟩
        rw [Labels.finish, hnil]
        rfl
      · obtain ⟨st, n, hstack, -⟩ := hout.stack
        refine .inr ⟨_, firstError_of_outermost hall htake hout, ?_⟩
        rw [Labels.finish, hstack, List.getLast?_concat]
  · -- what comes before the foreign character is read first
    rw [verdict, hr]
    cases htake : Labels.empty.takeAll (tokensOf before) with
    | error e => exact .inr ⟨e, firstError_of_takeAll hbefore htake (g :: after), rfl⟩
    | ok l => exact .inr ⟨_, .trouble rfl (clean_of_takeAll hbefore htake) (.foreign hg), rfl⟩

/-- A text has a first error unless it is acceptable. -/
theorem not_acceptable_iff {text : String} :
    ¬ Acceptable (visible text.toList) ↔ ∃ e, FirstError (visible text.toList) e := by
  constructor
  · intro h
    have hline : ∀ g ∈ visible text.toList, g.char ≠ '\n' := fun _ => ne_newline_of_mem_visible
    rcases verdict_cases hline with ⟨hacceptable, -⟩ | ⟨e, hfirst, -⟩
    · exact absurd hacceptable h
    · exact ⟨e, hfirst⟩
  · rintro ⟨e, hfirst⟩ hacceptable
    exact hacceptable.not_firstError e hfirst

/-! ### A text that is given as a whole -/

section

variable {ε : Type}

theorem Source.outcome_ofString (text : String) :
    (Source.ofString text : Source ε).outcome = none := by
  simp [Source.ofString, Source.outcome]

theorem Source.text_ofString (text : String) :
    (Source.ofString text : Source ε).text = text.toList := by
  by_cases h : text = ""
  · simp [Source.ofString, Source.text, Source.pieces, h]
  · simp [Source.ofString, Source.text, Source.pieces, h]

/-- The runs of a text that is read without a failure. -/
theorem runsOf_eq {source : Source ε} (h : source.outcome = none) :
    runsOf source = ⟨groupRuns (readGlyphs (visible source.text)).1,
      (readGlyphs (visible source.text)).2.map .invalid⟩ := by
  rw [runsOf, scan_eq, h]
  cases (readGlyphs (visible source.text)).2 <;> rfl

/-- The runs of a text come to what its characters come to. -/
theorem verdict_runsOf (text : String) :
    (runsOf (.ofString text : Source ε)).verdict.map (fun _ => ()) =
      (verdict (visible text.toList)).mapError .invalid := by
  rw [Runs.verdict, runsOf_eq (Source.outcome_ofString text), flatMap_tokens_groupRuns,
    Source.text_ofString, verdict]
  -- Both verdicts look at the brackets first, then at where reading stopped, and then at the
  -- brackets left open.
  generalize readGlyphs (visible text.toList) = read
  obtain ⟨ts, err⟩ := read
  cases Labels.empty.takeAll ts with
  | error e => rfl
  | ok l =>
    cases err with
    | some e => rfl
    | none =>
      show ((l.finish.mapError _).map _).map _ = l.finish.mapError _
      cases l.finish <;> rfl

/-- The runs of a text are accepted, or refused with the first error of the text. -/
theorem verdict_text_cases (text : String) :
    (Acceptable (visible text.toList) ∧
      ∃ l, (runsOf (.ofString text : Source ε)).verdict = .ok l) ∨
    ∃ e, FirstError (visible text.toList) e ∧
      (runsOf (.ofString text : Source ε)).verdict = .error (.invalid e) := by
  have hruns : _ = (verdict (visible text.toList)).mapError (.invalid : _ → Interruption ε) :=
    verdict_runsOf text
  have hline : ∀ g ∈ visible text.toList, g.char ≠ '\n' := fun _ => ne_newline_of_mem_visible
  rcases verdict_cases hline with ⟨hacceptable, hverdict⟩ | ⟨e, hfirst, hverdict⟩
  · refine .inl ⟨hacceptable, ?_⟩
    rw [hverdict] at hruns
    cases h : (runsOf (.ofString text : Source ε)).verdict with
    | error i =>
      rw [h] at hruns
      cases hruns
    | ok l => exact ⟨l, rfl⟩
  · refine .inr ⟨e, hfirst, ?_⟩
    rw [hverdict] at hruns
    cases h : (runsOf (.ofString text : Source ε)).verdict with
    | error i =>
      rw [h] at hruns
      cases hruns
      rfl
    | ok l =>
      rw [h] at hruns
      cases hruns

/-- A text has a complete listing, or it is refused with its first error. -/
theorem listing_text_cases (text : String) {size : Int} (hsize : size ≠ 0) :
    (Acceptable (visible text.toList) ∧
      ∃ s, (Assembly.Listing.ofSource size (.ofString text : Source ε)).result = .ok s) ∨
    ∃ e, FirstError (visible text.toList) e ∧
      (Assembly.Listing.ofSource size (.ofString text : Source ε)).result =
        .error (.interrupted (.invalid e)) := by
  have hrs : ∀ r ∈ (runsOf (.ofString text : Source ε)).runs, r.Proper := fun _ => proper_runs
  obtain ⟨pointer, hresult⟩ := Assembly.Listing.result_ofRuns hrs hsize
  rw [Assembly.Listing.ofSource, hresult]
  rcases verdict_text_cases text with ⟨hacceptable, l, hl⟩ | ⟨e, hfirst, he⟩
  · rw [hl]
    exact .inl ⟨hacceptable, _, rfl⟩
  · rw [he]
    exact .inr ⟨e, hfirst, rfl⟩

end

/-! ### Sizes -/

/-- The size in use is the acceptable one nearest to the size that is asked for. -/
theorem TapeConfig.size_ofRequested (requested : Int) :
    (ofRequested requested).size = max minTapeSize (min requested maxTapeSize) := by
  have horder : minTapeSize ≤ maxTapeSize := by decide
  simp only [ofRequested, validateTapeSize]
  by_cases hrange : requested < minTapeSize ∨ maxTapeSize < requested
  · rw [if_pos hrange]
    by_cases hlarge : maxTapeSize < requested
    · simp only [if_pos hlarge]
      omega
    · simp only [if_neg hlarge]
      omega
  · simp only [if_neg hrange]
    omega

/-- The size in use is acceptable. -/
theorem TapeConfig.validateTapeSize_ofRequested (requested : Int) :
    validateTapeSize (ofRequested requested).size = .ok (ofRequested requested).size := by
  have horder : minTapeSize ≤ maxTapeSize := by decide
  have hsize := size_ofRequested requested
  rw [validateTapeSize, if_neg (by omega)]

/-- Whatever size is asked for, the tape has a cell. -/
theorem TapeConfig.one_le_size_ofRequested (requested : Int) :
    1 ≤ (ofRequested requested).size := by
  rw [size_ofRequested]
  exact Int.le_max_left minTapeSize _

namespace Assembly.Listing

theorem size_ofRequested_ne_zero (requested : Int) :
    (TapeConfig.ofRequested requested).size ≠ 0 := by
  have hsize := TapeConfig.one_le_size_ofRequested requested
  omega

end Assembly.Listing

end TapeLang
