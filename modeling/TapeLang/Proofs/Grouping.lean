import Mathlib.Data.List.SplitBy
import Mathlib.Tactic.Common
import TapeLang.Run

/-!
Runs of tokens: none is empty, all tokens of a run are of its symbol, runs that follow each other
are of different symbols (`isChain_groupRuns`), and together they are the tokens they were made of
(`flatMap_tokens_groupRuns`).

A run of brackets is never executed as a whole.  `Run.pieces` takes it apart into runs of a single
bracket and leaves every other run as it is; a sequence of runs and the sequence of its pieces have
the same tokens.  `groupPieces` goes from tokens to pieces at once, and since a bracket is a piece
of its own wherever it stands, the pieces of a token list may be cut at any bracket
(`groupPieces_bracket`).
-/

namespace TapeLang

namespace Run

/-- A run as it comes out of grouping: it has tokens, and all of them are of its symbol. -/
structure Proper (r : Run) : Prop where
  nonempty : r.tokens ≠ []
  uniform : ∀ t ∈ r.tokens, t.symbol = r.symbol

theorem ofTokens?_eq_some {ts : List Token} {r : Run} (h : ofTokens? ts = some r) :
    r.tokens = ts ∧ ∃ t rest, ts = t :: rest ∧ r.symbol = t.symbol := by
  cases ts with
  | nil => cases h
  | cons t rest =>
    cases h
    exact ⟨rfl, t, rest, rfl, rfl⟩

/-- The single brackets of a run of brackets; any other run is one piece. -/
def pieces (r : Run) : List Run :=
  if r.symbol.isBracket then r.tokens.map fun t => ⟨r.symbol, [t]⟩ else [r]

theorem flatMap_tokens_pieces (r : Run) : r.pieces.flatMap Run.tokens = r.tokens := by
  unfold pieces
  split
  · simp [List.flatMap_map]
  · simp

/-- A run that is executed as a whole: a single bracket, or no bracket at all. -/
structure Piece (r : Run) : Prop extends r.Proper where
  single : r.symbol.isBracket = true → ∃ t, r.tokens = [t]

theorem Proper.piece {r p : Run} (h : r.Proper) (hp : p ∈ r.pieces) : p.Piece := by
  unfold pieces at hp
  split at hp
  · obtain ⟨t, ht, rfl⟩ := List.mem_map.mp hp
    refine ⟨⟨by simp, ?_⟩, fun _ => ⟨t, rfl⟩⟩
    intro u hu
    obtain rfl := List.mem_singleton.mp hu
    exact h.uniform u ht
  · rename_i hb
    obtain rfl := List.mem_singleton.mp hp
    exact ⟨h, fun hb' => absurd hb' hb⟩

theorem Proper.map_symbol_tokens {r : Run} (h : r.Proper) :
    r.tokens.map Token.symbol = List.replicate r.count r.symbol := by
  rw [List.eq_replicate_iff]
  refine ⟨by simp [count], ?_⟩
  intro a ha
  obtain ⟨t, ht, rfl⟩ := List.mem_map.mp ha
  exact h.uniform t ht

theorem flatMap_tokens_flatMap_pieces (rs : List Run) :
    (rs.flatMap pieces).flatMap Run.tokens = rs.flatMap Run.tokens := by
  simp only [List.flatMap_assoc, flatMap_tokens_pieces]

theorem piece_of_mem_flatMap {rs : List Run} (hrs : ∀ r ∈ rs, r.Proper) {p : Run}
    (hp : p ∈ rs.flatMap pieces) : p.Piece := by
  obtain ⟨r, hr, hpr⟩ := List.mem_flatMap.mp hp
  exact (hrs r hr).piece hpr

/-- What handles a run of brackets bracket by bracket may be given the pieces of runs. -/
theorem foldl_flatMap_pieces {σ : Type} {run : σ → Run → σ}
    (h : ∀ (r : Run) (s : σ), r.symbol.isBracket = true →
      r.tokens.foldl (fun s t => run s ⟨r.symbol, [t]⟩) s = run s r) (rs : List Run) (s : σ) :
    (rs.flatMap pieces).foldl run s = rs.foldl run s := by
  rw [List.foldl_flatMap]
  congr 1
  funext s r
  unfold pieces
  split
  · rename_i hb
    rw [List.foldl_map, h r s hb]
  · rfl

end Run

/-! ### Grouping -/

theorem sameSymbol_of_chain {t : Token} {ts : List Token}
    (h : (t :: ts).IsChain fun a b => (a.symbol == b.symbol) = true) :
    ∀ u ∈ t :: ts, u.symbol = t.symbol := by
  induction ts generalizing t with
  | nil => simp
  | cons v ts ih =>
    rw [List.isChain_cons_cons, beq_iff_eq] at h
    intro u hu
    rcases List.mem_cons.mp hu with rfl | hu
    · rfl
    · rw [ih h.2 u hu, h.1]

theorem proper_of_mem_groupRuns {ts : List Token} {r : Run} (h : r ∈ groupRuns ts) : r.Proper := by
  obtain ⟨g, hg, hr⟩ := List.mem_filterMap.mp h
  obtain ⟨htokens, t, rest, rfl, hsymbol⟩ := Run.ofTokens?_eq_some hr
  refine ⟨by simp [htokens], ?_⟩
  rw [htokens, hsymbol]
  exact sameSymbol_of_chain (List.isChain_of_mem_splitBy hg)

/-- A run that comes out of grouping can be told by its tokens. -/
theorem Run.Proper.ofTokens?_tokens {r : Run} (h : r.Proper) :
    Run.ofTokens? r.tokens = some r := by
  obtain ⟨symbol, tokens⟩ := r
  cases tokens with
  | nil => exact absurd rfl h.nonempty
  | cons t ts =>
    have ht : t.symbol = symbol := h.uniform t (by simp)
    rw [Run.ofTokens?, ht]

theorem filterMap_ofTokens?_tokens {rs : List Run} (hrs : ∀ r ∈ rs, r.Proper) :
    (rs.map Run.tokens).filterMap Run.ofTokens? = rs := by
  induction rs with
  | nil => rfl
  | cons r rs ih =>
    rw [List.map_cons, List.filterMap_cons, (hrs r (by simp)).ofTokens?_tokens,
      ih fun r' h' => hrs r' (List.mem_cons_of_mem r h')]

theorem map_tokens_filterMap {gs : List (List Token)} (h : [] ∉ gs) :
    (gs.filterMap Run.ofTokens?).map Run.tokens = gs := by
  induction gs with
  | nil => rfl
  | cons g gs ih =>
    rw [List.mem_cons, not_or] at h
    cases g with
    | nil => exact absurd rfl h.1
    | cons t g => simp [Run.ofTokens?, ih h.2]

theorem map_tokens_groupRuns (ts : List Token) :
    (groupRuns ts).map Run.tokens = ts.splitBy fun a b => a.symbol == b.symbol :=
  map_tokens_filterMap (List.nil_notMem_splitBy _ _)

/-- Grouping loses no token. -/
theorem flatMap_tokens_groupRuns (ts : List Token) : (groupRuns ts).flatMap Run.tokens = ts := by
  rw [List.flatMap_def, map_tokens_groupRuns, List.flatten_splitBy]

/-- Runs that follow each other are of different symbols. -/
theorem isChain_groupRuns (ts : List Token) :
    (groupRuns ts).IsChain fun a b => a.symbol ≠ b.symbol := by
  have hchain := List.isChain_getLast_head_splitBy (fun a b : Token => a.symbol == b.symbol) ts
  rw [← map_tokens_groupRuns, List.isChain_map] at hchain
  refine hchain.imp_of_mem_imp ?_
  rintro a b ha hb ⟨hla, hhb, hne⟩
  have hlast := (proper_of_mem_groupRuns ha).uniform _ (List.getLast_mem hla)
  have hhead := (proper_of_mem_groupRuns hb).uniform _ (List.head_mem hhb)
  rw [hlast, hhead] at hne
  simpa using hne

theorem Run.Proper.isChain {r : Run} (h : r.Proper) {R : Token → Token → Prop}
    (hR : ∀ {a b : Token}, a.symbol = r.symbol → b.symbol = r.symbol → R a b) :
    r.tokens.IsChain R := by
  refine List.Pairwise.isChain (List.pairwise_iff_forall_sublist.mpr ?_)
  intro a b hab
  exact hR (h.uniform a (hab.subset (by simp))) (h.uniform b (hab.subset (by simp)))

/-- Runs are what their tokens are cut into by a relation that holds inside of each run and never
from one run to the next. -/
theorem map_tokens_eq_splitBy {rs : List Run} {R : Token → Token → Bool}
    (hproper : ∀ r ∈ rs, r.Proper) (hinside : ∀ r ∈ rs, r.tokens.IsChain fun a b => R a b = true)
    (hbetween : rs.IsChain fun r r' =>
      ∀ a b : Token, a.symbol = r.symbol → b.symbol = r'.symbol → R a b = false) :
    rs.map Run.tokens = (rs.flatMap Run.tokens).splitBy R := by
  symm
  rw [List.splitBy_eq_iff]
  refine ⟨List.flatMap_def .., ?_, ?_, ?_⟩
  · intro h
    obtain ⟨r, hr, hnil⟩ := List.mem_map.mp h
    exact (hproper r hr).nonempty hnil
  · intro ts hts
    obtain ⟨r, hr, rfl⟩ := List.mem_map.mp hts
    exact hinside r hr
  · rw [List.isChain_map]
    refine hbetween.imp_of_mem_imp ?_
    intro r r' hr hr' hcut
    have hla := (hproper r hr).nonempty
    have hhb := (hproper r' hr').nonempty
    exact ⟨hla, hhb, hcut _ _ ((hproper r hr).uniform _ (List.getLast_mem hla))
      ((hproper r' hr').uniform _ (List.head_mem hhb))⟩

/-! ### Pieces of token lists -/

/-- The runs of some tokens, with runs of brackets taken apart. -/
def groupPieces (ts : List Token) : List Run := (groupRuns ts).flatMap Run.pieces

/-- The two tokens are part of one piece if they follow each other. -/
def together (a b : Token) : Bool := a.symbol == b.symbol && !a.symbol.isBracket

theorem piece_of_mem_groupPieces {ts : List Token} {p : Run} (h : p ∈ groupPieces ts) : p.Piece :=
  Run.piece_of_mem_flatMap (fun _ => proper_of_mem_groupRuns) h

theorem Run.Proper.pieces_ne_nil {r : Run} (h : r.Proper) : r.pieces ≠ [] := by
  unfold Run.pieces
  split
  · simpa using h.nonempty
  · simp

theorem Run.symbol_of_mem_pieces {r p : Run} (h : p ∈ r.pieces) : p.symbol = r.symbol := by
  unfold Run.pieces at h
  split at h
  · obtain ⟨t, -, rfl⟩ := List.mem_map.mp h
    rfl
  · rw [List.mem_singleton.mp h]

/-- Pieces that follow each other are of different symbols, unless they are brackets. -/
theorem isChain_groupPieces (ts : List Token) :
    (groupPieces ts).IsChain fun a b => a.symbol = b.symbol → a.symbol.isBracket = true := by
  have hnil : [] ∉ (groupRuns ts).map Run.pieces := by
    intro h
    obtain ⟨r, hr, hp⟩ := List.mem_map.mp h
    exact (proper_of_mem_groupRuns hr).pieces_ne_nil hp
  rw [groupPieces, List.flatMap_def, List.isChain_flatten hnil]
  constructor
  · -- inside a run there are several pieces only if it is a run of brackets
    intro ps hps
    obtain ⟨r, -, rfl⟩ := List.mem_map.mp hps
    unfold Run.pieces
    split
    · rename_i hb
      rw [List.isChain_map]
      exact (List.pairwise_of_forall fun _ _ _ => hb).isChain
    · exact List.isChain_singleton _
  · rw [List.isChain_map]
    refine (isChain_groupRuns ts).imp ?_
    intro r r' hne a ha b hb hab
    rw [Run.symbol_of_mem_pieces (List.mem_of_mem_getLast? ha),
      Run.symbol_of_mem_pieces (List.mem_of_mem_head? hb)] at hab
    exact absurd hab hne

theorem Run.Piece.isChain_together {p : Run} (h : p.Piece) :
    p.tokens.IsChain fun a b => together a b = true := by
  cases hb : p.symbol.isBracket with
  | true =>
    obtain ⟨t, ht⟩ := h.single hb
    rw [ht]
    exact List.isChain_singleton t
  | false => exact h.isChain fun ha hb' => by simp [together, ha, hb', hb]

/-- Pieces come of cutting a token list wherever two tokens are not part of one piece. -/
theorem map_tokens_groupPieces (ts : List Token) :
    (groupPieces ts).map Run.tokens = ts.splitBy together := by
  have htokens : (groupPieces ts).flatMap Run.tokens = ts := by
    rw [groupPieces, Run.flatMap_tokens_flatMap_pieces, flatMap_tokens_groupRuns]
  rw [map_tokens_eq_splitBy (fun p hp => (piece_of_mem_groupPieces hp).toProper)
    (fun p hp => (piece_of_mem_groupPieces hp).isChain_together)
    ((isChain_groupPieces ts).imp ?_), htokens]
  intro p p' hbracket a b ha hb
  rw [together, ha, hb]
  by_cases hs : p.symbol = p'.symbol
  · simp [hbracket hs]
  · simp [hs]

theorem groupPieces_eq (ts : List Token) :
    groupPieces ts = (ts.splitBy together).filterMap Run.ofTokens? := by
  rw [← map_tokens_groupPieces]
  exact (filterMap_ofTokens?_tokens fun p hp => (piece_of_mem_groupPieces hp).toProper).symm

/-- A bracket is a piece of its own, whatever stands around it. -/
theorem groupPieces_bracket {t : Token} (ht : t.symbol.isBracket = true)
    (before after : List Token) :
    groupPieces (before ++ t :: after) =
      groupPieces before ++ ⟨t.symbol, [t]⟩ :: groupPieces after := by
  have hleft : ∀ u ∈ before.getLast?, together u t = false := by
    intro u _
    by_cases hs : u.symbol = t.symbol
    · simp [together, hs, ht]
    · simp [together, hs]
  have hright : ∀ u ∈ [t].getLast?, ∀ v ∈ after.head?, together u v = false := by
    intro u hu v _
    obtain rfl : t = u := by simpa using hu
    simp [together, ht]
  rw [groupPieces_eq, groupPieces_eq, groupPieces_eq, List.splitBy_append_cons after hleft,
    show t :: after = [t] ++ after from rfl, List.splitBy_append hright, List.filterMap_append,
    List.filterMap_append]
  rfl

end TapeLang
