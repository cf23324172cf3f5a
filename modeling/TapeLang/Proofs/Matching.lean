import TapeLang.Proofs.Agreement
import TapeLang.Proofs.JumpTable
import TapeLang.Proofs.Outcome

/-!
The jump table as a matching of brackets.

`Encloses l i j` says by position what it is for two brackets of a list to match: the first opens,
the second closes, and what stands between them is balanced.  A bracket has at most one partner on
either side (`Encloses.close_unique`, `Encloses.open_unique`).  A `Matching` is a table that pairs
the brackets of a list off in this way, and it is the only one (`Matching.unique`).  Two pairs that
match lie one behind the other or one in the other (`Encloses.laminar`).

A program has an instruction for each piece of its text (`Nest.instructions_eq`), so that it spells
the text out as compactly as can be (`compacts_groupPieces`).  Main statement: `compile_matches`, an
accepted source has a program, which has the symbols of the text in as few instructions as can be,
and its jump table is the matching of its brackets.
-/

namespace TapeLang

/-! ### Brackets that match -/

/-- The brackets at two places of a list match. -/
structure Encloses (l : List Symbol) (i j : Nat) : Prop where
  lt : i < j
  opens : l[i]? = some .loopOpen
  closes : l[j]? = some .loopClose
  balanced : Balanced ((l.take j).drop (i + 1))

/-- A list in front of one of its elements, the element, and what is behind it. -/
theorem eq_take_cons_drop {α : Type} {l : List α} {i : Nat} {a : α} (h : l[i]? = some a) :
    l = l.take i ++ a :: l.drop (i + 1) := by
  obtain ⟨hi, rfl⟩ := List.getElem?_eq_some_iff.mp h
  rw [List.getElem_cons_drop, List.take_append_drop]

/-- What stands between two brackets of a list that is given around them. -/
theorem between_of_split (before body after : List Symbol) :
    ((before ++ .loopOpen :: (body ++ .loopClose :: after)).take
      (before.length + 1 + body.length)).drop (before.length + 1) = body := by
  have hassoc : before ++ Symbol.loopOpen :: (body ++ .loopClose :: after) =
      (before ++ [.loopOpen] ++ body) ++ .loopClose :: after := by simp
  have hinner : (before ++ [Symbol.loopOpen] ++ body).length = before.length + 1 + body.length := by
    rw [List.length_append, List.length_append, List.length_singleton]
  have houter : (before ++ [Symbol.loopOpen]).length = before.length + 1 := by simp
  rw [hassoc, ← hinner, List.take_left, ← houter, List.drop_left]

namespace Encloses

variable {l : List Symbol} {i j : Nat}

/-- The list around two brackets that match. -/
theorem exists_split (h : Encloses l i j) :
    ∃ before body after, l = before ++ .loopOpen :: (body ++ .loopClose :: after) ∧
      Balanced body ∧ before.length = i ∧ i + 1 + body.length = j := by
  have hj : j < l.length := (List.getElem?_eq_some_iff.mp h.closes).1
  have hlt := h.lt
  have hopens : (l.take j)[i]? = some .loopOpen := by
    rw [List.getElem?_take_of_lt hlt, h.opens]
  refine ⟨l.take i, (l.take j).drop (i + 1), l.drop (j + 1), ?_, h.balanced, ?_, ?_⟩
  · have hinner := eq_take_cons_drop hopens
    rw [List.take_take, Nat.min_eq_left (Nat.le_of_lt hlt)] at hinner
    rw [← List.cons_append, ← List.append_assoc, ← hinner]
    exact eq_take_cons_drop h.closes
  · rw [List.length_take]
    omega
  · rw [List.length_drop, List.length_take]
    omega

theorem of_split (before : List Symbol) {body : List Symbol} (after : List Symbol)
    (hbody : Balanced body) :
    Encloses (before ++ .loopOpen :: (body ++ .loopClose :: after)) before.length
      (before.length + 1 + body.length) := by
  have hassoc : before ++ Symbol.loopOpen :: (body ++ .loopClose :: after) =
      (before ++ [.loopOpen] ++ body) ++ .loopClose :: after := by simp
  have hinner : (before ++ [Symbol.loopOpen] ++ body).length = before.length + 1 + body.length := by
    rw [List.length_append, List.length_append, List.length_singleton]
  refine ⟨by omega, by simp, ?_, ?_⟩
  · rw [hassoc, ← hinner, List.getElem?_append_right (Nat.le_refl _), Nat.sub_self]
    rfl
  · rwa [between_of_split]

/-- Brackets match in a longer list as well. -/
theorem extend (h : Encloses l i j) (a b : List Symbol) :
    Encloses (a ++ (l ++ b)) (a.length + i) (a.length + j) := by
  obtain ⟨before, body, after, rfl, hbody, rfl, rfl⟩ := h.exists_split
  have hsplit := of_split (a ++ before) (after ++ b) hbody
  rw [List.length_append] at hsplit
  simpa [Nat.add_assoc] using hsplit

theorem append (h : Encloses l i j) (x : List Symbol) : Encloses (l ++ x) i j := by
  have hextend := h.extend [] x
  rwa [List.length_nil, Nat.zero_add, Nat.zero_add, List.nil_append] at hextend

/-- Whether brackets match does not depend on what comes behind them. -/
theorem of_append {x : List Symbol} (h : Encloses (l ++ x) i j) (hj : j < l.length) :
    Encloses l i j where
  lt := h.lt
  opens := by
    have hopens := h.opens
    rwa [List.getElem?_append_left (h.lt.trans hj)] at hopens
  closes := by
    have hcloses := h.closes
    rwa [List.getElem?_append_left hj] at hcloses
  balanced := by
    have hbalanced := h.balanced
    rwa [List.take_append_of_le_length (Nat.le_of_lt hj)] at hbalanced

/-- An opening bracket matches one closing bracket at most. -/
theorem close_unique {j' : Nat} (h : Encloses l i j) (h' : Encloses l i j') : j = j' := by
  obtain ⟨before, body, after, rfl, hbody, hi, rfl⟩ := h.exists_split
  obtain ⟨before', body', after', hl, hbody', hi', rfl⟩ := h'.exists_split
  obtain ⟨-, hrest⟩ := List.append_inj hl (hi.trans hi'.symm)
  rw [List.cons.injEq] at hrest
  rw [(hbody.body_unique hbody' hrest.2).1]

/-- An opening bracket of a balanced list matches another one there. -/
theorem exists_of_balanced (h : Balanced l) (hi : l[i]? = some .loopOpen) :
    ∃ j, Encloses l i j := by
  have hsplit := eq_take_cons_drop hi
  have hlength : (l.take i).length = i := by
    have hlt := (List.getElem?_eq_some_iff.mp hi).1
    rw [List.length_take]
    omega
  rw [hsplit] at h
  obtain ⟨body, rest, hrest, hbody⟩ := h.exists_close
  have hpair := of_split (l.take i) rest hbody
  rw [← hrest, ← hsplit, hlength] at hpair
  exact ⟨_, hpair⟩

/-- What opens between two brackets that match is closed there. -/
theorem exists_inner {k : Nat} (h : Encloses l i j) (hik : i < k) (hkj : k < j)
    (hk : l[k]? = some .loopOpen) : ∃ k' < j, Encloses l k k' := by
  obtain ⟨before, body, after, rfl, hbody, rfl, rfl⟩ := h.exists_split
  obtain ⟨d, rfl⟩ := Nat.exists_eq_add_of_le (Nat.succ_le_of_lt hik)
  have hinner : body[d]? = some .loopOpen := by
    rw [List.getElem?_append_right (by omega),
      show before.length + 1 + d - before.length = d + 1 by omega, List.getElem?_cons_succ,
      List.getElem?_append_left (by omega)] at hk
    exact hk
  obtain ⟨d', hd⟩ := exists_of_balanced hbody hinner
  have hlt := (List.getElem?_eq_some_iff.mp hd.closes).1
  have hextend := hd.extend (before ++ [.loopOpen]) (.loopClose :: after)
  rw [List.append_assoc, List.length_append, List.length_singleton] at hextend
  exact ⟨before.length + 1 + d', by omega, hextend⟩

/-- A bracket that opens inside of a pair does not match the closing bracket of the pair. -/
theorem not_inside {i' : Nat} (h : Encloses l i j) (h' : Encloses l i' j) : ¬ i < i' := by
  intro hlt
  obtain ⟨k, hk, hinner⟩ := h.exists_inner hlt h'.lt h'.opens
  rw [h'.close_unique hinner] at hk
  exact Nat.lt_irrefl k hk

/-- A closing bracket matches one opening bracket at most. -/
theorem open_unique {i' : Nat} (h : Encloses l i j) (h' : Encloses l i' j) : i = i' :=
  Nat.le_antisymm (Nat.not_lt.mp (h'.not_inside h)) (Nat.not_lt.mp (h.not_inside h'))

/-- No bracket both opens and closes. -/
theorem ne_of_opens {k : Nat} (h : Encloses l i j) (hk : l[k]? = some .loopOpen) : j ≠ k := by
  rintro rfl
  have hcloses := h.closes
  rw [hk] at hcloses
  cases hcloses

/-- Of two pairs of brackets that match, one lies behind the other one or in it. -/
theorem laminar {a b : Nat} (h : Encloses l i j) (h' : Encloses l a b) :
    (i = a ∧ j = b) ∨ j < a ∨ b < i ∨ (i < a ∧ b < j) ∨ (a < i ∧ j < b) := by
  have hja := h.ne_of_opens h'.opens
  have hbi := h'.ne_of_opens h.opens
  rcases Nat.lt_trichotomy i a with hia | rfl | hai
  · by_cases haj : a < j
    · obtain ⟨k, hk, hinner⟩ := h.exists_inner hia haj h'.opens
      obtain rfl := h'.close_unique hinner
      omega
    · omega
  · exact .inl ⟨rfl, h.close_unique h'⟩
  · by_cases hib : i < b
    · obtain ⟨k, hk, hinner⟩ := h'.exists_inner hai hib h.opens
      obtain rfl := h.close_unique hinner
      omega
    · omega

end Encloses

/-- One of two brackets matches the other. -/
def Partners (l : List Symbol) (i j : Nat) : Prop := Encloses l i j ∨ Encloses l j i

theorem Partners.extend {l : List Symbol} {i j : Nat} (h : Partners l i j) (a b : List Symbol) :
    Partners (a ++ (l ++ b)) (a.length + i) (a.length + j) :=
  h.imp (·.extend a b) (·.extend a b)

theorem Partners.encloses_of_open {l : List Symbol} {i j : Nat} (h : Partners l i j)
    (hi : l[i]? = some .loopOpen) : Encloses l i j :=
  h.resolve_right fun hback => hback.ne_of_opens hi rfl

theorem Partners.encloses_of_close {l : List Symbol} {i j : Nat} (h : Partners l i j)
    (hi : l[i]? = some .loopClose) : Encloses l j i := by
  apply h.resolve_left
  intro hforth
  have hopens := hforth.opens
  rw [hi] at hopens
  cases hopens

/-- A table that leads from each bracket of a list to another one and back, from an opening bracket
to the closing one that it matches. -/
structure Matching (l : List Symbol) (partner : Nat → Option Nat) : Prop where
  domain : ∀ i, (partner i).isSome = true ↔ ∃ a, l[i]? = some a ∧ a.isBracket = true
  symm : ∀ i j, partner i = some j → partner j = some i
  irrefl : ∀ i, partner i ≠ some i
  nested : ∀ i, l[i]? = some .loopOpen → ∃ j, partner i = some j ∧ Encloses l i j

/-- A table that leads from closing brackets to opening ones is the only matching. -/
theorem Matching.unique {l : List Symbol} {p q : Nat → Option Nat} (hp : Matching l p)
    (hq : Matching l q) (hopen : ∀ j, l[j]? = some .loopClose → ∃ i, q j = some i ∧
      l[i]? = some .loopOpen) : p = q := by
  have hopens : ∀ i, l[i]? = some .loopOpen → p i = q i := by
    intro i hi
    obtain ⟨j, hj, hnested⟩ := hp.nested i hi
    obtain ⟨j', hj', hnested'⟩ := hq.nested i hi
    rw [hj, hj', hnested.close_unique hnested']
  funext i
  cases hqi : q i with
  | none =>
    have hpi : (p i).isSome = true ↔ (q i).isSome = true := (hp.domain i).trans (hq.domain i).symm
    rw [hqi] at hpi
    simpa using hpi
  | some j =>
    obtain ⟨a, ha, hbracket⟩ := (hq.domain i).mp (by rw [hqi]; rfl)
    cases a with
    | loopOpen => rw [hopens i ha, hqi]
    | loopClose =>
      -- the bracket that it closes is known, and leads back
      obtain ⟨k, hk, hkopen⟩ := hopen i ha
      rw [hqi, Option.some.injEq] at hk
      subst hk
      exact hp.symm j i ((hopens j hkopen).trans (hq.symm i j hqi))
    | _ => cases hbracket

/-! ### The jump table of a nest -/

namespace Nest

/-- The symbols of the instructions of a nest. -/
def kinds (t : Nest) : List Symbol := t.instructions.map Instruction.symbol

theorem length_kinds (t : Nest) : t.kinds.length = t.size := by
  rw [kinds, List.length_map, length_instructions]

theorem kinds_loop (enter : Token) (body : Nest) (leave : Token) (rest : Nest) :
    (loop enter body leave rest).kinds =
      .loopOpen :: (body.kinds ++ .loopClose :: rest.kinds) := by
  simp [kinds, instructions]

theorem balanced_kinds (t : Nest) : Balanced t.kinds := by
  induction t with
  | done => exact .nil
  | act r plain rest ih => exact .act plain ih
  | loop enter body leave rest ihb ihr =>
    rw [kinds_loop]
    exact .loop ihb ihr

/-- The jump table has an entry for each bracket. -/
theorem isSome_jumps (t : Nest) (k : Nat) :
    (t.jumps k).map Option.isSome = t.kinds.map Symbol.isBracket := by
  induction t generalizing k with
  | done => rfl
  | act r plain rest ih =>
    show _ :: (rest.jumps (k + 1)).map Option.isSome = r.symbol.isBracket :: _
    rw [ih, plain]
    rfl
  | loop enter body leave rest ihb ihr =>
    rw [kinds_loop, jumps]
    simp only [List.map_cons, List.map_append, ihb, ihr]
    rfl

/-- The jump table leads from a bracket to its partner. -/
theorem partners_of_jump {t : Nest} {k i x : Nat} (h : (t.jumps k)[i]? = some (some x)) :
    ∃ j, x = k + j ∧ Partners t.kinds i j := by
  induction t generalizing k i with
  | done => cases h
  | act r plain rest ih =>
    cases i with
    | zero => cases h
    | succ i =>
      obtain ⟨j, rfl, hj⟩ := ih h
      have hextend := hj.extend [r.symbol] []
      rw [List.append_nil, List.length_singleton, Nat.add_comm 1 i] at hextend
      exact ⟨1 + j, by omega, hextend⟩
  | loop enter body leave rest ihb ihr =>
    have hpair : Encloses (loop enter body leave rest).kinds 0 (1 + body.size) := by
      have hsplit := Encloses.of_split [] rest.kinds body.balanced_kinds
      rwa [length_kinds, List.length_nil, Nat.zero_add, List.nil_append, ← kinds_loop] at hsplit
    cases i with
    | zero =>
      cases h
      exact ⟨1 + body.size, by omega, .inl hpair⟩
    | succ i =>
      rw [jumps, List.getElem?_cons_succ] at h
      rcases Nat.lt_trichotomy i body.size with hlt | rfl | hgt
      · rw [List.getElem?_append_left (by rwa [length_jumps])] at h
        obtain ⟨j, rfl, hj⟩ := ihb h
        have hextend := hj.extend [.loopOpen] (.loopClose :: rest.kinds)
        rw [List.length_singleton, Nat.add_comm 1 i, List.singleton_append, ← kinds_loop]
          at hextend
        exact ⟨1 + j, by omega, hextend⟩
      · rw [List.getElem?_append_right (by rw [length_jumps]), length_jumps, Nat.sub_self] at h
        cases h
        exact ⟨0, rfl, .inr (Nat.add_comm 1 body.size ▸ hpair)⟩
      · obtain ⟨m, rfl⟩ : ∃ m, i = body.size + 1 + m := ⟨i - (body.size + 1), by omega⟩
        rw [List.getElem?_append_right (by rw [length_jumps]; omega), length_jumps,
          show body.size + 1 + m - body.size = m + 1 by omega, List.getElem?_cons_succ] at h
        obtain ⟨j, rfl, hj⟩ := ihr h
        have hextend := hj.extend (.loopOpen :: (body.kinds ++ [.loopClose])) []
        have hkinds : Symbol.loopOpen :: (body.kinds ++ [.loopClose]) ++ (rest.kinds ++ []) =
            (loop enter body leave rest).kinds := by simp [kinds_loop]
        have hlength : (Symbol.loopOpen :: (body.kinds ++ [.loopClose])).length =
            body.size + 2 := by simp [length_kinds]
        rw [hkinds, hlength, show body.size + 2 + m = body.size + 1 + m + 1 by omega] at hextend
        exact ⟨body.size + 2 + j, by omega, hextend⟩

theorem jump?_program {t : Nest} {i j : Nat} :
    t.program.jump? i = some j ↔ (t.jumps 0)[i]? = some (some j) := by
  rw [Program.jump?, program, List.getElem?_toArray, Option.join_eq_some_iff]

theorem isSome_jump? (t : Nest) (i : Nat) :
    (t.program.jump? i).isSome = true ↔ ∃ a, t.kinds[i]? = some a ∧ a.isBracket = true := by
  have hmap := congrArg (fun l => l[i]?) (t.isSome_jumps 0)
  simp only [List.getElem?_map] at hmap
  rw [Option.isSome_iff_exists]
  constructor
  · rintro ⟨j, hj⟩
    rw [jump?_program.mp hj, Option.map_some] at hmap
    obtain ⟨a, ha, hbracket⟩ := Option.map_eq_some_iff.mp hmap.symm
    exact ⟨a, ha, hbracket⟩
  · rintro ⟨a, ha, hbracket⟩
    rw [ha, Option.map_some, hbracket] at hmap
    obtain ⟨x, hx, hsome⟩ := Option.map_eq_some_iff.mp hmap
    obtain ⟨j, rfl⟩ := Option.isSome_iff_exists.mp hsome
    exact ⟨j, jump?_program.mpr hx⟩

theorem partners_of_jump? {t : Nest} {i j : Nat} (h : t.program.jump? i = some j) :
    Partners t.kinds i j := by
  obtain ⟨j', rfl, hpartners⟩ := partners_of_jump (jump?_program.mp h)
  rwa [Nat.zero_add]

/-- From a closing bracket the jump table leads to an opening one. -/
theorem exists_open {t : Nest} {j : Nat} (h : t.kinds[j]? = some .loopClose) :
    ∃ i, t.program.jump? j = some i ∧ Encloses t.kinds i j := by
  obtain ⟨i, hi⟩ := Option.isSome_iff_exists.mp ((t.isSome_jump? j).mpr ⟨_, h, rfl⟩)
  exact ⟨i, hi, (partners_of_jump? hi).encloses_of_close h⟩

theorem exists_close {t : Nest} {i : Nat} (h : t.kinds[i]? = some .loopOpen) :
    ∃ j, t.program.jump? i = some j ∧ Encloses t.kinds i j := by
  obtain ⟨j, hj⟩ := Option.isSome_iff_exists.mp ((t.isSome_jump? i).mpr ⟨_, h, rfl⟩)
  exact ⟨j, hj, (partners_of_jump? hj).encloses_of_open h⟩

/-- The jump table of a nest is a matching. -/
theorem matching (t : Nest) : Matching t.kinds t.program.jump? where
  domain := t.isSome_jump?
  nested := fun _ => exists_close
  irrefl := by
    intro i h
    rcases partners_of_jump? h with hencloses | hencloses
    · exact Nat.lt_irrefl _ hencloses.lt
    · exact Nat.lt_irrefl _ hencloses.lt
  symm := by
    intro i j h
    rcases partners_of_jump? h with hencloses | hencloses
    · obtain ⟨i', hi', hencloses'⟩ := exists_open hencloses.closes
      rw [hi', hencloses.open_unique hencloses']
    · obtain ⟨i', hi', hencloses'⟩ := exists_close hencloses.opens
      rw [hi', hencloses.close_unique hencloses']

end Nest

/-! ### The program of a source -/

/-- Instructions that have the given symbols, each bracket in one of its own and the others in as
few as can be. -/
structure Compacts (code : List Instruction) (symbols : List Symbol) : Prop where
  expansion : (code.flatMap fun i => List.replicate i.count i.symbol) = symbols
  single : ∀ i ∈ code, i.symbol.isBracket = true → i.count = 1
  positive : ∀ i ∈ code, 1 ≤ i.count
  maximal : code.IsChain fun a b => a.symbol = b.symbol → a.symbol.isBracket = true

/-- The instructions of the pieces of some tokens are compact. -/
theorem compacts_groupPieces (ts : List Token) :
    Compacts ((groupPieces ts).map Run.instruction) (ts.map Token.symbol) where
  expansion := by
    have hpiece : ∀ r ∈ groupPieces ts,
        List.replicate r.instruction.count r.instruction.symbol = r.tokens.map Token.symbol := by
      intro r hr
      exact (piece_of_mem_groupPieces hr).map_symbol_tokens.symm
    rw [List.flatMap_map, List.flatMap_congr hpiece, ← List.map_flatMap, groupPieces,
      Run.flatMap_tokens_flatMap_pieces, flatMap_tokens_groupRuns]
  single := by
    intro i hi hbracket
    obtain ⟨r, hr, rfl⟩ := List.mem_map.mp hi
    obtain ⟨t, ht⟩ := (piece_of_mem_groupPieces hr).single hbracket
    show r.tokens.length = 1
    rw [ht]
    rfl
  positive := by
    intro i hi
    obtain ⟨r, hr, rfl⟩ := List.mem_map.mp hi
    exact List.length_pos_of_ne_nil (piece_of_mem_groupPieces hr).nonempty
  maximal := by
    rw [List.isChain_map]
    exact isChain_groupPieces ts

/-- Where no read fails, the runs are those of the text as a whole. -/
theorem runsOf_text {ε : Type} {source : Source ε} (h : source.outcome = none) :
    runsOf source = runsOf (.ofString (String.ofList source.text)) := by
  rw [runsOf_eq h, runsOf_eq (Source.outcome_ofString _), Source.text_ofString,
    String.toList_ofList]

/-- The sources that have a program are those that are read to the end of an acceptable text. -/
theorem exists_program_iff {ε : Type} (source : Source ε) :
    (∃ p, compile source = .ok p) ↔ source.outcome = none ∧ Acceptable (visible source.text) := by
  have hwhole : source.outcome = none →
      compile source = compile (.ofString (String.ofList source.text)) := by
    intro h
    rw [compile, compile, runsOf_text h]
  have htext := compile_text_cases (ε := ε) (String.ofList source.text)
  rw [String.toList_ofList] at htext
  constructor
  · rintro ⟨p, hp⟩
    have hended : (scan source).stop = none := (runsOf_of_stop (accepted_of_compile hp).ended).1
    rw [scan_eq, Option.or_eq_none_iff] at hended
    have houtcome : source.outcome = none := Option.map_eq_none_iff.mp hended.2
    rw [hwhole houtcome] at hp
    rcases htext with ⟨hacceptable, -⟩ | ⟨e, -, he⟩
    · exact ⟨houtcome, hacceptable⟩
    · rw [hp] at he
      cases he
  · rintro ⟨houtcome, hacceptable⟩
    rw [hwhole houtcome]
    rcases htext with ⟨-, hp⟩ | ⟨e, hfirst, -⟩
    · exact hp
    · exact absurd hfirst (hacceptable.not_firstError e)

/-- The sources with an acceptable text, and no others, have a program.  It has the symbols of the
text, compactly, and its jump table is the matching of its brackets.  On the way to it, or to an
error, the opening bracket of a loop that is closed is always found. -/
theorem compile_matches {ε : Type} (source : Source ε) :
    ((∃ p, compile source = .ok p) ↔
      source.outcome = none ∧ Acceptable (visible source.text)) ∧
    (∀ p, compile source = .ok p →
      Compacts p.code.toList ((scan source).tokens.map Token.symbol) ∧
      Matching p.symbols p.jump? ∧
      ∀ m, Matching p.symbols m → m = p.jump?) ∧
    ∀ f, Flattening.Reached (runsOf source).runs f → f.Finds := by
  refine ⟨exists_program_iff source, ?_, fun f hf => hf.finds fun _ => proper_runs⟩
  intro p hp
  obtain ⟨t, rfl, ht⟩ := exists_program_nest hp
  refine ⟨?_, t.matching, ?_⟩
  · show Compacts t.instructions _
    rw [t.instructions_eq, ht]
    exact compacts_groupPieces (scan source).tokens
  · intro m hm
    refine hm.unique t.matching ?_
    intro j hj
    obtain ⟨i, hi, hencloses⟩ := t.exists_open hj
    exact ⟨i, hi, hencloses.opens⟩

end TapeLang
