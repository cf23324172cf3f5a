import Mathlib.Data.List.Nodup
import TapeLang.Proofs.Agreement
import TapeLang.Proofs.Assembly.Layout

/-!
The labels of loops in a complete listing.

A listing defines the entry point and two labels for each loop of its program.  `WellLabelled` says
how they lie: none is missing and none is there twice, the jumps of a loop stand where its labels
are defined and go to each other's end, and from head to tail any two loops are apart or one inside
the other.  This is read off the nest of the program, whose code numbers its loops in the order in
which they open.

That a loop of the listing is a loop of the text is a matter of what was written for which bracket.
`Emitter.upTo` is code generation as it stands after some tokens, and `BracketPair.Labelled` says
that one bracket of a pair added the head of a loop and the other one its tail.  Behind it is what
the labels do: a balanced body leaves them as they were, so the number on top is the one that the
opening bracket was given.

Main statement: `Listing.loops_wellLabelled`.
-/

namespace TapeLang

open Assembly

open scoped List

/-! ### Labels as they should be -/

namespace Assembly

/-- The labels that some lines define, in order. -/
def definitions (lines : List Line) : List Label := lines.filterMap Line.label?

/-- The number of the loop whose head a label is. -/
def Label.loopHead? : Label → Option Nat
  | loopHead n => some n
  | _ => none

/-- The labels and jumps of some lines are those of `n` loops. -/
structure WellLabelled (lines : List Line) (n : Nat) : Prop where
  /-- No label is defined twice. -/
  once : (definitions lines).Nodup
  /-- Two labels are defined for each loop, and one more for the entry point. -/
  defined : ∀ l, l ∈ definitions lines ↔
    l = .start ∨ ∃ k < n, l = .loopHead k ∨ l = .loopTail k
  /-- No jump goes elsewhere. -/
  target : ∀ l, .instr (.je l) ∈ lines ∨ .instr (.jne l) ∈ lines → l ∈ definitions lines
  /-- A single jump leads over a loop, and it stands where the loop begins. -/
  skip : ∀ k < n, lines.count (.instr (.je (.loopTail k))) = 1 ∧ openCode k <:+: lines
  /-- A single jump repeats a loop, and it stands where the loop ends. -/
  again : ∀ k < n, lines.count (.instr (.jne (.loopHead k))) = 1 ∧ closeCode k <:+: lines
  /-- Loops begin in the order of their numbers. -/
  ascending : (definitions lines).filterMap Label.loopHead? = List.range n
  /-- A loop begins before it ends. -/
  ordered : ∀ k < n, [.loopHead k, .loopTail k] <+ definitions lines
  /-- A loop that begins after another one lies behind it or in it. -/
  nested : ∀ j k, j < k → k < n →
    [.loopHead j, .loopTail j, .loopHead k, .loopTail k] <+ definitions lines ∨
    [.loopHead j, .loopHead k, .loopTail k, .loopTail j] <+ definitions lines

/-! ### The labels of a nest -/

/-- The jump that stands beside the definition of a label. -/
def Label.jump? : Label → Option Line
  | start => none
  | loopHead n => some (.instr (.je (.loopTail n)))
  | loopTail n => some (.instr (.jne (.loopHead n)))

/-- The line is a jump. -/
def Line.isJump : Line → Bool
  | .instr (.je _) => true
  | .instr (.jne _) => true
  | _ => false

theorem Label.jump?_injective {l l' : Label} {line : Line} (h : line ∈ l.jump?)
    (h' : line ∈ l'.jump?) : l = l' := by
  cases l <;> cases l' <;> simp_all [Label.jump?] <;> grind

theorem filter_isJump_runCode (size : Int) (inLoop : Bool) (c : Cursor) (r : Run) :
    (runCode size inLoop c r).filter Line.isJump = [] := by
  rw [List.filter_eq_nil_iff]
  intro line hline hjump
  have hmark := List.any_eq_false.mp (any_isMark_runCode size inLoop c r) line hline
  apply hmark
  unfold Line.isJump at hjump
  split at hjump
  · rfl
  · rfl
  · cases hjump

end Assembly

namespace Nest

/-- The jumps of a nest stand beside its labels. -/
theorem filter_isJump_code (t : Nest) (size : Int) (inLoop : Bool) (n : Nat) (c : Cursor) :
    (t.code size inLoop n c).filter Line.isJump = (t.labels n).filterMap Label.jump? := by
  induction t generalizing inLoop n c with
  | done => rfl
  | act r _ rest ih =>
    rw [code, List.filter_append, filter_isJump_runCode, ih]
    rfl
  | loop _ body _ rest ihb ihr =>
    simp only [code, labels, List.filter_append, List.filterMap_cons, List.filterMap_append,
      Label.jump?, ihb, ihr]
    rfl

theorem filterMap_loopHead_labels (t : Nest) (n : Nat) :
    (t.labels n).filterMap Label.loopHead? = List.range' n t.loops := by
  induction t generalizing n with
  | done => rfl
  | act r _ rest ih => exact ih n
  | loop _ body _ rest ihb ihr =>
    have hloops : body.loops + rest.loops + 1 = 1 + body.loops + rest.loops := by omega
    rw [loops, hloops, ← List.range'_append_1, ← List.range'_append_1, labels, List.filterMap_cons,
      List.filterMap_append, List.filterMap_cons, ihb, ihr]
    simp [Label.loopHead?, Nat.add_assoc]

/-- The loop with number `k` is in a nest whose loops are numbered from `n` on. -/
inductive HasLoop : Nest → Nat → Nat → Prop
  | act {r : Run} {plain : r.symbol.isBracket = false} {rest : Nest} {n k : Nat} :
      HasLoop rest n k → HasLoop (.act r plain rest) n k
  | here {enter leave : Token} {body rest : Nest} {n : Nat} :
      HasLoop (.loop enter body leave rest) n n
  | inside {enter leave : Token} {body rest : Nest} {n k : Nat} :
      HasLoop body (n + 1) k → HasLoop (.loop enter body leave rest) n k
  | behind {enter leave : Token} {body rest : Nest} {n k : Nat} :
      HasLoop rest (n + 1 + body.loops) k → HasLoop (.loop enter body leave rest) n k

theorem hasLoop_of_lt {t : Nest} {n k : Nat} (hn : n ≤ k) (hk : k < n + t.loops) :
    t.HasLoop n k := by
  induction t generalizing n with
  | done => exact absurd hk (Nat.not_lt.mpr hn)
  | act r _ rest ih => exact .act (ih hn hk)
  | loop _ body _ rest ihb ihr =>
    rw [loops] at hk
    -- the loop itself has the first number, its body the next ones
    obtain rfl | hbody | hrest : k = n ∨ (n + 1 ≤ k ∧ k < n + 1 + body.loops) ∨
        (n + 1 + body.loops ≤ k ∧ k < n + 1 + body.loops + rest.loops) := by omega
    · exact .here
    · exact .inside (ihb hbody.1 hbody.2)
    · exact .behind (ihr hrest.1 hrest.2)

theorem HasLoop.sublist_labels {t : Nest} {n k : Nat} (h : t.HasLoop n k) :
    [.loopHead k, .loopTail k] <+ t.labels n := by
  induction h with
  | act _ ih => exact ih
  | here =>
    rw [labels]
    refine .cons_cons _ (.trans ?_ (List.sublist_append_right _ _))
    exact .cons_cons _ (List.nil_sublist _)
  | inside _ ih =>
    rw [labels]
    exact (ih.trans (List.sublist_append_left _ _)).cons _
  | behind _ ih =>
    rw [labels]
    exact ((ih.cons _).trans (List.sublist_append_right _ _)).cons _

/-- Of two loops of a nest, the one that begins later lies behind the other one or in it. -/
theorem HasLoop.nested_labels {t : Nest} {n j k : Nat} (h : t.HasLoop n j) (hjk : j < k)
    (hk : k < n + t.loops) :
    [.loopHead j, .loopTail j, .loopHead k, .loopTail k] <+ t.labels n ∨
    [.loopHead j, .loopHead k, .loopTail k, .loopTail j] <+ t.labels n := by
  induction h with
  | act _ ih => exact ih hjk hk
  | @here _ _ body rest n =>
    -- the numbers of the body come before those of what follows the loop
    rw [loops] at hk
    rw [labels]
    rcases Nat.lt_or_ge k (n + 1 + body.loops) with hbody | hrest
    · have hin := (hasLoop_of_lt hjk hbody).sublist_labels
      exact .inr (.cons_cons _ (hin.append (.cons_cons _ (List.nil_sublist _))))
    · have hbehind := (hasLoop_of_lt (t := rest) hrest (by omega)).sublist_labels
      exact .inl (.cons_cons _ (.trans (.cons_cons _ hbehind) (List.sublist_append_right _ _)))
  | @inside _ _ body rest n j hin ih =>
    rw [loops] at hk
    rw [labels]
    rcases Nat.lt_or_ge k (n + 1 + body.loops) with hbody | hrest
    · rcases ih hjk hbody with hapart | hinner
      · exact .inl ((hapart.trans (List.sublist_append_left _ _)).cons _)
      · exact .inr ((hinner.trans (List.sublist_append_left _ _)).cons _)
    · have hbehind := (hasLoop_of_lt (t := rest) hrest (by omega)).sublist_labels
      exact .inl ((hin.sublist_labels.append (hbehind.cons _)).cons _)
  | @behind _ _ body rest n j hin ih =>
    rw [loops] at hk
    rw [labels]
    rcases ih hjk (by omega) with hapart | hinner
    · exact .inl (((hapart.cons _).trans (List.sublist_append_right _ _)).cons _)
    · exact .inr (((hinner.cons _).trans (List.sublist_append_right _ _)).cons _)

/-- The code of a nest has the head and the tail of each of its loops. -/
theorem HasLoop.code_eq {t : Nest} {n k : Nat} (h : t.HasLoop n k) (size : Int) (inLoop : Bool)
    (c : Cursor) :
    ∃ x y z, t.code size inLoop n c = x ++ (openCode k ++ (y ++ (closeCode k ++ z))) := by
  induction h generalizing inLoop c with
  | @act r _ rest n k _ ih =>
    obtain ⟨x, y, z, hrest⟩ := ih inLoop (runCursor inLoop c r)
    exact ⟨runCode size inLoop c r ++ x, y, z, by simp [code, hrest]⟩
  | here => exact ⟨[], _, _, rfl⟩
  | @inside _ _ body rest n k _ ih =>
    obtain ⟨x, y, z, hbody⟩ := ih true c
    exact ⟨openCode n ++ x, y, z ++ (closeCode n ++ _), by simp [code, hbody]; rfl⟩
  | @behind _ _ body rest n k _ ih =>
    obtain ⟨x, y, z, hrest⟩ := ih inLoop (body.cursorAfter true c)
    exact ⟨openCode n ++ (body.code size true (n + 1) c ++ (closeCode n ++ x)), y, z,
      by simp [code, hrest]⟩

end Nest

namespace Assembly

/-! ### The labels of a listing -/

section

variable (t : Nest) (size : Int)

theorem definitions_listingOf : definitions (listingOf t size) = .start :: t.labels 0 :=
  filterMap_label_listingOf t size

theorem nodup_definitions : (definitions (listingOf t size)).Nodup := by
  rw [definitions, ← map_fst_labelTable 0]
  exact nodup_listingOf t size

theorem filter_isJump_listingOf :
    (listingOf t size).filter Line.isJump =
      (definitions (listingOf t size)).filterMap Label.jump? := by
  rw [definitions_listingOf, listingOf, List.filter_append, List.filter_append,
    t.filter_isJump_code]
  show [] ++ ((t.labels 0).filterMap Label.jump? ++ []) = _
  rw [List.nil_append, List.append_nil]
  rfl

variable {t size}

theorem mem_definitions_iff {l : Label} : l ∈ definitions (listingOf t size) ↔
    l = .start ∨ ∃ k < t.loops, l = .loopHead k ∨ l = .loopTail k := by
  rw [definitions_listingOf, List.mem_cons]
  refine or_congr_right ⟨?_, ?_⟩
  · intro h
    obtain ⟨k, hk, -, hlt⟩ := mem_labels h
    exact ⟨k, by omega, hk⟩
  · rintro ⟨k, hk, hl⟩
    have hsub := (Nest.hasLoop_of_lt (t := t) (Nat.zero_le k) (by omega)).sublist_labels.subset
    rcases hl with rfl | rfl
    · exact hsub (by simp)
    · exact hsub (by simp)

/-- The jumps of a listing are those that stand beside its labels. -/
theorem exists_label_of_jump {line : Line} (h : line ∈ listingOf t size)
    (hjump : line.isJump = true) :
    ∃ l ∈ definitions (listingOf t size), l.jump? = some line := by
  rw [← List.mem_filterMap, ← filter_isJump_listingOf]
  exact List.mem_filter.mpr ⟨h, hjump⟩

/-- The jump beside a label is the only one of its kind. -/
theorem count_jump {l : Label} {line : Line} (hl : l ∈ definitions (listingOf t size))
    (hline : l.jump? = some line) : (listingOf t size).count line = 1 := by
  have hjump : line.isJump = true := by
    cases l <;> cases hline <;> rfl
  rw [← List.count_filter hjump, filter_isJump_listingOf]
  apply List.count_eq_one_of_mem
  · exact (nodup_definitions t size).filterMap fun _ _ _ => Label.jump?_injective
  · exact List.mem_filterMap.mpr ⟨l, hl, hline⟩

theorem infix_listingOf {k : Nat} (hk : k < t.loops) :
    openCode k <:+: listingOf t size ∧ closeCode k <:+: listingOf t size := by
  have hloop : t.HasLoop 0 k := Nest.hasLoop_of_lt (Nat.zero_le k) (by omega)
  obtain ⟨x, y, z, hcode⟩ := hloop.code_eq size false (.start size)
  rw [listingOf, hcode]
  exact ⟨⟨prologue size ++ x, y ++ (closeCode k ++ (z ++ epilogue)), by simp⟩,
    ⟨prologue size ++ (x ++ (openCode k ++ y)), z ++ epilogue, by simp⟩⟩

variable (t size)

/-- The labels of a complete listing are as they should be. -/
theorem wellLabelled_listingOf : WellLabelled (listingOf t size) t.loops where
  once := nodup_definitions t size
  defined := fun _ => mem_definitions_iff
  target := by
    intro l hl
    -- the labels that a loop defines are those that it jumps to
    have hpair : ∀ l' : Label, l' ∈ definitions (listingOf t size) →
        l'.jump? = some (.instr (.je l)) ∨ l'.jump? = some (.instr (.jne l)) →
        l ∈ definitions (listingOf t size) := by
      intro l' hl' hjump
      rw [mem_definitions_iff] at hl' ⊢
      rcases hl' with rfl | ⟨k, hk, rfl | rfl⟩
      · simp [Label.jump?] at hjump
      · simp [Label.jump?] at hjump
        exact .inr ⟨k, hk, .inr hjump.symm⟩
      · simp [Label.jump?] at hjump
        exact .inr ⟨k, hk, .inl hjump.symm⟩
    rcases hl with hl | hl
    · obtain ⟨l', hl', hjump⟩ := exists_label_of_jump hl rfl
      exact hpair l' hl' (.inl hjump)
    · obtain ⟨l', hl', hjump⟩ := exists_label_of_jump hl rfl
      exact hpair l' hl' (.inr hjump)
  skip := by
    intro k hk
    exact ⟨count_jump (mem_definitions_iff.mpr (.inr ⟨k, hk, .inl rfl⟩)) rfl,
      (infix_listingOf hk).1⟩
  again := by
    intro k hk
    exact ⟨count_jump (mem_definitions_iff.mpr (.inr ⟨k, hk, .inr rfl⟩)) rfl,
      (infix_listingOf hk).2⟩
  ascending := by
    rw [definitions_listingOf, List.range_eq_range', ← t.filterMap_loopHead_labels]
    rfl
  ordered := by
    intro k hk
    rw [definitions_listingOf]
    exact (Nest.hasLoop_of_lt (Nat.zero_le k) (by omega)).sublist_labels.cons _
  nested := by
    intro j k hjk hk
    have hloop : t.HasLoop 0 j := Nest.hasLoop_of_lt (Nat.zero_le j) (by omega)
    rw [definitions_listingOf]
    exact (hloop.nested_labels hjk (by omega)).imp (·.cons _) (·.cons _)

end

/-! ### Code after some of the tokens -/

namespace Emitter

/-- Code generation as it stands after some tokens. -/
def upTo (size : Int) (ts : List Token) : Emitter :=
  (groupRuns ts).foldl run ((start size).append (prologue size))

theorem upTo_eq (size : Int) (ts : List Token) :
    upTo size ts = (groupPieces ts).foldl run ((start size).append (prologue size)) :=
  (intake.foldl_run_pieces (groupRuns ts) _).symm

/-- A bracket is looked at after everything before it. -/
theorem upTo_bracket (size : Int) {t : Token} (ht : t.symbol.isBracket = true)
    (before after : List Token) :
    upTo size (before ++ t :: after) =
      (groupPieces after).foldl run ((upTo size before).run ⟨t.symbol, [t]⟩) := by
  rw [upTo_eq, upTo_eq, groupPieces_bracket ht, List.foldl_append, List.foldl_cons]

theorem upTo_concat (size : Int) {t : Token} (ht : t.symbol.isBracket = true)
    (before : List Token) :
    upTo size (before ++ [t]) = (upTo size before).run ⟨t.symbol, [t]⟩ :=
  upTo_bracket size ht before []

theorem toList_code_append (e : Emitter) (lines : List Line) :
    (e.append lines).code.toList = e.code.toList ++ lines := by
  simp [append]

theorem prefix_append (e : Emitter) (lines : List Line) :
    e.code.toList <+: (e.append lines).code.toList := by
  rw [toList_code_append]
  exact List.prefix_append _ _

/-- Steps that only add to the code do so together. -/
theorem prefix_foldl {α : Type} {f : Emitter → α → Emitter}
    (h : ∀ e a, e.code.toList <+: (f e a).code.toList) (as : List α) (e : Emitter) :
    e.code.toList <+: (as.foldl f e).code.toList := by
  induction as generalizing e with
  | nil => exact List.prefix_refl _
  | cons a as ih => exact (h e a).trans (ih (f e a))

theorem prefix_openLoop (e : Emitter) (t : Token) :
    e.code.toList <+: (e.openLoop t).code.toList :=
  prefix_append { e with labels := (e.labels.enter t.position).2 } _

theorem prefix_closeLoop (e : Emitter) (t : Token) :
    e.code.toList <+: (e.closeLoop t).code.toList := by
  unfold closeLoop
  split
  · exact List.prefix_refl _
  · split
    · exact List.prefix_refl _
    · exact prefix_append { e with labels := _ } _

theorem prefix_runMove (e : Emitter) (d : Direction) (count : Nat) :
    e.code.toList <+: (e.runMove d count).code.toList := by
  unfold runMove move
  dsimp only
  split
  · split <;> exact List.prefix_refl _
  · split <;> exact prefix_append _ _

/-- What was written is never taken back. -/
theorem prefix_run (e : Emitter) (r : Run) : e.code.toList <+: (e.run r).code.toList := by
  unfold run
  split
  · exact List.prefix_refl _
  · split
    · exact prefix_append _ _
    · exact prefix_append _ _
    · exact prefix_runMove _ _ _
    · exact prefix_runMove _ _ _
    · exact prefix_append _ _
    · exact prefix_append _ _
    · exact prefix_foldl prefix_openLoop _ _
    · exact prefix_foldl prefix_closeLoop _ _

theorem prefix_upTo (size : Int) {t : Token} (ht : t.symbol.isBracket = true)
    (before after : List Token) :
    (upTo size (before ++ [t])).code.toList <+: (upTo size (before ++ t :: after)).code.toList := by
  rw [upTo_concat size ht, upTo_bracket size ht]
  exact prefix_foldl prefix_run _ _

section

variable {size : Int} (hsize : size ≠ 0) {ts : List Token} {l : Labels}
  (hl : Labels.empty.takeAll ts = .ok l)

include hsize hl

/-- Code generation has the labels of its tokens. -/
theorem labels_upTo : (upTo size ts).error = none ∧ (upTo size ts).labels = l := by
  have hcases := intake.foldl_run_cases (s := (start size).append (prologue size))
    (fun r (hr : r ∈ groupRuns ts) => proper_of_mem_groupRuns hr) hsize rfl
  rw [flatMap_tokens_groupRuns, hl] at hcases
  rcases hcases with ⟨e, htake, -⟩ | ⟨l', htake, hlabels⟩
  · cases htake
  · cases htake
    exact hlabels

/-- An opening bracket adds the head of a loop, with the next number. -/
theorem code_upTo_open {t : Token} (ht : t.symbol = .loopOpen) :
    (upTo size (ts ++ [t])).code.toList =
      (upTo size ts).code.toList ++ openCode l.allocated := by
  obtain ⟨herror, hlabels⟩ := labels_upTo hsize hl
  have hrun : (upTo size ts).run ⟨.loopOpen, [t]⟩ = (upTo size ts).openLoop t :=
    intake.run_openLoop herror t
  rw [upTo_concat size (by rw [ht]; rfl), ht, hrun, ← hlabels]
  exact toList_code_append _ _

/-- A closing bracket adds the tail of the loop that was opened last. -/
theorem code_upTo_close {t : Token} (ht : t.symbol = .loopClose) {k : Nat} {place : Position}
    {rest : List (Nat × Position)} (hstack : l.stack = (k, place) :: rest) :
    (upTo size (ts ++ [t])).code.toList = (upTo size ts).code.toList ++ closeCode k := by
  obtain ⟨herror, hlabels⟩ := labels_upTo hsize hl
  have hleave : (upTo size ts).labels.leave t.position = .ok (k, ⟨l.allocated, rest⟩) := by
    rw [hlabels, Labels.leave, hstack]
  have hrun : (upTo size ts).run ⟨.loopClose, [t]⟩ = (upTo size ts).closeLoop t :=
    intake.run_closeLoop (upTo size ts) t
  rw [upTo_concat size (by rw [ht]; rfl), ht, hrun]
  simp only [closeLoop, herror, hleave]
  exact toList_code_append _ _

end

end Emitter

end Assembly

/-! ### Pairs of brackets -/

/-- Two brackets among some tokens that match each other by nesting. -/
structure BracketPair (tokens : List Token) where
  before : List Token
  enter : Token
  body : List Token
  leave : Token
  after : List Token
  split : tokens = before ++ enter :: (body ++ leave :: after)
  opens : enter.symbol = .loopOpen
  closes : leave.symbol = .loopClose
  balanced : Balanced (body.map Token.symbol)

/-- Some lines have the head of loop `k` for the first bracket of a pair, and its tail for the
second one. -/
structure BracketPair.Labelled {tokens : List Token} (b : BracketPair tokens) (size : Int)
    (lines : List Line) (k : Nat) : Prop where
  number : (b.before.map Token.symbol).count .loopOpen = k
  head : (Emitter.upTo size (b.before ++ [b.enter])).code.toList =
    (Emitter.upTo size b.before).code.toList ++ openCode k
  tail : (Emitter.upTo size (b.before ++ b.enter :: (b.body ++ [b.leave]))).code.toList =
    (Emitter.upTo size (b.before ++ b.enter :: b.body)).code.toList ++ closeCode k
  head_kept : (Emitter.upTo size (b.before ++ [b.enter])).code.toList <+: lines
  tail_kept : (Emitter.upTo size (b.before ++ b.enter :: (b.body ++ [b.leave]))).code.toList <+:
    lines

/-- The occurrence of an element with a given number of others before it. -/
theorem exists_split_of_lt_count {a : Symbol} {l : List Symbol} {k : Nat} (h : k < l.count a) :
    ∃ x y, l = x ++ a :: y ∧ x.count a = k := by
  induction l generalizing k with
  | nil => cases h
  | cons b l ih =>
    by_cases hb : b = a
    · subst hb
      cases k with
      | zero => exact ⟨[], l, rfl, rfl⟩
      | succ k =>
        rw [List.count_cons_self] at h
        obtain ⟨x, y, rfl, hx⟩ := ih (Nat.lt_of_succ_lt_succ h)
        exact ⟨b :: x, y, rfl, by rw [List.count_cons_self, hx]⟩
    · rw [List.count_cons_of_ne hb] at h
      obtain ⟨x, y, rfl, hx⟩ := ih h
      exact ⟨b :: x, y, rfl, by rw [List.count_cons_of_ne hb, hx]⟩

/-- The pair of brackets whose opening one has `k` others before it. -/
theorem exists_bracketPair {ts : List Token} (h : Balanced (ts.map Token.symbol)) {k : Nat}
    (hk : k < (ts.map Token.symbol).count .loopOpen) :
    ∃ b : BracketPair ts, (b.before.map Token.symbol).count .loopOpen = k := by
  -- the partner is found among the symbols, and then both brackets among the tokens
  obtain ⟨x, y, hsplit, hx⟩ := exists_split_of_lt_count hk
  rw [hsplit] at h
  obtain ⟨s, rest, rfl, hbody⟩ := h.exists_close
  obtain ⟨before, more₁, rfl, rfl, hmore₁⟩ := List.map_eq_append_iff.mp hsplit
  obtain ⟨enter, more₂, rfl, henter, hmore₂⟩ := List.map_eq_cons_iff.mp hmore₁
  obtain ⟨body, more₃, rfl, rfl, hmore₃⟩ := List.map_eq_append_iff.mp hmore₂
  obtain ⟨leave, after, rfl, hleave, -⟩ := List.map_eq_cons_iff.mp hmore₃
  exact ⟨⟨before, enter, body, leave, after, rfl, henter, hleave, hbody⟩, hx⟩

/-- The brackets of a pair are labelled alike, whatever stands between them. -/
theorem BracketPair.labelled {ts : List Token} (b : BracketPair ts) {size : Int} (hsize : size ≠ 0)
    {l : Labels} (hl : Labels.empty.takeAll ts = .ok l) {lines : List Line}
    (hlines : (Emitter.upTo size ts).code.toList <+: lines) :
    b.Labelled size lines ((b.before.map Token.symbol).count .loopOpen) := by
  obtain ⟨before, enter, body, leave, after, rfl, henter, hleave, hbody⟩ := b
  have hopens : enter.symbol.isBracket = true := by
    rw [henter]
    rfl
  have hcloses : leave.symbol.isBracket = true := by
    rw [hleave]
    rfl
  obtain ⟨l₁, hbefore, -⟩ := Labels.takeAll_split hl
  have hnumber : l₁.allocated = (before.map Token.symbol).count .loopOpen := by
    rw [Labels.allocated_takeAll hbefore]
    exact Nat.zero_add _
  -- what is open before the body is open behind it, the loop of the pair on top
  obtain ⟨l₂, htake, hstack⟩ := Labels.takeAll_balanced hbody (l₁.enter enter.position).2
  have hinside : Labels.empty.takeAll (before ++ enter :: body) = .ok l₂ := by
    rw [Labels.takeAll_append, hbefore]
    show l₁.takeAll (enter :: body) = _
    rw [Labels.takeAll, Labels.take_open henter]
    exact htake
  have hassoc : before ++ enter :: (body ++ [leave]) = before ++ enter :: body ++ [leave] := by simp
  have hassoc' : before ++ enter :: (body ++ leave :: after) =
      before ++ enter :: body ++ leave :: after := by simp
  refine ⟨rfl, ?_, ?_, ?_, ?_⟩
  · rw [← hnumber]
    exact Emitter.code_upTo_open hsize hbefore henter
  · show (Emitter.upTo size (before ++ enter :: (body ++ [leave]))).code.toList = _
    rw [hassoc, ← hnumber]
    exact Emitter.code_upTo_close hsize hinside hleave hstack
  · exact (Emitter.prefix_upTo size hopens before _).trans hlines
  · show (Emitter.upTo size (before ++ enter :: (body ++ [leave]))).code.toList <+: lines
    rw [hassoc]
    rw [hassoc'] at hlines
    exact (Emitter.prefix_upTo size hcloses _ after).trans hlines

/-! ### Complete listings -/

/-- The program of a nest has an opening bracket for each loop. -/
theorem Nest.count_loopOpen (t : Nest) : t.program.symbols.count .loopOpen = t.loops := by
  show (t.instructions.map Instruction.symbol).count .loopOpen = t.loops
  induction t with
  | done => rfl
  | act r plain rest ih =>
    have hne : r.symbol ≠ .loopOpen := by
      intro hs
      rw [hs] at plain
      cases plain
    rw [instructions, List.map_cons, List.count_cons_of_ne hne, ih]
    rfl
  | loop _ body _ rest ihb ihr =>
    simp [instructions, loops, List.count_append, ihb, ihr]

namespace Assembly.Listing

variable {ε : Type} {source : Source ε} {size : Int} {summary : Summary}

/-- A complete listing is what was written for all its tokens, and the epilogue. -/
theorem code_of_result (hsize : size ≠ 0) (h : (ofSource size source).result = .ok summary) :
    (ofSource size source).code.toList =
      (Emitter.upTo size (scan source).tokens).code.toList ++ epilogue := by
  have hruns := (runsOf_of_stop (accepted_of_result hsize h).ended).2
  rw [ofSource, ofRuns, hruns] at h ⊢
  split at h
  · cases h
  · cases h
  · cases h
  · exact Emitter.toList_code_append _ _

/-- **Loop labels**: the labels in the text of a complete listing are those of as many loops as
there are opening brackets, and each of these loops comes from two brackets of the source that match
each other. -/
theorem loops_wellLabelled (hpos : 0 < size) (h : (ofSource size source).result = .ok summary) :
    summary.labelCount = ((scan source).tokens.map Token.symbol).count .loopOpen ∧
    ∃ lines, readListing? (ofSource size source).text = some lines ∧
      WellLabelled lines summary.labelCount ∧
      ∀ k < summary.labelCount, ∃ b : BracketPair (scan source).tokens,
        b.Labelled size lines k := by
  have hsize : size ≠ 0 := by omega
  obtain ⟨l, hverdict, hcount⟩ := verdict_of_result hsize h
  obtain ⟨htake, hstop, hstack⟩ := Runs.verdict_eq_ok hverdict
  rw [(runsOf_of_stop hstop).2, flatMap_tokens_groupRuns] at htake
  obtain ⟨t, hp, hcode⟩ := exists_nest hsize h
  have hloops : summary.labelCount = t.loops := by
    rw [hcount, ← t.count_loopOpen]
    exact (tallies_of_verdict hverdict hp size 0).opens.symm
  have hopens : summary.labelCount = ((scan source).tokens.map Token.symbol).count .loopOpen := by
    rw [hcount, Labels.allocated_takeAll htake]
    exact Nat.zero_add _
  refine ⟨hopens, (ofSource size source).code.toList, readListing?_render _, ?_, ?_⟩
  · rw [hcode, hloops]
    exact wellLabelled_listingOf t size
  · intro k hk
    rw [hopens] at hk
    obtain ⟨b, rfl⟩ := exists_bracketPair (Labels.balanced_of_takeAll htake hstack) hk
    refine ⟨b, b.labelled hsize htake ?_⟩
    rw [code_of_result hsize h]
    exact List.prefix_append _ _

/-- Three loops, of which the second lies in the first and the third behind both. -/
theorem loops_wellLabelled_nested :
    ∃ lines, readListing? (ofSource 4 (.ofString "+[[-]>]<[]" : Source Empty)).text = some lines ∧
      WellLabelled lines 3 := by
  have haccepted : (ofSource 4 (.ofString "+[[-]>]<[]" : Source Empty)).result =
      .ok ⟨4, 9, 3, 0⟩ := rfl
  obtain ⟨-, lines, htext, hlabels, -⟩ := loops_wellLabelled (by decide) haccepted
  exact ⟨lines, htext, hlabels⟩

end Assembly.Listing

end TapeLang
