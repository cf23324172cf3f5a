import TapeLang.Proofs.Grouping

/-!
Runs collected from tokens that come in one by one.

A `Collector` has given out some runs and holds the tokens of one more.  A token of their symbol
joins the tokens that are held; any other token makes a run of them and is held in their place.
What is held at the end becomes the last run, also where the text is refused, but it is lost when a
read fails.

`Groups` says what it is for runs to be a grouping of some tokens.  There is one grouping at most
(`Groups.unique`), and each token that comes in extends it (`Collects.push`), so that a collector
knows it at any time (`collects_collect`).  Main statement: `Scan.group_groups`, the runs of a scan
are those that are collected from it; together they are the grouping of its tokens, but for the last
run where a read failed, and they stop as the tokens do.
-/

namespace TapeLang

/-! ### Groupings -/

/-- Runs that are a grouping of some tokens: each of them has tokens, all of its symbol, no two that
follow each other are of one symbol, and the tokens are those of the runs, in their order. -/
structure Groups (rs : List Run) (ts : List Token) : Prop where
  proper : ∀ r ∈ rs, r.Proper
  differ : rs.IsChain fun a b => a.symbol ≠ b.symbol
  tokens : rs.flatMap Run.tokens = ts

namespace Groups

variable {rs : List Run} {ts : List Token}

theorem eq_groupRuns (h : Groups rs ts) : rs = groupRuns ts := by
  have hcut : rs.map Run.tokens = ts.splitBy fun a b => a.symbol == b.symbol := by
    rw [← h.tokens]
    refine map_tokens_eq_splitBy h.proper ?_ (h.differ.imp ?_)
    · intro r hr
      exact (h.proper r hr).isChain fun ha hb => by rw [ha, hb, beq_self_eq_true]
    · intro r r' hne a b ha hb
      rw [ha, hb]
      exact beq_false_of_ne hne
  rw [← filterMap_ofTokens?_tokens h.proper, hcut]
  rfl

/-- Tokens have one grouping at most. -/
theorem unique {rs' : List Run} (h : Groups rs ts) (h' : Groups rs' ts) : rs = rs' :=
  h.eq_groupRuns.trans h'.eq_groupRuns.symm

/-- One more token of the symbol of the last run. -/
theorem grow {r : Run} {t : Token} (h : Groups (rs ++ [r]) ts) (ht : t.symbol = r.symbol) :
    Groups (rs ++ [⟨r.symbol, r.tokens ++ [t]⟩]) (ts ++ [t]) where
  proper := by
    intro q hq
    rcases List.mem_append.mp hq with hq | hq
    · exact h.proper q (List.mem_append_left _ hq)
    · obtain rfl := List.mem_singleton.mp hq
      refine ⟨by simp, ?_⟩
      intro u hu
      rcases List.mem_append.mp hu with hu | hu
      · exact (h.proper r (by simp)).uniform u hu
      · rw [List.mem_singleton.mp hu, ht]
  differ := by
    have hdiffer := h.differ
    rw [List.isChain_append] at hdiffer ⊢
    obtain ⟨hrs, -, hlast⟩ := hdiffer
    refine ⟨hrs, List.isChain_singleton _, ?_⟩
    intro q hq q' hq'
    obtain rfl : _ = q' := by simpa using hq'
    exact hlast q hq r rfl
  tokens := by
    rw [← h.tokens]
    simp

/-- One more token that is not of the symbol of the last run. -/
theorem snoc {t : Token} (h : Groups rs ts) (ht : ∀ r ∈ rs.getLast?, r.symbol ≠ t.symbol) :
    Groups (rs ++ [⟨t.symbol, [t]⟩]) (ts ++ [t]) where
  proper := by
    intro q hq
    rcases List.mem_append.mp hq with hq | hq
    · exact h.proper q hq
    · obtain rfl := List.mem_singleton.mp hq
      exact ⟨by simp, by simp⟩
  differ := by
    rw [List.isChain_append]
    refine ⟨h.differ, List.isChain_singleton _, ?_⟩
    intro q hq q' hq'
    obtain rfl : _ = q' := by simpa using hq'
    exact ht q hq
  tokens := by
    rw [List.flatMap_append, h.tokens, List.flatMap_singleton]

end Groups

/-! ### Collecting -/

/-- The runs that were given out so far, and the tokens that are held. -/
structure Collector where
  runs : List Run
  held : List Token

namespace Collector

/-- Nothing was given out yet, and nothing is held. -/
def empty : Collector := ⟨[], []⟩

/-- All runs, with the one that is held, if there is one. -/
def flush (c : Collector) : List Run := c.runs ++ (Run.ofTokens? c.held).toList

/-- Take one more token. -/
def push (c : Collector) (t : Token) : Collector :=
  match c.held with
  | [] => ⟨c.runs, [t]⟩
  | first :: rest =>
    if t.symbol = first.symbol then ⟨c.runs, first :: (rest ++ [t])⟩ else ⟨c.flush, [t]⟩

/-- What has become of some tokens. -/
def collect (ts : List Token) : Collector := ts.foldl push empty

/-- The runs at the end of the tokens.  What is held is not given out when a read has failed. -/
def close {ε : Type} (c : Collector) : Option (Interruption ε) → Runs ε
  | some (.failed failure) => ⟨c.runs, some (.failed failure)⟩
  | some (.invalid error) => ⟨c.flush, some (.invalid error)⟩
  | none => ⟨c.flush, none⟩

theorem collect_concat (ts : List Token) (t : Token) :
    collect (ts ++ [t]) = (collect ts).push t := by
  rw [collect, List.foldl_append]
  rfl

end Collector

/-- The runs that were collected are a grouping of the tokens so far, and once there was a token,
one of them is held. -/
structure Collects (c : Collector) (ts : List Token) : Prop where
  groups : Groups c.flush ts
  holds : c.held = [] → c.runs = []

namespace Collects

open Collector

variable {c : Collector} {ts : List Token}

theorem of_empty : Collects .empty [] where
  groups := ⟨by simp [empty, flush, Run.ofTokens?], .nil, rfl⟩
  holds := fun _ => rfl

/-- All runs but the last one were given out. -/
theorem dropLast_flush (h : Collects c ts) : c.flush.dropLast = c.runs := by
  unfold flush
  cases hheld : c.held with
  | nil =>
    rw [h.holds hheld]
    rfl
  | cons first rest => exact List.dropLast_concat

/-- Each token leaves a collector with the grouping of one token more. -/
theorem push (h : Collects c ts) (t : Token) : Collects (c.push t) (ts ++ [t]) := by
  obtain ⟨runs, held⟩ := c
  obtain ⟨hgroups, hholds⟩ := h
  cases held with
  | nil =>
    obtain rfl : runs = [] := hholds rfl
    refine ⟨?_, fun hnil => absurd hnil (List.cons_ne_nil _ _)⟩
    exact hgroups.snoc (by simp [flush, Run.ofTokens?])
  | cons first rest =>
    change Groups (runs ++ [⟨first.symbol, first :: rest⟩]) ts at hgroups
    unfold Collector.push
    by_cases ht : t.symbol = first.symbol
    · simp only [if_pos ht]
      exact ⟨hgroups.grow ht, fun hnil => absurd hnil (List.cons_ne_nil _ _)⟩
    · simp only [if_neg ht]
      refine ⟨?_, fun hnil => absurd hnil (List.cons_ne_nil _ _)⟩
      apply hgroups.snoc
      -- the last run is the one that the token does not join
      intro r hr
      obtain rfl : _ = r := by simpa using hr
      exact fun hsame => ht hsame.symm

end Collects

theorem collects_collect (ts : List Token) : Collects (.collect ts) ts := by
  induction ts using List.reverseRecOn with
  | nil => exact .of_empty
  | append_singleton ts t ih =>
    rw [Collector.collect_concat]
    exact ih.push t

/-- The runs of a scan are collected from its tokens. -/
theorem Scan.group_eq_close {ε : Type} (s : Scan ε) :
    s.group = (Collector.collect s.tokens).close s.stop := by
  have hcollects := collects_collect s.tokens
  have hflush : (Collector.collect s.tokens).flush = groupRuns s.tokens :=
    hcollects.groups.eq_groupRuns
  have hruns := hcollects.dropLast_flush
  rw [hflush] at hruns
  unfold Scan.group Collector.close
  rcases s.stop with - | - | failure
  · rw [hflush]
  · rw [hflush]
  · rw [hruns]

/-- **Grouping**: the tokens of a scan have a grouping and only one.  Collecting gives out all its
runs, in their order, where the tokens end or the text is refused, and all but the last one where a
read fails; then it stops for the same reason as the tokens do. -/
theorem Scan.group_groups {ε : Type} (s : Scan ε) :
    s.group = (Collector.collect s.tokens).close s.stop ∧
    ∃ rs, Groups rs s.tokens ∧ (∀ rs', Groups rs' s.tokens → rs' = rs) ∧
      s.group.stop = s.stop ∧
      ((∀ failure, s.stop ≠ some (.failed failure)) → s.group.runs = rs) ∧
      ∀ failure, s.stop = some (.failed failure) → s.group.runs = rs.dropLast := by
  have hcollects := collects_collect s.tokens
  refine ⟨s.group_eq_close, _, hcollects.groups, fun rs' h' => h'.unique hcollects.groups, ?_⟩
  rw [s.group_eq_close, hcollects.dropLast_flush]
  rcases s.stop with - | error | failure
  · exact ⟨rfl, fun _ => rfl, fun _ h => nomatch h⟩
  · exact ⟨rfl, fun _ => rfl, fun _ h => nomatch h⟩
  · exact ⟨rfl, fun h => absurd rfl (h failure), fun _ _ => rfl⟩

end TapeLang
