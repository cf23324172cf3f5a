import Mathlib.Data.List.Forall2
import Mathlib.Data.List.Range
import TapeLang.Proofs.Labelling
import TapeLang.Proofs.Matching

/-!
Labels under any sequence of calls.

Whoever uses labels may call them in any order: open a loop, close one, ask whether all are closed,
and go on after an error.  A history is the list of the calls so far.  With `Call.symbol` it is a
list of brackets, so that two calls of it match as brackets do (`Encloses`), and it can be told from
the history alone which loops stand open: the calls that open a loop and match nothing (`Unclosed`).

`Standing` follows them through a list of brackets, innermost first: a bracket that opens is added
in front, one that closes takes away the first of them, which is the bracket that it matches, and if
there is none it changes nothing.  Labels do the same with numbers (`Tracks`), and every number
handed out is either that of an open loop or was given back by one closing call
(`Tracks.numbers`).

Main statement: `Labels.lawful_history`, what labels answer after any history, in terms of the
matching of its calls.
-/

namespace TapeLang

/-! ### Brackets that stand open -/

/-- An opening bracket of a list that matches none of its brackets. -/
structure Unclosed (l : List Symbol) (i : Nat) : Prop where
  opens : l[i]? = some .loopOpen
  unmatched : ∀ j, ¬ Encloses l i j

namespace Unclosed

variable {l x : List Symbol} {i : Nat}

theorem lt_length (h : Unclosed l i) : i < l.length := (List.getElem?_eq_some_iff.mp h.opens).1

/-- What is not closed in a longer list was not closed before. -/
theorem of_append (h : Unclosed (l ++ x) i) (hi : i < l.length) : Unclosed l i where
  opens := by
    have hopens := h.opens
    rwa [List.getElem?_append_left hi] at hopens
  unmatched := fun j hj => h.unmatched j (hj.append x)

/-- Nothing stays open in a balanced list. -/
theorem lt_of_append (h : Unclosed (l ++ x) i) (hx : Balanced x) : i < l.length := by
  rw [← Nat.not_le]
  intro hle
  obtain ⟨d, rfl⟩ := Nat.exists_eq_add_of_le hle
  have hopens := h.opens
  rw [List.getElem?_append_right hle, Nat.add_sub_cancel_left] at hopens
  obtain ⟨j, hj⟩ := Encloses.exists_of_balanced hx hopens
  have hextend := hj.extend l []
  rw [List.append_nil] at hextend
  exact h.unmatched _ hextend

end Unclosed

/-- The brackets of a list that stand open, innermost first: behind each of them the list is
balanced, up to the next one. -/
inductive Standing : List Symbol → List Nat → Prop
  | closed {l : List Symbol} : (∀ i, ¬ Unclosed l i) → Standing l []
  | inside {l body : List Symbol} {s : List Nat} :
      Standing l s → Balanced body → Standing (l ++ .loopOpen :: body) (l.length :: s)

namespace Standing

variable {l : List Symbol} {s : List Nat}

theorem append_balanced {b : List Symbol} (h : Standing l s) (hb : Balanced b) :
    Standing (l ++ b) s := by
  cases h with
  | closed hclosed =>
    refine .closed fun i hi => hclosed i ?_
    exact hi.of_append (hi.lt_of_append hb)
  | inside houter hbody =>
    rw [List.append_assoc, List.cons_append]
    exact .inside houter (hbody.append hb)

theorem act {a : Symbol} (h : Standing l s) (ha : a.isBracket = false) : Standing (l ++ [a]) s :=
  h.append_balanced (.act ha .nil)

theorem enter (h : Standing l s) : Standing (l ++ [.loopOpen]) (l.length :: s) :=
  .inside h .nil

/-- A closing bracket matches the innermost bracket that stands open. -/
theorem leave {i : Nat} (h : Standing l (i :: s)) :
    Encloses (l ++ [.loopClose]) i l.length ∧ Standing (l ++ [.loopClose]) s := by
  cases h with
  | @inside l body _ houter hbody =>
    have hclosed : l ++ Symbol.loopOpen :: body ++ [.loopClose] =
        l ++ .loopOpen :: (body ++ [.loopClose]) := by simp
    have hlength : (l ++ Symbol.loopOpen :: body).length = l.length + 1 + body.length := by
      rw [List.length_append, List.length_cons]
      omega
    rw [hclosed, hlength]
    exact ⟨.of_split l [] hbody, houter.append_balanced (.loop hbody .nil)⟩

/-- A closing bracket that matches nothing changes nothing. -/
theorem stray (h : Standing l []) : Standing (l ++ [.loopClose]) [] := by
  cases h with
  | closed hclosed =>
    refine .closed fun i hi => ?_
    have hlt : i < l.length := by
      by_contra hge
      obtain ⟨d, rfl⟩ := Nat.exists_eq_add_of_le (Nat.not_lt.mp hge)
      have hopens := hi.opens
      rw [List.getElem?_append_right (Nat.not_lt.mp hge), Nat.add_sub_cancel_left] at hopens
      cases d with
      | zero => cases hopens
      | succ d => cases hopens
    exact hclosed i (hi.of_append hlt)

/-- The brackets that stand open are those that are not closed. -/
theorem mem_iff (h : Standing l s) (i : Nat) : i ∈ s ↔ Unclosed l i := by
  induction h with
  | closed hclosed => simpa using hclosed i
  | @inside l body s houter hbody ih =>
    have hhere : (l ++ Symbol.loopOpen :: body)[l.length]? = some .loopOpen := by simp
    -- no bracket behind the innermost one closes anything that was open in front of the body
    have hunmatched : ∀ j, ¬ Encloses (l ++ .loopOpen :: body) l.length j := by
      intro j hj
      obtain ⟨before, inner, after, hl, hinner, hbefore, -⟩ := hj.exists_split
      obtain ⟨-, hrest⟩ := List.append_inj hl hbefore.symm
      rw [List.cons.injEq] at hrest
      rw [hrest.2] at hbody
      exact hinner.not_close_append hbody
    rw [List.mem_cons, ih]
    constructor
    · rintro (rfl | hi)
      · exact ⟨hhere, hunmatched⟩
      · have hlt := hi.lt_length
        refine ⟨by rw [List.getElem?_append_left hlt, hi.opens], ?_⟩
        intro j hj
        rcases Nat.lt_or_gt_of_ne (hj.ne_of_opens hhere) with hjl | hlj
        · exact hi.unmatched j (hj.of_append hjl)
        · obtain ⟨k, -, hk⟩ := hj.exists_inner hlt hlj hhere
          exact hunmatched k hk
    · intro hi
      rcases Nat.lt_trichotomy i l.length with hlt | rfl | hgt
      · exact .inr (hi.of_append hlt)
      · exact .inl rfl
      · have hsplit : l ++ Symbol.loopOpen :: body = l ++ [.loopOpen] ++ body := by simp
        rw [hsplit] at hi
        have hlt := hi.lt_of_append hbody
        rw [List.length_append, List.length_singleton] at hlt
        omega

/-- The brackets that stand open come in the order of the list, from the last to the first. -/
theorem pairwise_gt (h : Standing l s) : s.Pairwise (· > ·) := by
  induction h with
  | closed => exact .nil
  | inside houter _ ih =>
    refine .cons ?_ ih
    intro i hi
    exact ((houter.mem_iff i).mp hi).lt_length

end Standing

/-! ### Histories of calls -/

namespace Labels

/-- A call of labels. -/
inductive Call where
  /-- Open a loop. -/
  | enter (place : Position)
  /-- Close the innermost open loop. -/
  | leave (place : Position)
  /-- Ask whether all loops are closed. -/
  | finish
  deriving DecidableEq, Repr

/-- The bracket that a call is about.  Asking whether all loops are closed is about none, and counts
as a symbol that is no bracket. -/
def Call.symbol : Call → Symbol
  | enter _ => .loopOpen
  | leave _ => .loopClose
  | finish => .write

/-- What is answered to a call: the number of a loop, nothing, or an error. -/
abbrev Answer : Type := Except SourceError (Option Nat)

/-- The answer to a call, and the labels after it. -/
def call (l : Labels) : Call → Answer × Labels
  | .enter place => (.ok (some (l.enter place).1), (l.enter place).2)
  | .leave place =>
    match l.leave place with
    | .ok (n, l') => (.ok (some n), l')
    | .error e => (.error e, l)
  | .finish =>
    match l.finish with
    | .ok _ => (.ok none, l)
    | .error e => (.error e, l)

/-- The labels after some calls, whether they failed or not. -/
def after (h : List Call) : Labels := h.foldl (fun l c => (l.call c).2) .empty

/-- The answer to a call after others. -/
def answer (h : List Call) (c : Call) : Answer := ((after h).call c).1

/-- Calls made one after the other, each with its answer. -/
def log : Labels → List Call → List (Call × Answer)
  | _, [] => []
  | l, c :: cs => (c, (l.call c).1) :: log (l.call c).2 cs

/-- The number that is given back by a call that closes a loop. -/
def givenBack? : Call × Answer → Option Nat
  | (.leave _, .ok n) => n
  | _ => none

/-- The numbers given back by the calls that closed a loop, in the order of these calls. -/
def givenBack (h : List Call) : List Nat := (log .empty h).filterMap givenBack?

/-- A history as a list of brackets. -/
def brackets (h : List Call) : List Symbol := h.map Call.symbol

/-- How many calls of a history open a loop. -/
def opened (h : List Call) : Nat := (brackets h).count .loopOpen

theorem length_brackets (h : List Call) : (brackets h).length = h.length := List.length_map ..

theorem brackets_append (h h' : List Call) : brackets (h ++ h') = brackets h ++ brackets h' :=
  List.map_append

theorem opened_append (h h' : List Call) : opened (h ++ h') = opened h + opened h' := by
  rw [opened, brackets_append, List.count_append]
  rfl

theorem brackets_getElem?_eq_open {h : List Call} {i : Nat} :
    (brackets h)[i]? = some .loopOpen ↔ ∃ place, h[i]? = some (.enter place) := by
  rw [brackets, List.getElem?_map, Option.map_eq_some_iff]
  constructor
  · rintro ⟨c, hc, hsymbol⟩
    cases c with
    | enter place => exact ⟨place, hc⟩
    | leave place => cases hsymbol
    | finish => cases hsymbol
  · rintro ⟨place, hc⟩
    exact ⟨_, hc, rfl⟩

theorem after_concat (h : List Call) (c : Call) : after (h ++ [c]) = ((after h).call c).2 := by
  rw [after, List.foldl_append]
  rfl

theorem log_append (l : Labels) (h h' : List Call) :
    l.log (h ++ h') = l.log h ++ (h.foldl (fun l c => (l.call c).2) l).log h' := by
  induction h generalizing l with
  | nil => rfl
  | cons c h ih => rw [List.cons_append, log, log, ih, List.foldl_cons, List.cons_append]

theorem givenBack_concat (h : List Call) (c : Call) :
    givenBack (h ++ [c]) = givenBack h ++ (givenBack? (c, answer h c)).toList := by
  rw [givenBack, log_append, List.filterMap_append]
  congr 1

/-! ### Labels follow the brackets -/

/-- An entry of the labels belongs to a call: it has its place, and its number is the number of
loops that were opened before. -/
def Records (h : List Call) (entry : Nat × Position) (i : Nat) : Prop :=
  h[i]? = some (.enter entry.2) ∧ entry.1 = opened (h.take i)

theorem Records.append {h : List Call} {entry : Nat × Position} {i : Nat}
    (hr : Records h entry i) (h' : List Call) : Records (h ++ h') entry i := by
  have hlt := (List.getElem?_eq_some_iff.mp hr.1).1
  refine ⟨?_, ?_⟩
  · rw [List.getElem?_append_left hlt, hr.1]
  · rw [List.take_append_of_le_length (Nat.le_of_lt hlt), hr.2]

theorem map_fst_of_records {h : List Call} {entries : List (Nat × Position)} {s : List Nat}
    (hr : List.Forall₂ (Records h) entries s) :
    entries.map Prod.fst = s.map fun i => opened (h.take i) := by
  induction hr with
  | nil => rfl
  | cons hentry _ ih => rw [List.map_cons, List.map_cons, hentry.2, ih]

/-- Of two calls that open a loop the later one has the larger number. -/
theorem opened_take_lt {h : List Call} {i k : Nat} (hi : (brackets h)[i]? = some .loopOpen)
    (hik : i < k) : opened (h.take i) < opened (h.take k) := by
  obtain ⟨place, hc⟩ := brackets_getElem?_eq_open.mp hi
  have hopens : (h.take k)[i]? = some (.enter place) := by
    rw [List.getElem?_take_of_lt hik, hc]
  have hsplit := eq_take_cons_drop hopens
  rw [List.take_take, Nat.min_eq_left (Nat.le_of_lt hik)] at hsplit
  have hone : opened (Call.enter place :: (h.take k).drop (i + 1)) =
      opened ((h.take k).drop (i + 1)) + 1 := List.count_cons_self
  rw [hsplit, opened_append, hone]
  omega

/-- The labels after a history hold the loops that stand open, and every number is with them or was
given back, once. -/
structure Tracks (h : List Call) (s : List Nat) : Prop where
  standing : Standing (brackets h) s
  stack : List.Forall₂ (Records h) (after h).stack s
  numbers : (givenBack h ++ (after h).stack.map Prod.fst).Perm (List.range (opened h))
  allocated : (after h).allocated = opened h

namespace Tracks

variable {h : List Call} {s : List Nat}

theorem of_nil : Tracks [] [] where
  standing := .closed fun _ hi => nomatch hi.opens
  stack := .nil
  numbers := .refl _
  allocated := rfl

theorem stack_append (ht : Tracks h s) (h' : List Call) :
    List.Forall₂ (Records (h ++ h')) (after h).stack s :=
  ht.stack.imp fun _ _ hr => hr.append h'

/-- A call that changes neither the loops that stand open nor the labels. -/
theorem unchanged {c : Call} (ht : Tracks h s) (hafter : after (h ++ [c]) = after h)
    (hgiven : givenBack? (c, answer h c) = none) (hc : c.symbol ≠ .loopOpen)
    (hstanding : Standing (brackets h ++ [c.symbol]) s) : Tracks (h ++ [c]) s := by
  have hopened : opened (h ++ [c]) = opened h := by
    rw [opened_append]
    exact congrArg (opened h + ·) (List.count_eq_zero.mpr (by simpa [brackets] using hc.symm))
  refine ⟨brackets_append h [c] ▸ hstanding, ?_, ?_, ?_⟩
  · rw [hafter]
    exact ht.stack_append [c]
  · rw [givenBack_concat, hgiven, hafter, hopened, Option.toList_none, List.append_nil]
    exact ht.numbers
  · rw [hafter, hopened, ht.allocated]

/-- A loop that is opened gets the next number. -/
theorem enter (ht : Tracks h s) (place : Position) :
    Tracks (h ++ [.enter place]) (h.length :: s) := by
  have hafter : after (h ++ [.enter place]) =
      ⟨(after h).allocated + 1, ((after h).allocated, place) :: (after h).stack⟩ :=
    after_concat h _
  have hopened : opened (h ++ [.enter place]) = opened h + 1 := opened_append h _
  refine ⟨?_, ?_, ?_, ?_⟩
  · rw [brackets_append, ← length_brackets h]
    exact ht.standing.enter
  · rw [hafter]
    refine .cons ⟨by simp, ?_⟩ (ht.stack_append _)
    rw [List.take_left, ht.allocated]
  · rw [hafter, hopened, List.range_succ, givenBack_concat, ht.allocated]
    show (givenBack h ++ [] ++ opened h :: (after h).stack.map Prod.fst).Perm _
    rw [List.append_nil]
    exact List.perm_middle.trans ((ht.numbers.cons _).trans (List.perm_append_singleton ..).symm)
  · rw [hafter, hopened, ht.allocated]

/-- A loop that is closed gives its number back. -/
theorem leave {i : Nat} (ht : Tracks h (i :: s)) (place : Position) :
    Tracks (h ++ [.leave place]) s ∧ answer h (.leave place) = .ok (some (opened (h.take i))) := by
  have hstack := ht.stack
  cases hentries : (after h).stack with
  | nil =>
    rw [hentries] at hstack
    cases hstack
  | cons entry rest =>
    rw [hentries] at hstack
    obtain ⟨hentry, hrest⟩ := List.forall₂_cons.mp hstack
    have hcall : (after h).call (.leave place) =
        (.ok (some entry.1), ⟨(after h).allocated, rest⟩) := by
      simp only [call, Labels.leave, hentries]
    have hanswer : answer h (.leave place) = .ok (some entry.1) := congrArg Prod.fst hcall
    have hafter : after (h ++ [.leave place]) = ⟨(after h).allocated, rest⟩ := by
      rw [after_concat, hcall]
    have hopened : opened (h ++ [.leave place]) = opened h := opened_append h _
    refine ⟨⟨?_, ?_, ?_, ?_⟩, by rw [hanswer, hentry.2]⟩
    · rw [brackets_append]
      exact ht.standing.leave.2
    · rw [hafter]
      exact hrest.imp fun _ _ hr => hr.append _
    · have hnumbers := ht.numbers
      rw [hentries, List.map_cons, List.append_cons] at hnumbers
      rw [givenBack_concat, hanswer, hafter, hopened]
      exact hnumbers
    · rw [hafter, hopened, ht.allocated]

/-- Nothing is closed where no loop stands open. -/
theorem stray (ht : Tracks h []) (place : Position) :
    Tracks (h ++ [.leave place]) [] ∧
      answer h (.leave place) = .error (.unmatchedClose place) := by
  have hentries : (after h).stack = [] := List.forall₂_nil_right_iff.mp ht.stack
  have hcall : (after h).call (.leave place) =
      (.error (.unmatchedClose place), after h) := by
    simp only [call, Labels.leave, hentries]
  have hanswer : answer h (.leave place) = .error (.unmatchedClose place) :=
    congrArg Prod.fst hcall
  refine ⟨ht.unchanged ?_ (by rw [hanswer]; rfl) (by simp [Call.symbol]) ht.standing.stray, hanswer⟩
  rw [after_concat, hcall]

theorem finish (ht : Tracks h s) : Tracks (h ++ [.finish]) s := by
  refine ht.unchanged ?_ rfl (by simp [Call.symbol]) (ht.standing.act rfl)
  rw [after_concat, call]
  split <;> rfl

/-- After one more call the labels still follow the brackets. -/
theorem concat (ht : Tracks h s) (c : Call) : ∃ s', Tracks (h ++ [c]) s' := by
  cases c with
  | enter place => exact ⟨_, ht.enter place⟩
  | leave place =>
    cases s with
    | nil => exact ⟨_, (ht.stray place).1⟩
    | cons i s => exact ⟨_, (ht.leave place).1⟩
  | finish => exact ⟨_, ht.finish⟩

end Tracks

theorem exists_tracks (h : List Call) : ∃ s, Tracks h s := by
  induction h using List.reverseRecOn with
  | nil => exact ⟨[], .of_nil⟩
  | append_singleton h c ih =>
    obtain ⟨s, hs⟩ := ih
    exact hs.concat c

/-! ### What labels answer -/

namespace Tracks

variable {h : List Call} {s : List Nat}

theorem map_fst_stack (ht : Tracks h s) :
    (after h).stack.map Prod.fst = s.map fun i => opened (h.take i) :=
  map_fst_of_records ht.stack

theorem nodup (ht : Tracks h s) : (givenBack h ++ (after h).stack.map Prod.fst).Nodup :=
  ht.numbers.nodup_iff.mpr List.nodup_range

theorem length_add (ht : Tracks h s) :
    (givenBack h).length + (after h).depth = opened h := by
  have hlength := ht.numbers.length_eq
  rwa [List.length_append, List.length_map, List.length_range] at hlength

/-- The numbers of the open loops grow from the outermost to the innermost. -/
theorem pairwise_numbers (ht : Tracks h s) :
    ((after h).stack.map Prod.fst).Pairwise (· > ·) := by
  rw [ht.map_fst_stack, List.pairwise_map]
  refine ht.standing.pairwise_gt.imp_of_mem ?_
  intro i k _ hk hlt
  exact opened_take_lt ((ht.standing.mem_iff k).mp hk).opens hlt

/-- A loop is closed exactly if its number was given back. -/
theorem closed_iff (ht : Tracks h s) {i : Nat} (hi : (brackets h)[i]? = some .loopOpen) :
    (∃ j, Encloses (brackets h) i j) ↔ opened (h.take i) ∈ givenBack h := by
  have hstands : opened (h.take i) ∈ (after h).stack.map Prod.fst ↔ i ∈ s := by
    rw [ht.map_fst_stack, List.mem_map]
    refine ⟨?_, fun his => ⟨i, his, rfl⟩⟩
    rintro ⟨k, hk, hnumber⟩
    have hopens := ((ht.standing.mem_iff k).mp hk).opens
    rcases Nat.lt_trichotomy k i with hlt | rfl | hgt
    · exact absurd hnumber (Nat.ne_of_lt (opened_take_lt hopens hlt))
    · exact hk
    · exact absurd hnumber.symm (Nat.ne_of_lt (opened_take_lt hi hgt))
  have hmem : opened (h.take i) ∈ givenBack h ∨
      opened (h.take i) ∈ (after h).stack.map Prod.fst := by
    have hlt := (List.getElem?_eq_some_iff.mp hi).1
    rw [length_brackets] at hlt
    have hbelow := opened_take_lt hi hlt
    rw [List.take_length] at hbelow
    rw [← List.mem_append, ht.numbers.mem_iff, List.mem_range]
    exact hbelow
  have hdisjoint := List.disjoint_of_nodup_append ht.nodup
  constructor
  · rintro ⟨j, hj⟩
    refine hmem.resolve_right fun hstack => ?_
    exact ((ht.standing.mem_iff i).mp (hstands.mp hstack)).unmatched j hj
  · intro hgiven
    by_contra hopen
    refine hdisjoint hgiven (hstands.mpr ((ht.standing.mem_iff i).mpr ⟨hi, ?_⟩))
    exact fun j hj => hopen ⟨j, hj⟩

/-- Closing is refused where every loop is closed, and nowhere else. -/
theorem refused_iff (ht : Tracks h s) (place : Position) :
    answer h (.leave place) = .error (.unmatchedClose place) ↔ ∀ i, ¬ Unclosed (brackets h) i := by
  cases s with
  | nil =>
    refine iff_of_true (ht.stray place).2 ?_
    intro i hi
    cases (ht.standing.mem_iff i).mpr hi
  | cons i s =>
    rw [(ht.leave place).2]
    refine iff_of_false (fun h => nomatch h) ?_
    intro hall
    exact hall i ((ht.standing.mem_iff i).mp List.mem_cons_self)

/-- Where a loop stands open, closing one gives back the number of the call that is matched. -/
theorem exists_matched (ht : Tracks h s) (place : Position) {k : Nat}
    (hk : Unclosed (brackets h) k) :
    ∃ i place', h[i]? = some (.enter place') ∧
      Encloses (brackets (h ++ [.leave place])) i h.length ∧
      answer h (.leave place) = .ok (some (opened (h.take i))) := by
  cases s with
  | nil => cases (ht.standing.mem_iff k).mpr hk
  | cons i s =>
    have hi : Unclosed (brackets h) i := (ht.standing.mem_iff i).mp List.mem_cons_self
    obtain ⟨place', hopens⟩ := brackets_getElem?_eq_open.mp hi.opens
    refine ⟨i, place', hopens, ?_, (ht.leave place).2⟩
    rw [brackets_append, ← length_brackets h]
    exact ht.standing.leave.1

/-- Asking whether all loops are closed names the outermost one that stands open. -/
theorem answer_finish (ht : Tracks h s) :
    (s = [] ∧ answer h .finish = .ok none) ∨
    ∃ i place, s.getLast? = some i ∧ h[i]? = some (.enter place) ∧
      answer h .finish = .error (.unclosedLoop place) := by
  have hreverse := List.rel_reverse ht.stack
  rcases hs : s.reverse with - | ⟨i, rest⟩
  · obtain rfl : s = [] := List.reverse_eq_nil_iff.mp hs
    have hnone : (after h).stack.getLast? = none := by
      rw [List.forall₂_nil_right_iff.mp ht.stack]
      rfl
    exact .inl ⟨rfl, by simp only [answer, call, Labels.finish, hnone]⟩
  · rw [hs] at hreverse
    obtain ⟨⟨n, place⟩, entries, hentry, -, hentries⟩ := List.forall₂_cons_right_iff.mp hreverse
    have hsome : (after h).stack.getLast? = some (n, place) := by
      rw [← List.head?_reverse, hentries, List.head?_cons]
    refine .inr ⟨i, place, ?_, hentry.1, by simp only [answer, call, Labels.finish, hsome]⟩
    rw [← List.head?_reverse, hs, List.head?_cons]

theorem unfinished_iff (ht : Tracks h s) :
    (∃ e, answer h .finish = .error e) ↔ 0 < (after h).depth := by
  have hlength : (after h).depth = s.length := ht.stack.length_eq
  rw [hlength, List.length_pos_iff]
  rcases ht.answer_finish with ⟨rfl, hok⟩ | ⟨i, place, hlast, -, herror⟩
  · simp [hok]
  · refine iff_of_true ⟨_, herror⟩ ?_
    rintro rfl
    cases hlast

/-- The outermost loop that stands open is the first one that is not closed. -/
theorem earliest (ht : Tracks h s) {e : SourceError} (he : answer h .finish = .error e) :
    ∃ i place, h[i]? = some (.enter place) ∧ Unclosed (brackets h) i ∧
      (∀ k, Unclosed (brackets h) k → i ≤ k) ∧ e = .unclosedLoop place := by
  rcases ht.answer_finish with ⟨-, hok⟩ | ⟨i, place, hlast, hopens, herror⟩
  · rw [hok] at he
    cases he
  · rw [herror] at he
    cases he
    obtain ⟨front, rfl⟩ := List.getLast?_eq_some_iff.mp hlast
    refine ⟨i, place, hopens, (ht.standing.mem_iff i).mp (by simp), ?_, rfl⟩
    intro k hk
    have hgt := (List.pairwise_append.mp ht.standing.pairwise_gt).2.2
    rcases List.mem_append.mp ((ht.standing.mem_iff k).mpr hk) with hfront | hlast
    · exact Nat.le_of_lt (hgt k hfront i (by simp))
    · exact Nat.le_of_eq (List.mem_singleton.mp hlast).symm

end Tracks

theorem answer_enter (h : List Call) (place : Position) :
    answer h (.enter place) = .ok (some (opened h)) := by
  obtain ⟨s, hs⟩ := exists_tracks h
  rw [← hs.allocated]
  rfl

/-- A call that fails leaves the labels as they are. -/
theorem after_of_error {h : List Call} {c : Call} {e : SourceError}
    (he : answer h c = .error e) : after (h ++ [c]) = after h := by
  rw [after_concat]
  cases c with
  | enter place => cases he
  | leave place =>
    simp only [answer, call] at he ⊢
    cases hleave : (after h).leave place with
    | ok p =>
      rw [hleave] at he
      cases he
    | error e' => rfl
  | finish =>
    simp only [call]
    cases (after h).finish <;> rfl

/-- What labels owe to whoever has made the calls of a history. -/
structure Lawful (h : List Call) : Prop where
  /-- A loop that is opened gets as its number how many were opened before. -/
  enter : ∀ place, answer h (.enter place) = .ok (some (opened h))
  /-- As many numbers were handed out as loops were opened. -/
  allocated : (after h).allocated = opened h
  /-- As many loops are open as were opened and not closed. -/
  depth : (after h).depth + (givenBack h).length = opened h
  /-- The numbers of the open loops decrease from the innermost to the outermost. -/
  decreasing : ((after h).stack.map Prod.fst).Pairwise (· > ·)
  /-- All of them were handed out. -/
  below : ∀ n ∈ (after h).stack.map Prod.fst, n < (after h).allocated
  /-- Closing is refused exactly where every loop is closed. -/
  refused : ∀ place, answer h (.leave place) = .error (.unmatchedClose place) ↔
    ∀ i, ¬ Unclosed (brackets h) i
  /-- Else it answers what the call was answered that it matches. -/
  matched : ∀ place k, Unclosed (brackets h) k → ∃ i place', h[i]? = some (.enter place') ∧
    Encloses (brackets (h ++ [.leave place])) i h.length ∧
    answer h (.leave place) = answer (h.take i) (.enter place')
  /-- A call that opens a loop is matched exactly if its number was given back. -/
  closed : ∀ i place, h[i]? = some (.enter place) →
    ((∃ j, Encloses (brackets h) i j) ↔ opened (h.take i) ∈ givenBack h)
  /-- No number is given back twice. -/
  once : (givenBack h).Nodup
  /-- Not all loops are closed exactly if some are open. -/
  unfinished : (∃ e, answer h .finish = .error e) ↔ 0 < (after h).depth
  /-- Then the first one that is not closed is named. -/
  earliest : ∀ e, answer h .finish = .error e → ∃ i place, h[i]? = some (.enter place) ∧
    Unclosed (brackets h) i ∧ (∀ k, Unclosed (brackets h) k → i ≤ k) ∧ e = .unclosedLoop place
  /-- A call that fails changes nothing. -/
  failed : ∀ c e, answer h c = .error e → after (h ++ [c]) = after h

/-- **Labels**: after every history of calls, in whatever order and with whatever errors on the way,
loops are numbered as they are opened, and closed as brackets match. -/
theorem lawful_history (h : List Call) : Lawful h := by
  obtain ⟨s, hs⟩ := exists_tracks h
  exact {
    enter := answer_enter h
    allocated := hs.allocated
    depth := by
      rw [Nat.add_comm]
      exact hs.length_add
    decreasing := hs.pairwise_numbers
    below := by
      intro n hn
      rw [hs.allocated, ← List.mem_range, ← hs.numbers.mem_iff]
      exact List.mem_append_right _ hn
    refused := hs.refused_iff
    matched := by
      intro place k hk
      obtain ⟨i, place', hopens, hencloses, hanswer⟩ := hs.exists_matched place hk
      exact ⟨i, place', hopens, hencloses, hanswer.trans (answer_enter _ _).symm⟩
    closed := by
      intro i place hi
      exact hs.closed_iff (brackets_getElem?_eq_open.mpr ⟨place, hi⟩)
    once := hs.nodup.of_append_left
    unfinished := hs.unfinished_iff
    earliest := fun _ => hs.earliest
    failed := fun _ _ => after_of_error }

/-- Behind a bracket that closes nothing, loops are numbered on. -/
example : answer [.enter ⟨1, 1⟩, .leave ⟨1, 2⟩, .leave ⟨1, 3⟩, .enter ⟨1, 4⟩] (.leave ⟨1, 5⟩) =
    .ok (some 1) := rfl

end Labels

end TapeLang
