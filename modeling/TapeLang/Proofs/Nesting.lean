import Mathlib.Tactic.Common
import TapeLang.Symbol

/-!
Brackets paired by nesting.

`Balanced` says of a list of symbols that every bracket in it has its partner, by the rules that
build such lists: nothing, a symbol that is no bracket in front, or a loop in front.  `depth?`
counts instead: it is the number of loops that are open after a list, and none as soon as a bracket
closes nothing.

Main statements: `balanced_iff_depth?`, both views agree, and `Balanced.body_unique`, a bracket has
at most one partner, since two balanced bodies that are followed by a closing bracket are equal.
-/

namespace TapeLang

/-- Every bracket of the list has its partner in the list. -/
inductive Balanced : List Symbol → Prop
  | nil : Balanced []
  | act {a : Symbol} {l : List Symbol} :
      a.isBracket = false → Balanced l → Balanced (a :: l)
  | loop {body rest : List Symbol} :
      Balanced body → Balanced rest → Balanced (.loopOpen :: (body ++ .loopClose :: rest))

/-- How many loops are open after a list, if `d` are open before it; none if a bracket of it closes
nothing. -/
def depth? : Nat → List Symbol → Option Nat
  | d, [] => some d
  | d, .loopOpen :: l => depth? (d + 1) l
  | 0, .loopClose :: _ => none
  | d + 1, .loopClose :: l => depth? d l
  | d, _ :: l => depth? d l

@[simp] theorem depth?_nil (d : Nat) : depth? d [] = some d := by
  cases d <;> rfl

@[simp] theorem depth?_open (d : Nat) (l : List Symbol) :
    depth? d (.loopOpen :: l) = depth? (d + 1) l := by
  cases d <;> rfl

@[simp] theorem depth?_close_zero (l : List Symbol) : depth? 0 (.loopClose :: l) = none := rfl

@[simp] theorem depth?_close_succ (d : Nat) (l : List Symbol) :
    depth? (d + 1) (.loopClose :: l) = depth? d l := rfl

theorem depth?_act {a : Symbol} (h : a.isBracket = false) (d : Nat) (l : List Symbol) :
    depth? d (a :: l) = depth? d l := by
  cases a with
  | loopOpen => cases h
  | loopClose => cases h
  | _ => cases d <;> rfl

theorem depth?_append (d : Nat) (a b : List Symbol) :
    depth? d (a ++ b) = (depth? d a).bind fun e => depth? e b := by
  induction a generalizing d with
  | nil => simp
  | cons s a ih =>
    cases hs : s.isBracket with
    | false => rw [List.cons_append, depth?_act hs, depth?_act hs, ih]
    | true =>
      cases s with
      | loopOpen => simp [ih]
      | loopClose => cases d <;> simp [ih]
      | _ => cases hs

theorem depth?_prefix {d e : Nat} {a b : List Symbol} (h : depth? d (a ++ b) = some e) :
    ∃ n, depth? d a = some n ∧ depth? n b = some e := by
  rw [depth?_append] at h
  exact Option.bind_eq_some_iff.mp h

theorem depth?_cons (d : Nat) (a : Symbol) (l : List Symbol) :
    depth? d (a :: l) = (depth? d [a]).bind fun e => depth? e l :=
  depth?_append d [a] l

/-! ### Both views agree -/

namespace Balanced

theorem append {a b : List Symbol} (ha : Balanced a) (hb : Balanced b) : Balanced (a ++ b) := by
  induction ha with
  | nil => exact hb
  | act h _ ih => exact .act h ih
  | loop hbody _ _ ih =>
    rw [List.cons_append, List.append_assoc]
    exact .loop hbody ih

theorem replicate_append {a : Symbol} (ha : a.isBracket = false) (n : Nat) {l : List Symbol}
    (h : Balanced l) : Balanced (List.replicate n a ++ l) := by
  induction n with
  | zero => exact h
  | succ n ih => exact .act ha ih

theorem depth?_eq {l : List Symbol} (h : Balanced l) (d : Nat) : depth? d l = some d := by
  induction h generalizing d with
  | nil => simp
  | act h _ ih => rw [depth?_act h, ih]
  | loop _ _ ihb ihr =>
    rw [depth?_open, depth?_append, ihb, Option.bind_some, depth?_close_succ, ihr]

/-- Half of the brackets open a loop, and half of them close one. -/
theorem count_loopClose {l : List Symbol} (h : Balanced l) :
    l.count .loopClose = l.count .loopOpen := by
  induction h with
  | nil => rfl
  | @act a _ ha _ ih =>
    have hopen : a ≠ .loopOpen := by
      rintro rfl
      cases ha
    have hclose : a ≠ .loopClose := by
      rintro rfl
      cases ha
    rw [List.count_cons_of_ne hopen, List.count_cons_of_ne hclose, ih]
  | loop _ _ ihb ihr =>
    simp [List.count_append, ihb, ihr]
    omega

end Balanced

/-- A list that closes `d` loops and leaves none open: balanced parts with closing brackets between
them. -/
inductive Closes : Nat → List Symbol → Prop
  | zero {l : List Symbol} : Balanced l → Closes 0 l
  | succ {d : Nat} {body rest : List Symbol} :
      Balanced body → Closes d rest → Closes (d + 1) (body ++ .loopClose :: rest)

theorem Closes.prepend {d : Nat} {a l : List Symbol} (ha : Balanced a) (h : Closes d l) :
    Closes d (a ++ l) := by
  cases h with
  | zero hl => exact .zero (ha.append hl)
  | succ hb hr =>
    rw [← List.append_assoc]
    exact .succ (ha.append hb) hr

theorem closes_of_depth? {d : Nat} {l : List Symbol} (h : depth? d l = some 0) : Closes d l := by
  induction l generalizing d with
  | nil =>
    rw [depth?_nil] at h
    cases h
    exact .zero .nil
  | cons s l ih =>
    cases hs : s.isBracket with
    | false =>
      rw [depth?_act hs] at h
      exact (ih h).prepend (.act hs .nil)
    | true =>
      cases s with
      | loopOpen =>
        rw [depth?_open] at h
        -- what follows closes one loop more, and the first bracket to do so is the partner
        cases ih h with
        | @succ _ body rest hb hr =>
          have hl : Balanced (.loopOpen :: (body ++ [.loopClose])) := .loop hb .nil
          simpa using hr.prepend hl
      | loopClose =>
        cases d with
        | zero => cases h
        | succ d => exact .succ .nil (ih h)
      | _ => cases hs

theorem balanced_iff_depth? {l : List Symbol} : Balanced l ↔ depth? 0 l = some 0 := by
  constructor
  · intro h
    exact h.depth?_eq 0
  · intro h
    cases closes_of_depth? h with
    | zero hl => exact hl

/-- An opening bracket of a balanced list is closed in what follows it. -/
theorem Balanced.exists_close {x y : List Symbol} (h : Balanced (x ++ .loopOpen :: y)) :
    ∃ body rest, y = body ++ .loopClose :: rest ∧ Balanced body := by
  obtain ⟨n, -, hn⟩ := depth?_prefix (h.depth?_eq 0)
  rw [depth?_open] at hn
  cases closes_of_depth? hn with
  | succ hbody _ => exact ⟨_, _, rfl, hbody⟩

/-! ### Partners are unique -/

/-- No balanced list goes on after it has closed a loop of its surroundings. -/
theorem Balanced.not_close_append {a l : List Symbol} (ha : Balanced a) :
    ¬ Balanced (a ++ .loopClose :: l) := by
  intro h
  have hd := h.depth?_eq 0
  rw [depth?_append, ha.depth?_eq, Option.bind_some, depth?_close_zero] at hd
  cases hd

theorem Balanced.body_unique {a b x y : List Symbol} (ha : Balanced a) (hb : Balanced b)
    (h : a ++ .loopClose :: x = b ++ .loopClose :: y) : a = b ∧ x = y := by
  rcases List.append_eq_append_iff.mp h with ⟨c, rfl, hc⟩ | ⟨c, rfl, hc⟩
  · cases c with
    | nil => simpa using hc
    | cons s c =>
      rw [List.cons_append, List.cons.injEq] at hc
      obtain ⟨rfl, -⟩ := hc
      exact absurd hb ha.not_close_append
  · cases c with
    | nil => simpa [eq_comm] using hc
    | cons s c =>
      rw [List.cons_append, List.cons.injEq] at hc
      obtain ⟨rfl, -⟩ := hc
      exact absurd ha hb.not_close_append

end TapeLang
