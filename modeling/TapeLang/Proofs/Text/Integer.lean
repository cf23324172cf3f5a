import Mathlib.Data.List.Basic
import Mathlib.Tactic.Common
import TapeLang.Text.Integer

/-!
Integers that are written and read again.

An integer is written as a sign, if it needs one, and the digits of its absolute value
(`toList_toString`).  If these are not too many, reading them gives the integer back
(`readInt?_toString`).
-/

namespace TapeLang.Text

theorem toNat_of_isDigit {c : Char} (h : c.isDigit = true) : 48 ≤ c.toNat ∧ c.toNat ≤ 57 := by
  simpa [Char.isDigit, UInt32.le_iff_toNat_le] using h

/-- The digits of a number are those that a reader knows. -/
theorem digit?_of_isDigit {c : Char} (h : c.isDigit = true) : digit? c = some (c.toNat - 48) := by
  rw [digit?, digitZeros, List.find?_cons_of_pos (by simp [toNat_of_isDigit h])]
  rfl

theorem isBlank_of_isDigit {c : Char} (h : c.isDigit = true) : isBlank c = false := by
  have hbounds := toNat_of_isDigit h
  have hspace : c ≠ ' ' := by
    rintro rfl
    cases h
  simp [isBlank, hspace]
  omega

theorem isDigit_of_mem_toDigits {n : Nat} {c : Char} (h : c ∈ Nat.toDigits 10 n) :
    c.isDigit = true :=
  Nat.isDigit_of_mem_toDigits (by decide) (by decide) h

/-- How integers are written. -/
theorem toList_toString (n : Int) :
    (toString n).toList = (if n < 0 then ['-'] else []) ++ Nat.toDigits 10 n.natAbs := by
  rw [Int.toString_eq_repr, Int.repr_eq_if]
  by_cases hn : n < 0
  · have habs : (-n).toNat = n.natAbs := by omega
    have hminus : "-".toList = ['-'] := rfl
    rw [if_neg (by omega), if_pos hn, habs, String.toList_append, hminus,
      Nat.repr_eq_ofList_toDigits, String.toList_ofList]
  · have habs : n.toNat = n.natAbs := by omega
    rw [if_pos (by omega), if_neg hn, habs, Nat.repr_eq_ofList_toDigits, String.toList_ofList]
    rfl

theorem trimBlanks_eq_self {cs : List Char} (h : ∀ c ∈ cs, isBlank c = false) :
    trimBlanks cs = cs := by
  have hdrop : ∀ l : List Char, (∀ c ∈ l, isBlank c = false) → l.dropWhile isBlank = l := by
    intro l hl
    cases l with
    | nil => rfl
    | cons c l => rw [List.dropWhile_cons_of_neg (by simp [hl c])]
  rw [trimBlanks, hdrop cs h, hdrop cs.reverse (by simpa using h), List.reverse_reverse]

theorem readDigits?_toDigits (n : Nat) : readDigits? digit? (Nat.toDigits 10 n) =
    some ((Nat.toDigits 10 n).map fun c => c.toNat - 48) := by
  have hsplit : (Nat.toDigits 10 n).splitOnP (· == '_') = [Nat.toDigits 10 n] := by
    apply List.splitOnP_eq_singleton
    intro c hc
    have hne : c ≠ '_' := by
      rintro rfl
      exact Nat.underscore_not_in_toDigits hc
    simpa using hne
  have hmap : ∀ l : List Char, (∀ c ∈ l, c.isDigit = true) →
      l.mapM digit? = some (l.map fun c => c.toNat - 48) := by
    intro l hl
    induction l with
    | nil => rfl
    | cons c l ih =>
      rw [List.mapM_cons, digit?_of_isDigit (hl c List.mem_cons_self),
        ih fun d hd => hl d (List.mem_cons_of_mem c hd)]
      rfl
  rw [readDigits?, hsplit, List.foldr_cons, List.foldr_nil,
    hmap _ fun c hc => isDigit_of_mem_toDigits hc]
  simp

theorem ofDigits_toDigits (n : Nat) :
    ofDigits ((Nat.toDigits 10 n).map fun c => c.toNat - 48) = n := by
  conv_rhs => rw [← Nat.ofDigitChars_ten_toDigits (n := n), Nat.ofDigitChars_eq_foldl]
  rw [ofDigits, List.foldl_map]
  simp only [Nat.mul_comm 10]
  rfl

/-- An integer with not too many digits is read as it was written. -/
theorem readInt?_toString {n : Int} (h : (Nat.toDigits 10 n.natAbs).length ≤ maxDigits) :
    readInt? (toString n) = some n := by
  have hblank : ∀ c ∈ (toString n).toList, isBlank c = false := by
    rw [toList_toString]
    intro c hc
    rcases List.mem_append.mp hc with hc | hc
    · split at hc
      · obtain rfl := List.mem_singleton.mp hc
        decide
      · cases hc
    · exact isBlank_of_isDigit (isDigit_of_mem_toDigits hc)
  have hsign : splitSign (toString n).toList = (decide (n < 0), Nat.toDigits 10 n.natAbs) := by
    rw [toList_toString]
    by_cases hn : n < 0
    · simp [hn, splitSign]
    · rw [if_neg hn, List.nil_append, decide_eq_false hn]
      cases hdigits : Nat.toDigits 10 n.natAbs with
      | nil => rfl
      | cons c cs =>
        -- The text begins with a digit, which is not a sign.
        have hdigit : c.isDigit = true :=
          isDigit_of_mem_toDigits (n := n.natAbs) (by rw [hdigits]; exact List.mem_cons_self)
        unfold splitSign
        split
        · rename_i heq
          obtain ⟨rfl, -⟩ := List.cons.inj heq
          cases hdigit
        · rename_i heq
          obtain ⟨rfl, -⟩ := List.cons.inj heq
          cases hdigit
        · rfl
  have hsigned : signed (decide (n < 0)) n.natAbs = n := by
    rw [signed]
    by_cases hn : n < 0
    · rw [if_pos (decide_eq_true hn)]
      omega
    · rw [if_neg (by simpa using hn)]
      omega
  simp only [readInt?, trimBlanks_eq_self hblank, hsign, readDigits?_toDigits, List.length_map,
    Nat.not_lt.mpr h, if_false, ofDigits_toDigits, hsigned, bind, Option.bind, pure]

end TapeLang.Text
