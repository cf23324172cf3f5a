import Mathlib.Data.List.Basic
import TapeLang.Text.Utf8

/-!
What bytes stand for, wherever they are cut into blocks.

`decodeFrom` is the decoder without its positions: what some bytes stand for after the bytes of an
unfinished character, and what is unfinished after them.  Bytes in two blocks stand for what they
stand for together (`decodeFrom_append`), and the decoder agrees with it (`foldl_feed`).  `unify`
says how line ends come out, with one bit of memory for a carriage return just before, so that a
text may be cut there too.  The bytes of a text stand for the text (`decodeFrom_utf8Encode`), and
so a file that holds it is read as the text with its line ends unified (`decodeAll_toUTF8`).
-/

namespace TapeLang.Text

/-! ### Bytes to characters -/

/-- The character that some bytes are, or the bytes as those of an unfinished one, where a character
has `length` bytes. -/
def complete (bytes : List UInt8) (length : Nat) : Option Char × List UInt8 :=
  if bytes.length = length then (some (charOfBytes bytes), []) else (none, bytes)

/-- A byte after the bytes of an unfinished character: the character it completes, if it does, and
what is unfinished then.  None if the byte cannot stand there. -/
def advance (pending : List UInt8) (b : UInt8) : Option (Option Char × List UInt8) :=
  match pending with
  | [] => (sequenceLength? b).map (complete [b])
  | lead :: more =>
    if continues (lead :: more) b then
      some (complete (lead :: more ++ [b]) ((sequenceLength? lead).getD 1))
    else none

/-- What bytes after those of an unfinished character stand for, and what is unfinished then. -/
def decodeFrom : (pending bytes : List UInt8) → Option (List Char × List UInt8)
  | pending, [] => some ([], pending)
  | pending, b :: bytes =>
    (advance pending b).bind fun x =>
      (decodeFrom x.2 bytes).map fun y => (x.1.toList ++ y.1, y.2)

section

variable {pending left bytes more : List UInt8} {cs : List Char}

theorem decodeFrom_append (pending bytes more : List UInt8) :
    decodeFrom pending (bytes ++ more) =
      (decodeFrom pending bytes).bind fun x =>
        (decodeFrom x.2 more).map fun y => (x.1 ++ y.1, y.2) := by
  induction bytes generalizing pending with
  | nil => simp [decodeFrom]
  | cons b bytes ih =>
    rw [List.cons_append, decodeFrom, decodeFrom]
    cases advance pending b with
    | none => rfl
    | some x =>
      simp only [Option.bind_some, ih]
      cases decodeFrom x.2 bytes with
      | none => rfl
      | some y =>
        simp only [Option.bind_some, Option.map_some]
        cases decodeFrom y.2 more with
        | none => rfl
        | some z => simp

/-- A character takes at least one byte. -/
theorem length_le_of_decodeFrom (h : decodeFrom pending bytes = some (cs, left)) :
    cs.length ≤ bytes.length := by
  induction bytes generalizing pending cs with
  | nil =>
    rw [decodeFrom, Option.some.injEq, Prod.mk.injEq] at h
    simp [← h.1]
  | cons b bytes ih =>
    rw [decodeFrom] at h
    obtain ⟨x, -, h⟩ := Option.bind_eq_some_iff.mp h
    obtain ⟨y, hy, h⟩ := Option.map_eq_some_iff.mp h
    obtain ⟨rfl, rfl⟩ := Prod.mk.inj h
    have hrest := ih hy
    have hone : x.1.toList.length ≤ 1 := by cases x.1 <;> simp
    simp only [List.length_append, List.length_cons]
    omega

theorem feed_of_advance {d : Decoder} {b : UInt8} {x : Option Char × List UInt8}
    (hd : d.error = none) (h : advance d.pending b = some x) :
    (d.feed b).error = none ∧ (d.feed b).chars.toList = d.chars.toList ++ x.1.toList ∧
      (d.feed b).pending = x.2 := by
  have hextend : ∀ bytes length, (d.extend bytes length).error = none ∧
      (d.extend bytes length).chars.toList = d.chars.toList ++ (complete bytes length).1.toList ∧
      (d.extend bytes length).pending = (complete bytes length).2 := by
    intro bytes length
    unfold Decoder.extend complete
    split <;> simp [hd]
  unfold advance at h
  unfold Decoder.feed
  rw [hd]
  dsimp only
  cases hpending : d.pending with
  | nil =>
    rw [hpending] at h
    obtain ⟨n, hn, rfl⟩ := Option.map_eq_some_iff.mp h
    simp only [hn]
    exact hextend [b] n
  | cons lead more =>
    rw [hpending] at h
    dsimp only at h ⊢
    split at h
    · rename_i hcontinues
      obtain rfl := Option.some.inj h
      rw [if_pos hcontinues]
      exact hextend _ _
    · cases h

theorem feed_of_advance_none {d : Decoder} {b : UInt8} (hd : d.error = none)
    (h : advance d.pending b = none) : (d.feed b).error ≠ none := by
  unfold advance at h
  unfold Decoder.feed
  rw [hd]
  dsimp only
  cases hpending : d.pending with
  | nil =>
    rw [hpending] at h
    simp [Option.map_eq_none_iff.mp h]
  | cons lead more =>
    rw [hpending] at h
    dsimp only at h ⊢
    split at h
    · cases h
    · rename_i hcontinues
      rw [if_neg hcontinues]
      simp

theorem foldl_feed_of_error {d : Decoder} (hd : d.error ≠ none) (bytes : List UInt8) :
    (bytes.foldl Decoder.feed d).error ≠ none := by
  induction bytes generalizing d with
  | nil => exact hd
  | cons b bytes ih =>
    obtain ⟨e, he⟩ := Option.ne_none_iff_exists'.mp hd
    have hsame : d.feed b = d := by rw [Decoder.feed, he]
    rw [List.foldl_cons, hsame]
    exact ih hd

/-- The decoder decodes. -/
theorem foldl_feed {d : Decoder} (hd : d.error = none)
    (h : decodeFrom d.pending bytes = some (cs, left)) :
    (bytes.foldl Decoder.feed d).error = none ∧
      (bytes.foldl Decoder.feed d).chars.toList = d.chars.toList ++ cs ∧
      (bytes.foldl Decoder.feed d).pending = left := by
  induction bytes generalizing d cs with
  | nil =>
    rw [decodeFrom, Option.some.injEq, Prod.mk.injEq] at h
    simp [hd, ← h.1, h.2]
  | cons b bytes ih =>
    rw [decodeFrom] at h
    obtain ⟨x, hx, h⟩ := Option.bind_eq_some_iff.mp h
    obtain ⟨y, hy, h⟩ := Option.map_eq_some_iff.mp h
    obtain ⟨rfl, rfl⟩ := Prod.mk.inj h
    obtain ⟨herror, hchars, hpending⟩ := feed_of_advance hd hx
    rw [← hpending] at hy
    obtain ⟨herror', hchars', hpending'⟩ := ih herror hy
    rw [List.foldl_cons]
    exact ⟨herror', by rw [hchars', hchars, List.append_assoc], hpending'⟩

/-- Bytes that stand for nothing make it fail. -/
theorem foldl_feed_of_none {d : Decoder} (hd : d.error = none)
    (h : decodeFrom d.pending bytes = none) : (bytes.foldl Decoder.feed d).error ≠ none := by
  induction bytes generalizing d with
  | nil => cases h
  | cons b bytes ih =>
    rw [decodeFrom] at h
    rw [List.foldl_cons]
    cases hx : advance d.pending b with
    | none => exact foldl_feed_of_error (feed_of_advance_none hd hx) bytes
    | some x =>
      rw [hx, Option.bind_some, Option.map_eq_none_iff] at h
      obtain ⟨herror, -, hpending⟩ := feed_of_advance hd hx
      rw [← hpending] at h
      exact ih herror h

end

/-! ### Line ends -/

/-- How characters come out, where `afterReturn` says whether a carriage return stood before. -/
def unify : (afterReturn : Bool) → List Char → List Char
  | _, [] => []
  | afterReturn, c :: cs =>
    if c = '\r' then '\n' :: unify true cs
    else if c = '\n' ∧ afterReturn = true then unify false cs
    else c :: unify false cs

/-- How one character comes out behind others. -/
def unifyStep (x : Array Char × Bool) (c : Char) : Array Char × Bool :=
  if c == '\r' then (x.1.push '\n', true)
  else if c == '\n' && x.2 then (x.1, false)
  else (x.1.push c, false)

theorem toList_foldl_unifyStep (cs : List Char) (x : Array Char × Bool) :
    (cs.foldl unifyStep x).1.toList = x.1.toList ++ unify x.2 cs := by
  induction cs generalizing x with
  | nil => simp [unify]
  | cons c cs ih =>
    rw [List.foldl_cons, ih, unifyStep, unify]
    by_cases hreturn : c = '\r'
    · simp [hreturn]
    · by_cases hskip : c = '\n' ∧ x.2 = true
      · simp [hskip]
      · simp [hreturn, hskip]

theorem toList_unifyLineEnds (cs : Array Char) :
    (unifyLineEnds cs).toList = unify false cs.toList := by
  have hfold : unifyLineEnds cs = (cs.foldl unifyStep (#[], false)).1 := rfl
  rw [hfold, ← Array.foldl_toList, toList_foldl_unifyStep, List.nil_append]

/-- A text may be cut before a carriage return. -/
theorem unify_append_return (afterReturn : Bool) (front cs : List Char) :
    unify afterReturn (front ++ '\r' :: cs) =
      unify afterReturn front ++ unify false ('\r' :: cs) := by
  induction front generalizing afterReturn with
  | nil => simp [unify]
  | cons c front ih =>
    rw [List.cons_append, unify, unify]
    split
    · rw [ih, List.cons_append]
    · split
      · exact ih false
      · rw [ih, List.cons_append]

/-- A text may be cut behind any other character. -/
theorem unify_append {front : List Char} {c : Char} (hc : c ≠ '\r') (afterReturn : Bool)
    (cs : List Char) :
    unify afterReturn (front ++ [c] ++ cs) =
      unify afterReturn (front ++ [c]) ++ unify false cs := by
  induction front generalizing afterReturn with
  | nil =>
    rw [List.nil_append, List.singleton_append, unify, unify, if_neg hc, if_neg hc]
    split
    · rw [unify, List.nil_append]
    · rw [unify, List.singleton_append]
  | cons d front ih =>
    simp only [List.cons_append, unify]
    split
    · rw [ih]
      rfl
    · split
      · exact ih false
      · rw [ih]
        rfl

/-- Line ends do not get more. -/
theorem length_unify_le (afterReturn : Bool) (cs : List Char) :
    (unify afterReturn cs).length ≤ cs.length := by
  induction cs generalizing afterReturn with
  | nil => simp [unify]
  | cons c cs ih =>
    rw [unify]
    have htrue := ih true
    have hfalse := ih false
    split
    · simpa using htrue
    · split
      · simp only [List.length_cons]
        omega
      · simpa using hfalse

/-! ### Whole texts -/

theorem finish_of_pending_nil {d : Decoder} (hpending : d.pending = []) : d.finish = d := by
  rw [Decoder.finish, hpending]
  split <;> simp_all

theorem error_finish_of_pending {d : Decoder} (hpending : d.pending ≠ []) :
    d.finish.error ≠ none := by
  obtain ⟨b, more, hcons⟩ := List.exists_cons_of_ne_nil hpending
  rw [Decoder.finish, hcons]
  cases herror : d.error <;> simp [herror]

theorem error_finish_of_error {d : Decoder} (hd : d.error ≠ none) : d.finish.error ≠ none := by
  obtain ⟨e, he⟩ := Option.ne_none_iff_exists'.mp hd
  rw [Decoder.finish, he]
  simp [he]

/-- Bytes that stand for complete characters are decoded. -/
theorem decodeAll_of_decodeFrom {bytes : ByteArray} {cs : List Char}
    (h : decodeFrom [] bytes.data.toList = some (cs, [])) :
    decodeAll bytes = .ok (String.ofList (unify false cs)) := by
  have hd : (Decoder.resume []).error = none := rfl
  obtain ⟨herror, hchars, hpending⟩ := foldl_feed hd h
  rw [decodeAll, ← Array.foldl_toList, finish_of_pending_nil hpending, herror]
  dsimp only
  rw [toList_unifyLineEnds, hchars]
  rfl

/-- Other bytes are not. -/
theorem decodeAll_of_decodeFrom_ne {bytes : ByteArray}
    (h : ∀ cs, decodeFrom [] bytes.data.toList ≠ some (cs, [])) :
    ∃ e, decodeAll bytes = .error e := by
  have hd : (Decoder.resume []).error = none := rfl
  have herror : (bytes.data.toList.foldl Decoder.feed (Decoder.resume [])).finish.error ≠ none := by
    cases hdecode : decodeFrom [] bytes.data.toList with
    | none => exact error_finish_of_error (foldl_feed_of_none hd hdecode)
    | some x =>
      obtain ⟨-, -, hpending⟩ := foldl_feed hd hdecode
      apply error_finish_of_pending
      rw [hpending]
      intro hnil
      exact h x.1 (by rw [hdecode, ← hnil])
  obtain ⟨e, he⟩ := Option.ne_none_iff_exists'.mp herror
  refine ⟨e, ?_⟩
  rw [decodeAll, ← Array.foldl_toList, he]

/-! ### The bytes of a text -/

theorem sequenceLength?_ofNat {n : Nat} (hn : n < 256) : sequenceLength? (UInt8.ofNat n) =
    if n < 0x80 then some 1
    else if n < 0xc2 then none
    else if n < 0xe0 then some 2
    else if n < 0xf0 then some 3
    else if n < 0xf5 then some 4
    else none := by
  simp [sequenceLength?, UInt8.lt_iff_toNat_lt, Nat.mod_eq_of_lt hn]

/-- The last bytes of a character complete it. -/
theorem decodeFrom_tail {lead second : UInt8} {front tail : List UInt8} (hne : tail ≠ [])
    (hlead : sequenceLength? lead = some (front.length + tail.length + 2))
    (htail : ∀ b ∈ tail, 0x80 ≤ b ∧ b ≤ 0xbf) :
    decodeFrom (lead :: second :: front) tail =
      some ([charOfBytes (lead :: second :: (front ++ tail))], []) := by
  induction tail generalizing front with
  | nil => exact absurd rfl hne
  | cons b tail ih =>
    have hcontinues : continues (lead :: second :: front) b = true := by
      obtain ⟨hlow, hhigh⟩ := htail b List.mem_cons_self
      simp [continues, hlow, hhigh]
    rw [decodeFrom, advance, if_pos hcontinues, hlead, Option.getD_some, Option.bind_some, complete]
    cases tail with
    | nil => simp [decodeFrom]
    | cons next tail =>
      have hrest : decodeFrom (lead :: second :: (front ++ [b])) (next :: tail) =
          some ([charOfBytes (lead :: second :: (front ++ [b] ++ next :: tail))], []) := by
        apply ih (by simp)
        · simp only [hlead, List.length_append, List.length_cons, List.length_nil]
          congr 1
          omega
        · exact fun x hx => htail x (List.mem_cons_of_mem b hx)
      rw [if_neg (by simp)]
      simp only [List.cons_append, hrest]
      simp

/-- The bytes of a character of more than one byte. -/
theorem decodeFrom_sequence {lead second : UInt8} {tail : List UInt8}
    (hlead : sequenceLength? lead = some (tail.length + 2))
    (hsecond : continues [lead] second = true)
    (htail : ∀ b ∈ tail, 0x80 ≤ b ∧ b ≤ 0xbf) :
    decodeFrom [] (lead :: second :: tail) = some ([charOfBytes (lead :: second :: tail)], []) := by
  rw [decodeFrom, advance, hlead, Option.map_some, Option.bind_some, complete, if_neg (by simp),
    decodeFrom, advance, if_pos hsecond, hlead, Option.getD_some, Option.bind_some, complete]
  cases tail with
  | nil => simp [decodeFrom]
  | cons b tail =>
    have hrest : decodeFrom [lead, second] (b :: tail) =
        some ([charOfBytes (lead :: second :: ([] ++ b :: tail))], []) :=
      decodeFrom_tail (List.cons_ne_nil b tail) (by simpa using hlead) htail
    rw [if_neg (by simp)]
    simp [hrest]

theorem toNat_ofNat_of_lt {n : Nat} (hn : n < 256) : (UInt8.ofNat n).toNat = n := by
  simp [Nat.mod_eq_of_lt hn]

/-- The bytes that may come second, after each first one. -/
theorem continues_ofNat {lead b : Nat} (hlead : lead < 256)
    (hb : 0x80 ≤ b ∧ b ≤ 0xbf ∧ (lead = 0xe0 → 0xa0 ≤ b) ∧ (lead = 0xf0 → 0x90 ≤ b) ∧
      (lead = 0xed → b ≤ 0x9f) ∧ (lead = 0xf4 → b ≤ 0x8f)) :
    continues [UInt8.ofNat lead] (UInt8.ofNat b) = true := by
  obtain ⟨hlow, hhigh, he0, hf0, hed, hf4⟩ := hb
  have hle : ∀ n < 256, (UInt8.ofNat n ≤ UInt8.ofNat b ↔ n ≤ b) ∧
      (UInt8.ofNat b ≤ UInt8.ofNat n ↔ b ≤ n) := by
    intro n hn
    simp only [UInt8.le_iff_toNat_le, toNat_ofNat_of_lt hn,
      toNat_ofNat_of_lt (show b < 256 by omega), and_self]
  have heq : ∀ n < 256, (UInt8.ofNat lead = UInt8.ofNat n ↔ lead = n) := by
    intro n hn
    rw [← UInt8.toNat_inj, toNat_ofNat_of_lt hlead, toNat_ofNat_of_lt hn]
  simp only [continues, Bool.and_eq_true, decide_eq_true_eq]
  constructor
  · split
    · rename_i h
      exact (hle 0xa0 (by decide)).1.mpr (he0 ((heq 0xe0 (by decide)).mp h))
    · split
      · rename_i h
        exact (hle 0x90 (by decide)).1.mpr (hf0 ((heq 0xf0 (by decide)).mp h))
      · exact (hle 0x80 (by decide)).1.mpr hlow
  · split
    · rename_i h
      exact (hle 0x9f (by decide)).2.mpr (hed ((heq 0xed (by decide)).mp h))
    · split
      · rename_i h
        exact (hle 0x8f (by decide)).2.mpr (hf4 ((heq 0xf4 (by decide)).mp h))
      · exact (hle 0xbf (by decide)).2.mpr hhigh

theorem continuation_ofNat {n : Nat} (hn : n < 0x40) :
    0x80 ≤ UInt8.ofNat (n + 0x80) ∧ UInt8.ofNat (n + 0x80) ≤ 0xbf := by
  rw [UInt8.le_iff_toNat_le, UInt8.le_iff_toNat_le, toNat_ofNat_of_lt (by omega)]
  constructor
  · exact Nat.le_add_left _ _
  · show n + 0x80 ≤ 0xbf
    omega

/-- The bytes of a character stand for it. -/
theorem decodeFrom_utf8EncodeChar (c : Char) :
    decodeFrom [] (String.utf8EncodeChar c) = some ([c], []) := by
  have hvalid := c.valid
  have hc : Char.ofNat c.val.toNat = c := Char.ofNat_toNat c
  unfold String.utf8EncodeChar
  simp only [UInt32.isValidChar, Nat.isValidChar] at hvalid
  generalize c.val.toNat = v at hvalid hc ⊢
  -- One case for each number of bytes: the first byte tells their number, the others may stand
  -- behind it, and together they give the value back (`hv`).
  by_cases h1 : v ≤ 0x7f
  · have hlead := sequenceLength?_ofNat (n := v) (by omega)
    rw [if_pos (by omega)] at hlead
    rw [if_pos h1, decodeFrom, advance, hlead]
    simp [complete, decodeFrom, charOfBytes, Nat.mod_eq_of_lt (show v < 256 by omega), hc]
  rw [if_neg h1]
  by_cases h2 : v ≤ 0x7ff
  · have hlead := sequenceLength?_ofNat (n := v / 64 % 0x20 + 0xc0) (by omega)
    rw [if_neg (by omega), if_neg (by omega), if_pos (by omega)] at hlead
    have hsecond : continues [UInt8.ofNat (v / 64 % 0x20 + 0xc0)] (UInt8.ofNat (v % 0x40 + 0x80)) :=
      continues_ofNat (by omega) (by omega)
    have hv : (v / 64 % 0x20 + 0xc0 - 0xc0) * 0x40 + (v % 0x40 + 0x80 - 0x80) = v := by omega
    rw [if_pos h2, decodeFrom_sequence hlead hsecond (by simp), charOfBytes,
      toNat_ofNat_of_lt (by omega), toNat_ofNat_of_lt (by omega), hv, hc]
  rw [if_neg h2]
  by_cases h3 : v ≤ 0xffff
  · have hlead := sequenceLength?_ofNat (n := v / 4096 % 0x10 + 0xe0) (by omega)
    rw [if_neg (by omega), if_neg (by omega), if_neg (by omega), if_pos (by omega)] at hlead
    have hsecond : continues [UInt8.ofNat (v / 4096 % 0x10 + 0xe0)]
        (UInt8.ofNat (v / 64 % 0x40 + 0x80)) := continues_ofNat (by omega) (by omega)
    have htail : ∀ b ∈ [UInt8.ofNat (v % 0x40 + 0x80)], 0x80 ≤ b ∧ b ≤ 0xbf := by
      intro b hb
      rw [List.mem_singleton.mp hb]
      exact continuation_ofNat (by omega)
    have hv : ((v / 4096 % 0x10 + 0xe0 - 0xe0) * 0x40 + (v / 64 % 0x40 + 0x80 - 0x80)) * 0x40 +
        (v % 0x40 + 0x80 - 0x80) = v := by omega
    rw [if_pos h3, decodeFrom_sequence hlead hsecond htail, charOfBytes,
      toNat_ofNat_of_lt (by omega), toNat_ofNat_of_lt (by omega), toNat_ofNat_of_lt (by omega), hv,
      hc]
  · have hlead := sequenceLength?_ofNat (n := v / 262144 % 0x08 + 0xf0) (by omega)
    rw [if_neg (by omega), if_neg (by omega), if_neg (by omega), if_neg (by omega),
      if_pos (by omega)] at hlead
    have hsecond : continues [UInt8.ofNat (v / 262144 % 0x08 + 0xf0)]
        (UInt8.ofNat (v / 4096 % 0x40 + 0x80)) := continues_ofNat (by omega) (by omega)
    have htail : ∀ b ∈ [UInt8.ofNat (v / 64 % 0x40 + 0x80), UInt8.ofNat (v % 0x40 + 0x80)],
        0x80 ≤ b ∧ b ≤ 0xbf := by
      intro b hb
      rcases List.mem_pair.mp hb with rfl | rfl
      · exact continuation_ofNat (by omega)
      · exact continuation_ofNat (by omega)
    have hv : (((v / 262144 % 0x08 + 0xf0 - 0xf0) * 0x40 + (v / 4096 % 0x40 + 0x80 - 0x80)) * 0x40 +
        (v / 64 % 0x40 + 0x80 - 0x80)) * 0x40 + (v % 0x40 + 0x80 - 0x80) = v := by omega
    rw [if_neg h3, decodeFrom_sequence hlead hsecond htail, charOfBytes,
      toNat_ofNat_of_lt (by omega), toNat_ofNat_of_lt (by omega), toNat_ofNat_of_lt (by omega),
      toNat_ofNat_of_lt (by omega), hv, hc]

theorem decodeFrom_utf8Encode (cs : List Char) :
    decodeFrom [] (cs.flatMap String.utf8EncodeChar) = some (cs, []) := by
  induction cs with
  | nil => rfl
  | cons c cs ih =>
    rw [List.flatMap_cons, decodeFrom_append, decodeFrom_utf8EncodeChar, Option.bind_some, ih]
    rfl

/-- A file that holds a text is read as the text with its line ends unified. -/
theorem decodeAll_toUTF8 (text : String) :
    decodeAll text.toUTF8 = .ok (String.ofList (unify false text.toList)) := by
  apply decodeAll_of_decodeFrom
  have hbytes : text.toUTF8.data.toList = text.toList.flatMap String.utf8EncodeChar := by
    rw [String.toUTF8_eq_toByteArray, ← String.utf8Encode_toList]
    simp [List.utf8Encode]
  rw [hbytes]
  exact decodeFrom_utf8Encode text.toList

end TapeLang.Text
