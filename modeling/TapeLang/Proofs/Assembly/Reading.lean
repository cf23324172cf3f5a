import Std.Data.String.ToInt
import Std.Data.String.ToNat
import TapeLang.Assembly.Print

/-!
Reading a listing back.

The reader knows nothing of the columns the writer keeps.  It cuts a text into lines and a line into
words: blanks only separate, and each of the marks `,`, `(`, `)` and `:` is a word of its own.  What
a line says is then decided by its words alone.

Main statement: `readListing?_render`, a written listing reads back as the lines it was written
from, whatever they are.  It goes constructor by constructor, from the words of a register to the
words of a line, and the two lemmas that carry it are `words_append`, which cuts a text at a
separator, and `words_plain`, which says that a text without separators is one word.
-/

namespace TapeLang.Assembly

/-! ### Words -/

/-- Marks are words by themselves. -/
def isMark (c : Char) : Bool := c == ',' || c == '(' || c == ')' || c == ':'

/-- What ends a word. -/
def isSeparator (c : Char) : Bool := c == ' ' || isMark c

/-- A word in front of others, unless it is empty. -/
def withWord (word : List Char) (rest : List String) : List String :=
  if word.isEmpty then rest else String.ofList word :: rest

/-- The word a text begins with, which is empty before a separator, and the words behind it. -/
def cutWords : List Char → List Char × List String
  | [] => ([], [])
  | c :: cs =>
    let (word, rest) := cutWords cs
    if c == ' ' then ([], withWord word rest)
    else if isMark c then ([], c.toString :: withWord word rest)
    else (c :: word, rest)

/-- The words of a line. -/
def words (cs : List Char) : List String := withWord (cutWords cs).1 (cutWords cs).2

/-! ### Lines -/

def readReg? : String → Option Reg
  | "%r9" => some .r9
  | "%r10" => some .r10
  | "%r11" => some .r11
  | "%rcx" => some .rcx
  | "%rsi" => some .rsi
  | "%eax" => some .eax
  | "%edi" => some .edi
  | "%edx" => some .edx
  | _ => none

/-- A loop is named by its number, and the place behind it by the number and an ending. -/
def readLoopLabel? (cs : List Char) : Option Label := do
  let n ← (String.ofList (cs.takeWhile Char.isDigit)).toNat?
  match cs.dropWhile Char.isDigit with
  | [] => some (.loopHead n)
  | ['_', 'e', 'n', 'd'] => some (.loopTail n)
  | _ => none

def readLabel? (s : String) : Option Label :=
  match s.toList with
  | ['_', 's', 't', 'a', 'r', 't'] => some .start
  | 'l' :: 'o' :: 'o' :: 'p' :: cs => readLoopLabel? cs
  | _ => none

def readImm? (s : String) : Option Int :=
  match s.toList with
  | '$' :: cs => (String.ofList cs).toInt?
  | _ => none

/-- What can stand in the place of an operand. -/
inductive Argument where
  | imm (n : Int)
  | reg (r : Reg)
  | address (a : Address)
  deriving DecidableEq, Repr

/-- The operands that words stand for, one or two with a comma between them. -/
def readArguments? : List String → Option (List Argument)
  | [] => some []
  | "," :: ws => readArguments? ws
  | "tape" :: "(" :: "%rip" :: ")" :: ws => do
    return .address .tape :: (← readArguments? ws)
  | "(" :: base :: "," :: index :: ")" :: ws => do
    return .address (.sum (← readReg? base) (← readReg? index)) :: (← readArguments? ws)
  | "(" :: base :: "," :: index :: "," :: "1" :: ")" :: ws => do
    return .address (.cell (← readReg? base) (← readReg? index)) :: (← readArguments? ws)
  | w :: ws => do
    let argument ← ((readReg? w).map .reg).or ((readImm? w).map .imm)
    return argument :: (← readArguments? ws)

/-- The instruction a mnemonic and its operands stand for. -/
def instrOf? : String → List Argument → Option Instr
  | "xor", [.reg s, .reg t] => some (.xor s t)
  | "mov", [.imm n, .reg t] => some (.mov (.imm n) t)
  | "mov", [.reg s, .reg t] => some (.mov (.reg s) t)
  | "movabs", [.imm n, .reg t] => some (.movabs n t)
  | "lea", [.address a, .reg t] => some (.lea a t)
  | "add", [.imm n, .reg t] => some (.add (.imm n) t)
  | "add", [.reg s, .reg t] => some (.add (.reg s) t)
  | "sub", [.imm n, .reg t] => some (.sub (.imm n) t)
  | "sub", [.reg s, .reg t] => some (.sub (.reg s) t)
  | "cmovae", [.reg s, .reg t] => some (.cmovae s t)
  | "cmovb", [.reg s, .reg t] => some (.cmovb s t)
  | "addb", [.imm n, .address a] => some (.addb n a)
  | "subb", [.imm n, .address a] => some (.subb n a)
  | "cmpb", [.imm n, .address a] => some (.cmpb n a)
  | "syscall", [] => some .syscall
  | _, _ => none

/-- The instruction that words stand for.  Jumps take a label, all others take operands. -/
def readInstr? (mnemonic : String) (ws : List String) : Option Instr :=
  match ws with
  | [l] =>
    if mnemonic = "je" then (readLabel? l).map .je
    else if mnemonic = "jne" then (readLabel? l).map .jne
    else none
  | ws => (readArguments? ws).bind (instrOf? mnemonic)

/-- The line that words stand for. -/
def readLine? : List String → Option Line
  | [] => some .blank
  | [".set", "tape_size", ",", n] => n.toInt?.map .setTapeSize
  | [".section", ".bss"] => some (.enter .bss)
  | [".section", ".text"] => some (.enter .text)
  | [".lcomm", "tape", ",", "tape_size"] => some .reserveTape
  | [".global", "_start"] => some .exportStart
  | [l, ":"] => (readLabel? l).map .label
  | w :: ws => (readInstr? w ws).map .instr

/-- The lines of a listing, each of which is ended by a line feed. -/
def cutLines : List Char → List (List Char)
  | [] => []
  | c :: cs =>
    if c == '\n' then [] :: cutLines cs
    else match cutLines cs with
      | [] => [[c]]
      | line :: rest => (c :: line) :: rest

/-- The listing that a text stands for. -/
def readListing? (text : String) : Option (List Line) :=
  (cutLines text.toList).mapM fun cs => readLine? (words cs)

/-! ### Cutting words -/

/-- A text without separators. -/
def Plain (cs : List Char) : Prop := ∀ c ∈ cs, isSeparator c = false

instance (cs : List Char) : Decidable (Plain cs) :=
  List.decidableBAll (fun c => isSeparator c = false) cs

theorem withWord_append (w : List Char) (a b : List String) :
    withWord w (a ++ b) = withWord w a ++ b := by
  unfold withWord
  split <;> rfl

theorem cutWords_separator {c : Char} (h : isSeparator c = true) (cs : List Char) :
    (cutWords (c :: cs)).1 = [] := by
  rw [isSeparator, Bool.or_eq_true] at h
  simp only [cutWords]
  split
  · rfl
  · simp_all

/-- A separator cuts a text in two. -/
theorem words_append (a : List Char) {s : Char} (hs : isSeparator s = true) (b : List Char) :
    words (a ++ s :: b) = words a ++ words (s :: b) := by
  have hb : words (s :: b) = (cutWords (s :: b)).2 := by
    rw [words, cutWords_separator hs]
    rfl
  -- the words behind the first are cut the same way, and the first does not reach the separator
  have key : cutWords (a ++ s :: b) = ((cutWords a).1, (cutWords a).2 ++ words (s :: b)) := by
    induction a with
    | nil => exact Prod.ext (cutWords_separator hs b) hb.symm
    | cons c cs ih =>
      rw [List.cons_append, cutWords, cutWords, ih]
      simp only [withWord_append]
      split
      · rfl
      · split <;> rfl
  rw [words, key, withWord_append]
  rfl

theorem cutWords_plain {cs : List Char} (h : Plain cs) : cutWords cs = (cs, []) := by
  induction cs with
  | nil => rfl
  | cons c cs ih =>
    have hc : isSeparator c = false := h c (by simp)
    rw [isSeparator, Bool.or_eq_false_iff] at hc
    rw [cutWords, ih fun d hd => h d (List.mem_cons_of_mem c hd)]
    simp [hc]

/-- A text without separators is one word. -/
theorem words_plain {s : String} (h : Plain s.toList) (hne : s ≠ "") : words s.toList = [s] := by
  have hne' : s.toList ≠ [] := by simpa using hne
  rw [words, cutWords_plain h, withWord, List.isEmpty_eq_false_iff.mpr hne']
  simp

@[simp] theorem words_blank (cs : List Char) : words (' ' :: cs) = words cs := by
  simp [words, cutWords, withWord]

theorem words_mark {c : Char} (h : isMark c = true) (cs : List Char) :
    words (c :: cs) = c.toString :: words cs := by
  have hc : c ≠ ' ' := by
    rintro rfl
    simp [isMark] at h
  simp [words, cutWords, withWord, h, hc]

@[simp] theorem words_comma (cs : List Char) : words (',' :: cs) = "," :: words cs :=
  words_mark rfl cs

theorem words_blanks (n : Nat) (cs : List Char) : words ((blanks n).toList ++ cs) = words cs := by
  induction n with
  | zero => simp [blanks]
  | succ n ih =>
    rw [blanks, String.toList_ofList] at ih ⊢
    rw [List.replicate_succ, List.cons_append, words_blank, ih]

/-- A word that is padded with at least one blank stands apart from what follows. -/
theorem words_padded {s : String} {width : Nat} (h : Plain s.toList) (hne : s ≠ "")
    (hlt : s.length < width) (cs : List Char) :
    words ((padded width s).toList ++ cs) = s :: words cs := by
  obtain ⟨n, hn⟩ : ∃ n, width - s.length = n + 1 := ⟨width - s.length - 1, by omega⟩
  have hb : (blanks (n + 1)).toList ++ cs = ' ' :: ((blanks n).toList ++ cs) := by
    simp [blanks, List.replicate_succ]
  rw [padded, hn, String.toList_append, List.append_assoc, hb, words_append _ rfl,
    words_plain h hne, words_blank, words_blanks]
  rfl

/-- An operand that is closed by a comma stands apart from the next one. -/
theorem words_comma_padded (s : String) (width : Nat) (cs : List Char) :
    words ((padded width (s ++ ",")).toList ++ cs) = words s.toList ++ "," :: words cs := by
  have hl : (padded width (s ++ ",")).toList ++ cs =
      s.toList ++ ',' :: ((blanks (width - (s ++ ",").length)).toList ++ cs) := by
    simp [padded]
  rw [hl, words_append _ rfl, words_comma, words_blanks]

/-! ### The words of operands -/

theorem words_reg (r : Reg) : words r.render.toList = [r.render] := by
  cases r <;> decide

theorem readReg?_render (r : Reg) : readReg? r.render = some r := by
  cases r <;> rfl

theorem eq_render_of_readReg? {s : String} {r : Reg} (h : readReg? s = some r) : s = r.render := by
  unfold readReg? at h
  split at h <;> cases h <;> rfl

theorem plain_cons {c : Char} {cs : List Char} (hc : isSeparator c = false) (hcs : Plain cs) :
    Plain (c :: cs) := by
  intro d hd
  rcases List.mem_cons.mp hd with rfl | hd
  · exact hc
  · exact hcs d hd

theorem plain_digits (n : Nat) : Plain (Nat.toDigits 10 n) := by
  intro c hc
  have hd : c.isDigit = true := Nat.isDigit_of_mem_toDigits (by decide) (by decide) hc
  cases hs : isSeparator c with
  | false => rfl
  | true =>
    simp only [isSeparator, isMark, Bool.or_eq_true, beq_iff_eq] at hs
    obtain rfl | ((rfl | rfl) | rfl) | rfl := hs <;> simp at hd

theorem plain_int (n : Int) : Plain (toString n).toList := by
  rw [Int.toString_eq_repr, Int.repr_eq_if]
  split
  · simpa using plain_digits _
  · simpa using plain_cons rfl (plain_digits _)

theorem words_int (n : Int) : words (toString n).toList = [toString n] := by
  have hne : (toString n).toList ≠ [] := by
    rw [Int.toString_eq_repr, Int.repr_eq_if]
    split <;> simp
  exact words_plain (plain_int n) fun h => hne (by simp [h])

theorem words_imm (n : Int) : words (renderImm n).toList = [renderImm n] := by
  refine words_plain ?_ ?_
  · simpa [renderImm] using plain_cons rfl (plain_int n)
  · simp [renderImm]

theorem readImm?_render (n : Int) : readImm? (renderImm n) = some n := by
  simp [readImm?, renderImm, Int.toString_eq_repr]

/-- The words an address is written with. -/
def Address.words : Address → List String
  | tape => ["tape", "(", "%rip", ")"]
  | sum base index => ["(", base.render, ",", index.render, ")"]
  | cell base index => ["(", base.render, ",", index.render, ",", "1", ")"]

theorem words_address (a : Address) : Assembly.words a.render.toList = a.words := by
  cases a with
  | tape => decide
  | sum base index =>
    have hl : (Address.sum base index).render.toList =
        '(' :: (base.render.toList ++ ',' :: ' ' :: (index.render.toList ++ [')'])) := by
      simp [Address.render]
    rw [hl, words_mark rfl, words_append _ rfl, words_comma, words_blank, words_append _ rfl,
      words_reg, words_reg]
    rfl
  | cell base index =>
    have hl : (Address.cell base index).render.toList =
        '(' :: (base.render.toList ++ ',' :: ' ' ::
          (index.render.toList ++ [',', ' ', '1', ')'])) := by
      simp [Address.render]
    rw [hl, words_mark rfl, words_append _ rfl, words_comma, words_blank, words_append _ rfl,
      words_reg, words_reg]
    rfl

/-! ### Reading operands -/

theorem readArguments?_comma (ws : List String) :
    readArguments? ("," :: ws) = readArguments? ws := by
  rw [readArguments?]

/-- A word that begins no address is a register or a constant. -/
theorem readArguments?_word {w : String} {a : Argument} (hw : w ∉ [",", "tape", "("])
    (ha : ((readReg? w).map Argument.reg).or ((readImm? w).map .imm) = some a) (ws : List String) :
    readArguments? (w :: ws) = (readArguments? ws).map (a :: ·) := by
  simp only [List.mem_cons, List.not_mem_nil, or_false, not_or] at hw
  obtain ⟨hcomma, htape, hopen⟩ := hw
  rw [readArguments?, ha]
  · cases readArguments? ws <;> rfl
  · exact hcomma
  · intro ws' h
    exact absurd h htape
  · intro b i ws' h
    exact absurd h hopen
  · intro b i ws' h
    exact absurd h hopen

theorem readArguments?_reg (r : Reg) (ws : List String) :
    readArguments? (r.render :: ws) = (readArguments? ws).map (.reg r :: ·) := by
  refine readArguments?_word ?_ ?_ ws
  · cases r <;> decide
  · rw [readReg?_render]
    rfl

theorem readArguments?_imm (n : Int) (ws : List String) :
    readArguments? (renderImm n :: ws) = (readArguments? ws).map (.imm n :: ·) := by
  -- a constant is told from everything else by its first character
  have hne : ∀ s : String, s.toList.head? ≠ some '$' → renderImm n ≠ s := by
    rintro s hs rfl
    simp [renderImm] at hs
  have hreg : readReg? (renderImm n) = none := by
    cases h : readReg? (renderImm n) with
    | none => rfl
    | some r =>
      refine absurd (eq_render_of_readReg? h) (hne _ ?_)
      cases r <;> decide
  refine readArguments?_word ?_ ?_ ws
  · intro h
    simp only [List.mem_cons, List.not_mem_nil, or_false] at h
    rcases h with h | h | h
    · exact hne "," (by decide) h
    · exact hne "tape" (by decide) h
    · exact hne "(" (by decide) h
  · rw [hreg, readImm?_render]
    rfl

theorem readArguments?_address (a : Address) (ws : List String) :
    readArguments? (a.words ++ ws) = (readArguments? ws).map (.address a :: ·) := by
  cases a with
  | tape => simp [Address.words, readArguments?]; cases readArguments? ws <;> rfl
  | sum base index =>
    simp [Address.words, readArguments?, readReg?_render]
    cases readArguments? ws <;> rfl
  | cell base index =>
    simp [Address.words, readArguments?, readReg?_render]
    cases readArguments? ws <;> rfl

/-! ### Labels -/

theorem words_label (l : Label) : words l.render.toList = [l.render] := by
  refine words_plain ?_ ?_
  · intro c hc
    cases l with
    | start =>
      have hs : Plain "_start".toList := by decide
      exact hs c hc
    | loopHead n =>
      have hl : Plain "loop".toList := by decide
      rcases List.mem_append.mp (by simpa only [Label.render, String.toList_append] using hc)
        with hc | hc
      · exact hl c hc
      · exact plain_int n c hc
    | loopTail n =>
      have hl : Plain "loop".toList := by decide
      have he : Plain "_end".toList := by decide
      rcases List.mem_append.mp (by simpa only [Label.render, String.toList_append] using hc)
        with hc | hc
      · rcases List.mem_append.mp hc with hc | hc
        · exact hl c hc
        · exact plain_int n c hc
      · exact he c hc
  · cases l <;> simp [Label.render]

/-- The digits of a number end where something else begins. -/
theorem span_digits (n : Nat) (cs : List Char) (h : cs.head?.all (fun c => !c.isDigit)) :
    (Nat.toDigits 10 n ++ cs).takeWhile Char.isDigit = Nat.toDigits 10 n ∧
      (Nat.toDigits 10 n ++ cs).dropWhile Char.isDigit = cs := by
  have hd : ∀ c ∈ Nat.toDigits 10 n, c.isDigit = true := fun c hc =>
    Nat.isDigit_of_mem_toDigits (b := 10) (by decide) (by decide) hc
  rw [List.takeWhile_append_of_pos hd, List.dropWhile_append_of_pos hd]
  cases cs with
  | nil => simp
  | cons c cs => simp_all

theorem toNat?_digits (n : Nat) : (String.ofList (Nat.toDigits 10 n)).toNat? = some n := by
  rw [← Nat.repr_eq_ofList_toDigits, Nat.toNat?_repr]

theorem readLoopLabel?_head (n : Nat) :
    readLoopLabel? (Nat.toDigits 10 n) = some (.loopHead n) := by
  have h := span_digits n [] rfl
  rw [List.append_nil] at h
  rw [readLoopLabel?, h.1, h.2, toNat?_digits]
  rfl

theorem readLoopLabel?_tail (n : Nat) :
    readLoopLabel? (Nat.toDigits 10 n ++ ['_', 'e', 'n', 'd']) = some (.loopTail n) := by
  have h := span_digits n ['_', 'e', 'n', 'd'] rfl
  rw [readLoopLabel?, h.1, h.2, toNat?_digits]
  rfl

theorem readLabel?_render (l : Label) : readLabel? l.render = some l := by
  cases l with
  | start => rfl
  | loopHead n => simp [readLabel?, Label.render, readLoopLabel?_head]
  | loopTail n => simp [readLabel?, Label.render, readLoopLabel?_tail]

/-! ### The words of a line -/

/-- A mnemonic is a word of its own, shorter than its column, and no directive. -/
structure Mnemonic (m : String) : Prop where
  plain : Plain m.toList
  nonempty : m ≠ ""
  short : m.length < 8
  apart : m.toList.head? ≠ some '.'

/-- The mnemonic of an instruction. -/
def Instr.mnemonic : Instr → String
  | xor .. => "xor"
  | mov .. => "mov"
  | movabs .. => "movabs"
  | lea .. => "lea"
  | add .. => "add"
  | sub .. => "sub"
  | cmovae .. => "cmovae"
  | cmovb .. => "cmovb"
  | addb .. => "addb"
  | subb .. => "subb"
  | cmpb .. => "cmpb"
  | je .. => "je"
  | jne .. => "jne"
  | syscall => "syscall"

theorem mnemonic_instr (i : Instr) : Mnemonic i.mnemonic := by
  cases i <;> rw [Instr.mnemonic] <;> exact ⟨by decide, by decide, by decide, by decide⟩

section

variable {mnemonic : String} (hm : Mnemonic mnemonic)

include hm

theorem words_aligned (first second : String) :
    words (aligned mnemonic first second).toList =
      mnemonic :: (words first.toList ++ "," :: words second.toList) := by
  have hl : (aligned mnemonic first second).toList = (blanks 4).toList ++
      ((padded 8 mnemonic).toList ++ ((padded 16 (first ++ ",")).toList ++ second.toList)) := by
    simp only [aligned, String.toList_append, List.append_assoc]
  rw [hl, words_blanks, words_padded hm.plain hm.nonempty hm.short, words_comma_padded]

theorem words_spaced (gap : Nat) (first second : String) :
    words (spaced gap mnemonic first second).toList =
      mnemonic :: (words first.toList ++ "," :: words second.toList) := by
  have hc : ",".toList = [','] := rfl
  rw [spaced]
  simp only [String.toList_append, List.append_assoc, hc, List.cons_append, List.nil_append]
  rw [words_blanks, words_padded hm.plain hm.nonempty hm.short, words_append _ rfl, words_comma,
    words_blanks]

theorem words_unary (operand : String) :
    words (unary mnemonic operand).toList = mnemonic :: words operand.toList := by
  rw [unary]
  simp only [String.toList_append, List.append_assoc]
  rw [words_blanks, words_padded hm.plain hm.nonempty hm.short]

end

/-! ### Reading lines -/

/-- A line that is neither a directive nor a label holds an instruction. -/
theorem readLine?_instr {w : String} {ws : List String} (hw : w.toList.head? ≠ some '.')
    (hws : ws ≠ [":"]) : readLine? (w :: ws) = (readInstr? w ws).map .instr := by
  have hne : ∀ s : String, s.toList.head? = some '.' → w ≠ s := by
    rintro s hs rfl
    exact hw hs
  rw [readLine?]
  · intro n h
    exact absurd h (hne _ rfl)
  · intro h
    exact absurd h (hne _ rfl)
  · intro h
    exact absurd h (hne _ rfl)
  · intro h
    exact absurd h (hne _ rfl)
  · intro h
    exact absurd h (hne _ rfl)
  · exact hws

theorem readInstr?_binary (mnemonic : String) (ws vs : List String) (hws : ws ≠ []) :
    readInstr? mnemonic (ws ++ "," :: vs) =
      (readArguments? (ws ++ "," :: vs)).bind (instrOf? mnemonic) := by
  unfold readInstr?
  split
  · rename_i l h
    cases ws with
    | nil => exact absurd rfl hws
    | cons w ws => simp at h
  · rfl

/-- An instruction with two operands is read from its mnemonic and the operands. -/
theorem readLine?_binary {mnemonic : String} (hm : Mnemonic mnemonic)
    {ws vs : List String} (hws : ws ≠ []) {a b : Argument}
    (ha : ∀ rest, readArguments? (ws ++ rest) = (readArguments? rest).map (a :: ·))
    (hb : readArguments? vs = some [b]) :
    readLine? (mnemonic :: (ws ++ "," :: vs)) = (instrOf? mnemonic [a, b]).map .instr := by
  have hne : ws ++ "," :: vs ≠ [":"] := by
    cases ws with
    | nil => exact absurd rfl hws
    | cons w ws => simp
  rw [readLine?_instr hm.apart hne, readInstr?_binary _ _ _ hws, ha, readArguments?_comma, hb]
  rfl

theorem readArguments?_single_reg (r : Reg) : readArguments? [r.render] = some [.reg r] :=
  readArguments?_reg r []

theorem readArguments?_single_address (a : Address) :
    readArguments? a.words = some [.address a] := by
  simpa [readArguments?] using readArguments?_address a []

theorem address_words_ne_nil (a : Address) : a.words ≠ [] := by
  cases a <;> simp [Address.words]

theorem readLine?_reg_reg {m : String} (hm : Mnemonic m) (s t : Reg) :
    readLine? (m :: ([s.render] ++ "," :: [t.render])) =
      (instrOf? m [.reg s, .reg t]).map .instr :=
  readLine?_binary hm (by simp) (readArguments?_reg s) (readArguments?_single_reg t)

theorem readLine?_imm_reg {m : String} (hm : Mnemonic m) (n : Int) (t : Reg) :
    readLine? (m :: ([renderImm n] ++ "," :: [t.render])) =
      (instrOf? m [.imm n, .reg t]).map .instr :=
  readLine?_binary hm (by simp) (readArguments?_imm n) (readArguments?_single_reg t)

theorem readLine?_imm_address {m : String} (hm : Mnemonic m) (n : Int)
    (a : Address) :
    readLine? (m :: ([renderImm n] ++ "," :: a.words)) =
      (instrOf? m [.imm n, .address a]).map .instr :=
  readLine?_binary hm (by simp) (readArguments?_imm n) (readArguments?_single_address a)

theorem readLine?_jump {m : String} {l : Label} {i : Instr} (hm : Mnemonic m)
    (h : readInstr? m [l.render] = some i) : readLine? [m, l.render] = some (.instr i) := by
  have hne : [l.render] ≠ [":"] := by
    intro hl
    have hr := readLabel?_render l
    rw [(List.cons.inj hl).1] at hr
    exact absurd hr (by simp [readLabel?])
  rw [readLine?_instr hm.apart hne, h]
  rfl

theorem readLine?_instr_render (i : Instr) :
    readLine? (words i.render.toList) = some (.instr i) := by
  cases i with
  | xor s t =>
    have hm : Mnemonic "xor" := mnemonic_instr (.xor s t)
    rw [Instr.render, words_aligned hm, words_reg, words_reg]
    exact readLine?_reg_reg hm s t
  | mov s t =>
    have hm : Mnemonic "mov" := mnemonic_instr (.mov s t)
    rw [Instr.render, words_aligned hm, words_reg]
    cases s with
    | imm n =>
      rw [Operand.render, words_imm]
      exact readLine?_imm_reg hm n t
    | reg r =>
      rw [Operand.render, words_reg]
      exact readLine?_reg_reg hm r t
  | movabs n t =>
    have hm : Mnemonic "movabs" := mnemonic_instr (.movabs n t)
    rw [Instr.render, words_spaced hm, words_imm, words_reg]
    exact readLine?_imm_reg hm n t
  | lea a t =>
    have hm : Mnemonic "lea" := mnemonic_instr (.lea a t)
    rw [Instr.render, words_aligned hm, words_address, words_reg]
    exact readLine?_binary hm (address_words_ne_nil a) (readArguments?_address a)
      (readArguments?_single_reg t)
  | add s t =>
    have hm : Mnemonic "add" := mnemonic_instr (.add s t)
    cases s with
    | imm n =>
      rw [Instr.render, renderArith, words_spaced hm, words_imm, words_reg]
      exact readLine?_imm_reg hm n t
    | reg r =>
      rw [Instr.render, renderArith, words_aligned hm, words_reg, words_reg]
      exact readLine?_reg_reg hm r t
  | sub s t =>
    have hm : Mnemonic "sub" := mnemonic_instr (.sub s t)
    cases s with
    | imm n =>
      rw [Instr.render, renderArith, words_spaced hm, words_imm, words_reg]
      exact readLine?_imm_reg hm n t
    | reg r =>
      rw [Instr.render, renderArith, words_aligned hm, words_reg, words_reg]
      exact readLine?_reg_reg hm r t
  | cmovae s t =>
    have hm : Mnemonic "cmovae" := mnemonic_instr (.cmovae s t)
    rw [Instr.render, words_aligned hm, words_reg, words_reg]
    exact readLine?_reg_reg hm s t
  | cmovb s t =>
    have hm : Mnemonic "cmovb" := mnemonic_instr (.cmovb s t)
    rw [Instr.render, words_aligned hm, words_reg, words_reg]
    exact readLine?_reg_reg hm s t
  | addb n a =>
    have hm : Mnemonic "addb" := mnemonic_instr (.addb n a)
    rw [Instr.render, words_spaced hm, words_imm, words_address]
    exact readLine?_imm_address hm n a
  | subb n a =>
    have hm : Mnemonic "subb" := mnemonic_instr (.subb n a)
    rw [Instr.render, words_spaced hm, words_imm, words_address]
    exact readLine?_imm_address hm n a
  | cmpb n a =>
    have hm : Mnemonic "cmpb" := mnemonic_instr (.cmpb n a)
    rw [Instr.render, words_aligned hm, words_imm, words_address]
    exact readLine?_imm_address hm n a
  | je l =>
    have hm : Mnemonic "je" := mnemonic_instr (.je l)
    rw [Instr.render, words_unary hm, words_label]
    exact readLine?_jump hm (by simp [readInstr?, readLabel?_render])
  | jne l =>
    have hm : Mnemonic "jne" := mnemonic_instr (.jne l)
    rw [Instr.render, words_unary hm, words_label]
    exact readLine?_jump hm (by simp [readInstr?, readLabel?_render])
  | syscall => decide

theorem readLine?_render (line : Line) : readLine? (words line.render.toList) = some line := by
  cases line with
  | blank => rfl
  | setTapeSize n =>
    have hl : (Line.setTapeSize n).render.toList =
        ".set tape_size".toList ++ ',' :: ' ' :: (toString n).toList := by
      show (".set tape_size, " ++ toString n).toList = _
      simp
    have hw : words ".set tape_size".toList = [".set", "tape_size"] := by decide
    rw [hl, words_append _ rfl, hw, words_comma, words_blank, words_int]
    simp [readLine?, Int.toString_eq_repr]
  | enter s => cases s <;> decide
  | reserveTape => decide
  | exportStart => decide
  | label l =>
    have hl : (Line.label l).render.toList = l.render.toList ++ [':'] := by
      show (l.render ++ ":").toList = _
      simp
    rw [hl, words_append _ rfl, words_label, words_mark rfl]
    show readLine? [l.render, ":"] = some (.label l)
    rw [readLine?, readLabel?_render]
    rfl
  | instr i => exact readLine?_instr_render i

/-! ### Cutting lines -/

theorem cutLines_line {line : List Char} (h : '\n' ∉ line) (cs : List Char) :
    cutLines (line ++ '\n' :: cs) = line :: cutLines cs := by
  induction line with
  | nil => rfl
  | cons c line ih =>
    rw [List.mem_cons, not_or] at h
    rw [List.cons_append, cutLines, ih h.2]
    simp [Ne.symm h.1]

theorem newline_not_mem_digits (n : Nat) : '\n' ∉ Nat.toDigits 10 n := by
  intro h
  have hd := Nat.isDigit_of_mem_toDigits (b := 10) (by decide) (by decide) h
  simp at hd

theorem newline_not_mem_int (n : Int) : '\n' ∉ n.repr.toList := by
  rw [Int.repr_eq_if]
  split <;> simp [newline_not_mem_digits]

theorem newline_not_mem_reg (r : Reg) : '\n' ∉ r.render.toList := by
  cases r <;> decide

theorem newline_not_mem_blanks (n : Nat) : '\n' ∉ (blanks n).toList := by
  simp [blanks]

theorem newline_not_mem_address (a : Address) : '\n' ∉ a.render.toList := by
  cases a <;> simp [Address.render, newline_not_mem_reg]

theorem newline_not_mem_label (l : Label) : '\n' ∉ l.render.toList := by
  cases l <;> simp [Label.render, newline_not_mem_digits]

theorem newline_not_mem_instr (i : Instr) : '\n' ∉ i.render.toList := by
  cases i with
  | syscall => decide
  | mov s t | add s t | sub s t =>
    cases s <;> simp [Instr.render, renderArith, aligned, spaced, padded, Operand.render, renderImm,
      Int.toString_eq_repr, newline_not_mem_int, newline_not_mem_reg, newline_not_mem_blanks]
  | _ =>
    simp [Instr.render, aligned, spaced, unary, padded, renderImm, Int.toString_eq_repr,
      newline_not_mem_int, newline_not_mem_reg, newline_not_mem_address, newline_not_mem_label,
      newline_not_mem_blanks]

/-- A line is written in one line. -/
theorem newline_not_mem_render (line : Line) : '\n' ∉ line.render.toList := by
  cases line with
  | blank => exact List.not_mem_nil
  | setTapeSize n =>
    show '\n' ∉ (".set tape_size, " ++ toString n).toList
    simp [Int.toString_eq_repr, newline_not_mem_int]
  | enter s => cases s <;> decide
  | reserveTape => decide
  | exportStart => decide
  | label l =>
    show '\n' ∉ (l.render ++ ":").toList
    simp [newline_not_mem_label]
  | instr i => exact newline_not_mem_instr i

theorem toList_render (lines : Array Line) :
    (render lines).toList = lines.toList.flatMap fun l => l.render.toList ++ ['\n'] := by
  have key : ∀ (ls : List Line) (acc : String),
      (ls.foldl (fun text line => text ++ line.render ++ "\n") acc).toList =
        acc.toList ++ ls.flatMap fun l => l.render.toList ++ ['\n'] := by
    intro ls
    induction ls with
    | nil => simp
    | cons l ls ih =>
      intro acc
      rw [List.foldl_cons, ih]
      simp
  rw [render, ← Array.foldl_toList, key]
  rfl

/-- **Round trip**: a written listing reads back as the lines it was written from. -/
theorem readListing?_render (lines : Array Line) :
    readListing? (render lines) = some lines.toList := by
  rw [readListing?, toList_render]
  induction lines.toList with
  | nil => rfl
  | cons l ls ih =>
    rw [List.flatMap_cons, List.append_assoc, List.singleton_append,
      cutLines_line (newline_not_mem_render l), List.mapM_cons, ih, readLine?_render]
    rfl

end TapeLang.Assembly
