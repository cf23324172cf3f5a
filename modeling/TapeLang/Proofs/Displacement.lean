import Mathlib.Data.Int.ModEq
import TapeLang.Proofs.Assembly.Emission
import TapeLang.Proofs.Matching
import TapeLang.Proofs.Tracking

/-!
How far a program moves its pointer.

The displacement of some symbols is how many of them move the pointer to the right less how many
move it to the left.  Taken modulo the size of the tape it tells where the pointer goes, for a
cursor that goes through the text once (`Nest.offset_cursorAfter`) and for a machine that leaves
loops out or repeats them, provided that this makes no difference: loops are level if the symbols
between two brackets that match come to a multiple of the size.  Then going behind the partner of a
bracket and going on to the next instruction lead to texts of the same displacement
(`Nest.displacement_partner`), and every instruction keeps the pointer where the text in front of
the next one puts it (`Nest.onCourse_step`).

Main statement: `pointer_of_levelLoops`, the pointer of an execution whose loops are level is known
beforehand, at every step from the text before it, and at the end from the listing.
-/

namespace TapeLang

open Assembly Function

/-! ### Displacements -/

/-- How many cells to the right a symbol moves the pointer. -/
def Symbol.displacement : Symbol → Int
  | .moveRight => 1
  | .moveLeft => -1
  | _ => 0

/-- How many symbols move the pointer to the right less how many move it to the left. -/
def displacement (l : List Symbol) : Int := l.count .moveRight - l.count .moveLeft

@[simp] theorem displacement_nil : displacement [] = 0 := rfl

theorem displacement_append (a b : List Symbol) :
    displacement (a ++ b) = displacement a + displacement b := by
  simp only [displacement, List.count_append]
  omega

theorem displacement_cons (a : Symbol) (l : List Symbol) :
    displacement (a :: l) = a.displacement + displacement l := by
  cases a <;> simp [displacement, Symbol.displacement] <;> omega

theorem displacement_replicate (n : Nat) (a : Symbol) :
    displacement (List.replicate n a) = n * a.displacement := by
  induction n with
  | zero => simp
  | succ n ih =>
    rw [List.replicate_succ, displacement_cons, ih, Int.natCast_succ, Int.add_mul, Int.one_mul,
      Int.add_comm]

theorem displacement_bracket {a : Symbol} (ha : a.isBracket = true) : a.displacement = 0 := by
  cases a with
  | loopOpen => rfl
  | loopClose => rfl
  | _ => cases ha

/-- A symbol moves the pointer along the ring by its displacement. -/
theorem Store.pointer_act {size : Nat} {s : Store} (hs : s.Fits size) (a : Symbol) :
    ((s.act a).pointer : Int) = (s.pointer + a.displacement) % size := by
  have hpos := hs.pointer
  have hstill : (s.pointer : Int) = (s.pointer + 0) % size := by
    rw [Int.add_zero, Int.emod_eq_of_lt (by omega) (by omega)]
  cases a with
  | moveRight =>
    show (((s.pointer + 1) % s.tape.size : Nat) : Int) = (s.pointer + 1) % size
    rw [hs.cells, Int.natCast_emod, Int.natCast_add, Int.natCast_one]
  | moveLeft =>
    show (((s.pointer + (s.tape.size - 1)) % s.tape.size : Nat) : Int) = (s.pointer + -1) % size
    rw [hs.cells, Int.natCast_emod,
      show ((s.pointer + (size - 1) : Nat) : Int) = s.pointer + -1 + size by omega,
      Int.add_emod_right]
  | read =>
    have hread : (s.act .read).pointer = s.pointer := by
      cases hin : s.input <;> simp [Store.act, hin, Store.change]
    rw [hread]
    exact hstill
  | _ => exact hstill

theorem Store.pointer_iterate {size : Nat} {s : Store} (hs : s.Fits size) (a : Symbol) (n : Nat) :
    (((act a)^[n] s).pointer : Int) = (s.pointer + n * a.displacement) % size := by
  induction n with
  | zero =>
    have hpointer : (s.pointer : Int) % size = s.pointer :=
      Int.emod_eq_of_lt (by omega) (by exact_mod_cast hs.pointer)
    simp [hpointer]
  | succ n ih =>
    rw [iterate_succ_apply', pointer_act (hs.iterate a n), ih, Int.emod_add_emod, Int.natCast_succ,
      Int.add_mul, Int.one_mul, Int.add_assoc]

/-! ### The text of instructions -/

/-- The symbols that some instructions stand for, one by one. -/
def spell (code : List Instruction) : List Symbol :=
  code.flatMap fun i => List.replicate i.count i.symbol

/-- The text in front of an instruction. -/
def Program.textBefore (p : Program) (pc : Nat) : List Symbol := spell (p.code.toList.take pc)

theorem spell_append (a b : List Instruction) : spell (a ++ b) = spell a ++ spell b :=
  List.flatMap_append

theorem spell_cons (i : Instruction) (code : List Instruction) :
    spell (i :: code) = List.replicate i.count i.symbol ++ spell code :=
  List.flatMap_cons

theorem textBefore_succ {p : Program} {pc : Nat} {i : Instruction} (h : p.code[pc]? = some i) :
    p.textBefore (pc + 1) = p.textBefore pc ++ List.replicate i.count i.symbol := by
  rw [← Array.getElem?_toList] at h
  rw [Program.textBefore, List.take_add_one, h, spell_append]
  simp [Program.textBefore, spell]

/-- Instructions whose symbols are balanced stand for a balanced text, if each bracket has an
instruction of its own. -/
theorem balanced_spell {code : List Instruction}
    (hsingle : ∀ i ∈ code, i.symbol.isBracket = true → i.count = 1)
    (h : Balanced (code.map Instruction.symbol)) : Balanced (spell code) := by
  generalize hl : code.map Instruction.symbol = l at h
  induction h generalizing code with
  | nil =>
    rw [List.map_eq_nil_iff.mp hl]
    exact .nil
  | act ha _ ih =>
    obtain ⟨i, rest, rfl, rfl, rfl⟩ := List.map_eq_cons_iff.mp hl
    rw [spell_cons]
    exact .replicate_append ha i.count
      (ih (fun i' h' => hsingle i' (List.mem_cons_of_mem i h')) rfl)
  | loop _ _ ihb ihr =>
    obtain ⟨o, code', rfl, ho, hcode'⟩ := List.map_eq_cons_iff.mp hl
    obtain ⟨body, tail, rfl, rfl, htail⟩ := List.map_eq_append_iff.mp hcode'
    obtain ⟨c, rest, rfl, hc, rfl⟩ := List.map_eq_cons_iff.mp htail
    have hbody := ihb (fun i hi => hsingle i (by simp [hi])) rfl
    have hrest := ihr (fun i hi => hsingle i (by simp [hi])) rfl
    have ho1 : o.count = 1 := hsingle o (by simp) (by rw [ho]; rfl)
    have hc1 : c.count = 1 := hsingle c (by simp) (by rw [hc]; rfl)
    rw [spell_cons, spell_append, spell_cons, ho1, hc1, ho, hc]
    exact .loop hbody hrest

/-! ### Level loops -/

/-- Between every two brackets that match, the moves to the right and to the left cancel out on a
ring of `size` cells. -/
def LevelLoops (size : Nat) (l : List Symbol) : Prop :=
  ∀ i j, Encloses l i j → (size : Int) ∣ displacement ((l.take j).drop (i + 1))

theorem LevelLoops.body {size : Nat} {before body after : List Symbol}
    (h : LevelLoops size (before ++ .loopOpen :: (body ++ .loopClose :: after)))
    (hbody : Balanced body) : (size : Int) ∣ displacement body := by
  have hdvd := h _ _ (Encloses.of_split before after hbody)
  rwa [between_of_split] at hdvd

/-- The instructions around two brackets that match. -/
theorem Encloses.exists_instructions {code : List Instruction} {i j : Nat}
    (h : Encloses (code.map Instruction.symbol) i j) :
    ∃ before o body c after, code = before ++ o :: (body ++ c :: after) ∧
      before.length = i ∧ i + 1 + body.length = j ∧
      o.symbol = .loopOpen ∧ c.symbol = .loopClose ∧ Balanced (body.map Instruction.symbol) := by
  obtain ⟨before, body, after, hsplit, hbody, rfl, rfl⟩ := h.exists_split
  obtain ⟨before, loop, rfl, rfl, hloop⟩ := List.map_eq_append_iff.mp hsplit
  obtain ⟨o, tail, rfl, ho, htail⟩ := List.map_eq_cons_iff.mp hloop
  obtain ⟨body, rest, rfl, rfl, hrest⟩ := List.map_eq_append_iff.mp htail
  obtain ⟨c, after, rfl, hc, -⟩ := List.map_eq_cons_iff.mp hrest
  exact ⟨before, o, body, c, after, rfl, by simp, by simp, ho, hc, hbody⟩

namespace Nest

/-- A nest has the symbols that its instructions stand for. -/
theorem spell_instructions (t : Nest) : spell t.instructions = t.symbols := by
  induction t with
  | done => rfl
  | act r plain rest ih => rw [instructions, spell_cons, ih, symbols]
  | loop enter body leave rest ihb ihr =>
    rw [instructions, spell_cons, spell_append, spell_cons, ihb, ihr]
    rfl

/-- In a nest, every bracket has an instruction of its own. -/
theorem count_bracket {t : Nest} {i : Instruction} (h : i ∈ t.instructions)
    (hi : i.symbol.isBracket = true) : i.count = 1 := by
  induction t with
  | done => cases h
  | act r plain rest ih =>
    rcases List.mem_cons.mp h with rfl | h
    · exact absurd hi (by simp [plain])
    · exact ih h
  | loop enter body leave rest ihb ihr =>
    rcases List.mem_cons.mp h with rfl | h
    · rfl
    · rcases List.mem_append.mp h with h | h
      · exact ihb h
      · rcases List.mem_cons.mp h with rfl | h
        · rfl
        · exact ihr h

variable {t : Nest} {size : Nat} (hlevel : LevelLoops size t.symbols)

include hlevel

/-- Behind an opening bracket and in front of the closing one that it matches, the displacement is
the same on the ring. -/
theorem displacement_encloses {i j : Nat} (h : Encloses t.kinds i j) :
    displacement (t.program.textBefore j) ≡ displacement (t.program.textBefore (i + 1))
      [ZMOD size] := by
  obtain ⟨before, o, body, c, after, hcode, rfl, rfl, ho, hc, hbody⟩ := h.exists_instructions
  have hmem : ∀ i, i = o ∨ i = c ∨ i ∈ body → i ∈ t.instructions := by
    intro i hi
    rw [hcode]
    rcases hi with rfl | rfl | hi
    · simp
    · simp
    · simp [hi]
  have hbalanced : Balanced (spell body) :=
    balanced_spell (fun i hi => count_bracket (hmem i (.inr (.inr hi)))) hbody
  have ho1 : o.count = 1 := count_bracket (hmem o (.inl rfl)) (by rw [ho]; rfl)
  have hc1 : c.count = 1 := count_bracket (hmem c (.inr (.inl rfl))) (by rw [hc]; rfl)
  have hdvd : (size : Int) ∣ displacement (spell body) := by
    rw [← t.spell_instructions, hcode, spell_append, spell_cons, spell_append, spell_cons, ho1, hc1,
      ho, hc] at hlevel
    exact hlevel.body hbalanced
  have hprogram : t.program.code.toList = before ++ o :: (body ++ c :: after) := hcode
  have hinner : t.program.textBefore (before.length + 1) = spell (before ++ [o]) := by
    have hsplit : before ++ o :: (body ++ c :: after) =
        (before ++ [o]) ++ (body ++ c :: after) := by simp
    rw [Program.textBefore, hprogram, hsplit, List.take_left' (by simp)]
  have houter : t.program.textBefore (before.length + 1 + body.length) =
      spell (before ++ [o]) ++ spell body := by
    have hsplit : before ++ o :: (body ++ c :: after) =
        (before ++ [o] ++ body) ++ c :: after := by simp
    rw [Program.textBefore, hprogram, hsplit, ← spell_append, List.take_left' (by simp; omega)]
  rw [hinner, houter, displacement_append, Int.modEq_iff_dvd]
  simpa using hdvd

end Nest

/-! ### Where the pointer is -/

/-- The pointer is where the text in front of the next instruction moves it. -/
def Machine.OnCourse (p : Program) (size : Nat) (m : Machine) : Prop :=
  (m.pointer : Int) = displacement (p.textBefore m.pc) % size

/-- Going on behind an instruction, its displacement is added. -/
theorem displacement_textBefore_succ {p : Program} {pc : Nat} {i : Instruction}
    (h : p.code[pc]? = some i) :
    displacement (p.textBefore (pc + 1)) =
      displacement (p.textBefore pc) + i.count * i.symbol.displacement := by
  rw [textBefore_succ h, displacement_append, displacement_replicate]

namespace Nest

variable {t : Nest} {size : Nat}

/-- Both ways out of a bracket lead to texts of the same displacement on the ring. -/
theorem displacement_partner (hlevel : LevelLoops size t.symbols) {i j : Nat}
    (hjump : t.program.jump? i = some j) :
    displacement (t.program.textBefore (j + 1)) ≡ displacement (t.program.textBefore (i + 1))
      [ZMOD size] := by
  -- behind either bracket the text has the displacement that it has in front of it
  have hbehind : ∀ k a, t.kinds[k]? = some a → a.isBracket = true →
      displacement (t.program.textBefore (k + 1)) = displacement (t.program.textBefore k) := by
    intro k a hk ha
    rw [kinds, List.getElem?_map] at hk
    obtain ⟨instr, hinstr, rfl⟩ := Option.map_eq_some_iff.mp hk
    have hcode : t.program.code[k]? = some instr := by rwa [← Array.getElem?_toList]
    rw [displacement_textBefore_succ hcode, displacement_bracket ha, Int.mul_zero, Int.add_zero]
  rcases partners_of_jump? hjump with h | h
  · rw [hbehind j _ h.closes rfl]
    exact displacement_encloses hlevel h
  · rw [hbehind i _ h.closes rfl]
    exact (displacement_encloses hlevel h).symm

/-- Every instruction keeps the pointer on course. -/
theorem onCourse_step (hlevel : LevelLoops size t.symbols) {m m' : Machine}
    (hm : m.Sound t.program size) (hcourse : m.OnCourse t.program size)
    (hstep : t.program.step m = (m', .running)) : m'.OnCourse t.program size := by
  have hpointer : (m.pointer : Int) = displacement (t.program.textBefore m.pc) % size := hcourse
  -- a bracket leaves the pointer where it is, and has itself no displacement
  have hbehind : ∀ {a : Symbol} {n : Nat}, t.program.code[m.pc]? = some ⟨a, n⟩ →
      a.isBracket = true → (m.pointer : Int) =
        displacement (t.program.textBefore (m.pc + 1)) % size := by
    intro a n hcode hb
    rw [displacement_textBefore_succ hcode, displacement_bracket hb, Int.mul_zero, Int.add_zero]
    exact hpointer
  cases hm.effect hstep with
  | @act a n hcode hb =>
    show (((Store.act a)^[n] m.store).pointer : Int) = _
    rw [Store.pointer_iterate hm.fits, show (m.store.pointer : Int) = _ from hpointer,
      Int.emod_add_emod]
    exact congrArg (· % (size : Int)) (displacement_textBefore_succ hcode).symm
  | enter hcode _ => exact hbehind hcode rfl
  | leave hcode _ => exact hbehind hcode rfl
  | skip hcode hjump _ _ =>
    exact (hbehind hcode rfl).trans (displacement_partner hlevel hjump).symm
  | again hcode hjump _ _ =>
    exact (hbehind hcode rfl).trans (displacement_partner hlevel hjump).symm

theorem onCourse_steps (hlevel : LevelLoops size t.symbols) (hlinked : t.program.Linked) {n : Nat}
    {m m' : Machine} (hsteps : t.program.Steps n m m') (hm : m.Sound t.program size)
    (hcourse : m.OnCourse t.program size) : m'.OnCourse t.program size := by
  induction hsteps with
  | refl => exact hcourse
  | head hs _ ih =>
    exact ih (hm.steps hlinked (.single hs)) (onCourse_step hlevel hm hcourse hs)

/-! ### Where the cursor is -/

theorem offset_runCursor (inLoop : Bool) {c : Cursor} (hsize : c.size = size)
    (hoffset : c.offset % size = c.offset) (r : Run) :
    (runCursor inLoop c r).offset = (c.offset + r.count * r.symbol.displacement) % size := by
  have hheld : (heldCursor inLoop c).size = size ∧ (heldCursor inLoop c).offset = c.offset := by
    unfold heldCursor
    split
    · exact ⟨hsize, rfl⟩
    · exact ⟨hsize, rfl⟩
  have hpos : 0 ≤ (heldCursor inLoop c).size := by
    rw [hheld.1]
    exact Int.natCast_nonneg size
  unfold runCursor
  cases hs : r.symbol with
  | moveRight =>
    simp only [Symbol.direction?, Cursor.after_moveOf_right hpos, hheld, Symbol.displacement,
      Int.mul_one]
  | moveLeft =>
    simp only [Symbol.direction?, Cursor.after_moveOf_left hpos, hheld, Symbol.displacement,
      Int.mul_neg, Int.mul_one]
    rw [Int.sub_eq_add_neg]
  | _ => simp [Symbol.direction?, Symbol.displacement, hoffset]

/-- The cursor goes through a nest as far as its symbols say. -/
theorem offset_cursorAfter (t : Nest) (inLoop : Bool) {c : Cursor} (hsize : c.size = size)
    (hoffset : c.offset % size = c.offset) :
    (t.cursorAfter inLoop c).offset = (c.offset + displacement t.symbols) % size := by
  induction t generalizing inLoop c with
  | done => simpa [cursorAfter, symbols] using hoffset.symm
  | act r plain rest ih =>
    have hrun := offset_runCursor inLoop hsize hoffset r
    rw [cursorAfter, ih inLoop (by simpa using hsize) (by rw [hrun, Int.emod_emod]), hrun,
      Int.emod_add_emod, symbols, displacement_append, displacement_replicate, Int.add_assoc]
  | loop enter body leave rest ihb ihr =>
    have hbody := ihb true hsize hoffset
    have hopen : Symbol.loopOpen.displacement = 0 := rfl
    have hclose : Symbol.loopClose.displacement = 0 := rfl
    rw [cursorAfter, ihr inLoop (by simpa using hsize) (by rw [hbody, Int.emod_emod]), hbody,
      Int.emod_add_emod, symbols, displacement_cons, displacement_append, displacement_cons, hopen,
      hclose, Int.zero_add, Int.zero_add, Int.add_assoc]

end Nest

/-- The summary of an accepted source. -/
theorem Assembly.Listing.result_of_nest {ε : Type} {source : Source ε}
    (hended : (runsOf source).stop = none) {t : Nest}
    (ht : t.pieces = (runsOf source).runs.flatMap Run.pieces) {size : Int} (hsize : size ≠ 0) :
    (ofSource size source).result = .ok ⟨size, (runsOf source).runs.length, t.loops,
      (t.cursorAfter false (.start size)).offset⟩ := by
  have hfold := Emitter.foldl_run_pieces t (e := (Emitter.start size).append (prologue size)) rfl
    hsize
  rw [ht, Emitter.intake.foldl_run_pieces (runsOf source).runs] at hfold
  rw [ofSource, ofRuns, hfold, hended]
  simp [Emitter.after, Emitter.append, Emitter.start, Labels.depth, Labels.empty, Labels.finish]

/-- A nest with the pieces of a source has its symbols. -/
theorem Nest.symbols_of_pieces {ε : Type} {source : Source ε}
    (hended : (runsOf source).stop = none) {t : Nest}
    (ht : t.pieces = (runsOf source).runs.flatMap Run.pieces) :
    t.symbols = (scan source).tokens.map Token.symbol := by
  have hproper : ∀ r ∈ t.pieces, r.Proper := by
    intro r hr
    rw [ht] at hr
    exact (Run.piece_of_mem_flatMap (fun _ => proper_runs) hr).toProper
  rw [← Nest.map_symbol_tokens hproper, ht, Run.flatMap_tokens_flatMap_pieces,
    (runsOf_of_stop hended).2, flatMap_tokens_groupRuns]

/-- What stands in front of an instruction is the beginning of the text. -/
theorem Nest.textBefore_isPrefix (t : Nest) (pc : Nat) :
    t.program.textBefore pc <+: t.symbols := by
  refine ⟨spell (t.instructions.drop pc), ?_⟩
  show spell (t.instructions.take pc) ++ _ = _
  rw [← spell_append, List.take_append_drop, spell_instructions]

/-- **Displacement**: if the loops of an accepted source are level, its pointer is at every step
where the text in front of the current instruction moves it, as if nothing of that text had been
left out or repeated; and when the execution ends, it is where the summary of the listing says. -/
theorem pointer_of_levelLoops {ε : Type} {source : Source ε} {p : Program}
    (hp : compile source = .ok p) {size : Nat} (hsize : 0 < size)
    (hlevel : LevelLoops size ((scan source).tokens.map Token.symbol)) (input : List Int) :
    (∀ n m, p.Steps n (.start size input) m →
      p.textBefore m.pc <+: (scan source).tokens.map Token.symbol ∧
      (∀ i, p.code[m.pc]? = some i → p.textBefore m.pc ++ List.replicate i.count i.symbol <+:
        (scan source).tokens.map Token.symbol) ∧
      (m.pointer : Int) = displacement (p.textBefore m.pc) % size) ∧
    ∃ summary, (Listing.ofSource size source).result = .ok summary ∧ summary.tapeSize = size ∧
      ∀ k m, source.EndsAt size input k m → summary.finalPointer = m.pointer := by
  have haccepted := accepted_of_compile hp
  have hlinked := linked_of_compile hp
  obtain ⟨t, ht⟩ := haccepted.exists_nest
  obtain rfl : t.program = p := Except.ok.inj ((compile_of_nest haccepted.ended ht).symm.trans hp)
  rw [← Nest.symbols_of_pieces haccepted.ended ht] at hlevel ⊢
  have hcourse : ∀ n m, t.program.Steps n (.start size input) m →
      m.OnCourse t.program size := by
    intro n m hsteps
    refine Nest.onCourse_steps hlevel hlinked hsteps
      (Machine.sound_start hlinked hsize input) ?_
    show ((0 : Nat) : Int) = displacement (t.program.textBefore 0) % size
    simp [Program.textBefore, spell]
  refine ⟨?_, _, Listing.result_of_nest haccepted.ended ht (by omega), rfl, ?_⟩
  · intro n m hsteps
    refine ⟨t.textBefore_isPrefix m.pc, ?_, hcourse n m hsteps⟩
    intro i hi
    rw [← textBefore_succ hi]
    exact t.textBefore_isPrefix (m.pc + 1)
  · intro k m hends
    obtain ⟨hsteps, hfin⟩ := (endsAt_iff hp).mp hends
    have hpointer : (m.pointer : Int) = displacement (t.program.textBefore m.pc) % size :=
      hcourse k m hsteps
    -- at the end the whole text is in front of the machine
    have hwhole : t.program.textBefore m.pc = t.symbols := by
      have hend : t.instructions.length ≤ m.pc := Array.getElem?_eq_none_iff.mp hfin
      show spell (t.instructions.take m.pc) = _
      rw [List.take_of_length_le hend, t.spell_instructions]
    rw [hpointer, hwhole]
    show (t.cursorAfter false (.start size)).offset = _
    rw [t.offset_cursorAfter false rfl (by simp [Cursor.start])]
    simp [Cursor.start]

/-- A loop that goes around a tape of three cells in each of its three rounds. -/
def circling : Source Empty := .ofString "+++[>>>-]>."

theorem pointer_of_levelLoops_circling :
    LevelLoops 3 ((scan circling).tokens.map Token.symbol) ∧
    ∃ summary, (Listing.ofSource 3 circling).result = .ok summary ∧ summary.finalPointer = 1 := by
  obtain ⟨p, hp⟩ : ∃ p, compile circling = .ok p := ⟨_, rfl⟩
  have hlevel : LevelLoops 3 ((scan circling).tokens.map Token.symbol) := by
    obtain ⟨l, hl⟩ : ∃ l, l = (scan circling).tokens.map Token.symbol := ⟨_, rfl⟩
    have hlength : l.length = 11 := by rw [hl]; rfl
    have hall : ∀ i < 11, ∀ j < 11, l[i]? = some .loopOpen → l[j]? = some .loopClose →
        ((3 : Nat) : Int) ∣ displacement ((l.take j).drop (i + 1)) := by
      rw [hl]
      decide +kernel
    rw [← hl]
    intro i j h
    have hi := (List.getElem?_eq_some_iff.mp h.opens).1
    have hj := (List.getElem?_eq_some_iff.mp h.closes).1
    exact hall i (by omega) j (by omega) h.opens h.closes
  obtain ⟨-, summary, hresult, -, hfinal⟩ :=
    pointer_of_levelLoops hp (show 0 < 3 by decide) hlevel []
  exact ⟨hlevel, summary, hresult, hfinal 13 _ ⟨13, rfl⟩⟩

end TapeLang
