import TapeLang.Label
import TapeLang.Proofs.Grouping
import TapeLang.Proofs.Nesting

/-!
Labels as tokens come in.

Generating code and flattening runs into a program both hand their brackets to a `Labels`, in the
order of the text and run by run.  Here the labels are followed token by token: `Labels.takeAll`
opens a loop at every opening bracket, closes one at every closing bracket, and stops at a bracket
that closes nothing.

What the two have in common is an `Intake`: single operations for single brackets, a first error at
which everything stops, and no say of the other runs in the labels.

Main statements: `Intake.outcome_foldl_run`, whatever else an intake does, it ends with the labels,
or the error, of its tokens; and `depth?_takeAll`, the number of open loops is what counting
brackets says.  `Runs.verdict` puts the outcome together with the other two things that may be wrong
with a source, a text that was cut short and a loop that is left open.
-/

namespace TapeLang

namespace Labels

/-- Take notice of a token. -/
def take (l : Labels) (t : Token) : Except SourceError Labels :=
  match t.symbol with
  | .loopOpen => .ok (l.enter t.position).2
  | .loopClose => (l.leave t.position).map Prod.snd
  | _ => .ok l

/-- Take notice of tokens one after the other, up to the first error. -/
def takeAll : Labels → List Token → Except SourceError Labels
  | l, [] => .ok l
  | l, t :: ts => (l.take t).bind fun l' => takeAll l' ts

theorem takeAll_append (l : Labels) (a b : List Token) :
    l.takeAll (a ++ b) = (l.takeAll a).bind fun l' => l'.takeAll b := by
  induction a generalizing l with
  | nil => rfl
  | cons t a ih =>
    rw [List.cons_append, takeAll, takeAll]
    cases l.take t with
    | error e => rfl
    | ok l' => exact ih l'

theorem take_act {t : Token} (h : t.symbol.isBracket = false) (l : Labels) : l.take t = .ok l := by
  unfold take
  split <;> simp_all [Symbol.isBracket]

theorem takeAll_act {ts : List Token} (h : ∀ t ∈ ts, t.symbol.isBracket = false) (l : Labels) :
    l.takeAll ts = .ok l := by
  induction ts with
  | nil => rfl
  | cons t ts ih =>
    rw [takeAll, take_act (h t (by simp))]
    exact ih fun u hu => h u (List.mem_cons_of_mem t hu)

theorem take_open {t : Token} (h : t.symbol = .loopOpen) (l : Labels) :
    l.take t = .ok (l.enter t.position).2 := by
  simp [take, h]

theorem take_close {t : Token} (h : t.symbol = .loopClose) (l : Labels) :
    l.take t = (l.leave t.position).map Prod.snd := by
  simp [take, h]

/-- What taking notice of a token makes of the labels. -/
theorem take_eq_ok {l l' : Labels} {t : Token} (h : l.take t = .ok l') :
    (t.symbol.isBracket = false ∧ l' = l) ∨
    (t.symbol = .loopOpen ∧ l' = ⟨l.allocated + 1, (l.allocated, t.position) :: l.stack⟩) ∨
    (t.symbol = .loopClose ∧ ∃ p, l = ⟨l'.allocated, p :: l'.stack⟩) := by
  obtain ⟨allocated, stack⟩ := l
  cases hs : t.symbol with
  | loopOpen =>
    rw [take_open hs] at h
    cases h
    exact .inr (.inl ⟨rfl, rfl⟩)
  | loopClose =>
    rw [take_close hs, leave] at h
    cases stack with
    | nil => cases h
    | cons p rest =>
      cases h
      exact .inr (.inr ⟨rfl, p, rfl⟩)
  | _ =>
    have hplain : t.symbol.isBracket = false := by
      rw [hs]
      rfl
    rw [take_act hplain] at h
    cases h
    exact .inl ⟨rfl, rfl⟩

/-- What taking notice of a token can do to the loops that are open. -/
theorem take_cases {l l' : Labels} {t : Token} (h : l.take t = .ok l') :
    (t.symbol.isBracket = false ∧ l' = l) ∨
    (t.symbol = .loopOpen ∧ l'.stack = (l.allocated, t.position) :: l.stack) ∨
    (t.symbol = .loopClose ∧ ∃ p, l.stack = p :: l'.stack) := by
  rcases take_eq_ok h with hact | ⟨hs, rfl⟩ | ⟨hs, p, rfl⟩
  · exact .inl hact
  · exact .inr (.inl ⟨hs, rfl⟩)
  · exact .inr (.inr ⟨hs, p, rfl⟩)

/-- Only an opening bracket gets a new number. -/
theorem allocated_take {l l' : Labels} {t : Token} (h : l.take t = .ok l') :
    l'.allocated = l.allocated + [t.symbol].count .loopOpen := by
  rcases take_eq_ok h with ⟨hplain, rfl⟩ | ⟨hs, rfl⟩ | ⟨hs, p, rfl⟩
  · have hne : t.symbol ≠ .loopOpen := by
      intro hs
      rw [hs] at hplain
      cases hplain
    rw [List.count_singleton, if_neg (by simpa using hne), Nat.add_zero]
  · rw [hs]
    rfl
  · rw [hs]
    rfl

/-- Only a closing bracket that finds no loop open is refused. -/
theorem take_eq_error {l : Labels} {t : Token} {e : SourceError} (h : l.take t = .error e) :
    l.stack = [] ∧ t.symbol = .loopClose ∧ e = .unmatchedClose t.position := by
  cases hs : t.symbol with
  | loopOpen =>
    rw [take_open hs] at h
    cases h
  | loopClose =>
    rw [take_close hs, leave] at h
    cases hstack : l.stack with
    | nil =>
      rw [hstack] at h
      cases h
      exact ⟨rfl, rfl, rfl⟩
    | cons p rest =>
      rw [hstack] at h
      cases h
  | _ =>
    have hplain : t.symbol.isBracket = false := by
      rw [hs]
      rfl
    rw [take_act hplain] at h
    cases h

/-- Open loops are counted as brackets are. -/
theorem depth?_take {l l' : Labels} {t : Token} (h : l.take t = .ok l') :
    depth? l.depth [t.symbol] = some l'.depth := by
  rcases take_cases h with ⟨hplain, rfl⟩ | ⟨hs, hstack⟩ | ⟨hs, p, hstack⟩
  · rw [depth?_act hplain, depth?_nil]
  · rw [hs, depth?_open, depth?_nil, depth, depth, hstack, List.length_cons]
  · rw [hs, depth, depth, hstack, List.length_cons, depth?_close_succ, depth?_nil]

/-- Tokens that are not refused can be taken notice of in two parts. -/
theorem takeAll_split {l l' : Labels} {a b : List Token} (h : l.takeAll (a ++ b) = .ok l') :
    ∃ l₁, l.takeAll a = .ok l₁ ∧ l₁.takeAll b = .ok l' := by
  rw [takeAll_append] at h
  cases ha : l.takeAll a with
  | error e =>
    rw [ha] at h
    cases h
  | ok l₁ =>
    rw [ha] at h
    exact ⟨l₁, rfl, h⟩

theorem takeAll_singleton (l : Labels) (t : Token) : l.takeAll [t] = l.take t := by
  rw [takeAll]
  cases l.take t <;> rfl

theorem takeAll_concat {l l' : Labels} {ts : List Token} {t : Token}
    (h : l.takeAll (ts ++ [t]) = .ok l') :
    ∃ l₁, l.takeAll ts = .ok l₁ ∧ l₁.take t = .ok l' := by
  obtain ⟨l₁, hts, ht⟩ := takeAll_split h
  rw [takeAll_singleton] at ht
  exact ⟨l₁, hts, ht⟩

theorem depth?_takeAll {l l' : Labels} {ts : List Token} (h : l.takeAll ts = .ok l') :
    depth? l.depth (ts.map Token.symbol) = some l'.depth := by
  induction ts generalizing l with
  | nil =>
    cases h
    simp
  | cons t ts ih =>
    rw [takeAll] at h
    cases ht : l.take t with
    | error e =>
      rw [ht] at h
      cases h
    | ok m =>
      rw [ht] at h
      rw [List.map_cons, depth?_cons, depth?_take ht]
      exact ih h

/-- As many numbers are handed out as there are opening brackets. -/
theorem allocated_takeAll {l l' : Labels} {ts : List Token} (h : l.takeAll ts = .ok l') :
    l'.allocated = l.allocated + (ts.map Token.symbol).count .loopOpen := by
  induction ts generalizing l with
  | nil =>
    cases h
    rfl
  | cons t ts ih =>
    rw [takeAll] at h
    cases ht : l.take t with
    | error e =>
      rw [ht] at h
      cases h
    | ok m =>
      rw [ht] at h
      have hcons : (t :: ts).map Token.symbol = [t.symbol] ++ ts.map Token.symbol := rfl
      rw [ih h, allocated_take ht, hcons, List.count_append, Nat.add_assoc]

/-- Balanced tokens are never refused, and leave those loops open that were open before. -/
theorem takeAll_balanced {ts : List Token} (h : Balanced (ts.map Token.symbol)) (l : Labels) :
    ∃ l', l.takeAll ts = .ok l' ∧ l'.stack = l.stack := by
  generalize hs : ts.map Token.symbol = symbols at h
  induction h generalizing ts l with
  | nil =>
    obtain rfl := List.map_eq_nil_iff.mp hs
    exact ⟨l, rfl, rfl⟩
  | act ha _ ih =>
    obtain ⟨t, ts, rfl, rfl, rfl⟩ := List.map_eq_cons_iff.mp hs
    obtain ⟨l', hl', hstack⟩ := ih l rfl
    refine ⟨l', ?_, hstack⟩
    rw [takeAll, take_act ha]
    exact hl'
  | loop _ _ ihb ihr =>
    obtain ⟨enter, ts, rfl, henter, hts⟩ := List.map_eq_cons_iff.mp hs
    obtain ⟨body, more, rfl, rfl, hmore⟩ := List.map_eq_append_iff.mp hts
    obtain ⟨leave, rest, rfl, hleave, rfl⟩ := List.map_eq_cons_iff.mp hmore
    obtain ⟨l₁, hbody, hstack₁⟩ := ihb (l.enter enter.position).2 rfl
    -- the loop that is closed is the one that was opened in front of the body
    have hclose : l₁.take leave = .ok ⟨l₁.allocated, l.stack⟩ := by
      rw [take_close hleave, Labels.leave, hstack₁]
      rfl
    obtain ⟨l', hrest, hstack⟩ := ihr ⟨l₁.allocated, l.stack⟩ rfl
    refine ⟨l', ?_, hstack⟩
    rw [takeAll, take_open henter]
    show (l.enter enter.position).2.takeAll (body ++ leave :: rest) = _
    rw [takeAll_append, hbody]
    show l₁.takeAll (leave :: rest) = _
    rw [takeAll, hclose]
    exact hrest

theorem finish_eq_ok_iff {l : Labels} : (∃ u, l.finish = .ok u) ↔ l.stack = [] := by
  unfold finish
  cases h : l.stack.getLast? with
  | none => simpa using h
  | some p =>
    have hne : l.stack ≠ [] := by
      rintro hn
      rw [hn] at h
      cases h
    simp [hne]

end Labels

/-! ### Intakes -/

/-- A way to take in runs, which hands their brackets to its labels and stops at its first error. -/
structure Intake (σ ε : Type) where
  run : σ → Run → σ
  openLoop : σ → Token → σ
  closeLoop : σ → Token → σ
  labels : σ → Labels
  error : σ → Option ε
  /-- What becomes of an error of the source. -/
  refuse : SourceError → ε
  /-- The states in which nothing but a bracket is refused. -/
  Sound : σ → Prop
  run_of_error {s : σ} {e : ε} : error s = some e → ∀ r, run s r = s
  run_open {s : σ} : error s = none → ∀ ts, run s ⟨.loopOpen, ts⟩ = ts.foldl openLoop s
  run_close {s : σ} : error s = none → ∀ ts, run s ⟨.loopClose, ts⟩ = ts.foldl closeLoop s
  run_act {s : σ} {r : Run} : Sound s → error s = none → r.symbol.isBracket = false →
    Sound (run s r) ∧ error (run s r) = none ∧ labels (run s r) = labels s
  openLoop_ok (s : σ) (t : Token) : error (openLoop s t) = error s ∧
    labels (openLoop s t) = ((labels s).enter t.position).2
  closeLoop_of_error {s : σ} {e : ε} : error s = some e → ∀ t, closeLoop s t = s
  closeLoop_refused {s : σ} {t : Token} {e : SourceError} : error s = none →
    (labels s).leave t.position = .error e → error (closeLoop s t) = some (refuse e)
  closeLoop_ok {s : σ} {t : Token} {n : Nat} {l : Labels} : error s = none →
    (labels s).leave t.position = .ok (n, l) →
    error (closeLoop s t) = none ∧ labels (closeLoop s t) = l
  sound_openLoop {s : σ} (t : Token) : Sound s → Sound (openLoop s t)
  sound_closeLoop {s : σ} (t : Token) : Sound s → Sound (closeLoop s t)

namespace Intake

variable {σ ε : Type} (I : Intake σ ε)

/-- What an intake has come to: its labels, or its error. -/
def outcome (s : σ) : Except ε Labels :=
  match I.error s with
  | some e => .error e
  | none => .ok (I.labels s)

variable {I} {s : σ}

theorem outcome_eq_error_iff {e : ε} : I.outcome s = .error e ↔ I.error s = some e := by
  unfold outcome
  cases I.error s <;> simp

theorem outcome_eq_ok_iff {l : Labels} :
    I.outcome s = .ok l ↔ I.error s = none ∧ I.labels s = l := by
  unfold outcome
  cases I.error s <;> simp

/-- A single opening bracket. -/
theorem run_openLoop (h : I.error s = none) (t : Token) :
    I.run s ⟨.loopOpen, [t]⟩ = I.openLoop s t := I.run_open h [t]

/-- A single closing bracket, which is not looked at after an error. -/
theorem run_closeLoop (s : σ) (t : Token) : I.run s ⟨.loopClose, [t]⟩ = I.closeLoop s t := by
  cases h : I.error s with
  | some e => rw [I.run_of_error h, I.closeLoop_of_error h]
  | none => exact I.run_close h [t]

/-- A run of brackets is taken in bracket by bracket. -/
theorem foldl_run_brackets (r : Run) (s : σ) (hb : r.symbol.isBracket = true) :
    r.tokens.foldl (fun s t => I.run s ⟨r.symbol, [t]⟩) s = I.run s r := by
  obtain ⟨symbol, ts⟩ := r
  change symbol.isBracket = true at hb
  show ts.foldl (fun s t => I.run s ⟨symbol, [t]⟩) s = _
  cases h : I.error s with
  | some e =>
    rw [I.run_of_error h]
    induction ts with
    | nil => rfl
    | cons t ts ih => rw [List.foldl_cons, I.run_of_error h, ih]
  | none =>
    cases symbol with
    | loopOpen =>
      rw [I.run_open h]
      induction ts generalizing s with
      | nil => rfl
      | cons t ts ih =>
        rw [List.foldl_cons, List.foldl_cons, run_openLoop h]
        exact ih (I.openLoop s t) ((I.openLoop_ok s t).1.trans h)
    | loopClose =>
      -- here an error may come up on the way, and both sides stop at it
      rw [I.run_close h]
      simp only [run_closeLoop]
    | _ => cases hb

/-- The pieces of runs are taken in as the runs are. -/
theorem foldl_run_pieces (rs : List Run) (s : σ) :
    (rs.flatMap Run.pieces).foldl I.run s = rs.foldl I.run s :=
  Run.foldl_flatMap_pieces foldl_run_brackets rs s

theorem sound_run {r : Run} (hr : r.Piece) (hs : I.Sound s) : I.Sound (I.run s r) := by
  cases h : I.error s with
  | some e => rwa [I.run_of_error h]
  | none =>
    cases hb : r.symbol.isBracket with
    | false => exact (I.run_act hs h hb).1
    | true =>
      obtain ⟨t, ht⟩ := hr.single hb
      obtain ⟨symbol, ts⟩ := r
      subst ht
      cases symbol with
      | loopOpen =>
        rw [run_openLoop h]
        exact I.sound_openLoop t hs
      | loopClose =>
        rw [run_closeLoop]
        exact I.sound_closeLoop t hs
      | _ => cases hb

/-- What a piece does to the labels. -/
theorem outcome_run {r : Run} (hr : r.Piece) (hs : I.Sound s) :
    I.outcome (I.run s r) =
      (I.outcome s).bind fun l => (l.takeAll r.tokens).mapError I.refuse := by
  cases h : I.error s with
  | some e =>
    rw [I.run_of_error h, outcome_eq_error_iff.mpr h]
    rfl
  | none =>
    rw [outcome_eq_ok_iff.mpr ⟨h, rfl⟩]
    show _ = ((I.labels s).takeAll r.tokens).mapError I.refuse
    cases hb : r.symbol.isBracket with
    | false =>
      have hts : ∀ t ∈ r.tokens, t.symbol.isBracket = false := by
        intro t ht
        rw [hr.uniform t ht, hb]
      rw [Labels.takeAll_act hts]
      exact outcome_eq_ok_iff.mpr (I.run_act hs h hb).2
    | true =>
      obtain ⟨t, ht⟩ := hr.single hb
      have hsymbol := hr.uniform t (by simp [ht])
      obtain ⟨symbol, ts⟩ := r
      subst ht
      show _ = ((I.labels s).takeAll [t]).mapError I.refuse
      cases symbol with
      | loopOpen =>
        obtain ⟨herror, hlabels⟩ := I.openLoop_ok s t
        rw [run_openLoop h, Labels.takeAll, Labels.take_open hsymbol]
        exact outcome_eq_ok_iff.mpr ⟨herror.trans h, hlabels⟩
      | loopClose =>
        rw [run_closeLoop, Labels.takeAll, Labels.take_close hsymbol]
        cases hl : (I.labels s).leave t.position with
        | error e => exact outcome_eq_error_iff.mpr (I.closeLoop_refused h hl)
        | ok p => exact outcome_eq_ok_iff.mpr (I.closeLoop_ok h hl)
      | _ => cases hb

theorem outcome_foldl_pieces {ps : List Run} (hps : ∀ r ∈ ps, r.Piece) (hs : I.Sound s) :
    I.outcome (ps.foldl I.run s) =
      (I.outcome s).bind fun l => (l.takeAll (ps.flatMap Run.tokens)).mapError I.refuse := by
  induction ps generalizing s with
  | nil => cases h : I.outcome s <;> simp [Labels.takeAll, Except.bind, Except.mapError, h]
  | cons r ps ih =>
    have hr := hps r (by simp)
    rw [List.foldl_cons, ih (fun p hp => hps p (List.mem_cons_of_mem r hp)) (sound_run hr hs),
      outcome_run hr hs, List.flatMap_cons]
    cases I.outcome s with
    | error e => rfl
    | ok l =>
      show ((l.takeAll r.tokens).mapError _).bind _ = (l.takeAll (r.tokens ++ _)).mapError _
      rw [Labels.takeAll_append]
      cases l.takeAll r.tokens <;> rfl

/-- The labels of an intake are those of the tokens it was given, and so is its error. -/
theorem outcome_foldl_run {rs : List Run} (hrs : ∀ r ∈ rs, r.Proper) (hs : I.Sound s) :
    I.outcome (rs.foldl I.run s) =
      (I.outcome s).bind fun l => (l.takeAll (rs.flatMap Run.tokens)).mapError I.refuse := by
  rw [← foldl_run_pieces, ← Run.flatMap_tokens_flatMap_pieces]
  exact outcome_foldl_pieces (fun _ => Run.piece_of_mem_flatMap hrs) hs

/-- An intake that starts afresh comes to the first error of its tokens, or to their labels. -/
theorem foldl_run_cases {rs : List Run} (hrs : ∀ r ∈ rs, r.Proper) (hs : I.Sound s)
    (hstart : I.outcome s = .ok .empty) :
    (∃ e, Labels.empty.takeAll (rs.flatMap Run.tokens) = .error e ∧
      I.error (rs.foldl I.run s) = some (I.refuse e)) ∨
    ∃ l, Labels.empty.takeAll (rs.flatMap Run.tokens) = .ok l ∧
      I.error (rs.foldl I.run s) = none ∧ I.labels (rs.foldl I.run s) = l := by
  have hout := outcome_foldl_run hrs hs
  rw [hstart] at hout
  change _ = (Labels.empty.takeAll _).mapError I.refuse at hout
  cases htake : Labels.empty.takeAll (rs.flatMap Run.tokens) with
  | error e =>
    rw [htake] at hout
    exact .inl ⟨e, rfl, outcome_eq_error_iff.mp hout⟩
  | ok l =>
    rw [htake] at hout
    exact .inr ⟨l, rfl, outcome_eq_ok_iff.mp hout⟩

end Intake

/-! ### The verdict on runs -/

namespace Runs

variable {ε : Type}

/-- What runs come to as far as their brackets go: the labels handed out, or else the first error
among them, what cut them short, or the loop left open. -/
def verdict (rs : Runs ε) : Except (Interruption ε) Labels :=
  ((Labels.empty.takeAll (rs.runs.flatMap Run.tokens)).mapError .invalid).bind fun l =>
    match rs.stop with
    | some stop => .error stop
    | none => (l.finish.mapError .invalid).map fun _ => l

theorem verdict_eq_ok {rs : Runs ε} {l : Labels} (h : rs.verdict = .ok l) :
    Labels.empty.takeAll (rs.runs.flatMap Run.tokens) = .ok l ∧ rs.stop = none ∧
      l.stack = [] := by
  unfold verdict at h
  cases htake : Labels.empty.takeAll (rs.runs.flatMap Run.tokens) with
  | error e =>
    rw [htake] at h
    cases h
  | ok l₁ =>
    rw [htake] at h
    cases hstop : rs.stop with
    | some stop =>
      rw [hstop] at h
      cases h
    | none =>
      rw [hstop] at h
      cases hfinish : l₁.finish with
      | error e =>
        simp [Except.mapError, Except.bind, Except.map, hfinish] at h
      | ok u =>
        simp only [Except.mapError, Except.bind, Except.map, hfinish, Except.ok.injEq] at h
        subst h
        exact ⟨rfl, rfl, Labels.finish_eq_ok_iff.mp ⟨u, hfinish⟩⟩

end Runs

end TapeLang
