import Mathlib.Data.List.TakeWhile
import TapeLang.Command.Settings
import TapeLang.Proofs.Text.Integer

/-!
What a command line says.

Most command lines are options, then the operands in a row, and then options again, where each
stretch may be empty.  `Options` says how options are spelled: without a value, with a value behind
them, or with a value in the same argument.  Such options are told from operands, and walked
through, one after the other, whatever stands behind them (`Options.classifyAll`, `Options.walk`).

Main statements: `Grammar.read_of_options`, a command line like this sets what it spells, in order,
and nothing is left over; `parse_of_options`, for the compiler.  Numbers are operands, negative ones
included (`classify_toString`).
-/

namespace TapeLang.Command

section

variable {κ : Type} {g : Grammar κ}

/-! ### Operands -/

theorem ne_dashes_of_operand {text : String} (h : g.classify text = .ok (.operand text)) :
    text ≠ "--" := by
  rintro rfl
  cases h

/-- What does not start with a dash is an operand. -/
theorem classify_of_not_dash (g : Grammar κ) {text : String}
    (h : Text.startsWith text "-" = false) : g.classify text = .ok (.operand text) := by
  have hne : text ≠ "--" := by
    rintro rfl
    exact absurd h (by decide)
  rw [Grammar.classify, if_neg (by simpa using hne), if_pos (by simp [h])]

theorem classifyAll_operands {operands : List String}
    (h : ∀ text ∈ operands, g.classify text = .ok (.operand text)) (rest : List String) :
    g.classifyAll (operands ++ rest) =
      (g.classifyAll rest).map (operands.map .operand ++ ·) := by
  induction operands with
  | nil =>
    cases hrest : g.classifyAll rest <;> simp [hrest, Except.map]
  | cons text texts ih =>
    obtain ⟨htext, htexts⟩ := List.forall_mem_cons.mp h
    rw [List.cons_append, Grammar.classifyAll, htext, ih htexts]
    cases g.classifyAll rest <;> rfl

/-- Operands join the group that is being collected. -/
theorem walk_operands (operands : List String) (rest : List (Argument κ)) (group : List String)
    (w : Walk κ) :
    g.walk (operands.map .operand ++ rest) group w = g.walk rest (operands.reverse ++ group) w := by
  induction operands generalizing group with
  | nil => rfl
  | cons text texts ih =>
    rw [List.map_cons, List.cons_append, Grammar.walk, ih, List.reverse_cons, List.append_assoc]
    rfl

/-! ### Options -/

/-- How options are spelled, what their arguments are taken for, and what they set. -/
inductive Options (g : Grammar κ) :
    List String → List (Argument κ) → List (Setting κ) → Prop
  | nil : Options g [] [] []
  /-- An option without a value. -/
  | flag {text name : String} {spec : OptionSpec κ} {texts : List String}
      {args : List (Argument κ)} {settings : List (Setting κ)} :
      g.classify text = .ok (.known spec name none) → spec.takesValue = false →
      Options g texts args settings →
      Options g (text :: texts) (.known spec name none :: args) (.option spec none :: settings)
  /-- An option with its value in the next argument. -/
  | apart {text name value : String} {spec : OptionSpec κ} {texts : List String}
      {args : List (Argument κ)} {settings : List (Setting κ)} :
      g.classify text = .ok (.known spec name none) → spec.takesValue = true →
      g.classify value = .ok (.operand value) → Options g texts args settings →
      Options g (text :: value :: texts) (.known spec name none :: .operand value :: args)
        (.option spec (some value) :: settings)
  /-- An option with its value in the same argument, which may be two dashes. -/
  | attached {text name value : String} {spec : OptionSpec κ} {texts : List String}
      {args : List (Argument κ)} {settings : List (Setting κ)} :
      g.classify text = .ok (.known spec name (some value)) → spec.takesValue = true →
      Options g texts args settings →
      Options g (text :: texts) (.known spec name (some value) :: args)
        (.option spec ((some value).filter (· ≠ "--")) :: settings)

/-- Options are told from operands in front of anything. -/
theorem Options.classifyAll {texts : List String} {args : List (Argument κ)}
    {settings : List (Setting κ)} (h : Options g texts args settings) (rest : List String) :
    g.classifyAll (texts ++ rest) = (g.classifyAll rest).map (args ++ ·) := by
  induction h with
  | nil => cases hrest : g.classifyAll rest <;> simp [hrest, Except.map]
  | flag htext _ _ ih =>
    rw [List.cons_append, Grammar.classifyAll, htext, ih]
    cases g.classifyAll rest <;> rfl
  | apart htext _ hvalue _ ih =>
    rw [List.cons_append, List.cons_append, Grammar.classifyAll, htext, Grammar.classifyAll, hvalue,
      ih]
    cases g.classifyAll rest <;> rfl
  | attached htext _ _ ih =>
    rw [List.cons_append, Grammar.classifyAll, htext, ih]
    cases g.classifyAll rest <;> rfl

namespace Walk

@[simp] theorem flags_empty (w : Walk κ) : w.flags #[] = w := by
  simp [flags]

@[simp] theorem endGroup_nil (w : Walk κ) : w.endGroup [] = w := rfl

end Walk

/-- An option that takes a value takes all that is in its argument. -/
theorem cluster_of_takesValue {spec : OptionSpec κ} (h : spec.takesValue = true) (name : String)
    (cs : List Char) (flags : Array (OptionSpec κ)) :
    g.cluster spec name cs flags = .ok (flags, spec, some (String.ofList cs)) := by
  cases cs with
  | nil => rw [Grammar.cluster, if_pos h, String.ofList_nil]
  | cons c cs => rw [Grammar.cluster, if_pos h]

section

-- What one step of the walk does, by how the option is spelled.

variable {spec : OptionSpec κ} {name : String} {rest : List (Argument κ)} {w : Walk κ}

/-- An option ends the group of operands in front of it. -/
theorem walk_known (value : Option String) (group : List String) :
    g.walk (.known spec name value :: rest) group w =
      g.walk (.known spec name value :: rest) [] (w.endGroup group) := by
  rw [Grammar.walk.eq_def, Grammar.walk.eq_def]
  rfl

theorem walk_flag (hspec : spec.takesValue = false) :
    g.walk (.known spec name none :: rest) [] w = g.walk rest [] (w.option spec none) := by
  rw [Grammar.walk.eq_def]
  simp [hspec]

theorem walk_apart (hspec : spec.takesValue = true) (value : String) :
    g.walk (.known spec name none :: .operand value :: rest) [] w =
      g.walk rest [] (w.option spec (some value)) := by
  rw [Grammar.walk.eq_def]
  simp [hspec]

theorem walk_attached (hspec : spec.takesValue = true) (value : String) :
    g.walk (.known spec name (some value) :: rest) [] w =
      g.walk rest [] (w.option spec (some value)) := by
  rw [Grammar.walk.eq_def]
  simp [cluster_of_takesValue hspec]

end

/-- Walking over options takes them one after the other. -/
theorem Options.walk {texts : List String} {args : List (Argument κ)} {settings : List (Setting κ)}
    (h : Options g texts args settings) (rest : List (Argument κ)) (w : Walk κ) :
    g.walk (args ++ rest) [] w =
      g.walk rest [] { w with settings := w.settings ++ settings.toArray } := by
  induction h generalizing w with
  | nil => simp
  | flag _ hspec _ ih =>
    rw [List.cons_append, walk_flag hspec, ih]
    simp [Walk.option]
  | @apart _ _ value _ _ _ _ _ hspec hvalue _ ih =>
    have hfilter : (some value).filter (· ≠ "--") = some value := by
      simpa using ne_dashes_of_operand hvalue
    rw [List.cons_append, List.cons_append, walk_apart hspec, ih, Walk.option, hfilter]
    simp
  | attached _ hspec _ ih =>
    rw [List.cons_append, walk_attached hspec, ih]
    simp [Walk.option]

/-- Options at the end take the group of operands in front of them with them. -/
theorem Options.walk_end {texts : List String} {args : List (Argument κ)}
    {settings : List (Setting κ)} (h : Options g texts args settings) (group : List String)
    (w : Walk κ) :
    g.walk args group w =
      ⟨(w.endGroup group).settings ++ settings.toArray, .ok (w.endGroup group).extras.toList⟩ := by
  have hwalk := h.walk [] (w.endGroup group)
  rw [List.append_nil, Grammar.walk, Walk.endGroup_nil] at hwalk
  rw [← hwalk]
  -- Without an option the end of the arguments is what ends the group.
  cases h with
  | nil => rw [Grammar.walk, Grammar.walk, Walk.endGroup_nil]
  | flag => exact walk_known _ _
  | apart => exact walk_known _ _
  | attached => exact walk_known _ _

/-! ### A command line -/

/-- What operands in a row set. -/
def operandSettings (operands : List String) : List (Setting κ) :=
  if operands = [] then [] else [.operands operands]

/-- **Reading**: options, operands in a row and options again set what they spell, in order, and
nothing is left over. -/
theorem Grammar.read_of_options (hplace : g.operands = true) {before operands after : List String}
    {args args' : List (Argument κ)} {settings settings' : List (Setting κ)}
    (hbefore : Options g before args settings)
    (hoperands : ∀ text ∈ operands, g.classify text = .ok (.operand text))
    (hafter : Options g after args' settings') :
    g.read (before ++ operands ++ after) =
      ⟨(settings ++ operandSettings operands ++ settings').toArray, .ok []⟩ := by
  have hclassify : g.classifyAll (before ++ operands ++ after) =
      .ok (args ++ (operands.map .operand ++ args')) := by
    have hlast := hafter.classifyAll []
    rw [List.append_nil] at hlast
    rw [List.append_assoc, hbefore.classifyAll, classifyAll_operands hoperands, hlast]
    simp [Grammar.classifyAll, Except.map]
  have hseparator : "--" ∉ operands := fun h => ne_dashes_of_operand (hoperands _ h) rfl
  rw [Grammar.read, hclassify]
  simp only [hbefore.walk, walk_operands, hafter.walk_end]
  by_cases hnone : operands = []
  · simp [operandSettings, hnone]
  · simp [operandSettings, hnone, Walk.endGroup, Walk.operands, hplace,
      List.erase_of_not_mem hseparator]

end

/-- A command line of the compiler asks for what its options and operands set.  The three stretches
are given, so that a command line can be cut into them. -/
theorem parse_of_options (before operands after : List String)
    {args args' : List (Argument Key)} {settings settings' : List (Setting Key)} {s : Settings}
    (hbefore : Options grammar before args settings)
    (hoperands : ∀ text ∈ operands, Text.startsWith text "-" = false)
    (hafter : Options grammar after args' settings')
    (hs : Reading.request ⟨(settings ++ operandSettings operands ++ settings').toArray, .ok []⟩
      Settings.default Settings.apply = .proceed s) :
    parse (before ++ operands ++ after) = .proceed s := by
  have hclassify : ∀ text ∈ operands, grammar.classify text = .ok (.operand text) :=
    fun text htext => classify_of_not_dash grammar (hoperands text htext)
  rw [parse, Grammar.read_of_options rfl hbefore hclassify hafter, hs]

/-! ### Numbers -/

/-- No option of the compiler looks like a number. -/
theorem names_grammar : ∀ x ∈ grammar.names, ∃ c cs, x.1.toList = '-' :: c :: cs ∧
    c.isDigit = false := by
  intro x hx
  simp only [Grammar.names, grammar, List.flatMap_cons, List.flatMap_nil, List.map_cons,
    List.map_nil, List.cons_append, List.nil_append, List.mem_cons, List.not_mem_nil,
    or_false] at hx
  rcases hx with rfl | rfl | rfl | rfl | rfl | rfl | rfl | rfl | rfl | rfl <;>
    exact ⟨_, _, rfl, by decide⟩

/-- An option is never called by something that looks like a negative number. -/
theorem not_startsWith_of_digit {x : String × OptionSpec Key} (hx : x ∈ grammar.names) {d : Char}
    {ds : List Char} {text : String} (htext : text.toList = '-' :: d :: ds)
    (hd : d.isDigit = true) : Text.startsWith x.1 text = false ∧ x.1 ≠ text := by
  obtain ⟨c, cs, hname, hc⟩ := names_grammar x hx
  have hne : d ≠ c := by
    rintro rfl
    rw [hd] at hc
    cases hc
  constructor
  · rw [Text.startsWith, hname, htext]
    simp [List.isPrefixOf, hne]
  · intro heq
    rw [heq, htext, List.cons.injEq, List.cons.injEq] at hname
    exact hne hname.2.1

/-- A negative number is an operand. -/
theorem classify_of_digits {d : Char} {ds : List Char} {text : String}
    (htext : text.toList = '-' :: d :: ds) (hdigits : ∀ c ∈ d :: ds, c.isDigit = true) :
    grammar.classify text = .ok (.operand text) := by
  have hd := hdigits d List.mem_cons_self
  have hdash : d ≠ '-' := by
    rintro rfl
    cases hd
  have hseparator : text ≠ "--" := by
    rintro rfl
    exact hdash (List.cons.inj (List.cons.inj htext).2).1.symm
  have hsingle : text ≠ "-" := by
    rintro rfl
    cases (List.cons.inj htext).2
  have hstart : Text.startsWith text "-" = true := by
    rw [Text.startsWith, htext]
    rfl
  have hstarts : Text.startsWith text "--" = false := by
    rw [Text.startsWith, htext]
    simp [List.isPrefixOf, hdash.symm]
  have hfind : grammar.find? text = none := by
    have hnone : grammar.names.find? (·.1 == text) = none := by
      apply List.find?_eq_none.mpr
      intro x hx
      simpa using (not_startsWith_of_digit hx htext hd).2
    rw [Grammar.find?, hnone]
    rfl
  have hequals : splitAtEquals text = (text, none) := by
    have hdrop : text.toList.dropWhile (· != '=') = [] := by
      rw [List.dropWhile_eq_nil_iff, htext]
      intro c hc
      rcases List.mem_cons.mp hc with rfl | hc
      · rfl
      · have hne : c ≠ '=' := by
          rintro rfl
          cases hdigits _ hc
        simpa using hne
    rw [splitAtEquals, hdrop]
  have hcandidates : grammar.candidates text = [] := by
    have hshort : (String.ofList (text.toList.take 2)).toList = '-' :: d :: [] := by
      rw [String.toList_ofList, htext]
      rfl
    rw [Grammar.candidates, hstarts]
    apply List.filterMap_eq_nil_iff.mpr
    intro x hx
    simp [(not_startsWith_of_digit hx htext hd).1, (not_startsWith_of_digit hx hshort hd).2]
  -- It begins with a dash, and no option is called so: it is an operand because it is a number.
  have hnumber : isNegativeNumber text = true := by
    have hall : (d :: ds).all (fun c => (Text.digit? c).isSome) = true := by
      rw [List.all_eq_true]
      intro c hc
      rw [Text.digit?_of_isDigit (hdigits c hc)]
      rfl
    simp only [isNegativeNumber, htext, hall, List.isEmpty_cons, Bool.not_false, Bool.true_and,
      Bool.true_or]
  simp [Grammar.classify, hseparator, hsingle, hstart, hfind, hequals, hcandidates, hnumber]

/-- An integer that is written out is an operand. -/
theorem classify_toString (n : Int) :
    grammar.classify (toString n) = .ok (.operand (toString n)) := by
  have htext := Text.toList_toString n
  have hdigits : ∀ c ∈ Nat.toDigits 10 n.natAbs, c.isDigit = true := fun c hc =>
    Text.isDigit_of_mem_toDigits hc
  obtain ⟨d, ds, hcons⟩ :=
    List.exists_cons_of_ne_nil (Nat.toDigits_ne_nil (n := n.natAbs) (b := 10))
  rw [hcons] at htext hdigits
  by_cases hn : n < 0
  · rw [if_pos hn] at htext
    exact classify_of_digits htext hdigits
  · rw [if_neg hn] at htext
    apply classify_of_not_dash
    have hdash : d ≠ '-' := by
      rintro rfl
      cases hdigits _ List.mem_cons_self
    rw [Text.startsWith, htext]
    simp [List.isPrefixOf, hdash.symm]

end TapeLang.Command
