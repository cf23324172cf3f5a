import TapeLang.Text.Digit
import TapeLang.Text.Quoted

/-!
Options and operands of a command line.

A grammar lists options; each has names with one or two dashes and may take a value.  Reading a
command line first tells options from operands, argument by argument, and then walks through them
once: options become settings in the order in which they stand, the first unbroken group of operands
is the one the grammar provides for, and everything else is left over.  Reading stops at the first
error, and what was read before it is kept, since asking for help there still counts.
-/

namespace TapeLang.Command

/-- An option; `κ` is what it means to the program. -/
structure OptionSpec (κ : Type) where
  key : κ
  names : List String
  takesValue : Bool

/-- What a command line may consist of. -/
structure Grammar (κ : Type) where
  options : List (OptionSpec κ)
  /-- Whether there is a place for operands. -/
  operands : Bool

/-- What is wrong with a command line. -/
inductive OptionError where
  | ambiguous (argument : String) (candidates : List String)
  | valueMissing (names : List String)
  | valueRefused (names : List String) (value : String)
  | invalidInteger (names : List String) (value : String)
  | unrecognized (arguments : List String)
  deriving DecidableEq, Repr

/-- The error in words. -/
def OptionError.message : OptionError → String
  | ambiguous a cs =>
    "ambiguous option: " ++ a ++ " could match " ++ String.intercalate ", " cs
  | valueMissing names => "argument " ++ String.intercalate "/" names ++ ": expected one argument"
  | valueRefused names v =>
    "argument " ++ String.intercalate "/" names ++ ": ignored explicit argument " ++ Text.quoted v
  | invalidInteger names v =>
    "argument " ++ String.intercalate "/" names ++ ": invalid int value: " ++ Text.quoted v
  | unrecognized args => "unrecognized arguments: " ++ String.intercalate " " args

/-- Something a command line sets. -/
inductive Setting (κ : Type) where
  | option (spec : OptionSpec κ) (value : Option String)
  | operands (arguments : List String)

/-- A reading of a command line: its settings in order, and what ended it. -/
structure Reading (κ : Type) where
  settings : Array (Setting κ)
  /-- The error that ended the reading, or the arguments left over. -/
  ending : Except OptionError (List String)

/-! ### Telling options from operands -/

/-- What an argument is. -/
inductive Argument (κ : Type) where
  | operand (text : String)
  /-- The two dashes after which every argument is an operand. -/
  | separator
  /-- A known option, by the name it was called, with a value in the same argument. -/
  | known (spec : OptionSpec κ) (name : String) (value : Option String)
  /-- Looks like an option, but is none. -/
  | unknown (text : String)

/-- Whether a text is a negative number: digits, or a fraction with digits behind the point.  A line
feed at the end is overlooked. -/
def isNegativeNumber (text : String) : Bool :=
  let isDigit (c : Char) : Bool := (Text.digit? c).isSome
  let body (cs : List Char) : Bool :=
    match cs with
    | '-' :: cs =>
      (!cs.isEmpty && cs.all isDigit) ||
        (match cs.dropWhile isDigit with
          | '.' :: frac => !frac.isEmpty && frac.all isDigit
          | _ => false)
    | _ => false
  let cs := text.toList
  body cs || (cs.getLast? == some '\n' && body cs.dropLast)

/-- A text split at its first equals sign. -/
def splitAtEquals (text : String) : String × Option String :=
  let cs := text.toList
  match cs.dropWhile (· != '=') with
  | [] => (text, none)
  | _ :: value => (String.ofList (cs.takeWhile (· != '=')), some (String.ofList value))

namespace Grammar

variable {κ : Type}

/-- The names of all options, each with its option. -/
def names (g : Grammar κ) : List (String × OptionSpec κ) :=
  g.options.flatMap fun o => o.names.map (·, o)

/-- The option with a name. -/
def find? (g : Grammar κ) (name : String) : Option (OptionSpec κ) :=
  (g.names.find? (·.1 == name)).map (·.2)

/-- The options an argument may abbreviate, or start with if it has one dash only. -/
def candidates (g : Grammar κ) (text : String) : List (String × OptionSpec κ × Option String) :=
  if Text.startsWith text "--" then
    let (start, value) := splitAtEquals text
    g.names.filterMap fun (name, o) =>
      if Text.startsWith name start then some (name, o, value) else none
  else
    let short := String.ofList (text.toList.take 2)
    let value := String.ofList (text.toList.drop 2)
    g.names.filterMap fun (name, o) =>
      if name == short then some (name, o, some value)
      else if Text.startsWith name text then some (name, o, none)
      else none

/-- What an argument is, if no separator stands before it. -/
def classify (g : Grammar κ) (text : String) : Except OptionError (Argument κ) :=
  if text == "--" then .ok .separator
  else if !Text.startsWith text "-" then .ok (.operand text)
  else
    match g.find? text with
    | some o => .ok (.known o text none)
    | none =>
      if text == "-" then .ok (.operand text)
      else
        let (start, value) := splitAtEquals text
        match value.bind fun _ => g.find? start with
        | some o => .ok (.known o start value)
        | none =>
          match g.candidates text with
          | [(name, o, value)] => .ok (.known o name value)
          | [] =>
            if isNegativeNumber text || text.toList.contains ' ' then .ok (.operand text)
            else .ok (.unknown text)
          | several => .error (.ambiguous text (several.map (·.1)))

/-- What the arguments of a command line are. -/
def classifyAll (g : Grammar κ) : List String → Except OptionError (List (Argument κ))
  | [] => .ok []
  | text :: rest =>
    match g.classify text with
    | .error e => .error e
    | .ok .separator => .ok (.separator :: rest.map .operand)
    | .ok a => (g.classifyAll rest).map (a :: ·)

end Grammar

/-! ### Walking through the arguments -/

/-- A cluster of options with one dash: the flags before the last option, the last one with the
value in its argument, or the error that the cluster contains. -/
def Grammar.cluster {κ : Type} (g : Grammar κ) (spec : OptionSpec κ) (name : String) :
    List Char → Array (OptionSpec κ) →
      Except OptionError (Array (OptionSpec κ) × OptionSpec κ × Option String)
  | [], flags =>
    if spec.takesValue then .ok (flags, spec, some "")
    else .error (.valueRefused spec.names "")
  | c :: rest, flags =>
    let value := String.ofList (c :: rest)
    if spec.takesValue then .ok (flags, spec, some value)
    else if Text.startsWith name "--" then .error (.valueRefused spec.names value)
    else
      let next := String.ofList ['-', c]
      match g.find? next with
      | none => .error (.valueRefused spec.names value)
      | some o =>
        if rest.isEmpty then .ok (flags.push spec, o, none)
        else g.cluster o next rest (flags.push spec)

/-- The walk so far: settings, arguments left over, and whether operands were taken. -/
structure Walk (κ : Type) where
  settings : Array (Setting κ)
  extras : Array String
  operandsTaken : Bool

namespace Walk

variable {κ : Type}

/-- Take a group of operands, or leave it over. -/
def operands (w : Walk κ) (group : List String) : Walk κ :=
  if w.operandsTaken then { w with extras := w.extras ++ group.toArray }
  else
    { w with
      settings := w.settings.push (.operands (group.erase "--"))
      operandsTaken := true }

/-- Take the operands since the last option, the last one first, if there are any. -/
def endGroup (w : Walk κ) (group : List String) : Walk κ :=
  if group.isEmpty then w else w.operands group.reverse

/-- Take flags. -/
def flags (w : Walk κ) (specs : Array (OptionSpec κ)) : Walk κ :=
  { w with settings := w.settings ++ specs.map (.option · none) }

/-- Take an option.  Two dashes are never a value: as one they stand for none. -/
def option (w : Walk κ) (spec : OptionSpec κ) (value : Option String) : Walk κ :=
  { w with settings := w.settings.push (.option spec (value.filter (· ≠ "--"))) }

end Walk

/-- Walk through classified arguments.  `group` holds the operands since the last option, the last
one first. -/
def Grammar.walk {κ : Type} (g : Grammar κ) :
    List (Argument κ) → (group : List String) → Walk κ → Reading κ
  | [], group, w =>
    let w := w.endGroup group
    ⟨w.settings, .ok w.extras.toList⟩
  | .operand text :: rest, group, w => g.walk rest (text :: group) w
  | .separator :: rest, group, w => g.walk rest ("--" :: group) w
  | .unknown text :: rest, group, w =>
    let w := w.endGroup group
    g.walk rest [] { w with extras := w.extras.push text }
  | .known spec name value :: rest, group, w =>
    let w := w.endGroup group
    let last : Except OptionError (Array (OptionSpec κ) × OptionSpec κ × Option String) :=
      match value with
      | none => .ok (#[], spec, none)
      | some v => g.cluster spec name v.toList #[]
    match last with
    | .error e => ⟨w.settings, .error e⟩
    | .ok (flags, spec, some v) => g.walk rest [] ((w.flags flags).option spec (some v))
    | .ok (flags, spec, none) =>
      if !spec.takesValue then g.walk rest [] ((w.flags flags).option spec none)
      else
        match rest with
        | .operand v :: rest => g.walk rest [] ((w.flags flags).option spec (some v))
        | _ => ⟨w.settings, .error (.valueMissing spec.names)⟩

/-- Read a command line. -/
def Grammar.read {κ : Type} (g : Grammar κ) (arguments : List String) : Reading κ :=
  match g.classifyAll arguments with
  | .error e => ⟨#[], .error e⟩
  | .ok args => g.walk args [] ⟨#[], #[], !g.operands⟩

end TapeLang.Command
