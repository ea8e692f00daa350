/-!
# Command-line arguments

Arguments are read from left to right. An option is `--name=value`, or `--name` with its value in
the next argument; a switch is `--name` alone. Some options have a one-letter form, and some take
several values. A `-` alone is a value, and after `--` everything is. What does not fit is a usage
error: an unknown name, a value that is missing or too many, an option given twice.
-/

namespace Tricore.Command

structure UsageError where
  deriving DecidableEq, Repr

/-- The names that a command knows. -/
structure Grammar where
  switches : List String := []
  options : List String := []
  /-- Options that may be repeated and take several values. -/
  lists : List String := []
  /-- Letters that stand for options. -/
  letters : List (Char × String) := []
  /-- How many values there are outside of options; reading stops after the last of them if there
  are commands to follow. -/
  values : Nat := 0
  commands : Bool := false

/-- What was given. -/
structure Arguments where
  switches : List String := []
  options : List (String × String) := []
  values : List String := []

namespace Arguments

def has (a : Arguments) (name : String) : Bool := a.switches.contains name

def option? (a : Arguments) (name : String) : Option String := a.options.lookup name

/-- All values of an option, in order. -/
def list (a : Arguments) (name : String) : List String :=
  (a.options.filter (·.1 == name)).map (·.2)

def addValue (a : Arguments) (text : String) : Arguments := { a with values := a.values ++ [text] }

/-- Give an option a value; only a list may have more than one. -/
def addOption (g : Grammar) (a : Arguments) (name text : String) : Except UsageError Arguments :=
  if !g.lists.contains name && (a.option? name).isSome then .error ⟨⟩
  else .ok { a with options := a.options ++ [(name, text)] }

def addSwitch (a : Arguments) (name : String) : Except UsageError Arguments :=
  if a.has name then .error ⟨⟩ else .ok { a with switches := name :: a.switches }

end Arguments

/-- An option that waits for a value, and whether it has one already. -/
structure Waiting where
  name : String
  served : Bool

/-- A text up to its first equals sign, and what follows that. -/
def atEquals : List Char → List Char × Option (List Char)
  | [] => ([], none)
  | c :: rest =>
    if c = '=' then ([], some rest)
    else
      let (name, value?) := atEquals rest
      (c :: name, value?)

namespace Grammar

def takesValue (g : Grammar) (name : String) : Bool :=
  g.options.contains name || g.lists.contains name

/-- Read an argument that starts with two dashes. -/
def long (g : Grammar) (a : Arguments) (text : List Char) :
    Except UsageError (Arguments × Option Waiting) := do
  let (name, value?) := atEquals text
  let name := String.ofList name
  match value? with
  | some value =>
    if g.takesValue name then return (← a.addOption g name (String.ofList value), none)
    else .error ⟨⟩
  | none =>
    if g.takesValue name then return (a, some ⟨name, false⟩)
    else if g.switches.contains name then return (← a.addSwitch name, none)
    else .error ⟨⟩

/-- Read an argument that starts with one dash and a letter. -/
def short (g : Grammar) (a : Arguments) (letter : Char) (rest : List Char) :
    Except UsageError (Arguments × Option Waiting) := do
  match g.letters.lookup letter, rest with
  | none, _ => .error ⟨⟩
  | some name, [] => return (a, some ⟨name, false⟩)
  | some name, '=' :: value => return (← a.addOption g name (String.ofList value), none)
  | some name, value => return (← a.addOption g name (String.ofList value), none)

/-- Read an argument that is a value. -/
def plain (g : Grammar) (a : Arguments) (waiting? : Option Waiting) (text : String) :
    Except UsageError (Arguments × Option Waiting) := do
  match waiting? with
  | some w =>
    let a ← a.addOption g w.name text
    return (a, if g.lists.contains w.name then some ⟨w.name, true⟩ else none)
  | none =>
    if a.values.length < g.values then return (a.addValue text, none) else .error ⟨⟩

/-- Is an option still without its value? -/
def unserved : Option Waiting → Bool
  | some w => !w.served
  | none => false

/-- Read arguments up to the end, or up to a command; the arguments and what is left. -/
def readFrom (g : Grammar) :
    List String → Arguments → Option Waiting → Except UsageError (Arguments × List String)
  | [], a, waiting? => if unserved waiting? then .error ⟨⟩ else .ok (a, [])
  | text :: rest, a, waiting? =>
    match text.toList with
    | ['-', '-'] =>
      if unserved waiting? || g.values < a.values.length + rest.length then .error ⟨⟩
      else .ok (rest.foldl Arguments.addValue a, [])
    | '-' :: '-' :: name => do
      if unserved waiting? then .error ⟨⟩
      let (a, waiting?) ← g.long a name
      g.readFrom rest a waiting?
    | '-' :: letter :: value => do
      if unserved waiting? then .error ⟨⟩
      let (a, waiting?) ← g.short a letter value
      g.readFrom rest a waiting?
    | _ =>
      if g.commands && waiting?.isNone && a.values.length = g.values then .ok (a, text :: rest)
      else do
        let (a, waiting?) ← g.plain a waiting? text
        g.readFrom rest a waiting?

/-- Read arguments; all values must be there. -/
def read (g : Grammar) (arguments : List String) :
    Except UsageError (Arguments × List String) := do
  let (a, rest) ← g.readFrom arguments {} none
  if a.values.length = g.values then return (a, rest) else .error ⟨⟩

end Grammar

end Tricore.Command
