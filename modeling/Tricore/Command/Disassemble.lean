import Tricore.Command.Arguments
import Tricore.Export.Effect
import Tricore.Export.Report
import Tricore.Labels
import Tricore.Listing
import Tricore.Text.Blank
import Tricore.Text.Numeral

/-!
# The disassembler command

`Disassemble.options` reads the arguments and `Disassemble.output` does the work: it lists the
segments of a raw image, or a range of it as text, tokens or effects, or its code graph.
-/

namespace Tricore.Command

inductive OutputFormat where
  | text
  | json
  deriving DecidableEq, Repr

inductive Failure where
  | usage
  | message (text : String)
  /-- The label file is not one. -/
  | labels
  deriving DecidableEq, Repr

/-- What a command prints, and the files it writes. -/
structure Output where
  stdout : String := ""
  files : List (String × String) := []

/-- Lines, each with its end. -/
def unlines (lines : List String) : String := String.join (lines.map (· ++ "\n"))

namespace Output

/-- Text to a file, or else printed. -/
def put (o : Output) (path? : Option String) (text : String) : Output :=
  match path? with
  | some path => { o with files := o.files ++ [(path, text)] }
  | none => { o with stdout := o.stdout ++ text }

end Output

/-- A decimal number below `limit`; a minus sign only before zero. -/
def signedNumber (limit : Nat) (text : String) : Except UsageError Nat :=
  let number? :=
    match text.toList with
    | '-' :: c :: digits => Text.readDigits 10 1 (c :: digits) 0
    | cs => Text.readNumber 10 limit cs
  number?.mapError fun _ => ⟨⟩

def number (limit : Nat) (text : String) : Except UsageError Nat :=
  (Text.readDecimal limit text).mapError fun _ => ⟨⟩

def choice {α : Type} (ofName? : String → Option α) (text : String) : Except UsageError α :=
  match ofName? text with
  | some a => .ok a
  | none => .error ⟨⟩

namespace Arguments

/-- The value of an option, or a default. -/
def optionD {α : Type} (a : Arguments) (name : String) (read : String → Except UsageError α)
    (dflt : α) : Except UsageError α :=
  match a.option? name with
  | some text => read text
  | none => .ok dflt

/-- The value of an option, if it was given. -/
def optional {α : Type} (a : Arguments) (name : String) (read : String → Except UsageError α) :
    Except UsageError (Option α) :=
  match a.option? name with
  | some text => some <$> read text
  | none => .ok none

end Arguments

def OutputFormat.ofName? : String → Option OutputFormat
  | "text" => some .text
  | "json" => some .json
  | _ => none

namespace Disassemble

/-- A range as typed. -/
structure Range where
  start : String
  stop : String

structure Analysis where
  entries : List String
  budget : Nat
  format : OutputFormat
  listing : Bool
  showBytes : Bool
  labelsIn? : Option String
  labelsOut? : Option String
  out? : Option String

inductive Task where
  | sections
  | range (r : Range) (showBytes : Bool) (format : OutputFormat) (out? : Option String)
  | lift (r : Range) (format : OutputFormat) (out? : Option String)
  | analyze (a : Analysis)

structure Options where
  base : Address
  skip : Nat
  length? : Option Nat
  isa : Isa
  input : String
  task : Task

def format (a : Arguments) : Except UsageError OutputFormat :=
  a.optionD "format" (choice OutputFormat.ofName?) .text

def range (a : Arguments) : Except UsageError Range :=
  match a.values with
  | [start, stop] => .ok ⟨start, stop⟩
  | _ => .error ⟨⟩

/-- Read a command and its arguments. -/
def task : List String → Except UsageError Task
  | "sections" :: arguments => do
    let _ ← Grammar.read {} arguments
    return .sections
  | "range" :: arguments => do
    let (a, _) ← Grammar.read
      { switches := ["show-bytes"], options := ["format", "out"], values := 2 } arguments
    return .range (← range a) (a.has "show-bytes") (← format a) (a.option? "out")
  | "lift" :: arguments => do
    let (a, _) ← Grammar.read { options := ["format", "out"], values := 2 } arguments
    return .lift (← range a) (← format a) (a.option? "out")
  | "analyze" :: arguments => do
    let (a, _) ← Grammar.read
      { switches := ["listing", "show-bytes"]
        options := ["max-instr", "format", "labels-in", "labels-out", "out"]
        lists := ["entry"] } arguments
    return .analyze {
      entries := a.list "entry"
      budget := ← a.optionD "max-instr" (number (1 <<< 64)) 100000
      format := ← format a
      listing := a.has "listing"
      showBytes := a.has "show-bytes"
      labelsIn? := a.option? "labels-in"
      labelsOut? := a.option? "labels-out"
      out? := a.option? "out" }
  | _ => .error ⟨⟩

def options (arguments : List String) : Except UsageError Options := do
  let (a, rest) ← Grammar.read
    { options := ["base", "skip", "isa", "len"], values := 1, commands := true } arguments
  let [input] := a.values | .error ⟨⟩
  return {
    base := .ofNat 32 (← a.optionD "base" (signedNumber (1 <<< 32)) 0)
    skip := ← a.optionD "skip" (number (1 <<< 64)) 0
    length? := ← a.optional "len" (number (1 <<< 64))
    isa := ← a.optionD "isa" (choice Isa.ofName?) .v16
    input
    task := ← task rest }

/-- The part of a file that is asked for, as an image of one segment. -/
def load (o : Options) (file : Array Byte) : Except Failure Image := do
  if file.size < o.skip then .error (.message "--skip exceeds file size")
  let payload := file.extract o.skip file.size
  match o.length? with
  | none => return [{ base := o.base, bytes := payload }]
  | some length =>
    if payload.size < length then
      .error (.message "--len exceeds remaining file size after skip")
    return [{ base := o.base, bytes := payload.extract 0 length }]

/-- An address as typed, with blanks around it. -/
def address (text : String) : Except Failure Address :=
  (Text.readWord (Text.trim text.toList)).mapError (.message ·.message)

def bounds (r : Range) : Except Failure (Address × Address) := do
  let start ← address r.start
  let stop ← address r.stop
  if stop < start then .error (.message "end must be >= start")
  return (start, stop)

/-- A line of the table of segments. -/
def columns (texts : List (Nat × String)) : String :=
  " ".intercalate (texts.map fun (width, text) => Text.padRight width text)

def sections (img : Image) : String :=
  let head := columns [(10, "name"), (12, "start"), (12, "end"), (6, "perms"), (6, "kind")]
  unlines (head :: img.map fun s =>
    columns [(10, s.name), (12, Text.hexAddress s.base), (12, Text.hexAddress s.stop),
      (6, s.permissions), (6, s.kind)])

def tokenLine (line : Address × Nat × List Token) : Json :=
  .obj [("addr", .word line.1), ("len", .nat line.2.1),
    ("tokens", .arr (line.2.2.map (·.json)))]

def effectLine (line : Address × Nat × Trace) : Json :=
  .obj [("addr", .word line.1), ("len", .nat line.2.1), ("il", line.2.2.json)]

def effectText (line : Address × Nat × Trace) : List String :=
  (Text.hexAddress line.1 ++ ":") :: line.2.2.stmts.map fun s => "    " ++ s.print

def rangeText (isa : Isa) (img : Image) (showBytes : Bool) (start stop : Address) :
    OutputFormat → String
  | .text => unlines (listing isa img showBytes start stop)
  | .json => (Json.arr ((instructions img (render isa) start stop).map tokenLine)).pretty ++ "\n"

def liftText (isa : Isa) (img : Image) (start stop : Address) (format : OutputFormat) : String :=
  let lifted := instructions img (fun bytes pc => liftBytes isa bytes pc .empty) start stop
  match format with
  | .text => unlines (lifted.flatMap effectText)
  | .json => (Json.arr (lifted.map effectLine)).pretty ++ "\n"

/-- Each address once, lowest first. -/
def distinct (addrs : List Address) : List Address := (Std.TreeSet.ofList addrs).toList

/-- Where to start: the entries as typed, or else the start of the image. -/
def seeds (img : Image) (entries : List String) : Except Failure (List Address) := do
  match entries with
  | [] => return img.head?.toList.map (·.base)
  | entries => return distinct (← entries.mapM address)

def blockJson (isa : Isa) (img : Image) (showBytes : Bool) (b : Block) : Json :=
  .obj [("start", .word b.start), ("end", .word b.stop),
    ("insns", .strings (blockLines isa img showBytes b.start b.stop))]

def linkText (l : Link) : String :=
  s!"  {Text.hexAddress l.source} -> {Text.hexAddress l.target} ({l.kind.name})"

/-- The decoded instructions with the labels before them. -/
def codeText (isa : Isa) (img : Image) (showBytes : Bool) (labels : Labels) (pcs : List Address) :
    List String :=
  pcs.flatMap fun pc =>
    (labels[pc]?.toList.map fun name => s!"{Text.hexAddress pc} <{name}>:") ++
      (line? isa img showBytes pc).toList.map ("  " ++ ·)

def summary (g : CodeGraph) (r : Report) : List String :=
  let entries := r.entries.map fun a => "\"" ++ Text.hexAddress a ++ "\""
  ["Analysis summary:",
    "  entries   : [" ++ ", ".intercalate entries ++ "]",
    s!"  insts     : {g.visited.size}",
    s!"  blocks    : {r.blocks.length}",
    s!"  edges     : {r.links.length}",
    s!"  functions : {r.routines.length}",
    "Edges:"] ++ r.links.map linkText

def analysisText (isa : Isa) (img : Image) (a : Analysis) (g : CodeGraph) (r : Report)
    (labels : Labels) : String :=
  match a.format with
  | .json =>
    let blocks := r.blocks.map (blockJson isa img a.showBytes)
    (r.jsonWith blocks [("labels", labels.json)]).pretty ++ "\n"
  | .text =>
    let code := if a.listing then
        "" :: "Listing (analyzed PCs):" :: codeText isa img a.showBytes labels g.widths.keys
      else []
    unlines (summary g r ++ code)

def analyze (isa : Isa) (img : Image) (a : Analysis) (labelText? : Option String) :
    Except Failure Output := do
  let entries ← seeds img a.entries
  let g := CodeGraph.explore isa img entries a.budget
  let r := g.report entries
  let imported ← match labelText? with
    | none => pure ({} : Labels)
    | some text =>
      match Labels.read? text with
      | some labels => pure labels
      | none => .error .labels
  let labels := imported.ofReport r
  let o : Output := match a.labelsOut? with
    | some path => { files := [(path, labels.json.pretty)] }
    | none => {}
  return o.put a.out? (analysisText isa img a g r labels)

/-- The output for the contents of the input file and of the label file. -/
def output (o : Options) (file : Array Byte) (labelText? : Option String) :
    Except Failure Output := do
  let img ← load o file
  match o.task with
  | .sections => return { stdout := sections img }
  | .range r showBytes format out? =>
    let (start, stop) ← bounds r
    return ({} : Output).put out? (rangeText o.isa img showBytes start stop format)
  | .lift r format out? =>
    let (start, stop) ← bounds r
    return ({} : Output).put out? (liftText o.isa img start stop format)
  | .analyze a => analyze o.isa img a labelText?

end Disassemble

end Tricore.Command
