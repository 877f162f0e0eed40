import ElmInference.Report.Position

/-!
# Reports

A report collects messages and prints them with the source line they are about. Messages without a
location come first, in order of arrival; the others are sorted by offset, and of two with the same
offset the earlier arrival comes first.
-/

namespace ElmInference

/-- Where a text comes from. -/
inductive Source where
  | file (path : String)
  | interactive (label : String)
deriving DecidableEq, Inhabited

namespace Source

def label : Source → String
  | .file path => path
  | .interactive label => label

/-- The parts of a path between its slashes. -/
def pathParts (path : String) : List String :=
  path.splitOn "/"

/-- A path up to spelling: whether it is absolute, and its steps. Doubled and final slashes and
steps that stay in place do not count, except for a first one in a relative path. -/
def canonicalPath (path : String) : Bool × List String :=
  match pathParts path with
  | [] => (false, [])
  | "" :: rest => (!rest.isEmpty, rest.filter (fun step => step != "" && step != "."))
  | first :: rest => (false, first :: rest.filter (fun step => step != "" && step != "."))

def same : Source → Source → Bool
  | .file p, .file q => canonicalPath p == canonicalPath q
  | .interactive a, .interactive b => a == b
  | _, _ => false

end Source

structure Location where
  source : Source
  offset : Option Nat
deriving DecidableEq, Inhabited

/-- A message: its first line, and what follows it. -/
structure Message where
  content : String
  addendum : Option String
deriving DecidableEq, Inhabited

namespace Message

/-- Cuts at the first newline. -/
def cut : List Char → List Char × Option (List Char)
  | [] => ([], none)
  | c :: rest =>
    if c = '\n' then ([], some rest)
    else
      let (first, more) := cut rest
      (c :: first, more)

def ofText (text : String) : Message :=
  let (content, addendum) := cut text.toList
  ⟨String.ofList content, addendum.map String.ofList⟩

end Message

/-- The texts of the sources that messages belong to. -/
abbrev Sources := List (Source × String)

namespace Sources

/-- Adds a text; of two texts for a source the later one counts. -/
def add (sources : Sources) (source : Source) (text : String) : Sources :=
  (source, text) :: sources

def text? (sources : Sources) (source : Source) : Option String :=
  (sources.find? (fun entry => entry.1.same source)).map Prod.snd

end Sources

/-- Where a search among sorted offsets ends: at an equal one, or where one would have to stand. -/
inductive Spot where
  | found (index : Nat)
  | missing (index : Nat)
deriving DecidableEq, Inhabited

/-- Where an entry with the offset goes: behind the one that was found. -/
def Spot.insertion : Spot → Nat
  | .found index => index + 1
  | .missing index => index

structure Report where
  items : List Message := []
  located : List (Location × Message) := []
deriving Inhabited

namespace Report

/-- Whether an offset comes no later than another; no offset comes before every offset. -/
def offsetLe : Option Nat → Option Nat → Bool
  | none, _ => true
  | some _, none => false
  | some a, some b => a ≤ b

/-- Halves a range of `size` offsets from `base` on until one is left. The middle of the range
becomes its beginning unless it comes after the offset that is looked for. -/
def narrow (offsets : List (Option Nat)) (offset : Option Nat) (base size : Nat) : Nat :=
  if size ≤ 1 then base
  else
    let middle := base + size / 2
    let later := (offsets[middle]?).any (fun other => !offsetLe other offset)
    narrow offsets offset (if later then base else middle) (size - size / 2)
termination_by size

/-- Looks for an offset among sorted ones by halving. -/
def bisect (offsets : List (Option Nat)) (offset : Option Nat) : Spot :=
  let last := narrow offsets offset 0 offsets.length
  match offsets[last]? with
  | none => .missing last
  | some other =>
    if other = offset then .found last
    else .missing (if offsetLe other offset then last + 1 else last)

/-- Adds a message. A located one is put where a search for its offset ends. -/
def addBy (search : List (Option Nat) → Option Nat → Spot) (r : Report)
    (location : Option Location) (message : Message) : Report :=
  match location with
  | none => { r with items := r.items ++ [message] }
  | some location =>
    let spot := search (r.located.map (·.1.offset)) location.offset
    { r with located := r.located.insertIdx spot.insertion (location, message) }

def add (r : Report) (location : Option Location) (message : Message) : Report :=
  r.addBy bisect location message

def size (r : Report) : Nat := r.items.length + r.located.length

def isEmpty (r : Report) : Bool := r.size == 0

/-- The first line of a located message. -/
def heading (label : String) (position : Option Position) (content : String) : String :=
  let place := match position with
    | some p => toString p.line ++ ":" ++ toString p.column ++ ":"
    | none => ""
  label ++ ":" ++ place ++ " error: " ++ content

def blanks (n : Nat) : String := String.ofList (List.replicate n ' ')

/-- The blanks as wide as the number of a line. -/
def gutter (position : Position) : String := blanks (toString position.line).length

/-- A source line behind its number. -/
def sourceRow (position : Position) (line : String) : String :=
  toString position.line ++ " | " ++ line

/-- The row below a source line, with a caret below the column. -/
def caretRow (position : Position) : String :=
  gutter position ++ " | " ++ blanks (position.column - 1) ++ "^"

/-- A message under its source line, with a caret below the column. -/
def excerpt (position : Position) (label line : String) (message : Message) : String :=
  let lines :=
    [ heading label (some position) message.content,
      gutter position ++ " |",
      sourceRow position line,
      caretRow position ]
  String.intercalate "\n" (lines ++ message.addendum.toList)

/-- A message without a location. -/
def plain (message : Message) : String :=
  "error: " ++ message.content ++
    (match message.addendum with
      | some addendum => "\n" ++ addendum
      | none => "")

/-- A located message. Without the text of its source an offset says nothing about lines, so only
the heading is left. -/
def locatedText (sources : Sources) (location : Location) (message : Message) : String :=
  match location.offset, sources.text? location.source with
  | some offset, some text =>
    let position := Position.ofOffset text offset
    excerpt position location.source.label (TextLine.nth text position.line) message
  | _, _ => heading location.source.label none message.content

/-- Every message as text. -/
def texts (r : Report) (sources : Sources) : List String :=
  r.items.map plain ++ r.located.map (fun entry => locatedText sources entry.1 entry.2)

def render (r : Report) (sources : Sources) : String :=
  String.intercalate "\n" (r.texts sources)

end Report

end ElmInference
