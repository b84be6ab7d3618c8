-- SUMMARY: Reading YAML documents of mappings and lists laid out by indentation.
import SchemaQuery.Yaml.Flow

/-!
# Reading YAML text

A document is cut into lines without comments, each with its indentation. Lines
of one indentation make up a mapping or a list, and deeper lines belong to the
entry above them.
-/

namespace SchemaQuery.Yaml

-- ---------------------------------------------------------------------------
-- Lines
-- ---------------------------------------------------------------------------

structure Line where
  indent : Nat
  text : List Char

/-- Whether a quote after this character opens a quoted scalar. -/
def opensQuote (previous : Char) : Bool := isSpace previous || isFlowMark previous

/-- A line without its comment: the text from a number sign on that follows a blank and is not
    quoted. -/
def withoutComment (inQuote : Option Char) (previous : Char) : List Char → List Char
  | [] => []
  | c :: cs =>
    match inQuote with
    | some q => c :: withoutComment (if c = q && previous ≠ '\\' then none else some q) c cs
    | none =>
      if c = '#' && isSpace previous then []
      else if (c = '"' || c = '\'') && opensQuote previous then c :: withoutComment (some c) c cs
      else c :: withoutComment none c cs

/-- A line with its indentation; `none` when a tab is part of the indentation. -/
def line? (raw : String) : Option Line :=
  let cs := (withoutComment none ' ' raw.toList).filter (· ≠ '\r')
  let body := trimSpace (cs.dropWhile (· = ' '))
  let tabbed := (cs.dropWhile (· = ' ')).head? = some '\t'
  if tabbed && !body.isEmpty then none
  else some ⟨(cs.takeWhile (· = ' ')).length, body⟩

/-- Whether a line separates documents. -/
def isMark (mark : String) (l : Line) : Bool := l.indent = 0 && String.ofList l.text = mark

/-- The lines of the only document of a text. -/
def lines? (text : String) : Option (List Line) := do
  let lines ← (text.splitOn "\n").mapM line?
  let lines := lines.filter (!·.text.isEmpty)
  let body := match lines with
    | l :: rest => if isMark "---" l then rest else lines
    | [] => []
  let inner := body.takeWhile (!isMark "..." ·)
  let after := (body.dropWhile (!isMark "..." ·)).drop 1
  if inner.any (isMark "---") || !after.isEmpty then none else some inner

-- ---------------------------------------------------------------------------
-- Keys and items
-- ---------------------------------------------------------------------------

/-- A plain key before its colon, and the rest of the line. -/
def plainKey? (done : List Char) : List Char → Option (String × List Char)
  | [] => none
  | c :: cs =>
    if c = ':' && atBreak cs then some (String.ofList (trimSpace done.reverse), skipSpace cs)
    else plainKey? (c :: done) cs

/-- The key at the start of a line, and the rest of the line. -/
def key? (cs : List Char) : Option (String × List Char) :=
  match quoted? cs with
  | some (key, rest) =>
    match skipSpace rest with
    | ':' :: rest => if atBreak rest then some (key, skipSpace rest) else none
    | _ => none
  | none => if startsPlain cs then plainKey? [] cs else none

/-- The text behind a dash at the start of a line, and how far it is moved to the right. -/
def item? : List Char → Option (Nat × List Char)
  | '-' :: rest =>
    if atBreak rest then some (1 + (rest.takeWhile isSpace).length, skipSpace rest) else none
  | _ => none

/-- The lines that continue a value of the given indentation, and the rest. -/
def continuation (indent : Nat) (lines : List Line) : List Line × List Line :=
  (lines.takeWhile (·.indent > indent), lines.dropWhile (·.indent > indent))

/-- A value that starts on a line and may go on over deeper ones. -/
def inline? (indent : Nat) (text : List Char) (lines : List Line) : Option (Yaml × List Line) := do
  let (more, rest) := continuation indent lines
  let v ← whole? (text ++ more.flatMap fun l => ' ' :: l.text)
  return (v, rest)

-- ---------------------------------------------------------------------------
-- Blocks
-- ---------------------------------------------------------------------------

mutual

/-- The value behind a key or dash of the given indentation. A list may stand below its key
    without being indented. -/
def value? : Nat → Nat → Bool → List Char → List Line → Option (Yaml × List Line)
  | 0, _, _, _, _ => none
  | steps + 1, indent, afterKey, text, lines =>
    if !text.isEmpty then inline? indent text lines
    else
      match lines with
      | [] => some (absent, [])
      | l :: _ =>
        if l.indent > indent || (afterKey && l.indent = indent && (item? l.text).isSome) then
          block? steps lines
        else some (absent, lines)

/-- A mapping, list or scalar that starts on the first line. -/
def block? : Nat → List Line → Option (Yaml × List Line)
  | 0, _ => none
  | _ + 1, [] => some (absent, [])
  | steps + 1, l :: rest =>
    if (item? l.text).isSome then blockItems? steps l.indent (l :: rest) []
    else if (key? l.text).isSome then blockEntries? steps l.indent (l :: rest) []
    else inline? (l.indent - 1) l.text rest

/-- The items of a list of the given indentation. -/
def blockItems? : Nat → Nat → List Line → List Yaml → Option (Yaml × List Line)
  | 0, _, _, _ => none
  | _ + 1, _, [], done => some (.seq done.reverse, [])
  | steps + 1, indent, l :: rest, done =>
    if l.indent < indent then some (.seq done.reverse, l :: rest)
    else if l.indent > indent then none
    else
      match item? l.text with
      | none => some (.seq done.reverse, l :: rest)
      | some (shift, text) => do
        let (v, rest) ←
          if (item? text).isSome || (key? text).isSome then
            block? steps (⟨indent + shift, text⟩ :: rest)
          else value? steps indent false text rest
        blockItems? steps indent rest (v :: done)

/-- The entries of a mapping of the given indentation. -/
def blockEntries? : Nat → Nat → List Line → List (String × Yaml) → Option (Yaml × List Line)
  | 0, _, _, _ => none
  | _ + 1, _, [], done => some (.map done.reverse, [])
  | steps + 1, indent, l :: rest, done =>
    if l.indent < indent then some (.map done.reverse, l :: rest)
    else if l.indent > indent then none
    else do
      let (key, text) ← key? l.text
      let (v, rest) ← value? steps indent true text rest
      blockEntries? steps indent rest ((key, v) :: done)

end

/-- Reads a document. Every step of the reader takes a character or a line. -/
def parse? (text : String) : Option Yaml := do
  let lines ← lines? text
  let (v, rest) ← block? (2 * text.length + 4) lines
  if rest.isEmpty then some v else none

end SchemaQuery.Yaml
