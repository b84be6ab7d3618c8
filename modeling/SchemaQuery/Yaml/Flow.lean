-- SUMMARY: YAML values written on a line: quoted and plain scalars, lists and mappings in brackets.
import SchemaQuery.Yaml.Basic

/-!
# Values in flow style

The part of YAML that does not depend on indentation. All readers take the rest
of the text and give back what they leave of it.
-/

namespace SchemaQuery.Yaml

def isSpace (c : Char) : Bool := c = ' ' || c = '\t'

def skipSpace (cs : List Char) : List Char := cs.dropWhile isSpace

def trimSpace (cs : List Char) : List Char :=
  ((skipSpace cs).reverse.dropWhile isSpace).reverse

-- ---------------------------------------------------------------------------
-- Quoted scalars
-- ---------------------------------------------------------------------------

/-- The rest of a text in single quotes, in which a doubled quote stands for one. -/
def singleQuoted : List Char → List Char → Option (String × List Char)
  | '\'' :: '\'' :: cs, done => singleQuoted cs ('\'' :: done)
  | '\'' :: cs, done => some (String.ofList done.reverse, cs)
  | c :: cs, done => singleQuoted cs (c :: done)
  | [], _ => none

/-- The character that an escape of one letter stands for. -/
def escape? : Char → Option Char
  | '0' => some '\x00'
  | 'a' => some '\x07'
  | 'b' => some '\x08'
  | 't' => some '\t'
  | 'n' => some '\n'
  | 'v' => some '\x0b'
  | 'f' => some '\x0c'
  | 'r' => some '\r'
  | 'e' => some '\x1b'
  | ' ' => some ' '
  | '"' => some '"'
  | '/' => some '/'
  | '\\' => some '\\'
  | _ => none

/-- The character of a code written in hexadecimal digits. -/
def coded? (digits : List Char) : Option Char := do
  let n ← natural? 16 digits
  if n.isValidChar then some (Char.ofNat n) else none

/-- The rest of a text in double quotes. -/
def doubleQuoted : List Char → List Char → Option (String × List Char)
  | '"' :: cs, done => some (String.ofList done.reverse, cs)
  | '\\' :: 'x' :: a :: b :: cs, done => do doubleQuoted cs ((← coded? [a, b]) :: done)
  | '\\' :: 'u' :: a :: b :: c :: d :: cs, done => do
    doubleQuoted cs ((← coded? [a, b, c, d]) :: done)
  | '\\' :: c :: cs, done => do doubleQuoted cs ((← escape? c) :: done)
  | c :: cs, done => doubleQuoted cs (c :: done)
  | [], _ => none

/-- A quoted scalar. -/
def quoted? : List Char → Option (String × List Char)
  | '\'' :: cs => singleQuoted cs []
  | '"' :: cs => doubleQuoted cs []
  | _ => none

-- ---------------------------------------------------------------------------
-- Plain scalars
-- ---------------------------------------------------------------------------

def isFlowMark (c : Char) : Bool :=
  c = ',' || c = '[' || c = ']' || c = '\x7b' || c = '\x7d'

/-- Characters that no plain scalar starts with. -/
def isIndicator (c : Char) : Bool :=
  isFlowMark c || c = '&' || c = '*' || c = '!' || c = '|' || c = '>' || c = '\'' || c = '"'
    || c = '%' || c = '@' || c.toNat = 96 || c = '#'

/-- Whether the rest of a line ends here or goes on after a blank. -/
def atBreak : List Char → Bool
  | [] => true
  | c :: _ => isSpace c

/-- Whether a plain scalar may start here: a dash, question mark or colon must be part of a word. -/
def startsPlain : List Char → Bool
  | [] => false
  | c :: cs => !isIndicator c && !((c = '-' || c = '?' || c = ':') && atBreak cs)

/-- Whether a colon ends a key inside brackets. -/
def flowBreak : List Char → Bool
  | [] => true
  | c :: _ => isSpace c || isFlowMark c

/-- The characters of a plain scalar inside brackets, and the rest. -/
def plainFlow : List Char → List Char × List Char
  | [] => ([], [])
  | c :: cs =>
    if isFlowMark c || (c = ':' && flowBreak cs) then ([], c :: cs)
    else ((c :: (plainFlow cs).1), (plainFlow cs).2)

-- ---------------------------------------------------------------------------
-- Values
-- ---------------------------------------------------------------------------

/-- A scalar inside brackets. -/
def flowScalar? (cs : List Char) : Option (Yaml × List Char) :=
  match quoted? cs with
  | some (text, rest) => some (.scalar false text, skipSpace rest)
  | none =>
    if startsPlain cs then
      some (.scalar true (String.ofList (trimSpace (plainFlow cs).1)), (plainFlow cs).2)
    else none

mutual

/-- A value; `steps` bounds the number of characters looked at. -/
def flowValue? : Nat → List Char → Option (Yaml × List Char)
  | 0, _ => none
  | steps + 1, cs =>
    match skipSpace cs with
    | '[' :: rest => flowItems? steps rest []
    | '\x7b' :: rest => flowEntries? steps rest []
    | rest => flowScalar? rest

/-- The items of a list up to its bracket. -/
def flowItems? : Nat → List Char → List Yaml → Option (Yaml × List Char)
  | 0, _, _ => none
  | steps + 1, cs, done =>
    match skipSpace cs with
    | ']' :: rest => some (.seq done.reverse, rest)
    | rest => do
      let (v, rest) ← flowValue? steps rest
      match skipSpace rest with
      | ',' :: rest => flowItems? steps rest (v :: done)
      | ']' :: rest => some (.seq (v :: done).reverse, rest)
      | _ => none

/-- The entries of a mapping up to its brace. A key may stand without a value. -/
def flowEntries? : Nat → List Char → List (String × Yaml) → Option (Yaml × List Char)
  | 0, _, _ => none
  | steps + 1, cs, done =>
    match skipSpace cs with
    | '\x7d' :: rest => some (.map done.reverse, rest)
    | rest => do
      let (key, rest) ← flowScalar? rest
      let key ← key.text?
      let (v, rest) ← match skipSpace rest with
        | ':' :: rest =>
          match skipSpace rest with
          | ',' :: _ | '\x7d' :: _ => some (absent, rest)
          | _ => flowValue? steps rest
        | rest => some (absent, rest)
      match skipSpace rest with
      | ',' :: rest => flowEntries? steps rest ((key, v) :: done)
      | '\x7d' :: rest => some (.map ((key, v) :: done).reverse, rest)
      | _ => none

end

/-- A list or mapping in brackets that takes up the whole text. -/
def wholeFlow? (cs : List Char) : Option Yaml :=
  match flowValue? (cs.length + 1) cs with
  | some (v, rest) => if (skipSpace rest).isEmpty then some v else none
  | none => none

/-- A quoted scalar that takes up the whole text. -/
def wholeQuoted? (cs : List Char) : Option Yaml :=
  match quoted? cs with
  | some (text, rest) => if (skipSpace rest).isEmpty then some (.scalar false text) else none
  | none => none

/-- Whether a colon in the text would make it a key. -/
def hasKeyMark : List Char → Bool
  | [] => false
  | c :: cs => (c = ':' && atBreak cs) || hasKeyMark cs

/-- A plain scalar that takes up the whole text. -/
def wholePlain? (cs : List Char) : Option Yaml :=
  if startsPlain cs && !hasKeyMark cs then some (.scalar true (String.ofList (trimSpace cs)))
  else none

/-- A value that takes up the whole text. -/
def whole? (cs : List Char) : Option Yaml :=
  match cs with
  | '[' :: _ | '\x7b' :: _ => wholeFlow? cs
  | '\'' :: _ | '"' :: _ => wholeQuoted? cs
  | _ => wholePlain? cs

end SchemaQuery.Yaml
