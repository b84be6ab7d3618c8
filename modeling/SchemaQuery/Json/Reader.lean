-- SUMMARY: Reading JSON text: tokens by an automaton, values by a stack of open containers.
import SchemaQuery.Json.Basic

/-!
# Reading JSON text

The text is cut into tokens by an automaton that takes one character at a time,
and the tokens are put together by a machine whose stack holds the containers
still open. Both are folds, so a text of any depth is read in one pass.
-/

namespace SchemaQuery.Json

-- ---------------------------------------------------------------------------
-- Numbers
-- ---------------------------------------------------------------------------

/-- The nearest double of `digits * 10 ^ exponent`. Beyond the range of doubles the power is not
    computed. -/
def nearestDouble (digits : Nat) (exponent : Int) : Float :=
  let magnitude : Int := (Nat.toDigits 10 digits).length + exponent
  if digits == 0 || magnitude < -400 then 0.0
  else if magnitude > 400 then 1.0 / 0.0
  else Float.ofScientific digits (exponent < 0) exponent.natAbs

def digitsValue (cs : List Char) : Nat :=
  cs.foldl (fun n c => n * 10 + (c.toNat - '0'.toNat)) 0

/-- A sign of the exponent and its digits. -/
def exponent? : List Char → Option Int
  | '+' :: ds => if ds.isEmpty || !ds.all Char.isDigit then none else some (digitsValue ds)
  | '-' :: ds => if ds.isEmpty || !ds.all Char.isDigit then none else some (-digitsValue ds)
  | ds => if ds.isEmpty || !ds.all Char.isDigit then none else some (digitsValue ds)

/-- The digits after the point, if there is one, and what follows them. -/
def fraction? : List Char → Option (List Char × List Char)
  | '.' :: rest =>
    let ds := rest.takeWhile Char.isDigit
    if ds.isEmpty then none else some (ds, rest.dropWhile Char.isDigit)
  | rest => some ([], rest)

/-- The value of a number without its sign: digits before and after the point, and the exponent
    if one is written. -/
def magnitude? (cs : List Char) : Option (List Char × List Char × Option Int) := do
  let whole := cs.takeWhile Char.isDigit
  if whole.isEmpty || (whole.length > 1 && whole.head? == some '0') then none
  let (places, rest) ← fraction? (cs.dropWhile Char.isDigit)
  match rest with
  | [] => return (whole, places, none)
  | c :: e => if c == 'e' || c == 'E' then return (whole, places, some (← exponent? e)) else none

/-- A number: an integer when it is written as one and fits 64 bits, else a finite double. -/
def number? (cs : List Char) : Option Json := do
  let (negative, rest) := match cs with
    | '-' :: rest => (true, rest)
    | _ => (false, cs)
  let (whole, places, exponent) ← magnitude? rest
  let n := digitsValue whole
  if places.isEmpty && exponent.isNone then
    if !negative && n < 18446744073709551616 then return .int n
    if negative && 0 < n && n ≤ 9223372036854775808 then return .int (-n)
  let x := nearestDouble (digitsValue (whole ++ places)) (exponent.getD 0 - places.length)
  if x.isInf then none else return .float (if negative then -x else x)

-- ---------------------------------------------------------------------------
-- Tokens
-- ---------------------------------------------------------------------------

inductive Token where
  | openBrace
  | closeBrace
  | openBracket
  | closeBracket
  | comma
  | colon
  | text (value : String)
  | scalar (value : Json)

/-- What the characters read so far are part of. Texts are kept in reverse. -/
inductive Mode where
  | between
  | text (done : List Char)
  | escape (done : List Char)
  /-- In a code unit escape: the high surrogate before it, its value and its number of digits. -/
  | unit (done : List Char) (high : Option Nat) (value count : Nat)
  /-- After a high surrogate: the backslash or the letter of the next unit is due. -/
  | lowSlash (done : List Char) (high : Nat)
  | lowLetter (done : List Char) (high : Nat)
  | number (done : List Char)
  | word (done : List Char)

/-- The automaton: its mode, and the tokens read, latest first. -/
structure Lexer where
  mode : Mode
  tokens : List Token

def isNumberChar (c : Char) : Bool :=
  c.isDigit || c == '-' || c == '+' || c == '.' || c == 'e' || c == 'E'

/-- A character outside texts, numbers and words. -/
def stepBetween (tokens : List Token) (c : Char) : Option Lexer :=
  match c with
  | ' ' | '\n' | '\r' | '\t' => some ⟨.between, tokens⟩
  | '\x7b' => some ⟨.between, .openBrace :: tokens⟩
  | '\x7d' => some ⟨.between, .closeBrace :: tokens⟩
  | '[' => some ⟨.between, .openBracket :: tokens⟩
  | ']' => some ⟨.between, .closeBracket :: tokens⟩
  | ',' => some ⟨.between, .comma :: tokens⟩
  | ':' => some ⟨.between, .colon :: tokens⟩
  | '"' => some ⟨.text [], tokens⟩
  | c =>
    if c.isDigit || c == '-' then some ⟨.number [c], tokens⟩
    else if c.isAlpha then some ⟨.word [c], tokens⟩
    else none

def numberToken? (done : List Char) : Option Token :=
  (number? done.reverse).map .scalar

def wordToken? (done : List Char) : Option Token :=
  match String.ofList done.reverse with
  | "null" => some (.scalar .null)
  | "true" => some (.scalar (.bool true))
  | "false" => some (.scalar (.bool false))
  | _ => none

def hexValue? (c : Char) : Option Nat :=
  if c.isDigit then some (c.toNat - '0'.toNat)
  else if 'a' ≤ c && c ≤ 'f' then some (c.toNat - 'a'.toNat + 10)
  else if 'A' ≤ c && c ≤ 'F' then some (c.toNat - 'A'.toNat + 10)
  else none

/-- The mode after a complete code unit: a high surrogate waits for its low half, and no half
    stands alone. -/
def closeUnit (done : List Char) (high : Option Nat) (value : Nat) : Option Mode :=
  match high with
  | some h =>
    if 0xdc00 ≤ value && value < 0xe000 then
      some (.text (Char.ofNat (0x10000 + (h - 0xd800) * 0x400 + (value - 0xdc00)) :: done))
    else none
  | none =>
    if 0xd800 ≤ value && value < 0xdc00 then some (.lowSlash done value)
    else if 0xdc00 ≤ value && value < 0xe000 then none
    else some (.text (Char.ofNat value :: done))

/-- The character an escape letter stands for. -/
def escapedChar? : Char → Option Char
  | '"' => some '"'
  | '\\' => some '\\'
  | '/' => some '/'
  | 'b' => some '\x08'
  | 'f' => some '\x0c'
  | 'n' => some '\n'
  | 'r' => some '\r'
  | 't' => some '\t'
  | _ => none

def Lexer.step (l : Lexer) (c : Char) : Option Lexer :=
  match l.mode with
  | .between => stepBetween l.tokens c
  | .text done =>
    if c == '"' then some ⟨.between, .text (String.ofList done.reverse) :: l.tokens⟩
    else if c == '\\' then some ⟨.escape done, l.tokens⟩
    else if c.toNat < 0x20 then none
    else some ⟨.text (c :: done), l.tokens⟩
  | .escape done =>
    if c == 'u' then some ⟨.unit done none 0 0, l.tokens⟩
    else (escapedChar? c).map fun e => ⟨.text (e :: done), l.tokens⟩
  | .unit done high value count => do
    let value := value * 16 + (← hexValue? c)
    if count < 3 then return ⟨.unit done high value (count + 1), l.tokens⟩
    return ⟨← closeUnit done high value, l.tokens⟩
  | .lowSlash done high => if c == '\\' then some ⟨.lowLetter done high, l.tokens⟩ else none
  | .lowLetter done high => if c == 'u' then some ⟨.unit done (some high) 0 0, l.tokens⟩ else none
  | .number done =>
    if isNumberChar c then some ⟨.number (c :: done), l.tokens⟩
    else do stepBetween ((← numberToken? done) :: l.tokens) c
  | .word done =>
    if c.isAlpha then some ⟨.word (c :: done), l.tokens⟩
    else do stepBetween ((← wordToken? done) :: l.tokens) c

/-- The tokens of a text, in order. -/
def tokens? (cs : List Char) : Option (List Token) := do
  let l ← cs.foldlM Lexer.step ⟨.between, []⟩
  match l.mode with
  | .between => return l.tokens.reverse
  | .number done => return ((← numberToken? done) :: l.tokens).reverse
  | .word done => return ((← wordToken? done) :: l.tokens).reverse
  | _ => none

-- ---------------------------------------------------------------------------
-- Values
-- ---------------------------------------------------------------------------

/-- A container still open, with its parts in reverse. -/
inductive Frame where
  | array (done : List Json)
  | object (done : List (String × Json))
  /-- An object whose member `key` waits for its value. -/
  | member (done : List (String × Json)) (key : String)

/-- What may come next. -/
inductive Phase where
  | value
  /-- Right after an opening: a first part or the closing. -/
  | first
  /-- After a part: a comma or the closing. -/
  | next
  /-- After a comma: a further part. -/
  | further
  | colon
  | done (value : Json)

structure Builder where
  stack : List Frame
  phase : Phase

/-- Hands a complete value to the innermost open container. -/
def Builder.accept (stack : List Frame) (v : Json) : Option Builder :=
  match stack with
  | [] => some ⟨[], .done v⟩
  | .array done :: rest => some ⟨.array (v :: done) :: rest, .next⟩
  | .member done key :: rest => some ⟨.object ((key, v) :: done) :: rest, .next⟩
  | .object _ :: _ => none

def Builder.stepValue (stack : List Frame) : Token → Option Builder
  | .openBrace => some ⟨.object [] :: stack, .first⟩
  | .openBracket => some ⟨.array [] :: stack, .first⟩
  | .text s => accept stack (.str s)
  | .scalar v => accept stack v
  | _ => none

def Builder.stepClose (stack : List Frame) : Token → Option Builder
  | .closeBracket =>
    match stack with
    | .array done :: rest => accept rest (.arr done.reverse)
    | _ => none
  | .closeBrace =>
    match stack with
    | .object done :: rest => accept rest (.obj done.reverse)
    | _ => none
  | _ => none

/-- The next part: a value in an array, a name in an object. -/
def Builder.stepPart (stack : List Frame) (t : Token) : Option Builder :=
  match stack with
  | .object done :: rest =>
    match t with
    | .text key => some ⟨.member done key :: rest, .colon⟩
    | _ => none
  | _ => stepValue stack t

def Builder.step (b : Builder) (t : Token) : Option Builder :=
  match b.phase, t with
  | .value, t => stepValue b.stack t
  | .first, .closeBracket | .first, .closeBrace => stepClose b.stack t
  | .first, t | .further, t => stepPart b.stack t
  | .next, .comma => some ⟨b.stack, .further⟩
  | .next, t => stepClose b.stack t
  | .colon, .colon => some ⟨b.stack, .value⟩
  | .colon, _ => none
  | .done _, _ => none

/-- The value a text denotes, if it is JSON. -/
def parse? (s : String) : Option Json := do
  let b ← (← tokens? s.toList).foldlM Builder.step ⟨[], .value⟩
  match b.phase with
  | .done v => return v
  | _ => none

-- ---------------------------------------------------------------------------
-- Depth
-- ---------------------------------------------------------------------------

mutual

/-- The number of containers around the innermost value. -/
def depth : Json → Nat
  | .arr items => 1 + depthItems items
  | .obj members => 1 + depthMembers members
  | .null | .bool _ | .int _ | .float _ | .str _ => 0

def depthItems : List Json → Nat
  | [] => 0
  | v :: rest => max (depth v) (depthItems rest)

def depthMembers : List (String × Json) → Nat
  | [] => 0
  | (_, v) :: rest => max (depth v) (depthMembers rest)

end

end SchemaQuery.Json
