-- SUMMARY: Which log filters are well formed.

/-!
# Log filters

A log filter is a list of directives, separated by commas. A directive is a
single word, a level or a target, or a target with a level behind an equals sign.
-/

namespace SchemaQuery.LogFilter

/-- The names of levels, in lower case. -/
def levels : List String := ["off", "error", "warn", "info", "debug", "trace"]

/-- A level: its name in any letter case, or its number. An absent level stands for all. -/
def isLevel (word : List Char) : Bool :=
  match word with
  | [] => true
  | [c] => '0' ≤ c && c ≤ '5'
  | _ => levels.contains (String.ofList (word.map Char.toLower))

/-- The characters of targets. -/
def isTargetChar (c : Char) : Bool :=
  c.isAlphanum || c = '_' || c = ':' || c = '-' || c.toNat ≥ 128

def isTarget (word : List Char) : Bool := !word.isEmpty && word.all isTargetChar

/-- A word, or a target with a level. -/
def isDirective (text : List Char) : Bool :=
  let target := text.takeWhile (· ≠ '=')
  match text.dropWhile (· ≠ '=') with
  | [] => isTarget target
  | _ :: level => isTarget target && isLevel level

/-- Whether every directive is well formed. Empty ones are passed over. -/
def isValid (filter : String) : Bool :=
  (filter.splitOn ",").all fun d => d.isEmpty || isDirective d.toList

end SchemaQuery.LogFilter
