-- SUMMARY: The Soundex code of a word.

/-!
# Soundex

A phonetic code of one letter and three digits. Letters with similar sounds
share a digit; a digit is written once for a run of letters that share it, and
`H` and `W` do not end a run.
-/

namespace SchemaQuery.Soundex

/-- The digit of a capital letter; vowels and the letters `H`, `W` and `Y` have none. -/
def digit? (c : Char) : Option Char :=
  match c with
  | 'B' | 'F' | 'P' | 'V' => some '1'
  | 'C' | 'G' | 'J' | 'K' | 'Q' | 'S' | 'X' | 'Z' => some '2'
  | 'D' | 'T' => some '3'
  | 'L' => some '4'
  | 'M' | 'N' => some '5'
  | 'R' => some '6'
  | _ => none

/-- The digits of the letters that follow, `room` of them at most, given the digit of the run that
    they may continue. -/
def digitsAfter : (room : Nat) → (last : Option Char) → List Char → List Char
  | 0, _, _ => []
  | _ + 1, _, [] => []
  | room + 1, last, c :: cs =>
    let next := if c = 'H' || c = 'W' then last else digit? c
    match digit? c with
    | some d =>
      if digit? c = last then digitsAfter (room + 1) next cs else d :: digitsAfter room next cs
    | none => digitsAfter (room + 1) next cs

/-- The capital letters of a word. -/
def letters (word : String) : List Char :=
  (word.toList.filter Char.isAlpha).map Char.toUpper

/-- The code of a word, `none` when it has no letter. -/
def code (word : String) : Option String :=
  match letters word with
  | [] => none
  | first :: rest =>
    let digits := digitsAfter 3 (digit? first) rest
    some (String.ofList (first :: digits ++ List.replicate (3 - digits.length) '0'))

end SchemaQuery.Soundex
