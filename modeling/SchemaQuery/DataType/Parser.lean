-- SUMMARY: Reading type names.
import SchemaQuery.DataType.Basic
import SchemaQuery.Text.Blank
import SchemaQuery.Text.Lowercase

/-!
# Type names

A type name is the name of a plain type in any letter case, followed by the
suffixes `?` (nullable) and `[]` (array), with blanks around each part.
-/

namespace SchemaQuery

/-- A name that denotes no type. -/
structure TypeNameError where
  name : String
deriving DecidableEq, Repr

def TypeNameError.message (e : TypeNameError) : String :=
  "Unknown type name: " ++ e.name

namespace DataType

/-- The plain type of a name in lower case. -/
def plain? : String → Option DataType
  | "bool" | "boolean" => some .boolean
  | "int" | "integer" => some .int
  | "long" | "bigint" => some .long
  | "double" | "float" => some .double
  | "decimal" | "numeric" => some .decimal
  | "string" | "text" | "varchar" => some .string
  | "datetime" | "timestamp" => some .dateTime
  | "guid" | "uuid" => some .guid
  | "object" => some .object
  | _ => none

/-- A text without the given ending. -/
def dropSuffix? (suffix cs : List Char) : Option (List Char) :=
  if suffix.isSuffixOf cs then some (cs.take (cs.length - suffix.length)) else none

theorem dropSuffix?_length {suffix cs rest : List Char} (hs : suffix ≠ [])
    (h : dropSuffix? suffix cs = some rest) : rest.length < cs.length := by
  unfold dropSuffix? at h
  split at h
  · rename_i hsuf
    have hle : suffix.length ≤ cs.length := (List.isSuffixOf_iff_suffix.1 hsuf).length_le
    have hpos : 0 < suffix.length := List.length_pos_iff.2 hs
    cases h
    simp only [List.length_take]
    omega
  · cases h

theorem trim_length_le (cs : List Char) : (Text.trim cs).length ≤ cs.length := by
  unfold Text.trim Text.trimEnd
  have h1 := (List.dropWhile_suffix (l := cs) Text.isBlank).length_le
  have h2 := (List.dropWhile_suffix (l := (cs.dropWhile Text.isBlank).reverse)
    Text.isBlank).length_le
  simp only [List.length_reverse] at h2 ⊢
  omega

/-- Reads a type name. The error names the innermost part that is no plain type. -/
def parseChars (name : List Char) : Except TypeNameError DataType :=
  match _hn : dropSuffix? ['?'] (Text.trim name) with
  | some inner => (parseChars inner).map toNullable
  | none =>
    match _ha : dropSuffix? ['[', ']'] (Text.trim name) with
    | some inner => (parseChars inner).map array
    | none =>
      match plain? (Text.lowercase (String.ofList (Text.trim name))) with
      | some t => .ok t
      | none => .error ⟨String.ofList name⟩
termination_by name.length
decreasing_by
  · exact Nat.lt_of_lt_of_le (dropSuffix?_length (by simp) _hn) (trim_length_le name)
  · exact Nat.lt_of_lt_of_le (dropSuffix?_length (by simp) _ha) (trim_length_le name)

/-- Reads a type name as written in a cast. -/
def parse (name : String) : Except TypeNameError DataType :=
  parseChars name.toList

end DataType

end SchemaQuery
