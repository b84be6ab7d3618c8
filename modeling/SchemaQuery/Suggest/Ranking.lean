-- SUMMARY: Near-miss suggestions for unknown names, ranked by relevance.
import SchemaQuery.Suggest.EditDistance
import SchemaQuery.Suggest.Soundex
import SchemaQuery.Text.Lowercase

/-!
# Suggestions

A candidate is suggested for a name when it differs from it in letter case only,
lies within a small edit distance, continues it, or sounds like it. Better
matches come first, and candidates of equal relevance keep their order.
-/

namespace SchemaQuery

/-- How a candidate matches a name. -/
inductive MatchKind where
  | caseInsensitive
  | fuzzy (distance : Nat)
  | prefixed
  | phonetic
deriving DecidableEq, Repr

structure Suggestion where
  candidate : String
  kind : MatchKind
  score : Float

structure SuggestionConfig where
  maxDistance : Nat
  maxSuggestions : Nat
  /-- Whether names that sound alike are suggested. -/
  phonetic : Bool
deriving DecidableEq, Repr

instance : Inhabited SuggestionConfig := ⟨⟨2, 5, true⟩⟩

/-- The edit distance of two names in lower case. -/
def foldedDistance (a b : String) : Nat :=
  EditDistance.distance (Text.lowercase a) (Text.lowercase b)

/-- One less the share of edits in the longer name. -/
def similarity (a b : String) : Float :=
  let longest := max a.length b.length
  if longest = 0 then 1.0
  else 1.0 - Float.ofNat (foldedDistance a b) / Float.ofNat longest

namespace SuggestionConfig

/-- Whether two names have a Soundex code and share it. -/
def soundsAlike (a b : String) : Bool :=
  match Soundex.code a, Soundex.code b with
  | some x, some y => x = y
  | _, _ => false

/-- Whether `name`, of at least three bytes, starts the candidate up to letter case. -/
def starts (name candidate : String) : Bool :=
  name.utf8ByteSize ≥ 3
    && (Text.lowercase name).toList.isPrefixOf (Text.lowercase candidate).toList

/-- How a candidate matches a name, if it does. -/
def matchKind? (config : SuggestionConfig) (name candidate : String) : Option MatchKind :=
  if name = candidate then none
  else if Text.eqIgnoreAsciiCase name candidate then some .caseInsensitive
  else if foldedDistance name candidate ≤ config.maxDistance then
    some (.fuzzy (foldedDistance name candidate))
  else if starts name candidate then some .prefixed
  else if config.phonetic && soundsAlike name candidate then some .phonetic
  else none

/-- The relevance of a match before it is cut to the range from zero to one. -/
def rawScore (config : SuggestionConfig) (name candidate : String) : MatchKind → Float
  | .caseInsensitive => 0.95
  | .fuzzy distance =>
    let penalty := 1.0 - Float.ofNat distance / (Float.ofNat config.maxDistance + 1.0)
    similarity name candidate * penalty + 0.1
  | .prefixed => Float.ofNat name.utf8ByteSize / Float.ofNat candidate.utf8ByteSize * 0.85
  | .phonetic => 0.3

def score (config : SuggestionConfig) (name candidate : String) (kind : MatchKind) : Float :=
  let raw := config.rawScore name candidate kind
  if raw < 0.0 then 0.0 else if raw > 1.0 then 1.0 else raw

/-- The names without repetitions, in the order of their first occurrence. -/
def distinct (names : List String) : List String :=
  names.foldl (fun acc n => if acc.contains n then acc else acc ++ [n]) []

/-- All matching candidates, in their own order. -/
def matching (config : SuggestionConfig) (name : String) (candidates : List String) :
    List Suggestion :=
  (distinct candidates).filterMap fun candidate =>
    (config.matchKind? name candidate).map fun kind =>
      ⟨candidate, kind, config.score name candidate kind⟩

/-- The best matching candidates, most relevant first. -/
def rank (config : SuggestionConfig) (name : String) (candidates : List String) :
    List Suggestion :=
  ((config.matching name candidates).mergeSort fun a b => b.score ≤ a.score).take
    config.maxSuggestions

/-- The names of the best matching candidates. -/
def suggest (config : SuggestionConfig) (name : String) (candidates : List String) : List String :=
  (config.rank name candidates).map (·.candidate)

end SuggestionConfig

end SchemaQuery
