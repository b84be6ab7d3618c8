-- SUMMARY: Settings and suggestions as JSON.
import SchemaQuery.Config.Basic
import SchemaQuery.Json.Basic

/-!
# Settings as JSON
-/

namespace SchemaQuery

def SuggestionConfig.toJson (c : SuggestionConfig) : Json :=
  .obj [("maxDistance", .ofNat c.maxDistance), ("maxSuggestions", .ofNat c.maxSuggestions),
    ("phonetic", .bool c.phonetic)]

def PlanConfig.toJson (c : PlanConfig) : Json :=
  .obj [("transitionTablePrefix", .str c.transitionTablePrefix), ("maxDepth", .ofNat c.maxDepth)]

def Config.toJson (c : Config) : Json :=
  .obj [("suggestions", c.resolver.suggestions.toJson),
    ("autoAliasPrefix", .str c.resolver.autoAliasPrefix),
    ("transitionTablePrefix", .str c.planner.transitionTablePrefix),
    ("maxDepth", .ofNat c.planner.maxDepth), ("logFilter", .str c.logFilter)]

def MatchKind.toJson : MatchKind → Json
  | .caseInsensitive => .str "CaseInsensitive"
  | .fuzzy distance => .tagged "Fuzzy" (.ofNat distance)
  | .prefixed => .str "PrefixMatch"
  | .phonetic => .str "Phonetic"

/-- The bits of a score as sixteen hexadecimal digits. -/
def scoreBits (score : Float) : String :=
  let digits := Nat.toDigits 16 score.toBits.toNat
  String.ofList (List.replicate (16 - digits.length) '0' ++ digits)

def Suggestion.toJson (s : Suggestion) : Json :=
  .obj [("candidate", .str s.candidate), ("kind", s.kind.toJson),
    ("score_bits", .str (scoreBits s.score))]

end SchemaQuery
