-- SUMMARY: The text of plans.
import SchemaQuery.Plan.Basic

/-!
# The text of plans

A plan renders as one line per step and a last line that names the result.
-/

namespace SchemaQuery

def Direction.render : Direction → String
  | .asc => "Asc"
  | .desc => "Desc"

namespace Plan

def LoopKind.render : LoopKind → String
  | .innerJoin => "inner join"
  | .leftOuterJoin => "left outer join"
  | .rightOuterJoin => "right outer join"
  | .crossApply => "cross apply"
  | .outerApply => "outer apply"

def JoinSide.render : JoinSide → String
  | .left => "Left"
  | .right => "Right"

def Presence.render : Presence → String
  | .present => "Present"
  | .absent => "Absent"

/-- A part that is written only when it is there, behind its keyword. -/
def optional (keyword : String) : Option String → String
  | some text => " " ++ keyword ++ " " ++ text
  | none => ""

def renderTerms (terms : List Term) : String := ", ".intercalate (terms.map Term.render)

def Scan.render : Scan → String
  | .schema aliasName owner method args =>
    "#" ++ owner ++ "." ++ method ++ "(" ++ renderTerms args ++ ") " ++ aliasName
  | .inMemory aliasName table | .transition aliasName table => table ++ " " ++ aliasName
  | .loop kind left right predicate padding =>
    "(" ++ left.render ++ ") " ++ kind.render ++ " (" ++ right.render ++ ")"
      ++ optional "on" (predicate.map Term.render)
      ++ optional "padding" (padding.map (·.preserved.render))

def renderSortKey (k : SortKey) : String := k.term.render ++ " " ++ k.direction.render

/-- The sort keys behind `order by`, if there are any. -/
def renderOrder (keys : List SortKey) : String :=
  if keys.isEmpty then "" else " order by " ++ ", ".intercalate (keys.map renderSortKey)

def Populate.render (s : Populate) : String :=
  "Populate " ++ s.target ++ " from " ++ s.source.render
    ++ optional "where" (s.filter.map Term.render)
    ++ " select (" ++ renderTerms s.select ++ ")" ++ renderOrder s.orderBy
    ++ optional "skip" (s.skip.map toString) ++ optional "take" (s.take.map toString)

def Aggregate.render (s : Aggregate) : String :=
  "Aggregate into " ++ s.target ++ " from " ++ s.source.render
    ++ optional "where" (s.filter.map Term.render)
    ++ " keys (" ++ renderTerms s.keys ++ ") refresh ("
    ++ ", ".intercalate (s.refresh.map RefreshCall.render) ++ ")"

def SetMatch.render (s : SetMatch) : String :=
  "SetMatch into " ++ s.target ++ " from " ++ s.source ++ " where ("
    ++ ", ".intercalate s.keyColumns ++ ") " ++ s.expected.render ++ " in " ++ s.probe

def renderColumn (c : Column) : String := c.name ++ " " ++ c.type.render

def Node.render : Node → String
  | .create table columns forGrouping =>
    "CreateTransitionTable " ++ table ++ " (" ++ ", ".intercalate (columns.map renderColumn) ++ ")"
      ++ if forGrouping then " for grouping" else ""
  | .populate step => step.render
  | .aggregate step => step.render
  | .setMatch step => step.render
  | .rename source target => "Rename " ++ source ++ " to " ++ target

def render (p : Plan) : String :=
  String.join (p.nodes.map fun n => n.render ++ "\n") ++ "Result: " ++ p.result

end Plan

end SchemaQuery
