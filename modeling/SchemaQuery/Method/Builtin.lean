-- SUMMARY: The builtin methods.
import SchemaQuery.Method.Registry

/-!
# Builtin methods

The aggregates, each followed by its setter, and the scalar methods that every
schema offers.
-/

namespace SchemaQuery.Method

private def stringShape : Shape := .concrete .string
private def intShape : Shape := .concrete .int
private def decimalShape : Shape := .concrete .decimal
private def typeParam : Shape := .generic "T"

/-- An aggregate of one value, and its setter. -/
def aggregatePair (name : String) (value returns : Shape) (text : String) : List Method :=
  [((aggregate name returns).param "value" value).describe text,
   (setter name).param "value" value]

def builtinAggregates : List Method :=
  let numeric : Shape := .implements numericInterface
  let ordered : Shape := .constrained "T" comparableInterface
  aggregatePair "Count" .any (.concrete .long) "Count the number of rows in the group"
    ++ aggregatePair "Sum" numeric decimalShape "Sum of values"
    ++ aggregatePair "Avg" numeric decimalShape "Average of values"
    ++ aggregatePair "Min" ordered typeParam "Minimum value"
    ++ aggregatePair "Max" ordered typeParam "Maximum value"
    ++ aggregatePair "AggregateValues" .any (.concrete (.array .string))
      "Collect the textual form of values"

def builtinScalars : List Method :=
  [((scalar "ToUpper" stringShape).param "value" stringShape).describe "Convert to uppercase",
   ((scalar "ToLower" stringShape).param "value" stringShape).describe "Convert to lowercase",
   ((scalar "Trim" stringShape).param "value" stringShape).describe
      "Remove leading and trailing whitespace",
   ((scalar "Length" intShape).param "value" stringShape).describe "String length",
   ((((scalar "Substring" stringShape).param "value" stringShape).param "index" intShape).param
      "length" intShape).describe "Extract substring",
   (((scalar "Concat" stringShape).param "left" stringShape).param "right" stringShape).describe
      "Concatenate strings",
   ((scalar "Abs" typeParam).param "value" (.constrained "T" numericInterface)).describe
      "Absolute value",
   (((scalar "Round" decimalShape).param "value" decimalShape).param "precision" intShape).describe
      "Round to the given number of decimals",
   (((scalar "Coalesce" typeParam).param "value" typeParam).param "fallback" typeParam).describe
      "First non-null argument",
   (((scalar "Contains" (.concrete .boolean)).param "values" (.sequenceOf typeParam)).param
      "value" typeParam).describe "Check whether a sequence contains a value",
   ((scalar "First" typeParam).param "values" (.sequenceOf typeParam)).describe
      "First element of a sequence",
   (((scalar "ElementAt" typeParam).param "values" (.sequenceOf typeParam)).param
      "index" intShape).describe "Element of a sequence at the given position",
   (scalar "RowNumber" (.concrete .long)).injectStats.describe "Position of the current row",
   ((scalar "GetTypeName" stringShape).injectSource .any).describe
      "Name of the type of the current row"]

def builtins : List Method := builtinAggregates ++ builtinScalars

end SchemaQuery.Method

namespace SchemaQuery.MethodRegistry

/-- The registry of the builtin methods alone. -/
def builtin : MethodRegistry := ⟨Method.builtins⟩

end SchemaQuery.MethodRegistry
