-- SUMMARY: Sample queries over the sample catalog.
import SchemaQuery.Query.Builder

/-!
# Sample queries

One query for each construct of the language. The comment of a query gives its text.
-/

namespace SchemaQuery.Sample

-- ---------------------------------------------------------------------------
-- Parts
-- ---------------------------------------------------------------------------

/-- Stands for `#A.entities() alias` -/
def entitiesAs (aliasName : String) : Source :=
  (Source.ofSchema "A" "entities" []).withAlias aliasName

/-- Stands for `#B.orders() alias` -/
def ordersAs (aliasName : String) : Source :=
  (Source.ofSchema "B" "orders" []).withAlias aliasName

/-- Stands for `select Name, City from #A.entities() alias` -/
def nameCity (aliasName : String) : Query :=
  .ofSelect (((Select.empty.addExpr (.identifier "Name")).addExpr (.identifier "City")).withSource
    (entitiesAs aliasName))

-- ---------------------------------------------------------------------------
-- Blocks
-- ---------------------------------------------------------------------------

/-- Stands for `select Name, City from #A.entities() a` -/
def simpleSelect : Query := nameCity "a"

/-- Stands for `select * from #A.entities()` -/
def selectAll : Query :=
  .ofSelect (Select.empty.addAll.withSource (.ofSchema "A" "entities" []))

/-- Stands for `select a.Name from #A.entities() a where a.Population > 1000` -/
def selectWithFilter : Query :=
  .ofSelect (((Select.empty.addExpr (.ofColumn "a" "Name")).withSource (entitiesAs "a")).withFilter
    (.binary .gt (.ofColumn "a" "Population") (.ofInt 1000)))

/-- Stands for `select Name from #A.entities() a order by Name desc skip 1 take 2` -/
def selectWithPaging : Query :=
  (((Query.ofSelect ((Select.empty.addExpr (.identifier "Name")).withSource
    (entitiesAs "a"))).withOrder [⟨.identifier "Name", .desc⟩]).withSkip 1).withTake 2

/-- Stands for `select a.Name, b.Amount from #A.entities() a <join> #B.orders() b
    on a.Id = b.PersonId` -/
def join (kind : JoinKind) : Query :=
  .ofSelect (((Select.empty.addExpr (.ofColumn "a" "Name")).addExpr
    (.ofColumn "b" "Amount")).withSource
      (.join kind (entitiesAs "a") (ordersAs "b")
        (.equals (.ofColumn "a" "Id") (.ofColumn "b" "PersonId"))))

/-- Stands for `select a.Name, i.Label from #A.entities() a cross apply #A.items(a.Id) i` -/
def crossApply : Query :=
  .ofSelect (((Select.empty.addExpr (.ofColumn "a" "Name")).addExpr
    (.ofColumn "i" "Label")).withSource
      (.apply .cross (entitiesAs "a")
        ((Source.ofSchema "A" "items" [.ofColumn "a" "Id"]).withAlias "i")))

-- ---------------------------------------------------------------------------
-- Groups
-- ---------------------------------------------------------------------------

/-- Stands for `select City, Count(City) from #A.entities() a group by City` -/
def groupByCity : Query :=
  .ofSelect ((((Select.empty.addExpr (.identifier "City")).addExpr
    (.ofCall "Count" [.identifier "City"])).withSource (entitiesAs "a")).withGroupBy
      [.identifier "City"])

/-- Stands for `Sum(Population)` -/
def totalPopulation : Expr := .ofCall "Sum" [.identifier "Population"]

/-- Stands for `select Country, Sum(Population) from #A.entities() a group by Country
    having Sum(Population) > 100` -/
def groupByWithHaving : Query :=
  .ofSelect (((((Select.empty.addExpr (.identifier "Country")).addExpr
    totalPopulation).withSource (entitiesAs "a")).withGroupBy [.identifier "Country"]).withHaving
      (.binary .gt totalPopulation (.ofInt 100)))

/-- Stands for `select Count(Name) from #A.entities() a` -/
def implicitGroup : Query :=
  .ofSelect ((Select.empty.addExpr (.ofCall "Count" [.identifier "Name"])).withSource
    (entitiesAs "a"))

-- ---------------------------------------------------------------------------
-- Set operators and common table expressions
-- ---------------------------------------------------------------------------

/-- Stands for `select Name, City from #A.entities() a <operator> (Name)
    select Name, City from #A.entities() b` -/
def combined (operator : SetOperator) : Query :=
  .combine operator (nameCity "a") (nameCity "b") ["Name"]

/-- Stands for `with p as (select Name, City from #A.entities() a) select Name from p` -/
def simpleCte : Query :=
  (Query.ofSelect ((Select.empty.addExpr (.identifier "Name")).withSource
    (.ofMemory "p"))).withCtes [⟨"p", [], nameCity "a"⟩]

end SchemaQuery.Sample
