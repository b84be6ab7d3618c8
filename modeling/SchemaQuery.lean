import SchemaQuery.Config.Yaml
import SchemaQuery.Document.Builder
import SchemaQuery.Document.Catalog
import SchemaQuery.Document.Config
import SchemaQuery.Document.Error
import SchemaQuery.Document.Plan
import SchemaQuery.Document.Scope
import SchemaQuery.Json.Writer
import SchemaQuery.Proofs.DataType.Ancestors
import SchemaQuery.Proofs.DataType.CommonAncestor
import SchemaQuery.Proofs.DataType.Names
import SchemaQuery.Proofs.DataType.Steps
import SchemaQuery.Proofs.Method.Bindings
import SchemaQuery.Proofs.Plan.CteScans
import SchemaQuery.Proofs.Plan.JoinColumns
import SchemaQuery.Proofs.Plan.Phases
import SchemaQuery.Proofs.Plan.ReadTypes
import SchemaQuery.Proofs.Plan.Relocated
import SchemaQuery.Proofs.Plan.RowShape
import SchemaQuery.Proofs.Plan.SetRows
import SchemaQuery.Proofs.Resolve.AliasOrder
import SchemaQuery.Proofs.Resolve.Internal
import SchemaQuery.Proofs.Resolve.RenamedOutput
import SchemaQuery.Proofs.Resolve.Requests
import SchemaQuery.Proofs.Resolve.SharedAccumulators
import SchemaQuery.Proofs.Resolve.Strata
import SchemaQuery.Proofs.Resolve.SymbolTable
import SchemaQuery.Proofs.Resolve.TypedQueries
import SchemaQuery.Proofs.Scope.Renaming
import SchemaQuery.Proofs.Scope.Visibility
import SchemaQuery.Proofs.Suggest.AmericanSoundex
import SchemaQuery.Proofs.Suggest.NearMisses
