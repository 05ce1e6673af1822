import RouteContract.Entries
import RouteContract.Number.Layout
import RouteContract.Number.Reader
import RouteContract.Text.Blank
import RouteContract.Text.Utf8
import RouteContract.Json.Printer
import RouteContract.Json.Reader
import RouteContract.Declaration.Graph
import RouteContract.Schema.Union
import RouteContract.TypeExpr.Substitution
import RouteContract.Resolution
import RouteContract.Extraction
import RouteContract.Coercion
import RouteContract.Request
import RouteContract.Validation
import RouteContract.Syntax.Cursor
import RouteContract.Syntax.Ending
import RouteContract.Syntax.Lexeme
import RouteContract.Syntax.Rules
import RouteContract.Syntax.Types
import RouteContract.Syntax.Classes
import RouteContract.Syntax.Expressions
import RouteContract.Syntax.Reader
import RouteContract.Documentation
import RouteContract.SourceFile
import RouteContract.SourceFile.Classes
import RouteContract.SourceFile.OfSyntax
import RouteContract.ModulePath
import RouteContract.Program
import RouteContract.Proofs.Lists
import RouteContract.Proofs.TypeExpr
import RouteContract.Proofs.Entries
import RouteContract.Proofs.Registry
import RouteContract.Proofs.FieldErrors
import RouteContract.Proofs.Samples
import RouteContract.Proofs.Schema.Parts
import RouteContract.Proofs.Schema.Merging
import RouteContract.Proofs.Schema.Objects
import RouteContract.Proofs.Schema.Nodes
import RouteContract.Proofs.Schema.References
import RouteContract.Proofs.Schema.Sameness
import RouteContract.Proofs.Schema.Unions
import RouteContract.Proofs.Operation
import RouteContract.Proofs.Coercion.Loops
import RouteContract.Proofs.Coercion.Conformance
import RouteContract.Proofs.Coercion.Stability
import RouteContract.Proofs.Coercion.Descriptions
import RouteContract.Proofs.Coercion.Calls
import RouteContract.Proofs.Coercion.Adequacy
import RouteContract.Proofs.Coercion.Reading
import RouteContract.Proofs.Coercion.Intersections
import RouteContract.Proofs.Coercion.Reports
import RouteContract.Proofs.Coercion.Recording
import RouteContract.Proofs.Coercion.Complaints
import RouteContract.Proofs.Coercion.Discipline
import RouteContract.Proofs.Coercion.Places
import RouteContract.Proofs.Coercion.Conjunctions
import RouteContract.Proofs.Coercion.Sameness
import RouteContract.Proofs.Coercion.Budgets
import RouteContract.Proofs.Coercion.Unions
import RouteContract.Proofs.Resolution.Checks
import RouteContract.Proofs.Resolution.Runs
import RouteContract.Proofs.Resolution.Invariants
import RouteContract.Proofs.Resolution.Looping
import RouteContract.Proofs.Resolution.Instances
import RouteContract.Proofs.Resolution.Coupling
import RouteContract.Proofs.Resolution.Growth
import RouteContract.Proofs.Resolution.Inheritance
import RouteContract.Proofs.Resolution.Bases
import RouteContract.Proofs.Resolution.Termination
import RouteContract.Proofs.Resolution.Denoting
import RouteContract.Proofs.Resolution.Failures
import RouteContract.Proofs.Resolution.Normalization
import RouteContract.Proofs.Resolution.Notation
import RouteContract.Proofs.Resolution.Referring
import RouteContract.Proofs.Resolution.Following
import RouteContract.Proofs.Resolution.Coexistence
import RouteContract.Proofs.Resolution.Enlarging
import RouteContract.Proofs.Resolution.Schemas
import RouteContract.Proofs.Resolution.Precedence
import RouteContract.Proofs.Resolution.Optionality
import RouteContract.Proofs.Extraction.Checks
import RouteContract.Proofs.Extraction.Contracts
import RouteContract.Proofs.Extraction.Coupling
import RouteContract.Proofs.Extraction.Closed
import RouteContract.Proofs.Extraction.Intersections
import RouteContract.Proofs.Extraction.Inheritance
import RouteContract.Proofs.Extraction.Declarations
import RouteContract.Proofs.Extraction.Orders
import RouteContract.Proofs.Extraction.Annotated
import RouteContract.Proofs.Extraction.Enlarging
import RouteContract.Proofs.Extraction.Schemas
import RouteContract.Proofs.Extraction.Defaults
import RouteContract.Proofs.Extraction.NormalForms
import RouteContract.Proofs.Validation.Steps
import RouteContract.Proofs.Validation.Termination
import RouteContract.Proofs.Validation.Fields
import RouteContract.Proofs.Validation.Arguments
import RouteContract.Proofs.Validation.Bodies
import RouteContract.Proofs.Validation.References
import RouteContract.Proofs.Validation.Causes
import RouteContract.Proofs.Validation.Counting
import RouteContract.Proofs.Validation.Omissions
import RouteContract.Proofs.Registry.Scripts
import RouteContract.Proofs.Coercion.Policies
import RouteContract.Proofs.Validation.Policies
import RouteContract.Proofs.Route
import RouteContract.Proofs.Route.Paths
import RouteContract.Proofs.Extraction.Table
import RouteContract.Proofs.Extraction.Routes
import RouteContract.Proofs.Extraction.Identifiers
import RouteContract.Proofs.Extraction.Hosted
import RouteContract.Proofs.Security
import RouteContract.Proofs.Extraction.Protection
import RouteContract.Proofs.Resolution.Renaming
import RouteContract.Proofs.Extraction.Renaming
import RouteContract.Proofs.Resolution.Constants
import RouteContract.Proofs.Resolution.Repetition
import RouteContract.Proofs.Number
import RouteContract.Proofs.Calendar
import RouteContract.Proofs.Coercion.Revalidation
import RouteContract.Proofs.Text
import RouteContract.Proofs.Coercion.Grouping
import RouteContract.Proofs.Extraction.Responses
import RouteContract.Proofs.TypeExpr.Places
import RouteContract.Proofs.SourceFile.Names
import RouteContract.Proofs.SourceFile.Graphs
import RouteContract.Proofs.Number.Rounding
import RouteContract.Proofs.Number.Literals
import RouteContract.Proofs.Coercion.Integers
import RouteContract.Proofs.SourceFile.Decorators
import RouteContract.Proofs.Syntax.Strings
import RouteContract.Proofs.ModulePath
import RouteContract.Proofs.Documentation
