import TypeGraph.Arena
import TypeGraph.Arena.Command
import TypeGraph.BigIntLiteral
import TypeGraph.Compiler
import TypeGraph.Double
import TypeGraph.Double.Decimal
import TypeGraph.Engine
import TypeGraph.Flags
import TypeGraph.Guard
import TypeGraph.Json
import TypeGraph.Json.Draft
import TypeGraph.Json.Problem
import TypeGraph.Json.Record
import TypeGraph.Json.Writer
import TypeGraph.Kind
import TypeGraph.Limits
import TypeGraph.LogFormat
import TypeGraph.Model
import TypeGraph.Model.Origin
import TypeGraph.Model.Reader
import TypeGraph.Model.Traversal
import TypeGraph.Model.Writer
import TypeGraph.Options
import TypeGraph.Proofs.Arena.Building
import TypeGraph.Proofs.Arena.Definition
import TypeGraph.Proofs.Arena.Frame
import TypeGraph.Proofs.Arena.Growth
import TypeGraph.Proofs.Arena.Handles
import TypeGraph.Proofs.Arena.Interning
import TypeGraph.Proofs.Arena.Layer
import TypeGraph.Proofs.Arena.Size
import TypeGraph.Proofs.BigIntLiteral
import TypeGraph.Proofs.Compiler.Budget
import TypeGraph.Proofs.Compiler.Building
import TypeGraph.Proofs.Compiler.Calls
import TypeGraph.Proofs.Compiler.Closed
import TypeGraph.Proofs.Compiler.Cycles
import TypeGraph.Proofs.Compiler.Depth
import TypeGraph.Proofs.Compiler.Edges
import TypeGraph.Proofs.Compiler.Finite
import TypeGraph.Proofs.Compiler.Kinds
import TypeGraph.Proofs.Compiler.Limits
import TypeGraph.Proofs.Compiler.Literals
import TypeGraph.Proofs.Compiler.Origins
import TypeGraph.Proofs.Compiler.Places
import TypeGraph.Proofs.Compiler.ReadBack
import TypeGraph.Proofs.Compiler.Renaming
import TypeGraph.Proofs.Compiler.Reuse
import TypeGraph.Proofs.Compiler.Stability
import TypeGraph.Proofs.Compiler.Trust
import TypeGraph.Proofs.Compiler.Unfolding
import TypeGraph.Proofs.Double.Decimal
import TypeGraph.Proofs.Double.Rounding
import TypeGraph.Proofs.Double.Value
import TypeGraph.Proofs.Engine
import TypeGraph.Proofs.Engine.Cascade
import TypeGraph.Proofs.Engine.Layer
import TypeGraph.Proofs.Engine.Renaming
import TypeGraph.Proofs.Engine.Rules
import TypeGraph.Proofs.Guard
import TypeGraph.Proofs.Guard.Budget
import TypeGraph.Proofs.Guard.History
import TypeGraph.Proofs.Integer
import TypeGraph.Proofs.Json.Cut.Scalar
import TypeGraph.Proofs.Json.Cut.Value
import TypeGraph.Proofs.Json.Fields
import TypeGraph.Proofs.Json.Grammar
import TypeGraph.Proofs.Json.Grammar.Form
import TypeGraph.Proofs.Json.Grammar.Scalar
import TypeGraph.Proofs.Json.Grammar.Value
import TypeGraph.Proofs.Json.Numbers
import TypeGraph.Proofs.Json.Record
import TypeGraph.Proofs.Json.Strings
import TypeGraph.Proofs.Json.Text
import TypeGraph.Proofs.Json.Value
import TypeGraph.Proofs.Model.Acceptance
import TypeGraph.Proofs.Model.Addresses
import TypeGraph.Proofs.Model.Canonical
import TypeGraph.Proofs.Model.Cut
import TypeGraph.Proofs.Model.Depth
import TypeGraph.Proofs.Model.Expansion
import TypeGraph.Proofs.Model.KeepFirst
import TypeGraph.Proofs.Model.KindWords
import TypeGraph.Proofs.Model.Levels
import TypeGraph.Proofs.Model.Normalization
import TypeGraph.Proofs.Model.NumberText
import TypeGraph.Proofs.Model.Origin
import TypeGraph.Proofs.Model.OriginMaps
import TypeGraph.Proofs.Model.Parts
import TypeGraph.Proofs.Model.Places
import TypeGraph.Proofs.Model.Properties
import TypeGraph.Proofs.Model.ReadBack
import TypeGraph.Proofs.Model.Readable
import TypeGraph.Proofs.Model.Reading
import TypeGraph.Proofs.Model.RoundTrip
import TypeGraph.Proofs.Model.Schema
import TypeGraph.Proofs.Model.Signatures
import TypeGraph.Proofs.Model.Streaming
import TypeGraph.Proofs.Model.Visits
import TypeGraph.Proofs.Model.Walk
import TypeGraph.Proofs.Options
import TypeGraph.Proofs.Shape
import TypeGraph.Shape
import TypeGraph.Table
import TypeGraph.Text.Blank
import TypeGraph.Text.Hidden
import TypeGraph.Text.Visible
