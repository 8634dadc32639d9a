import TypeResolution.Name
import TypeResolution.Numeral
import TypeResolution.Span
import TypeResolution.Locator
import TypeResolution.Diagnostic
import TypeResolution.Report
import TypeResolution.Ty.Basic
import TypeResolution.Ty.Display
import TypeResolution.Notation.Identifier
import TypeResolution.Notation.SyntaxError
import TypeResolution.Notation.Token
import TypeResolution.Notation.Reader
import TypeResolution.Json.Number
import TypeResolution.Json.Parser
import TypeResolution.Json.Record
import TypeResolution.Options
import TypeResolution.Store.Basic
import TypeResolution.Store.Unify
import TypeResolution.Reach
import TypeResolution.Table.Basic
import TypeResolution.Table.Query
import TypeResolution.Constraint
import TypeResolution.System
import TypeResolution.TypeError
import TypeResolution.Search.Work
import TypeResolution.Search.Opening
import TypeResolution.Search.Simplify
import TypeResolution.Search.Turn
import TypeResolution.Search.Branch
import TypeResolution.Search.Found
import TypeResolution.Search.State
import TypeResolution.Solve
import TypeResolution.Satisfaction
import TypeResolution.Workspace.Document
import TypeResolution.Workspace.Loading
import TypeResolution.Workspace.Checking
import TypeResolution.CommandLine.Arguments
import TypeResolution.CommandLine.Answer
import TypeResolution.Main
import TypeResolution.Proofs.Store.History
import TypeResolution.Proofs.Store.Unifier
import TypeResolution.Proofs.Search.Exhaustive
import TypeResolution.Proofs.Search.Soundness
import TypeResolution.Proofs.Search.Plain
import TypeResolution.Proofs.Search.Resolving
import TypeResolution.Proofs.Search.Acceptance
import TypeResolution.Proofs.Store.Lookup
import TypeResolution.Proofs.Search.Lookup
import TypeResolution.Proofs.Search.Reached
import TypeResolution.Proofs.Search.Scope
import TypeResolution.Proofs.Search.Bound
import TypeResolution.Proofs.Workspace.Variables
import TypeResolution.Proofs.Search.Closure
import TypeResolution.Proofs.Store.Symmetry
import TypeResolution.Proofs.Search.Indifference
import TypeResolution.Proofs.Search.Order
import TypeResolution.Proofs.Search.Cutoff
import TypeResolution.Proofs.Notation.Rendering
import TypeResolution.Proofs.Table.Registry
import TypeResolution.Proofs.Table.Conformance
import TypeResolution.Proofs.Table.Nearest
import TypeResolution.Proofs.Store.Reconciling
import TypeResolution.Proofs.Search.Ground
import TypeResolution.Proofs.Search.Settling
import TypeResolution.Proofs.Search.GroundSubtyping
import TypeResolution.Proofs.Search.Weakening
import TypeResolution.Proofs.Search.ErrorMembers
import TypeResolution.Proofs.Table.Requirements
import TypeResolution.Proofs.Table.Inheritance
import TypeResolution.Proofs.Table.Capture
import TypeResolution.Proofs.Table.Growth
import TypeResolution.Proofs.Search.Early
import TypeResolution.Proofs.Notation.Rereading
import TypeResolution.Proofs.Workspace.Steps
import TypeResolution.Proofs.Workspace.Declarations
import TypeResolution.Proofs.Table.Preorder
import TypeResolution.Proofs.Search.Ambiguity
import TypeResolution.Proofs.Search.Deepest
import TypeResolution.Proofs.Search.Rejections
import TypeResolution.Proofs.Search.Literals
import TypeResolution.Proofs.Search.Explanations
import TypeResolution.Proofs.Search.Origins
import TypeResolution.Proofs.Search.Certainty
import TypeResolution.Proofs.Store.Refinement
import TypeResolution.Proofs.Store.Joins
import TypeResolution.Proofs.Templates
import TypeResolution.Proofs.Notation.ErrorSpans
import TypeResolution.Proofs.Workspace.AnyOrder
