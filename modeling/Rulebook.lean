import Rulebook.Binding.Basic
import Rulebook.Binding.Coercion
import Rulebook.Config
import Rulebook.Digest
import Rulebook.Engine
import Rulebook.Fact.Basic
import Rulebook.Fact.Instance
import Rulebook.Fact.Memory
import Rulebook.Json.Basic
import Rulebook.Json.Raw
import Rulebook.Json.Record
import Rulebook.Number.Binary64
import Rulebook.Number.Decimal
import Rulebook.Number.Rounding
import Rulebook.Number.Shortest
import Rulebook.Outcome
import Rulebook.Path
import Rulebook.Program.Basic
import Rulebook.Program.Check
import Rulebook.Program.Error
import Rulebook.Program.Order
import Rulebook.Rule.Action
import Rulebook.Rule.Condition
import Rulebook.Service.Cache
import Rulebook.Service.Error
import Rulebook.Service.Execution
import Rulebook.Service.Lookup
import Rulebook.Service.Mutation
import Rulebook.Service.Status
import Rulebook.Session.Basic
import Rulebook.Session.Firing
import Rulebook.Shape.Basic
import Rulebook.Source.Condition
import Rulebook.Source.Item
import Rulebook.Source.Printer
import Rulebook.Source.Reader
import Rulebook.Source.Report
import Rulebook.Source.Token
import Rulebook.Store.Basic
import Rulebook.Store.Definition
import Rulebook.Table
import Rulebook.Text.Blank
import Rulebook.Text.Printable
import Rulebook.Text.Quoted
import Rulebook.Timestamp
import Rulebook.Value
import Rulebook.Proofs.Table
import Rulebook.Proofs.Program.Order
import Rulebook.Proofs.Program.Arrangement
import Rulebook.Proofs.Program.Rearrangement
import Rulebook.Proofs.Program.Acyclic
import Rulebook.Proofs.Program.Counting
import Rulebook.Proofs.Program.WellFormed
import Rulebook.Proofs.Program.Diagnostics
import Rulebook.Proofs.Program.Circle
import Rulebook.Proofs.Session.Meaning
import Rulebook.Proofs.Session.Layout
import Rulebook.Proofs.Session.Relabel
import Rulebook.Proofs.Session.LifeCycle
import Rulebook.Proofs.Session.Effect
import Rulebook.Proofs.Fact.Memory
import Rulebook.Proofs.Fact.LastWrite
import Rulebook.Proofs.Fact.Nested
import Rulebook.Proofs.Fact.Instance
import Rulebook.Proofs.Fact.Calls
import Rulebook.Proofs.Session.Facts
import Rulebook.Proofs.Session.Agenda
import Rulebook.Proofs.Session.Rearrangement
import Rulebook.Proofs.Store.Memory
import Rulebook.Proofs.Service.Cache
import Rulebook.Proofs.Service.Steps
import Rulebook.Proofs.Service.Interleaving
import Rulebook.Proofs.Service.Log
import Rulebook.Proofs.Service.History
import Rulebook.Proofs.Service.Coherence
import Rulebook.Proofs.Service.Retirement
import Rulebook.Proofs.Service.Progress
import Rulebook.Proofs.Service.Handles
import Rulebook.Proofs.Service.Exclusion
import Rulebook.Proofs.Service.Freshness
import Rulebook.Proofs.Service.Monotonicity
import Rulebook.Proofs.Service.SingleFlight
import Rulebook.Proofs.Service.Facade
import Rulebook.Proofs.Service.Sequential
import Rulebook.Proofs.Service.Transparency
import Rulebook.Proofs.Service.Deletion
import Rulebook.Proofs.Service.Rearrangement
import Rulebook.Proofs.Service.Admission
import Rulebook.Proofs.Service.Roots
import Rulebook.Proofs.Number.Decimal
import Rulebook.Proofs.Number.Binary64
import Rulebook.Proofs.Number.Grid
import Rulebook.Proofs.Number.Nearest
import Rulebook.Proofs.Number.Whole
import Rulebook.Proofs.Number.Comparison
import Rulebook.Proofs.Number.Numeral
import Rulebook.Proofs.Source.Reader
import Rulebook.Proofs.Source.Token
import Rulebook.Proofs.Source.Condition
import Rulebook.Proofs.Source.Item
import Rulebook.Proofs.Source.Printing
import Rulebook.Proofs.Source.Literal
import Rulebook.Proofs.Source.Progress
import Rulebook.Proofs.Source.Precedence
import Rulebook.Proofs.Source.Continuation
import Rulebook.Proofs.Source.Concatenation
import Rulebook.Proofs.Source.Operand
import Rulebook.Proofs.Binding.Settings
import Rulebook.Proofs.Binding.Typing
import Rulebook.Proofs.Binding.Conformity
import Rulebook.Proofs.Service.Atomicity
import Rulebook.Proofs.Binding.Fields
import Rulebook.Proofs.Binding.Diagnostics
import Rulebook.Proofs.Binding.Rebinding
import Rulebook.Proofs.Binding.Exactness
import Rulebook.Proofs.Service.Interference
import Rulebook.Proofs.Service.Inventory
import Rulebook.Proofs.Service.Paging
import Rulebook.Proofs.Service.Answers
import Rulebook.Proofs.Service.Generations
import Rulebook.Proofs.Session.WithoutResult
