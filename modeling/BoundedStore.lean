import BoundedStore.Command.Execute
import BoundedStore.Command.Outcome
import BoundedStore.Command.Printer
import BoundedStore.Command.Reader
import BoundedStore.Http.Printer
import BoundedStore.Settings
import BoundedStore.Value.Digest
import BoundedStore.Proofs.Table
import BoundedStore.Proofs.Recency
import BoundedStore.Proofs.Bounded.Basic
import BoundedStore.Proofs.Bounded.Insert
import BoundedStore.Proofs.Bounded.Changes
import BoundedStore.Proofs.Bounded.History
import BoundedStore.Proofs.Bounded.Runs
import BoundedStore.Proofs.Bounded.Inclusion
import BoundedStore.Proofs.Value.Items
import BoundedStore.Proofs.Value.Ranges
import BoundedStore.Proofs.Value.Occurrences
import BoundedStore.Proofs.Value.Members
import BoundedStore.Proofs.Store.Basic
import BoundedStore.Proofs.Store.Changes
import BoundedStore.Proofs.Store.Counters
import BoundedStore.Proofs.Store.Validity
import BoundedStore.Proofs.Store.Uses
import BoundedStore.Proofs.Store.Turnover
import BoundedStore.Proofs.Store.Refusals
import BoundedStore.Proofs.Bounded.Retention
import BoundedStore.Proofs.Store.Conservation
import BoundedStore.Proofs.Store.Retention
import BoundedStore.Proofs.Bounded.Effects
import BoundedStore.Proofs.Store.Frame
import BoundedStore.Proofs.Command.Replies
import BoundedStore.Proofs.Store.Combinations
import BoundedStore.Proofs.Store.Parts
import BoundedStore.Proofs.Store.WellFormed
import BoundedStore.Proofs.Json.Decimal
import BoundedStore.Proofs.Json.Grammar
import BoundedStore.Proofs.Store.Moves
import BoundedStore.Proofs.Json.Reader
import BoundedStore.Proofs.Json.Printer
import BoundedStore.Proofs.Value.Json
import BoundedStore.Proofs.Value.Texts
import BoundedStore.Proofs.Value.Grammar
import BoundedStore.Proofs.Command.Grammar
import BoundedStore.Proofs.Command.Texts
import BoundedStore.Proofs.Command.Printer
import BoundedStore.Proofs.Command.Runs
import BoundedStore.Proofs.Command.Shapes
import BoundedStore.Proofs.Command.Copies
import BoundedStore.Proofs.Http.Requests
import BoundedStore.Proofs.Bounded.Capacity
import BoundedStore.Proofs.Command.Footprint
import BoundedStore.Proofs.Command.Commuting
import BoundedStore.Proofs.Command.Capacity
import BoundedStore.Proofs.Value.Algebra
import BoundedStore.Proofs.Store.Algebra
import BoundedStore.Proofs.Value.Classes
import BoundedStore.Proofs.Store.FiniteSets
import BoundedStore.Proofs.Store.Lists
import BoundedStore.Proofs.Bounded.Alike
import BoundedStore.Proofs.Store.Mirrors
import BoundedStore.Proofs.Store.Deques
import BoundedStore.Proofs.Store.RandomMembers
import BoundedStore.Proofs.Value.Digest
import BoundedStore.Proofs.Recency.Runs
import BoundedStore.Proofs.Text.Numeral
import BoundedStore.Proofs.Value.Coerce
import BoundedStore.Proofs.Settings
import BoundedStore.Proofs.Value.Aligned
import BoundedStore.Proofs.Store.Similar
import BoundedStore.Proofs.Store.Congruence
