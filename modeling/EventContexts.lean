import EventContexts.Resources
import EventContexts.Context.Statements
import EventContexts.Context.Running
import EventContexts.Context.Lookup
import EventContexts.Json.Reading
import EventContexts.Json.Writing
import EventContexts.Schema.Assignment
import EventContexts.Schema.Loading
import EventContexts.Proofs.Lists
import EventContexts.Proofs.Tables
import EventContexts.Proofs.Triple
import EventContexts.Proofs.Addenda
import EventContexts.Proofs.PartitionIds
import EventContexts.Proofs.Controller.Keyed
import EventContexts.Proofs.Controller.Category
import EventContexts.Proofs.Controller.Hash
import EventContexts.Proofs.Controller.Episode
import EventContexts.Proofs.Controller.Temporal
import EventContexts.Proofs.Controller
import EventContexts.Proofs.Accounts
import EventContexts.Proofs.Tree
import EventContexts.Proofs.Growth
import EventContexts.Proofs.Staffing
import EventContexts.Proofs.Walks
import EventContexts.Proofs.Visits
import EventContexts.Proofs.Sound
import EventContexts.Proofs.Statements
import EventContexts.Proofs.Run
import EventContexts.Proofs.Arena
import EventContexts.Proofs.Routing
import EventContexts.Proofs.Delivery
import EventContexts.Proofs.Conduct
import EventContexts.Proofs.Upkeep
import EventContexts.Proofs.Ledger
import EventContexts.Proofs.Settlement
import EventContexts.Proofs.Startup
import EventContexts.Proofs.Spots
import EventContexts.Proofs.KeyedTrees
import EventContexts.Proofs.Grouping
import EventContexts.Proofs.Places
import EventContexts.Proofs.Replay
import EventContexts.Proofs.Reseating
import EventContexts.Proofs.Replanting
import EventContexts.Proofs.Recovery
import EventContexts.Proofs.Retention
import EventContexts.Proofs.Grafts
import EventContexts.Proofs.Handles
import EventContexts.Proofs.Staleness
import EventContexts.Proofs.Atomicity
import EventContexts.Proofs.Stops
import EventContexts.Proofs.Subtrees
import EventContexts.Proofs.Removal
import EventContexts.Proofs.Clock
import EventContexts.Proofs.Expiry
import EventContexts.Proofs.Settling
import EventContexts.Proofs.Narrowing
import EventContexts.Proofs.Selection
import EventContexts.Proofs.Likeness
import EventContexts.Proofs.Twins
import EventContexts.Proofs.TwinSteps
import EventContexts.Proofs.TwinContexts
import EventContexts.Proofs.Isolation
import EventContexts.Proofs.Pruning
import EventContexts.Proofs.Moves
import EventContexts.Proofs.Regimes
import EventContexts.Proofs.RegimeContexts
import EventContexts.Proofs.Restarts
import EventContexts.Proofs.Faults
import EventContexts.Proofs.Confinement
import EventContexts.Proofs.Bequests
import EventContexts.Proofs.Inheritance
import EventContexts.Proofs.Strays
import EventContexts.Proofs.Metering
import EventContexts.Proofs.Openings
import EventContexts.Proofs.Addresses
import EventContexts.Proofs.Layers
import EventContexts.Proofs.Buckets
import EventContexts.Proofs.Traversals
import EventContexts.Proofs.Episodes
import EventContexts.Proofs.Comparison
import EventContexts.Proofs.Numbering
import EventContexts.Proofs.Tenure
import EventContexts.Proofs.Identifiers
import EventContexts.Proofs.Inference
import EventContexts.Proofs.Integers
import EventContexts.Proofs.Conformance
import EventContexts.Proofs.Exposure
import EventContexts.Proofs.JsonTexts
import EventContexts.Proofs.Documents
import EventContexts.Proofs.Saving
