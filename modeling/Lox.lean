import Lox.Main
import Lox.Value.Details
import Lox.Token.Cursor
import Lox.Proofs.Grammar
import Lox.Proofs.Nodes
import Lox.Proofs.Endings
import Lox.Proofs.Parse.Growth
import Lox.Proofs.Parse.Steps
import Lox.Proofs.Parse.Soundness
import Lox.Proofs.Parse.Acceptance
import Lox.Proofs.Scope.Sessions
import Lox.Proofs.Scope.Events
import Lox.Proofs.Scope.Registers
import Lox.Proofs.Scope.Rules
import Lox.Proofs.Scope.Unused
import Lox.Proofs.Restore
import Lox.Proofs.Match.Sessions
import Lox.Proofs.Flow.Sessions
import Lox.Proofs.Inherit.Super
import Lox.Proofs.Messages
import Lox.Proofs.Join.Sessions
import Lox.Proofs.Lexical.Splitting
import Lox.Proofs.Lexical.Joining
import Lox.Proofs.Parse.Totality
import Lox.Proofs.Parse.Bounds
import Lox.Proofs.Parse.Progress
import Lox.Proofs.Parse.Recovery
import Lox.Proofs.Outcomes
import Lox.Proofs.Lockstep
import Lox.Proofs.Identities
import Lox.Proofs.Scripts
import Lox.Proofs.Reporting
import Lox.Proofs.Tasks
import Lox.Proofs.Loop.Shapes
import Lox.Proofs.Loop.Machines
import Lox.Proofs.Loop.Runs
import Lox.Proofs.Loop.Direct
import Lox.Proofs.Loop.Copies
import Lox.Proofs.Loop.Desugaring
import Lox.Proofs.Loop.Sessions
import Lox.Proofs.Addressing
import Lox.Proofs.Bindings
import Lox.Proofs.Isolation.Cells
import Lox.Proofs.Isolation.Runs
import Lox.Proofs.Isolation.Activations
import Lox.Proofs.Moments.Plans
import Lox.Proofs.Moments.Contracts
import Lox.Proofs.Construct.Parameters
import Lox.Proofs.Moments.Sessions
import Lox.Proofs.Construct.Heap
import Lox.Proofs.Construct.Runs
import Lox.Proofs.Construct.Calls
import Lox.Proofs.Construct.Instances
import Lox.Proofs.Lexical.Bytes
import Lox.Proofs.Lexical.Cursor
import Lox.Proofs.Lexical.Iterator
import Lox.Proofs.Numerals.Rounding
import Lox.Proofs.Numerals.Texts
import Lox.Proofs.Listing.Phrases
import Lox.Proofs.Listing.Trees
import Lox.Proofs.Listing.Reading
import Lox.Proofs.Listing.Unambiguous
import Lox.Proofs.Parse.PastEnd
import Lox.Proofs.Chains
