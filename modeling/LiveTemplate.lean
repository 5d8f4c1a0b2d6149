import LiveTemplate.Main
import LiveTemplate.Proofs.Deltas
import LiveTemplate.Proofs.Delivery
import LiveTemplate.Proofs.Operations
import LiveTemplate.Proofs.Forest
import LiveTemplate.Proofs.Leftovers
import LiveTemplate.Proofs.Variables
import LiveTemplate.Proofs.RoundTrip
import LiveTemplate.Proofs.Tokens
import LiveTemplate.Proofs.Printing
import LiveTemplate.Proofs.Detachment
import LiveTemplate.Proofs.Inventory
import LiveTemplate.Proofs.Tables
import LiveTemplate.Proofs.Replay
import LiveTemplate.Proofs.Entries
import LiveTemplate.Proofs.Flips
import LiveTemplate.Proofs.Upkeep
import LiveTemplate.Proofs.Spelling
import LiveTemplate.Proofs.Static
import LiveTemplate.Proofs.Lockstep
import LiveTemplate.Proofs.Independence
import LiveTemplate.Proofs.Lifetimes
import LiveTemplate.Proofs.Readers
import LiveTemplate.Proofs.Decoding
import LiveTemplate.Proofs.Passages
import LiveTemplate.Proofs.Precedence
import LiveTemplate.Proofs.Release
import LiveTemplate.Proofs.Failures
import LiveTemplate.Proofs.Handlers
import LiveTemplate.Proofs.Grammar
import LiveTemplate.Proofs.Recognition
import LiveTemplate.Proofs.Arguments
import LiveTemplate.Proofs.Parentheses
import LiveTemplate.Proofs.Conditions
import LiveTemplate.Proofs.BareValues
import LiveTemplate.Proofs.Anchors
import LiveTemplate.Proofs.Extraction
import LiveTemplate.Proofs.Realisation
import LiveTemplate.Proofs.Attributes
import LiveTemplate.Proofs.Boundaries
import LiveTemplate.Proofs.Cuts
import LiveTemplate.Proofs.Literals
import LiveTemplate.Proofs.Identity
import LiveTemplate.Proofs.Names
