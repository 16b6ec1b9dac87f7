import TypedHypergraph.Form.Tagged
import TypedHypergraph.Graph.Audit
import TypedHypergraph.Http.Server
import TypedHypergraph.Main
import TypedHypergraph.Proofs.Acceptance
import TypedHypergraph.Proofs.Alike
import TypedHypergraph.Proofs.Answers
import TypedHypergraph.Proofs.Ascending
import TypedHypergraph.Proofs.Asking
import TypedHypergraph.Proofs.Backtracking
import TypedHypergraph.Proofs.Batches
import TypedHypergraph.Proofs.Candidates
import TypedHypergraph.Proofs.Caps
import TypedHypergraph.Proofs.Cascade
import TypedHypergraph.Proofs.Changes
import TypedHypergraph.Proofs.Checking
import TypedHypergraph.Proofs.Coherence
import TypedHypergraph.Proofs.Compiling
import TypedHypergraph.Proofs.Completeness
import TypedHypergraph.Proofs.ContentAddressing
import TypedHypergraph.Proofs.Course
import TypedHypergraph.Proofs.Covering
import TypedHypergraph.Proofs.Ending
import TypedHypergraph.Proofs.Entrances
import TypedHypergraph.Proofs.Enumeration
import TypedHypergraph.Proofs.Estimates
import TypedHypergraph.Proofs.Exchanges
import TypedHypergraph.Proofs.Faults
import TypedHypergraph.Proofs.FirstFault
import TypedHypergraph.Proofs.Forms
import TypedHypergraph.Proofs.Frames
import TypedHypergraph.Proofs.Goals
import TypedHypergraph.Proofs.Greedy
import TypedHypergraph.Proofs.Guards
import TypedHypergraph.Proofs.HandleSupply
import TypedHypergraph.Proofs.Hierarchy
import TypedHypergraph.Proofs.Histories
import TypedHypergraph.Proofs.IndexCoherence
import TypedHypergraph.Proofs.Indices
import TypedHypergraph.Proofs.Insertion
import TypedHypergraph.Proofs.Lineage
import TypedHypergraph.Proofs.LiveTruth
import TypedHypergraph.Proofs.Lookups
import TypedHypergraph.Proofs.Namesakes
import TypedHypergraph.Proofs.Narrowing
import TypedHypergraph.Proofs.Numbering
import TypedHypergraph.Proofs.Observing
import TypedHypergraph.Proofs.Ordering
import TypedHypergraph.Proofs.Parts
import TypedHypergraph.Proofs.Placing
import TypedHypergraph.Proofs.PreOrder
import TypedHypergraph.Proofs.Recognising
import TypedHypergraph.Proofs.Recounting
import TypedHypergraph.Proofs.Refusals
import TypedHypergraph.Proofs.Removal
import TypedHypergraph.Proofs.Rendering
import TypedHypergraph.Proofs.Replaying
import TypedHypergraph.Proofs.Revision
import TypedHypergraph.Proofs.RoundTrips
import TypedHypergraph.Proofs.Run
import TypedHypergraph.Proofs.Scheduling
import TypedHypergraph.Proofs.Scripts
import TypedHypergraph.Proofs.Seeding
import TypedHypergraph.Proofs.Serving
import TypedHypergraph.Proofs.Slots
import TypedHypergraph.Proofs.Solutions
import TypedHypergraph.Proofs.Tables
import TypedHypergraph.Proofs.Trail
import TypedHypergraph.Proofs.Trees
import TypedHypergraph.Proofs.Trials
import TypedHypergraph.Proofs.TruthHistory
import TypedHypergraph.Proofs.Turns
import TypedHypergraph.Proofs.TypeGrowth
import TypedHypergraph.Proofs.TypeReads
import TypedHypergraph.Proofs.Typing
import TypedHypergraph.Proofs.Unchecked
import TypedHypergraph.Proofs.Unifying
import TypedHypergraph.Proofs.Vetting
