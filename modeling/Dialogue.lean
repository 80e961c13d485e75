import Dialogue.Machine.Rehearsal
import Dialogue.Main
import Dialogue.Script.Draft
import Dialogue.Session.Run
import Dialogue.Proofs.Address
import Dialogue.Proofs.Moves
import Dialogue.Proofs.WellFormed
import Dialogue.Proofs.Store
import Dialogue.Proofs.Chronicle
import Dialogue.Proofs.Interpreter
import Dialogue.Proofs.Carry
import Dialogue.Proofs.Record
import Dialogue.Proofs.Simulation
import Dialogue.Proofs.Refinement
import Dialogue.Proofs.History
import Dialogue.Proofs.Stages
import Dialogue.Proofs.Readings
import Dialogue.Proofs.Termination
import Dialogue.Proofs.Calls
import Dialogue.Proofs.Conversation
import Dialogue.Proofs.Course
import Dialogue.Proofs.Ledger
import Dialogue.Proofs.Submissions
import Dialogue.Proofs.Presentations
import Dialogue.Proofs.Conservation
import Dialogue.Proofs.Lockstep
import Dialogue.Proofs.Brackets
import Dialogue.Proofs.Breakdown
import Dialogue.Proofs.Moments
import Dialogue.Proofs.Views
import Dialogue.Proofs.Notices
import Dialogue.Proofs.EmptyBlocks
import Dialogue.Proofs.Drafts
import Dialogue.Proofs.Authoring
import Dialogue.Proofs.Driving
import Dialogue.Proofs.Placement
import Dialogue.Proofs.Onward
import Dialogue.Proofs.IdleBodies
import Dialogue.Proofs.Elapsed
import Dialogue.Proofs.Passages
import Dialogue.Proofs.Clock
import Dialogue.Proofs.Prospects
import Dialogue.Proofs.Greeting
import Dialogue.Proofs.Sitting
import Dialogue.Proofs.Playing
import Dialogue.Proofs.Tours
import Dialogue.Proofs.Names
import Dialogue.Proofs.Chains
import Dialogue.Proofs.Waits
import Dialogue.Proofs.Paths
import Dialogue.Proofs.Printing
import Dialogue.Proofs.Numerals
import Dialogue.Proofs.Rounding
import Dialogue.Proofs.Scaling
import Dialogue.Proofs.Doubles
import Dialogue.Proofs.Environment
