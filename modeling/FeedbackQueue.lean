import FeedbackQueue.Chain
import FeedbackQueue.Failure
import FeedbackQueue.Listing.Console
import FeedbackQueue.Listing.Summary
import FeedbackQueue.Listing.Text
import FeedbackQueue.Listing.Written
import FeedbackQueue.Machine.Call
import FeedbackQueue.Machine.Request
import FeedbackQueue.Machine.Run
import FeedbackQueue.Machine.Suspension
import FeedbackQueue.Naming
import FeedbackQueue.Params
import FeedbackQueue.Process
import FeedbackQueue.Proofs.Accounts
import FeedbackQueue.Proofs.Acts
import FeedbackQueue.Proofs.Agreement
import FeedbackQueue.Proofs.Alone
import FeedbackQueue.Proofs.Arenas
import FeedbackQueue.Proofs.Audit
import FeedbackQueue.Proofs.Births
import FeedbackQueue.Proofs.Blanks
import FeedbackQueue.Proofs.Blocking
import FeedbackQueue.Proofs.Cadences
import FeedbackQueue.Proofs.Chain
import FeedbackQueue.Proofs.Charges
import FeedbackQueue.Proofs.Clipping
import FeedbackQueue.Proofs.Collections
import FeedbackQueue.Proofs.Commutation
import FeedbackQueue.Proofs.Courses
import FeedbackQueue.Proofs.Custody
import FeedbackQueue.Proofs.Deeds
import FeedbackQueue.Proofs.Defects
import FeedbackQueue.Proofs.Discipline
import FeedbackQueue.Proofs.Dispatch
import FeedbackQueue.Proofs.Endings
import FeedbackQueue.Proofs.Errands
import FeedbackQueue.Proofs.Evidence
import FeedbackQueue.Proofs.Exits
import FeedbackQueue.Proofs.Family
import FeedbackQueue.Proofs.Forks
import FeedbackQueue.Proofs.Handoffs
import FeedbackQueue.Proofs.Histories
import FeedbackQueue.Proofs.Holdings
import FeedbackQueue.Proofs.Integrity
import FeedbackQueue.Proofs.Intervals
import FeedbackQueue.Proofs.Kills
import FeedbackQueue.Proofs.Ledger
import FeedbackQueue.Proofs.Levels
import FeedbackQueue.Proofs.Lifecycle
import FeedbackQueue.Proofs.Line
import FeedbackQueue.Proofs.Lineage
import FeedbackQueue.Proofs.Listings
import FeedbackQueue.Proofs.Lives
import FeedbackQueue.Proofs.Lockstep
import FeedbackQueue.Proofs.Lookup
import FeedbackQueue.Proofs.Moves
import FeedbackQueue.Proofs.Names
import FeedbackQueue.Proofs.Naps
import FeedbackQueue.Proofs.Pids
import FeedbackQueue.Proofs.Printing
import FeedbackQueue.Proofs.Rations
import FeedbackQueue.Proofs.Readings
import FeedbackQueue.Proofs.Reaping
import FeedbackQueue.Proofs.Remnants
import FeedbackQueue.Proofs.Reports
import FeedbackQueue.Proofs.Runs
import FeedbackQueue.Proofs.Safety
import FeedbackQueue.Proofs.Scans
import FeedbackQueue.Proofs.Scripts
import FeedbackQueue.Proofs.Sections
import FeedbackQueue.Proofs.Standing
import FeedbackQueue.Proofs.Starvation
import FeedbackQueue.Proofs.Stints
import FeedbackQueue.Proofs.Strands
import FeedbackQueue.Proofs.Supplies
import FeedbackQueue.Proofs.Sweeps
import FeedbackQueue.Proofs.Transitions
import FeedbackQueue.Proofs.Twins
import FeedbackQueue.Proofs.View
import FeedbackQueue.Proofs.Waiting
import FeedbackQueue.Proofs.Wakings
import FeedbackQueue.Proofs.Yields
import FeedbackQueue.Table.Audit
import FeedbackQueue.Table.Basic
import FeedbackQueue.Table.Blocking
import FeedbackQueue.Table.Dispatch
import FeedbackQueue.Table.Family
import FeedbackQueue.Table.Identity
import FeedbackQueue.Table.Levels
import FeedbackQueue.Word
