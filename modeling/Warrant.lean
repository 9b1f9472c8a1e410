import Warrant.Engine.Configuration
import Warrant.Proofs.Bounds
import Warrant.Proofs.Bypass
import Warrant.Proofs.Desks
import Warrant.Proofs.ErrorPaths
import Warrant.Proofs.Expiry
import Warrant.Proofs.FailedLoads
import Warrant.Proofs.Grammar
import Warrant.Proofs.Grants
import Warrant.Proofs.Lifecycle
import Warrant.Proofs.Overtaking
import Warrant.Proofs.Owners
import Warrant.Proofs.Reserved
import Warrant.Proofs.Retention
import Warrant.Proofs.Serial
import Warrant.Proofs.Subtrees
import Warrant.Proofs.Vacancies
import Warrant.Rehearsal.Stage
import Warrant.Rehearsal.StandIns
import Warrant.Proofs.Isolation
import Warrant.Proofs.Exactness
import Warrant.Proofs.ReadOnly
import Warrant.Proofs.Tending
import Warrant.Proofs.Attaching
import Warrant.Proofs.Deleting
import Warrant.Proofs.Listing
import Warrant.Proofs.Combining
import Warrant.Proofs.Withdrawing
import Warrant.Proofs.Spelling
import Warrant.Proofs.Displays
import Warrant.Proofs.Closings
import Warrant.Proofs.Invalidations
import Warrant.Proofs.Startup
import Warrant.Proofs.Superusers
