import Untangle.Batch
import Untangle.CommandLine.Run
import Untangle.CommandLine.Store
import Untangle.Encoding.Document
import Untangle.Graph.Named
import Untangle.Listeners
import Untangle.Listing.Parser
import Untangle.Listing.Printer
import Untangle.Logging.Context
import Untangle.Logging.Logger
import Untangle.Main
import Untangle.Proofs.Abstract.Analysis
import Untangle.Proofs.Abstract.Confluence
import Untangle.Proofs.Abstract.Depth
import Untangle.Proofs.Abstract.Ending
import Untangle.Proofs.Abstract.Loss
import Untangle.Proofs.Arith
import Untangle.Proofs.Encoding
import Untangle.Proofs.Graph.Agreed
import Untangle.Proofs.Graph.Build
import Untangle.Proofs.Graph.Edit
import Untangle.Proofs.Graph.Edited
import Untangle.Proofs.Graph.Headed
import Untangle.Proofs.Graph.Relinked
import Untangle.Proofs.Listing.Faults
import Untangle.Proofs.Pipeline.Behaviour
import Untangle.Proofs.Pipeline.Consulted
import Untangle.Proofs.Pipeline.Convergence
import Untangle.Proofs.Pipeline.Faults
import Untangle.Proofs.Pipeline.Loops
import Untangle.Proofs.Pipeline.Rebuilt
import Untangle.Proofs.Pipeline.Restored
import Untangle.Proofs.Pipeline.Rounds
import Untangle.Proofs.Registry
import Untangle.Proofs.Renaming.Outcome
import Untangle.Proofs.Stage.Exhausted
import Untangle.Proofs.Stage.Exposed
import Untangle.Proofs.Stage.Landed
import Untangle.Proofs.Stage.NormalForm
import Untangle.Proofs.Stage.Queue
import Untangle.Proofs.Stage.Recut
import Untangle.Proofs.Stage.Sites
import Untangle.Proofs.Stage.Undisturbed
import Untangle.Proofs.Statistics
import Untangle.Registry.Basic
import Untangle.Settings.Document
import Untangle.Stage.Session
import Untangle.Text.Template
