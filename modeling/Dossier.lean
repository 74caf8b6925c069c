import Dossier.Document.Report
import Dossier.Model.Find
import Dossier.Proofs.Arena
import Dossier.Proofs.Assignment
import Dossier.Proofs.Build
import Dossier.Proofs.Dates
import Dossier.Proofs.ExactReplay
import Dossier.Proofs.Identity
import Dossier.Proofs.Immutable
import Dossier.Proofs.Parity
import Dossier.Proofs.Push
import Dossier.Proofs.Reassign
import Dossier.Proofs.Reindexing
import Dossier.Proofs.Reporting
import Dossier.Proofs.Retry
import Dossier.Proofs.Rounding
import Dossier.Proofs.Sated
import Dossier.Proofs.Unloaded
import Dossier.Proofs.Wire
import Dossier.Schema.Describe
