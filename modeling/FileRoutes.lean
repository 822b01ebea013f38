import FileRoutes.Main
import FileRoutes.Proofs.Additions
import FileRoutes.Proofs.Addresses
import FileRoutes.Proofs.Assignment
import FileRoutes.Proofs.Barren
import FileRoutes.Proofs.Canonical
import FileRoutes.Proofs.Clashes
import FileRoutes.Proofs.Collisions
import FileRoutes.Proofs.Conservation
import FileRoutes.Proofs.Failure
import FileRoutes.Proofs.Histories
import FileRoutes.Proofs.JsonText
import FileRoutes.Proofs.ListingOrder
import FileRoutes.Proofs.Mirrored
import FileRoutes.Proofs.OptionPaths
import FileRoutes.Proofs.OwnOutput
import FileRoutes.Proofs.Precedence
import FileRoutes.Proofs.Pruning
import FileRoutes.Proofs.References
import FileRoutes.Proofs.Renaming
import FileRoutes.Proofs.Repetition
import FileRoutes.Proofs.RoundTrip
import FileRoutes.Proofs.Scopes
import FileRoutes.Proofs.Segments
import FileRoutes.Proofs.SharedFiles
import FileRoutes.Proofs.SideBySide
import FileRoutes.Proofs.Spellings
import FileRoutes.Proofs.Visits
import FileRoutes.Proofs.Walks
import FileRoutes.Storage.Altered
