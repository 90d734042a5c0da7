import CaseFolding.Code.Reader
import CaseFolding.Code.Run
import CaseFolding.Main
import CaseFolding.Proofs.Code.LookupTable
import CaseFolding.Proofs.Command.Trailer
import CaseFolding.Proofs.Interval.Coarsening
import CaseFolding.Proofs.Interval.Normal
import CaseFolding.Proofs.Mapping.Outside
import CaseFolding.Proofs.Output
import CaseFolding.Proofs.Switches
import CaseFolding.Proofs.Table.Joining
import CaseFolding.Proofs.Table.Text
import CaseFolding.Proofs.Totals
import CaseFolding.Proofs.Tree.Arrival
import CaseFolding.Proofs.Tree.Slots
import CaseFolding.Table.Cursor
import CaseFolding.Text.Hex
