import ReverseLisp.Main
import ReverseLisp.Proofs.Atoms
import ReverseLisp.Proofs.Bindings
import ReverseLisp.Proofs.Direct
import ReverseLisp.Proofs.Equality
import ReverseLisp.Proofs.Fibonacci
import ReverseLisp.Proofs.Growth
import ReverseLisp.Proofs.Hygiene
import ReverseLisp.Proofs.Interleaving
import ReverseLisp.Proofs.Joining
import ReverseLisp.Proofs.Library
import ReverseLisp.Proofs.Limits
import ReverseLisp.Proofs.LineByLine
import ReverseLisp.Proofs.Link
import ReverseLisp.Proofs.LinkedStores
import ReverseLisp.Proofs.Matching
import ReverseLisp.Proofs.Mirror
import ReverseLisp.Proofs.Moves
import ReverseLisp.Proofs.Noninterference
import ReverseLisp.Proofs.Numerals
import ReverseLisp.Proofs.Offences
import ReverseLisp.Proofs.Parallel
import ReverseLisp.Proofs.Pieces
import ReverseLisp.Proofs.Readable
import ReverseLisp.Proofs.Regular
import ReverseLisp.Proofs.Renaming
import ReverseLisp.Proofs.RoundTrip
import ReverseLisp.Proofs.Rules
import ReverseLisp.Proofs.Scanning
import ReverseLisp.Proofs.Sealed
import ReverseLisp.Proofs.SoundStores
import ReverseLisp.Proofs.Spellings
import ReverseLisp.Proofs.StaticErrors
import ReverseLisp.Proofs.Survival
import ReverseLisp.Proofs.Triangular
import ReverseLisp.Reader.Cursor
import ReverseLisp.Store.Lemmas
import ReverseLisp.Store.Printer
