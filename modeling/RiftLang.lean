import RiftLang.Ast.Encoding
import RiftLang.Ast.Lisp
import RiftLang.Parser
import RiftLang.Proofs.Concatenation
import RiftLang.Proofs.Coverage
import RiftLang.Proofs.Execution.Streams
import RiftLang.Proofs.HandOff
import RiftLang.Proofs.Layout
import RiftLang.Proofs.Lisp
import RiftLang.Proofs.LiveForest
import RiftLang.Proofs.Meaning.Composition
import RiftLang.Proofs.Memoisation
import RiftLang.Proofs.Nesting
import RiftLang.Proofs.Nesting.Parents
import RiftLang.Proofs.Nesting.Visits
import RiftLang.Proofs.Numerals
import RiftLang.Proofs.Packrat
import RiftLang.Proofs.Partition
import RiftLang.Proofs.Rejection.Positions
import RiftLang.Proofs.Rejection.Prefix
import RiftLang.Proofs.Reservations
import RiftLang.Proofs.RoundTrip
import RiftLang.Proofs.Safety
import RiftLang.Proofs.Strings
import RiftLang.Proofs.Termination
import RiftLang.Proofs.WellFormed.Parsed
