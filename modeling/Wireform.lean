import Wireform.Marshaller
import Wireform.Stream.Choice
import Wireform.Proofs.Numeral
import Wireform.Proofs.Charset
import Wireform.Proofs.Container
import Wireform.Proofs.Bits
import Wireform.Proofs.Assignment
import Wireform.Proofs.Locality
import Wireform.Proofs.Alike
import Wireform.Proofs.Normal
import Wireform.Proofs.Canonical
import Wireform.Proofs.RoundTrip
import Wireform.Proofs.Supply
import Wireform.Proofs.Gathering
import Wireform.Proofs.Truncation
import Wireform.Proofs.Agreement
import Wireform.Proofs.Resolution
import Wireform.Proofs.Raising
import Wireform.Proofs.Settled
import Wireform.Proofs.Pairing
import Wireform.Proofs.Indifference
import Wireform.Proofs.Mirror
import Wireform.Proofs.Ledger
import Wireform.Proofs.Session
import Wireform.Proofs.Delivery
import Wireform.Proofs.Absence
import Wireform.Proofs.Acceptance
import Wireform.Proofs.Limit
import Wireform.Proofs.Extent
import Wireform.Proofs.Redeclared
import Wireform.Proofs.Entries
import Wireform.Proofs.Reordering
import Wireform.Proofs.Interchange
import Wireform.Proofs.Independence
import Wireform.Proofs.Framing
import Wireform.Proofs.Positional
import Wireform.Proofs.Padding
import Wireform.Proofs.Separator
import Wireform.Proofs.Requests
import Wireform.Proofs.Lockstep
import Wireform.Proofs.Polling
import Wireform.Proofs.Accounting
import Wireform.Proofs.Decimal
import Wireform.Proofs.Registration
import Wireform.Proofs.Path
import Wireform.Proofs.Dump
import Wireform.Proofs.Arithmetic
