import FieldSeal.Main
import FieldSeal.Proofs.Cipher.Frame
import FieldSeal.Proofs.Cli.Inspection
import FieldSeal.Proofs.Faults
import FieldSeal.Proofs.Message.RoundTrip
import FieldSeal.Proofs.Redaction
import FieldSeal.Proofs.Rendering.Rerendering
import FieldSeal.Proofs.Rendering.RoundTrip
import FieldSeal.Proofs.Schema.Naming
import FieldSeal.Proofs.Schema.Tags
import FieldSeal.Proofs.Walk.Attempts
import FieldSeal.Proofs.Walk.Conformance
import FieldSeal.Proofs.Walk.History
import FieldSeal.Proofs.Walk.Refusals
import FieldSeal.Proofs.Wire.Fitting
import FieldSeal.Proofs.Wire.Locality
import FieldSeal.Proofs.Wire.Reencoding
import FieldSeal.Proofs.Wire.Words
