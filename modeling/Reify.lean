import Reify.Disk
import Reify.Proofs.Annotate.Completion
import Reify.Proofs.Check.Closed
import Reify.Proofs.Check.Receiver
import Reify.Proofs.Reflection.Class
import Reify.Proofs.Reflection.Numeral
import Reify.Proofs.Reflection.Spelling
import Reify.Proofs.Run.Course
import Reify.Proofs.Run.Reports
import Reify.Proofs.Syntax.Numbering
import Reify.Proofs.Walk.Bindings
import Reify.Proofs.Walk.Numbering
import Reify.Proofs.Walk.References
import Reify.Proofs.Walk.Scopes
import Reify.Proofs.Walk.Wrapping
import Reify.Syntax.Read
