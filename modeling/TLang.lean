import TLang.Output
import TLang.Proofs.Overriding
import TLang.Proofs.Registry.Reachability
import TLang.Proofs.Registry.Updates
import TLang.Proofs.Invocations
import TLang.Proofs.Sessions
import TLang.Proofs.Control.Preservation
import TLang.Proofs.Closure
import TLang.Proofs.Destruction
import TLang.Proofs.Storage
import TLang.Proofs.CycleRepair
import TLang.Proofs.Rejection
import TLang.Proofs.TableShape
import TLang.Proofs.Retyping.Programs
import TLang.Proofs.Provision
import TLang.Proofs.Blame
import TLang.Proofs.Lexical
import TLang.Proofs.Repetition
import TLang.Proofs.Convention
import TLang.Proofs.Arithmetic.Traps
import TLang.Proofs.Abandonment
import TLang.Proofs.Separation
