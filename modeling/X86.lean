import X86.Machine
import X86.Options.Arguments
import X86.Transaction.Request
import X86.Proofs.Pattern
import X86.Proofs.Key
import X86.Proofs.Memory
import X86.Proofs.Codec
import X86.Proofs.Transaction
import X86.Proofs.Run
import X86.Proofs.Fault
import X86.Proofs.Carry
import X86.Proofs.Sum
import X86.Proofs.Arithmetic
import X86.Proofs.Register
import X86.Proofs.Division
import X86.Proofs.Forwarding
import X86.Proofs.Selection
import X86.Proofs.Place
import X86.Proofs.Scope
import X86.Proofs.Locality
import X86.Proofs.Noninterference
import X86.Proofs.Layout
import X86.Proofs.Readiness
import X86.Proofs.Forms
import X86.Proofs.Independence
import X86.Proofs.Order
import X86.Proofs.Frame
import X86.Proofs.Success
import X86.Proofs.CarryPolicy
import X86.Proofs.Limbs
import X86.Proofs.CarryChain
import X86.Proofs.Checked
import X86.Proofs.Index
import X86.Proofs.Traps
import X86.Proofs.FetchAdd
import X86.Proofs.Product
import X86.Proofs.Shift
import X86.Proofs.Steps
import X86.Proofs.Inverse
import X86.Proofs.Batch
import X86.Proofs.Packed
import X86.Proofs.Comparison
import X86.Proofs.Agreement
import X86.Proofs.AccessMode
import X86.Proofs.LostProduct
