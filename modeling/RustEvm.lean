import RustEvm.Asm.Labels
import RustEvm.Ir.Repaired
import RustEvm.Lib.HeadTail
import RustEvm.Abi.RoundTrip
import RustEvm.Macros.Dispatch
import RustEvm.Storage.Independence
import RustEvm.Storage.Lock
import RustEvm.Lib.HashChain
import RustEvm.Lib.Variables
import RustEvm.Evm.Machine
import RustEvm.Ir.Finished
import RustEvm.Ir.Sticky
import RustEvm.Asm.Verdict
import RustEvm.Asm.Jumpdests
import RustEvm.Ir.EffectSound
import RustEvm.Testkit.Outcome
import RustEvm.Testkit.Deployer
import RustEvm.Macros.Agreement
import RustEvm.Abi.Scalars
import RustEvm.Asm.Reassembly
import RustEvm.Asm.Listing
import RustEvm.Testkit.FrameIds
import RustEvm.Ir.Module
import RustEvm.Macros.Roles
import RustEvm.Macros.CamelCase
import RustEvm.Ir.Results
import RustEvm.Asm.Execution
import RustEvm.Evm.Arity
import RustEvm.Evm.Kinds
import RustEvm.Ir.Dead
import RustEvm.Ir.Typing
import RustEvm.Storage.Transaction
import RustEvm.Client.Views
import RustEvm.Ir.Reorder
