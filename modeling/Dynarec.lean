import Dynarec.Guest.Context
import Dynarec.Guest.Usage
import Dynarec.Host.Decoding
import Dynarec.Host.Execution
import Dynarec.Recompiler
import Dynarec.Proofs.CodeStream
import Dynarec.Proofs.Translation
import Dynarec.Proofs.EmittedCode
import Dynarec.Proofs.Faults
import Dynarec.Proofs.Locks
import Dynarec.Proofs.Sequences
import Dynarec.Proofs.Residency
import Dynarec.Proofs.CallFrame
import Dynarec.Proofs.WriteBacks
import Dynarec.Proofs.HardwiredZero
import Dynarec.Proofs.ContextWrites
import Dynarec.Proofs.RequestCode
import Dynarec.Proofs.Flushing
import Dynarec.Proofs.AllocationPolicy
import Dynarec.Proofs.MappingEffect
import Dynarec.Proofs.Lookahead
import Dynarec.Proofs.MaskMembers
import Dynarec.Proofs.PageRounding
import Dynarec.Proofs.ByteList
import Dynarec.Proofs.CheckedRuns
import Dynarec.Proofs.CodeSize
import Dynarec.Proofs.ConsistencyCheck
