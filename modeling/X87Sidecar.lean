import X87Sidecar.Lib.Keep
import X87Sidecar.Lib.Memory
import X87Sidecar.Lib.Emit
import X87Sidecar.Lib.Cycle
import X87Sidecar.IR.Context
import X87Sidecar.IR.Build
import X87Sidecar.IR.Optimize
import X87Sidecar.IR.Denote
import X87Sidecar.Machine.Reference
import X87Sidecar.Proofs.Build.Sim
import X87Sidecar.Proofs.Build.Wf
import X87Sidecar.Proofs.Build.Steps
import X87Sidecar.Proofs.Build.Run
import X87Sidecar.Proofs.Optimize.Chain
import X87Sidecar.Proofs.Optimize.Status
import X87Sidecar.Proofs.Optimize.StatusWord
import X87Sidecar.Proofs.Optimize.Frame
import X87Sidecar.Proofs.Optimize.Values
import X87Sidecar.Proofs.Optimize.Tags
import X87Sidecar.Proofs.Optimize.Streams
import X87Sidecar.Proofs.Optimize.Reduce
import X87Sidecar.Proofs.Optimize.MemoryOrder
import X87Sidecar.Translate.Cache
import X87Sidecar.Translate.Code
import X87Sidecar.Translate.Emit
import X87Sidecar.Translate.Single
import X87Sidecar.Translate.Run
import X87Sidecar.Proofs.Translate.Deferred
import X87Sidecar.Proofs.Translate.DeferredRun
import X87Sidecar.Translate.Fusion
import X87Sidecar.Translate.CompileRun
import X87Sidecar.Translate.Turn
import X87Sidecar.Proofs.Translate.CompileRun
import X87Sidecar.Proofs.Translate.Shape
import X87Sidecar.Proofs.Translate.Counter
import X87Sidecar.Translate.Precise
import X87Sidecar.Proofs.Translate.Precise
import X87Sidecar.Lib.Visits
import X87Sidecar.Lib.Remote
import X87Sidecar.GuestPc.Resolve
import X87Sidecar.Sidecar.IrCache
import X87Sidecar.Proofs.Sidecar.IrCache
import X87Sidecar.Sidecar.Marshal
import X87Sidecar.Proofs.Sidecar.Marshal
import X87Sidecar.Proofs.GuestPc.Cache
import X87Sidecar.Lib.Arm
import X87Sidecar.Lib.Ones
import X87Sidecar.Translate.Assembler
import X87Sidecar.Proofs.Translate.Immediate
import X87Sidecar.Proofs.Translate.Bitmask
import X87Sidecar.Proofs.Translate.Address
import X87Sidecar.Proofs.Translate.Permute
import X87Sidecar.Proofs.Translate.Segment
import X87Sidecar.Lib.Parse
import X87Sidecar.GuestPc.Encode
import X87Sidecar.Proofs.GuestPc.Stream
import X87Sidecar.Proofs.GuestPc.Decode
import X87Sidecar.Proofs.GuestPc.Encode
import X87Sidecar.Lib.Format
import X87Sidecar.Lib.Round
import X87Sidecar.Lib.Forward
import X87Sidecar.Lib.Double
import X87Sidecar.Lib.Cpu
import X87Sidecar.Translate.Lines
import X87Sidecar.Translate.Fist
import X87Sidecar.Proofs.Translate.Fist
import X87Sidecar.Translate.RcCache
import X87Sidecar.Proofs.Translate.RcCache
import X87Sidecar.Translate.F80
import X87Sidecar.Lib.Word
import X87Sidecar.Machine.Extended
import X87Sidecar.Proofs.Translate.Lines
import X87Sidecar.Proofs.Translate.NarrowBits
import X87Sidecar.Proofs.Translate.NarrowConvert
import X87Sidecar.Proofs.Translate.Narrow
import X87Sidecar.Proofs.Translate.Widen
import X87Sidecar.Proofs.Opcode.Compatibility
import X87Sidecar.Proofs.IR.Hash
import X87Sidecar.Proofs.Translate.Fscale
import X87Sidecar.Proofs.Translate.NativeStore
import X87Sidecar.Proofs.Translate.NativeLoad
import X87Sidecar.Lib.Repack
import X87Sidecar.Translate.Boundary
import X87Sidecar.Proofs.Translate.Boundary
import X87Sidecar.Lib.Assign
import X87Sidecar.Translate.Helpers
import X87Sidecar.Translate.Lowered
import X87Sidecar.Proofs.Translate.Helpers
import X87Sidecar.Proofs.Translate.HelperSpecs
import X87Sidecar.Proofs.Translate.Lowered
import X87Sidecar.Proofs.Translate.LoweredRun
import X87Sidecar.Proofs.Translate.SaveRestore
