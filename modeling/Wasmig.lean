import Wasmig.Memory.Checkpoint
import Wasmig.Memory.Failure
import Wasmig.Memory.Acceptance
import Wasmig.Memory.Extents
import Wasmig.Memory.Positions
import Wasmig.Memory.RestoreMemory
import Wasmig.Memory.Canonical
import Wasmig.Memory.Recheckpoint
import Wasmig.Memory.Stopped
import Wasmig.Memory.Truncated
import Wasmig.Memory.ReadErrors
import Wasmig.State.RoundTrip
import Wasmig.State.Untrusted
import Wasmig.State.Printed
import Wasmig.State.Array64
import Wasmig.Table.AddressMap
import Wasmig.Table.ReverseMap
import Wasmig.Table.FailingQueue
import Wasmig.Table.CodePos
import Wasmig.Table.AddressHistory
import Wasmig.Stack.Accounting
import Wasmig.Stack.Registration
import Wasmig.Stack.Metadata
import Wasmig.Stack.Iteration
import Wasmig.Stack.UniformPop
import Wasmig.Stack.Lookup
import Wasmig.Stack.ShortMetadata
import Wasmig.Checkpoint.Directories
import Wasmig.Checkpoint.TypedFrames
import Wasmig.Checkpoint.UntypedGlobals
import Wasmig.Checkpoint.DirtyReads
import Wasmig.Checkpoint.Hosts
import Wasmig.Checkpoint.Loading
