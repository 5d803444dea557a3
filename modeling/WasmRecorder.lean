import WasmRecorder.Boundarylog.ReadBoundaries
import WasmRecorder.Ctfs.Reads
import WasmRecorder.Wasmsnapshot.Coverage
import WasmRecorder.Wasmsnapshot.StreamLengths
import WasmRecorder.Wasmsnapshot.Promotion
import WasmRecorder.Wasmsnapshot.TrustedPages
import WasmRecorder.Wasmsnapshot.RestoreCapture
import WasmRecorder.Wasi.Confinement
import WasmRecorder.Ctfs.Names
import WasmRecorder.Boundarylog.RecordedIntegers
import WasmRecorder.Boundarylog.MarkerWitness
import WasmRecorder.Boundarylog.ExportNames
import WasmRecorder.Boundarylog.LegacyReconstruction
import WasmRecorder.Boundarylog.StashedDivergence
import WasmRecorder.Boundarylog.HostMutations
import WasmRecorder.Cmd.Deriving
import WasmRecorder.Wasmdebug.Variables
import WasmRecorder.Wasmdebug.Lines
import WasmRecorder.Boundarylog.FollowReader
import WasmRecorder.Boundarylog.Leb128RoundTrip
import WasmRecorder.Wasm.MemoryGrow
import WasmRecorder.Interpreter.BulkFill
import WasmRecorder.Interpreter.BigIntegers
import WasmRecorder.Wasi.OpenFiles
import WasmRecorder.Wasm.Waiters
import WasmRecorder.Wasi.GuestCounts
import WasmRecorder.Wazevo.CompilationCache
import WasmRecorder.Boundarylog.BindingNames
import WasmRecorder.Xxh3.Hash128
import WasmRecorder.Regalloc.MergeEdges
