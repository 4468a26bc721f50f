import Rs65x.Results.Binary
import Rs65x.Results.Board
import Rs65x.Results.Boot
import Rs65x.Results.Borrows
import Rs65x.Results.Boundaries
import Rs65x.Results.Bounds
import Rs65x.Results.Branches
import Rs65x.Results.Builds
import Rs65x.Results.Combined
import Rs65x.Results.Cycles
import Rs65x.Results.Data
import Rs65x.Results.Decimal
import Rs65x.Results.DefaultCalls
import Rs65x.Results.Documented
import Rs65x.Results.Emulation
import Rs65x.Results.FastMap
import Rs65x.Results.Fifo
import Rs65x.Results.Flags
import Rs65x.Results.Func
import Rs65x.Results.Interrupts
import Rs65x.Results.Isolation
import Rs65x.Results.Jam
import Rs65x.Results.Jumps
import Rs65x.Results.Latches
import Rs65x.Results.Latency
import Rs65x.Results.Long
import Rs65x.Results.Nes
import Rs65x.Results.Nops
import Rs65x.Results.Pins
import Rs65x.Results.Queue
import Rs65x.Results.Replay
import Rs65x.Results.Reset
import Rs65x.Results.Returns
import Rs65x.Results.SingleStep
import Rs65x.Results.Slices
import Rs65x.Results.Stack
import Rs65x.Results.Status
import Rs65x.Results.Timing
import Rs65x.Results.Transparent
import Rs65x.Results.Unstable
import Rs65x.Results.Writes
