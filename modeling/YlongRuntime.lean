import YlongRuntime.Fs.SyncFile
import YlongRuntime.Fs.FileBuf
import YlongRuntime.Fs.AsyncFile
import YlongRuntime.Fs.World
import YlongRuntime.Fs.Passes
import YlongRuntime.Fs.Ownership
import YlongRuntime.Fs.WriteErr
import YlongRuntime.Fs.Loops
import YlongRuntime.Fs.StaleResults
import YlongRuntime.Executor.Record
import YlongRuntime.Executor.Sleeper
import YlongRuntime.Executor.Counts
import YlongRuntime.Fs.Refinement
import YlongRuntime.Executor.Packing
import YlongRuntime.Executor.SearchCap
import YlongRuntime.Executor.Returns
import YlongRuntime.Fs.BufLimit
import YlongRuntime.Fs.Idx
import YlongRuntime.Io.Linger
import YlongRuntime.Fs.Calm
