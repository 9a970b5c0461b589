import TerminusStore.Bytes
import TerminusStore.Wal.Record
import TerminusStore.Wal.Decoder
import TerminusStore.Wal.Chunking
import TerminusStore.Wal.File
import TerminusStore.Wal.Backward
import TerminusStore.Wal.Stream
import TerminusStore.Wal.Format
import TerminusStore.Wal.Recovery
import TerminusStore.Wal.Writer
import TerminusStore.Wal.BackwardFrames
import TerminusStore.Wal.Log
import TerminusStore.Dict.Mapped
import TerminusStore.Dict.SortedStream
import TerminusStore.Dict.Width
import TerminusStore.Dict.Merge
import TerminusStore.Dict.Rounds
