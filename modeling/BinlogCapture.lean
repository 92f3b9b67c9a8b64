import BinlogCapture.CaptureChain
import BinlogCapture.Transparency
import BinlogCapture.WriteAhead
import BinlogCapture.PrintedText
import BinlogCapture.MarkerPositions
import BinlogCapture.CaptureList
import BinlogCapture.ReadJournal
import BinlogCapture.BinlogName
import BinlogCapture.RowCounts
import BinlogCapture.BufferBounds
import BinlogCapture.LongQuery
import BinlogCapture.Pass
import BinlogCapture.Checkpoints
import BinlogCapture.Persisted
import BinlogCapture.OrderlyStop
import BinlogCapture.StatementText
import BinlogCapture.Lib.Runs
import BinlogCapture.Threads
import BinlogCapture.Lib.Histories
import BinlogCapture.PipeLines
import BinlogCapture.Places
import BinlogCapture.Coverage
import BinlogCapture.Handshake
import BinlogCapture.AtMostOnce
import BinlogCapture.PassOrder
import BinlogCapture.StartArguments
import BinlogCapture.ServerVersion
import BinlogCapture.RepositoryName
import BinlogCapture.LineWrites
import BinlogCapture.Rotation
import BinlogCapture.Lib.Bytes
import BinlogCapture.Temporal
import BinlogCapture.RowImage
import BinlogCapture.RowBytes
import BinlogCapture.RowPacking
import BinlogCapture.RowText
import BinlogCapture.Lib.Simulation
import BinlogCapture.BytePipe
import BinlogCapture.ByteRefinement
import BinlogCapture.XaiFile
import BinlogCapture.Restarts
import BinlogCapture.SessionState
import BinlogCapture.ProcessBytes
