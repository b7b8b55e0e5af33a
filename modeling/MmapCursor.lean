import MmapCursor.Lib.Calls
import MmapCursor.Lib.Decimal
import MmapCursor.Lib.Enclosed
import MmapCursor.Lib.Escapes
import MmapCursor.Lib.Files
import MmapCursor.Lib.Loops
import MmapCursor.Lib.Lossy
import MmapCursor.Lib.Machines
import MmapCursor.Lib.Records
import MmapCursor.Lib.Search
import MmapCursor.Lib.Segments
import MmapCursor.Lib.Separated
import MmapCursor.Lib.Words
import MmapCursor.Position
import MmapCursor.Slice
import MmapCursor.Cursor
import MmapCursor.Scan
import MmapCursor.Reader
import MmapCursor.CursorRuns
import MmapCursor.Scanning
import MmapCursor.Lookahead
import MmapCursor.Fields
import MmapCursor.LineIndex
import MmapCursor.Grammar
import MmapCursor.Document
import MmapCursor.Lines
import MmapCursor.Terminators
import MmapCursor.Lookup
import MmapCursor.LineForOffset
import MmapCursor.LineColumn
import MmapCursor.LineScan
import MmapCursor.CursorLines
import MmapCursor.Observations
import MmapCursor.ByteFile
import MmapCursor.Snapshots
import MmapCursor.Reopening
import MmapCursor.TempDirs
import MmapCursor.Arithmetic
import MmapCursor.Messages
import MmapCursor.Debug
import MmapCursor.Records
import MmapCursor.Comments
import MmapCursor.Diagnostic
import MmapCursor.Printed
