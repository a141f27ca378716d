import Rucbase.Lib.Except
import Rucbase.Lib.Bytes
import Rucbase.Common.Errors
import Rucbase.Common.Value
import Rucbase.Common.WireResult
import Rucbase.Catalog.Meta
import Rucbase.Parser.Ast
import Rucbase.Analyze.Analyzer
import Rucbase.Execution.Record
import Rucbase.Index.Key
import Rucbase.Execution.Insert
import Rucbase.Catalog.Json
import Rucbase.Catalog.JsonSpec
import Rucbase.Lib.Effect
import Rucbase.System.CreateTable
import Rucbase.System.Atomic
import Rucbase.Lib.Relation
import Rucbase.Optimizer.Meaning
import Rucbase.Optimizer.JoinTree
import Rucbase.Optimizer.Select
import Rucbase.Lib.Socket
import Rucbase.Net.Frame
import Rucbase.Net.Codec
import Rucbase.Net.CodecSpec
import Rucbase.Net.Text
import Rucbase.Net.ExecStream
import Rucbase.Net.Grammar
import Rucbase.Net.Accept
import Rucbase.Server.Send
import Rucbase.Server.SendSpec
import Rucbase.Server.Received
import Rucbase.Server.Session
import Rucbase.Server.Paired
import Rucbase.Optimizer.Query
import Rucbase.Analyze.Columns
import Rucbase.Index.Names
import Rucbase.Index.LeafScan
import Rucbase.Index.Create
import Rucbase.Lib.Regex
import Rucbase.Parser.Lexer
import Rucbase.Parser.Words
import Rucbase.Client.Splitter
import Rucbase.Client.Agreement
import Rucbase.Parser.Parse
import Rucbase.Parser.Grammar
import Rucbase.Parser.Scan
import Rucbase.Lib.Lr
import Rucbase.Lib.LrComplete
import Rucbase.Parser.Yacc
import Rucbase.Parser.YaccComplete
import Rucbase.Parser.Render
import Rucbase.Net.RoundTrip
import Rucbase.Analyze.Where
import Rucbase.Optimizer.Merge
import Rucbase.Server.Finished
import Rucbase.Catalog.Documented
import Rucbase.Index.Pages
import Rucbase.Index.Separators
import Rucbase.Index.StoredHeader
import Rucbase.Index.Unlink
import Rucbase.Lib.Utf8
import Rucbase.Net.Table
import Rucbase.Lib.Blocks
import Rucbase.Recovery.LogRecord
import Rucbase.Parser.Diagnostics
import Rucbase.Lib.Places
import Rucbase.Storage.PageGuard
import Rucbase.Server.Shutdown
import Rucbase.Parser.YaccSound
import Rucbase.Parser.Outcome
import Rucbase.Client.Lines
import Rucbase.Client.Tails
import Rucbase.Index.Layout
import Rucbase.Lib.Successor
import Rucbase.Record.Bitmap
import Rucbase.Record.PageHandle
import Rucbase.Index.Checker
import Rucbase.Index.CheckerChecks
import Rucbase.Index.CheckerSound
import Rucbase.Lib.Handles
import Rucbase.Net.Client
import Rucbase.Net.Handshake
import Rucbase.Server.Connection
import Rucbase.Record.RmRecord
import Rucbase.Record.RmRecordRefines
import Rucbase.System.Databases
import Rucbase.Recovery.LogFile
import Rucbase.Lib.Entries
import Rucbase.Parser.Accepted
import Rucbase.Execution.Rows
import Rucbase.System.Frame
import Rucbase.Server.Engine
import Rucbase.Server.Relational
import Rucbase.Server.Refines
