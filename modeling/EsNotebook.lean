import EsNotebook.Lib.Lts
import EsNotebook.Todo.TextFile
import EsNotebook.Qcpall.Relocate
import EsNotebook.FileTransfer.Handshake
import EsNotebook.FileTransfer.Client
import EsNotebook.FileTransfer.Network
import EsNotebook.FileTransfer.Integrity
import EsNotebook.FileTransfer.Completion
import EsNotebook.FileTransfer.Failure
import EsNotebook.FileTransfer.Memory
import EsNotebook.FileTransfer.Bounds
import EsNotebook.Lib.PyDict
import EsNotebook.Lib.Register
import EsNotebook.Todo.Addressing
import EsNotebook.Todo.Refinement
import EsNotebook.Echo.EchoServer
import EsNotebook.FileTransfer.Counter
import EsNotebook.FileTransfer.Handles
import EsNotebook.FileTransfer.SizeLimit
import EsNotebook.FileTransfer.Writes
import EsNotebook.Lib.PyCalendar
import EsNotebook.Todo.Adding
import EsNotebook.Todo.DueDates
import EsNotebook.Todo.Fallback
import EsNotebook.Todo.Paging
import EsNotebook.Dirc.Commands
import EsNotebook.Dirc.ProjectLink
import EsNotebook.Echo.Ownership
import EsNotebook.Echo.TestTty
import EsNotebook.Lib.FullDate
import EsNotebook.Qcpall.GitStatus
import EsNotebook.Todo.DayWindow
import EsNotebook.Todo.Numbering
import EsNotebook.Todo.ShortLines
import EsNotebook.Lib.Chain
import EsNotebook.Lib.Ring
import EsNotebook.Mirror.Callback
import EsNotebook.Mirror.FlowControl
import EsNotebook.Status.Callback
import EsNotebook.Status.Fragments
import EsNotebook.Status.Snapshot
import EsNotebook.Lib.LinkSort
import EsNotebook.Uthash.Book
import EsNotebook.Uthash.UserRuns
import EsNotebook.Http.Callback
import EsNotebook.Http.Uploads
import EsNotebook.Lib.Packed
import EsNotebook.Poll.Rounds
import EsNotebook.Http.Picture
import EsNotebook.Http.Completion
