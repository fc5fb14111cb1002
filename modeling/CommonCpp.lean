import CommonCpp.Lib.Bytes
import CommonCpp.Lib.Run
import CommonCpp.Fs.Tree
import CommonCpp.Fs.Resolve
import CommonCpp.Fs.FindFiles
import CommonCpp.Monitor.Event
import CommonCpp.Monitor.System
import CommonCpp.Monitor.Invariant
import CommonCpp.Lib.Cover
import CommonCpp.Monitor.Creation
import CommonCpp.Monitor.Coverage
import CommonCpp.Lib.Percent
import CommonCpp.Text.Format
import CommonCpp.Text.UrlEncode
import CommonCpp.Http.Value
import CommonCpp.Lib.Pairs
import CommonCpp.Http.UrlValues
import CommonCpp.Http.Multipart
import CommonCpp.Lib.Regex
import CommonCpp.Text.Digest
import CommonCpp.Lib.Shell
import CommonCpp.Lib.ShellCost
import CommonCpp.Text.ShellCommand
import CommonCpp.Lib.Field
import CommonCpp.Monitor.ReadLoop
import CommonCpp.Monitor.Attribution
import CommonCpp.Monitor.Refinement
import CommonCpp.Files.RelativePath
import CommonCpp.Files.Enumeration
import CommonCpp.Files.Relativise
import CommonCpp.Files.Sha256
import CommonCpp.Monitor.WatchCall
import CommonCpp.Http.Client
import CommonCpp.Monitor.Windows
import CommonCpp.Monitor.Lifecycle
import CommonCpp.Monitor.Isolation
import CommonCpp.Fs.Access
import CommonCpp.Monitor.Survival
import CommonCpp.Lib.Exit
import CommonCpp.Lib.Buffer
import CommonCpp.Text.ExecCmd
import CommonCpp.Files.Commands
import CommonCpp.Files.FileMd5
import CommonCpp.Files.Namei
import CommonCpp.Fs.Place
import CommonCpp.Fs.Mv
import CommonCpp.Files.MoveByCmd
import CommonCpp.Files.MakeDir
import CommonCpp.Fs.Handles
import CommonCpp.Lib.Strip
import CommonCpp.Text.TrimRight
import CommonCpp.Number.RandomNum
import CommonCpp.Lib.Decimal
import CommonCpp.Number.ToSizeT
import CommonCpp.Http.ContentLength
import CommonCpp.Monitor.WdMap
import CommonCpp.Lib.LastRun
import CommonCpp.Text.FileName
import CommonCpp.Text.StringFormat
import CommonCpp.Lib.Mirror
import CommonCpp.Monitor.Mirror
import CommonCpp.Monitor.CatchUp
import CommonCpp.Lib.Heap
import CommonCpp.Http.Ownership
import CommonCpp.Http.Temporaries
import CommonCpp.Lib.Guard
import CommonCpp.Text.Console
import CommonCpp.Lib.Form
import CommonCpp.Http.Parameters
import CommonCpp.Fs.Removal
import CommonCpp.Files.DeleteFile
import CommonCpp.Lib.Sink
import CommonCpp.Files.RandomFile
import CommonCpp.Fs.Return
import CommonCpp.Files.MoveBack
import CommonCpp.Http.Session
import CommonCpp.Lib.Fixed
import CommonCpp.Text.DateTime
import CommonCpp.Files.CommandHeap
import CommonCpp.Lib.Rejection
import CommonCpp.Number.Fairness
import CommonCpp.Monitor.WinMonitor
import CommonCpp.Monitor.MirrorBytes
import CommonCpp.Fs.Crawl
import CommonCpp.Monitor.Rescan
import CommonCpp.Monitor.Agreement
