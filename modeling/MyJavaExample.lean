import MyJavaExample.Lib.Exec
import MyJavaExample.Lib.Int32
import MyJavaExample.Lib.BigEndian
import MyJavaExample.Lib.LinkedList
import MyJavaExample.Lib.Run
import MyJavaExample.Lib.RefCount
import MyJavaExample.Lib.Ring
import MyJavaExample.Lib.Sweep
import MyJavaExample.Lib.Bitmap
import MyJavaExample.Lib.RingQueue
import MyJavaExample.Lib.EpsilonPath
import MyJavaExample.Lib.MarkedSearch
import MyJavaExample.Lib.Outcome
import MyJavaExample.Lib.Reading
import MyJavaExample.Lib.DoublyLinked
import MyJavaExample.Java.InputStream
import MyJavaExample.Java.ReadCalls
import MyJavaExample.Java.Utf16
import MyJavaExample.Lexer.StateMachine
import MyJavaExample.Lexer.LexicalAnalyzer
import MyJavaExample.Lexer.Scan
import MyJavaExample.Lexer.DoubleBuffer
import MyJavaExample.Lexer.Refinement
import MyJavaExample.Lexer.Languages
import MyJavaExample.Lexer.TokenClasses
import MyJavaExample.Lexer.BufferSafety
import MyJavaExample.Automate.NFA
import MyJavaExample.Automate.Moves
import MyJavaExample.Automate.Build
import MyJavaExample.Automate.Transform
import MyJavaExample.Automate.Re2Nfa
import MyJavaExample.Automate.Nfa2Dfa
import MyJavaExample.Jvm.ConstantPool
import MyJavaExample.Jvm.ConstantPoolDecoding
import MyJavaExample.Jvm.Interpreter
import MyJavaExample.Jvm.Invoke
import MyJavaExample.Jvm.ClassParser
import MyJavaExample.Jvm.MethodParams
import MyJavaExample.Jvm.CodeAttribute
import MyJavaExample.Jvm.Chunking
import MyJavaExample.Jvm.StraightLine
import MyJavaExample.Jvm.ClassFile
import MyJavaExample.Jvm.MyJava
import MyJavaExample.Kernel.Sem
import MyJavaExample.Kernel.SemIdentity
import MyJavaExample.Kernel.SemTasks
import MyJavaExample.Kernel.SemSafety
import MyJavaExample.Kernel.SemPost
import MyJavaExample.Kernel.SemInterrupts
import MyJavaExample.Kernel.WaitQueue
import MyJavaExample.Kernel.Timer
import MyJavaExample.Kernel.Schedule
import MyJavaExample.Kernel.Malloc
import MyJavaExample.Kernel.MallocPages
import MyJavaExample.Kernel.MallocRuns
import MyJavaExample.Blk.Request
import MyJavaExample.Blk.HardDisk
import MyJavaExample.Blk.HardDiskOnce
import MyJavaExample.Mm.Memory
import MyJavaExample.Mm.PageRefs
import MyJavaExample.Mm.Consistency
import MyJavaExample.Mm.Tables
import MyJavaExample.Mm.Shm
import MyJavaExample.Mm.Sys
import MyJavaExample.Mm.PageCounts
import MyJavaExample.Mm.Isolation
import MyJavaExample.Mm.Runs
import MyJavaExample.Mm.RangeRefs
import MyJavaExample.Mm.FailedFork
import MyJavaExample.Mm.UserBytes
import MyJavaExample.Mm.ShmCounts
import MyJavaExample.Mm.ShmAttach
import MyJavaExample.Mm.ShmFailures
import MyJavaExample.Mm.ShmKeys
import MyJavaExample.Mm.ShmMapping
import MyJavaExample.Fs.Buffer
import MyJavaExample.Fs.BufferUnique
import MyJavaExample.Fs.ReadAhead
import MyJavaExample.Fs.BufferQueues
import MyJavaExample.Fs.Pipe
import MyJavaExample.Fs.PipeFifo
import MyJavaExample.Fs.Bitmap
import MyJavaExample.Fs.BitmapZones
import MyJavaExample.Fs.BitmapFull
import MyJavaExample.Fs.Directory
import MyJavaExample.Fs.DirectoryNames
import MyJavaExample.Fs.DirectoryRuns
import MyJavaExample.Fs.FileTable
import MyJavaExample.Fs.Dup
import MyJavaExample.Fs.FileCounts
import MyJavaExample.Fs.Inode
import MyJavaExample.Fs.FileOffsets
import MyJavaExample.Fs.PipeWrites
import MyJavaExample.Fs.WritePaths
import MyJavaExample.Fs.Masking
import MyJavaExample.Fs.BlockMap
import MyJavaExample.Fs.ZoneBits
import MyJavaExample.Fs.DeviceCache
import MyJavaExample.Fs.BlockTree
import MyJavaExample.Fs.Truncate
import MyJavaExample.Fs.ReadBack
import MyJavaExample.Fs.DirectoryScan
import MyJavaExample.Fs.ScanBalance
import MyJavaExample.Tty.Queue
import MyJavaExample.Tty.Write
import MyJavaExample.Tty.Cooked
import MyJavaExample.Tty.LineCount
import MyJavaExample.Tty.Console
import MyJavaExample.Tty.ConsoleSafety
import MyJavaExample.Vfs.ModelList
import MyJavaExample.Vfs.MyVFS
import MyJavaExample.Vfs.Record
import MyJavaExample.Vfs.Bytes
import MyJavaExample.Vfs.Integrity
import MyJavaExample.Vfs.Contiguous
import MyJavaExample.Vfs.Failures
import MyJavaExample.Vfs.Persistence
import MyJavaExample.Lib.Fresh
import MyJavaExample.Kernel.Pid
import MyJavaExample.Kernel.Number
import MyJavaExample.Kernel.Vsprintf
import MyJavaExample.Kernel.FormatStar
import MyJavaExample.Lib.Decimal
import MyJavaExample.Tools.UpdateBuff
import MyJavaExample.Tools.StatLog
import MyJavaExample.Exec.CopyStrings
import MyJavaExample.Exec.ArgPages
import MyJavaExample.Lib.LittleEndian
import MyJavaExample.Exec.CreateTables
import MyJavaExample.Kernel.Mktime
import MyJavaExample.Fs.Links
import MyJavaExample.Fs.LinkCounts
import MyJavaExample.Fs.LinkCalls
import MyJavaExample.Fs.LinkRuns
import MyJavaExample.Fs.Mkdir
import MyJavaExample.Fs.FailedMkdir
import MyJavaExample.Fs.InodeTable
import MyJavaExample.Fs.InodeRefs
import MyJavaExample.Fs.InodeUnique
import MyJavaExample.Fs.EntryPlaces
import MyJavaExample.Lib.PrivateStore
import MyJavaExample.Mm.CopiedBytes
import MyJavaExample.Mm.PrivateMemory
import MyJavaExample.Mm.PrivateRuns
import MyJavaExample.Kernel.Process
import MyJavaExample.Kernel.ProcessInv
import MyJavaExample.Kernel.ProcessSteps
import MyJavaExample.Kernel.ProcessLife
import MyJavaExample.Blk.MakeRequest
import MyJavaExample.Blk.RequestOwners
import MyJavaExample.Lib.Ownership
import MyJavaExample.Lib.Rank
import MyJavaExample.Blk.RequestSteps
import MyJavaExample.Blk.RequestDrain
import MyJavaExample.Blk.DiskContents
