import Mos.Lib.Run
import Mos.Lib.Behaviour
import Mos.Lib.Count
import Mos.Lib.Tailq
import Mos.Lib.Ring
import Mos.Lib.Turns
import Mos.Lib.Fallible
import Mos.Lib.Bytes
import Mos.Lib.Holding
import Mos.Lib.Writes
import Mos.Mmu
import Mos.Pmap
import Mos.Elf
import Mos.Env
import Mos.Sched
import Mos.Tlbex
import Mos.Syscall
import Mos.Machine
import Mos.Procs
import Mos.Alive
import Mos.SchedList
import Mos.Receiving
import Mos.PageTable
import Mos.Frames
import Mos.FrameRun
import Mos.Insert
import Mos.FailedSend
import Mos.Space
import Mos.Framed
import Mos.Boot
import Mos.Isolation
import Mos.Edits
import Mos.Destroying
import Mos.UserMode
import Mos.Message
import Mos.ArgumentPage
import Mos.Pipe
import Mos.PipeFifo
import Mos.PipeEof
import Mos.Gettoken
import Mos.History
import Mos.Tokenizer
import Mos.Shell
import Mos.StatusDelivery
import Mos.Quoting
import Mos.Writes
import Mos.Spawned
import Mos.ConditionalLists
import Mos.PipeShare
import Mos.ClosedSound
import Mos.Serving
import Mos.Survival
import Mos.Tops
import Mos.Bare
import Mos.Returning
import Mos.Fork
import Mos.Copying
import Mos.Marking
import Mos.Faults
import Mos.EagerFork
import Mos.Directory
import Mos.Counter
import Mos.RoundRobin
import Mos.SelfMap
import Mos.SegImage
import Mos.Window
import Mos.Ids
import Mos.Jobs
import Mos.Keeping
import Mos.Exchange
import Mos.Tlb
import Mos.Coherence
import Mos.Fs
import Mos.Serv
import Mos.Access
import Mos.Redirections
import Mos.RedirectScope
import Mos.FsView
import Mos.FsTree
import Mos.FsWalk
import Mos.FsHold
import Mos.FsAlloc
import Mos.FsSlots
import Mos.FsGrow
import Mos.FsShrink
import Mos.FsResize
import Mos.FsKept
import Mos.FsCreate
import Mos.FsMake
import Mos.FsStays
import Mos.Desk
import Mos.Resizing
import Mos.Ownership
import Mos.Creating
import Mos.Opening
import Mos.Identity
import Mos.Replies
import Mos.Lost
import Mos.Exposed
import Mos.Durable
import Mos.Devices
import Mos.FailedAlloc
import Mos.Allocator
import Mos.InitStack
import Mos.Relaying
import Mos.Headers
import Mos.Loaders
import Mos.Client
import Mos.Descriptors
import Mos.Transfers
import Mos.Truncating
import Mos.Leaks
import Mos.Dup
import Mos.Memcpy
import Mos.PrintNum
import Mos.Debugf
import Mos.Panicking
import Mos.HistoryLoad
import Mos.Vprintfmt
import Mos.IdeBlocks
import Mos.LineTyped
import Mos.FileSession
import Mos.Contexts
import Mos.Integrity
import Mos.Fsformat
import Mos.Layout
import Mos.Placing
import Mos.Formatting
import Mos.Imaged
import Mos.Genex
import Mos.Trapping
import Mos.Reentry
import Mos.TlbAsm
