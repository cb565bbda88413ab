import EAFITos.PipeSleep
import EAFITos.WaitExit
import EAFITos.LogStore
import EAFITos.Ownership
import EAFITos.Region
import EAFITos.UvmAtomic
import EAFITos.Sleeplock
import EAFITos.Console
import EAFITos.FileCalls
import EAFITos.VirtioQueue
import EAFITos.CopyStr
import EAFITos.ReadOnly
import EAFITos.BufRing
import EAFITos.ShellTree
import EAFITos.UmallocOverflow
import EAFITos.FsFault
import EAFITos.FileIo
import EAFITos.MkfsRead
import EAFITos.Grep
import EAFITos.Memmove
import EAFITos.Printint
import EAFITos.History
import EAFITos.Isolation
import EAFITos.Pids
import EAFITos.Wc
