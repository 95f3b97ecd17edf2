import Xv6Mmap.Console
import Xv6Mmap.FailedCalls
import Xv6Mmap.FailedExec
import Xv6Mmap.FailedFork
import Xv6Mmap.FailedNames
import Xv6Mmap.FilePages
import Xv6Mmap.Files
import Xv6Mmap.IcacheFree
import Xv6Mmap.Ide
import Xv6Mmap.Info
import Xv6Mmap.Lru
import Xv6Mmap.MallocBrk
import Xv6Mmap.Memmove
import Xv6Mmap.MkfsRead
import Xv6Mmap.Pipe
import Xv6Mmap.Reap
import Xv6Mmap.Refs
import Xv6Mmap.Regex
import Xv6Mmap.Shell
import Xv6Mmap.Truncate
import Xv6Mmap.WriteQuota
