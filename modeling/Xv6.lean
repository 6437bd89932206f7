import Xv6.Processes.TicketHolders
import Xv6.Processes.Accounting
import Xv6.Processes.Reaping
import Xv6.Processes.Wakeups
import Xv6.Locking.Balance
import Xv6.Storage.Atomicity
import Xv6.Memory.ThreadStart
import Xv6.Memory.Resizing
import Xv6.Memory.Strings
import Xv6.Memory.Arguments
import Xv6.Processes.Policy
import Xv6.Processes.Killing
import Xv6.Processes.Collecting
import Xv6.Processes.Switching
import Xv6.Files.Counting
import Xv6.Inodes.Freeing
import Xv6.Storage.Admission
import Xv6.Storage.Transparency
import Xv6.Fs.Consistency
import Xv6.Fs.Deadlock
import Xv6.Waiting.Sleeplock
import Xv6.Waiting.Kills
import Xv6.User.Malloc
import Xv6.User.ShellParser
import Xv6.Mkfs.Boot
import Xv6.Processes.Turns
import Xv6.Processes.Cpus
