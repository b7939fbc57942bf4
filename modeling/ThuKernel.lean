import ThuKernel.Lib.Prog
import ThuKernel.Fs.Bio
import ThuKernel.Fs.BioLaws
import ThuKernel.Fs.Buffers
import ThuKernel.Kernel.Coherence
import ThuKernel.Kernel.Pipe
import ThuKernel.Kernel.PipeLaws
import ThuKernel.Fs.Refs
import ThuKernel.Kernel.Balance
import ThuKernel.Kernel.BalanceRuns
import ThuKernel.Kernel.Families
import ThuKernel.Kernel.FileRefRuns
import ThuKernel.Kernel.Fork
import ThuKernel.Kernel.MailRuns
import ThuKernel.Kernel.Rounds
import ThuKernel.Kernel.Statuses
import ThuKernel.Disk.VirtioLaws
import ThuKernel.Trap.Interrupts
import ThuKernel.Lib.Owned
import ThuKernel.Kernel.Descriptors
import ThuKernel.Kernel.NewPages
import ThuKernel.Kernel.Ownership
import ThuKernel.Kernel.PipeArgs
import ThuKernel.Kernel.PipeUndo
import ThuKernel.Kernel.Results
import ThuKernel.Kernel.Undone
import ThuKernel.Kernel.UserStrings
import ThuKernel.User.Stdio
import ThuKernel.Kernel.Clock
import ThuKernel.Kernel.Console
import ThuKernel.Kernel.Permissions
import ThuKernel.User.Sleep
import ThuKernel.Fs.BlockMap
import ThuKernel.Fs.Content
import ThuKernel.Fs.Write
import ThuKernel.Fs.WriteRead
import ThuKernel.Kernel.FileStreams
import ThuKernel.Kernel.ForkPages
import ThuKernel.Fs.Holding
import ThuKernel.Vm.FreePages
import ThuKernel.Kernel.AppTable
import ThuKernel.Fs.Trunc
import ThuKernel.Fs.Table
import ThuKernel.Fs.Directory
import ThuKernel.Fs.Dirlink
import ThuKernel.Fs.RootDir
import ThuKernel.Kernel.LinkCounts
import ThuKernel.Kernel.AccessModes
import ThuKernel.Kernel.Boot
import ThuKernel.Kernel.SpawnExec
import ThuKernel.Nfs.Iappend
import ThuKernel.Nfs.MkfsImage
import ThuKernel.Nfs.Mount
import ThuKernel.Nfs.Reading
import ThuKernel.Kernel.FileCounts
import ThuKernel.Kernel.CallPermissions
import ThuKernel.Kernel.NameEnds
import ThuKernel.Kernel.NameRefusals
import ThuKernel.Trap.Causes
