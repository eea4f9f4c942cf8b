import Mario.Mm.KmallocSafety
import Mario.Mm.MmapAtomic
import Mario.Mm.MmapThreadsSafety
import Mario.Mm.Sharing
import Mario.Mm.Isolation
import Mario.Mm.FilemapCoherence
import Mario.Mm.FilemapSync
import Mario.Kernel.UserReturn
import Mario.Kernel.Semaphore
import Mario.Kernel.TimerSafety
import Mario.Kernel.Runnable
import Mario.Kernel.WaitNotify
import Mario.Kernel.Futex
import Mario.Fs.Buffer
import Mario.Fs.Select
import Mario.Fs.SuperBlock
import Mario.Fs.Symlink
import Mario.Fs.ReadWriteChunks
import Mario.Fs.Pipe
import Mario.Fs.FileCounts
import Mario.Fs.ExecSafety
import Mario.Fs.ExecveErrors
import Mario.Fs.Fat.FatCache
import Mario.Fs.Fat.OpenFileRuns
import Mario.Fs.Mariofs.FileWrite
import Mario.Fs.Char.PtyPoll
import Mario.Fs.Char.ConsoleSafety
import Mario.Fs.Char.PtyCounts
import Mario.Fs.Mariofs.WriteBackRuns
import Mario.Fs.Fat.ParentRuns
import Mario.Mm.UnmappedArea
import Mario.Mm.BitmapRange
import Mario.Kernel.SignalMasks
import Mario.Fs.Block.Ahci
import Mario.Kernel.Syslog
import Mario.Kernel.TimerOrder
import Mario.StringOps
import Mario.Fs.Char.KmsgReaders
import Mario.Mm.FileReadExact
import Mario.Fs.OpenErrors
import Mario.Fs.PollSleep
import Mario.Fs.Ext2.TruncateExact
import Mario.Fs.ReaddirAll
import Mario.Fs.Fat.Bpb
import Mario.Fs.Fat.CountEntries
import Mario.Fs.Fat.DeleteEntry
