import AudioPlayer.Lib.Runs
import AudioPlayer.Lib.Links
import AudioPlayer.Lib.Blocks
import AudioPlayer.Lib.Double
import AudioPlayer.Spec.Pci
import AudioPlayer.Spec.SoundCard
import AudioPlayer.Spec.System
import AudioPlayer.Spec.Session
import AudioPlayer.Spec.Codec
import AudioPlayer.Spec.Wav
import AudioPlayer.Spec.Ulib
import AudioPlayer.Spec.Player
import AudioPlayer.Proof.Fields
import AudioPlayer.Proof.Queue
import AudioPlayer.Proof.Dma
import AudioPlayer.Proof.WellFormed
import AudioPlayer.Proof.Stream
import AudioPlayer.Proof.Session
import AudioPlayer.Proof.Ownership
import AudioPlayer.Proof.Handover
import AudioPlayer.Proof.Control
import AudioPlayer.Proof.Descriptors
import AudioPlayer.Proof.Player
import AudioPlayer.Proof.Reader
import AudioPlayer.Proof.Rate
import AudioPlayer.Proof.PlayerProc
import AudioPlayer.Lib.Bytes
import AudioPlayer.Lib.Writes
import AudioPlayer.Proof.Log
import AudioPlayer.Proof.Transactions
import AudioPlayer.Lib.RingBuffer
import AudioPlayer.Spec.VirtioDisk
import AudioPlayer.Proof.VirtioDisk
import AudioPlayer.Spec.Fs
import AudioPlayer.Spec.Mkfs
import AudioPlayer.Proof.FileBlocks
import AudioPlayer.Proof.Mkfs
import AudioPlayer.Proof.MkfsKernel
import AudioPlayer.Lib.Owners
import AudioPlayer.Proof.BlockOwnership
import AudioPlayer.Proof.FsCalls
import AudioPlayer.Lib.Ring
import AudioPlayer.Spec.Bio
import AudioPlayer.Lib.Counts
import AudioPlayer.Proof.Bio
import AudioPlayer.Proof.WavHead
import AudioPlayer.Proof.Volume
import AudioPlayer.Spec.Syscall
import AudioPlayer.Proof.Syscall
import AudioPlayer.Proof.Kill
import AudioPlayer.Proof.Pipe
import AudioPlayer.Spec.Console
import AudioPlayer.Proof.Console
import AudioPlayer.Proof.ProcTree
import AudioPlayer.Lib.Radix
import AudioPlayer.Spec.Kalloc
import AudioPlayer.Spec.Uvm
import AudioPlayer.Spec.Exec
import AudioPlayer.Spec.UserMem
import AudioPlayer.Proof.PageTable
import AudioPlayer.Proof.Uvm
import AudioPlayer.Proof.Exec
import AudioPlayer.Proof.Command
import AudioPlayer.Spec.FsTrace
import AudioPlayer.Proof.FsTrace
import AudioPlayer.Proof.Contents
import AudioPlayer.Proof.FailedWrite
import AudioPlayer.Lib.SlotMap
import AudioPlayer.Spec.Dir
import AudioPlayer.Proof.Directory
import AudioPlayer.Proof.UserMem
import AudioPlayer.Proof.Memmove
import AudioPlayer.Spec.Inode
import AudioPlayer.Spec.Path
import AudioPlayer.Proof.Path
import AudioPlayer.Proof.UserCopy
import AudioPlayer.Proof.PageMap
import AudioPlayer.Proof.Sbrk
import AudioPlayer.Proof.Refs
import AudioPlayer.Spec.ExecCall
import AudioPlayer.Proof.ExecCall
import AudioPlayer.Lib.Circular
import AudioPlayer.Lib.Extents
import AudioPlayer.Spec.Umalloc
import AudioPlayer.Proof.Umalloc
import AudioPlayer.Proof.Malloc
import AudioPlayer.Proof.UserHeap
import AudioPlayer.Spec.Shell
import AudioPlayer.Spec.ShellGrammar
import AudioPlayer.Proof.Shell
import AudioPlayer.Proof.ShellParser
import AudioPlayer.Spec.FileTable
import AudioPlayer.Spec.Sysfile
import AudioPlayer.Proof.FileTable
import AudioPlayer.Proof.Sysfile
import AudioPlayer.Proof.PipeEnds
import AudioPlayer.Proof.Sched
import AudioPlayer.Proof.SleepLock
import AudioPlayer.Proof.Threads
