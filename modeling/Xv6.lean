import Xv6.Lib.Run
import Xv6.Lib.Writes
import Xv6.Param
import Xv6.Kalloc
import Xv6.Proc
import Xv6.Log
import Xv6.Pipe
import Xv6.Proofs.KallocProofs
import Xv6.Proofs.ProcProofs
import Xv6.Proofs.ProcTree
import Xv6.Proofs.LogCrash
import Xv6.Proofs.LogAdmission
import Xv6.Proofs.PipeProofs
import Xv6.Fs
import Xv6.Proofs.FsProofs
import Xv6.FsBlocks
import Xv6.Proofs.TxnSize
import Xv6.Mkfs
import Xv6.Proofs.MkfsProofs
import Xv6.ProcMem
import Xv6.Proofs.Sv39
import Xv6.Lib.Owners
import Xv6.Proofs.PageTable
import Xv6.Proofs.VmOwn
import Xv6.Lib.Loop
import Xv6.Proofs.VmMap
import Xv6.Proofs.VmFree
import Xv6.Proofs.VmProc
import Xv6.Proofs.PageMap
import Xv6.Proofs.Sbrk
import Xv6.Trap
import Xv6.Proofs.Fault
import Xv6.Proofs.Fork
import Xv6.Proofs.Kfork
import Xv6.Proofs.SchedProofs
import Xv6.Console
import Xv6.Proofs.ConsoleProofs
import Xv6.Bio
import Xv6.Proofs.BioLru
import Xv6.Proofs.UmallocProofs
import Xv6.Proofs.FsDirs
import Xv6.Proofs.FsPaths
import Xv6.Lib.Block
import Xv6.String
import Xv6.Lib.Lines
import Xv6.Grep
import Xv6.Proofs.GrepProofs
import Xv6.Proofs.GrepLines
import Xv6.Sh
import Xv6.Proofs.ShGrammar
import Xv6.Proofs.ShScan
import Xv6.Proofs.ShParse
import Xv6.Proofs.StringProofs
import Xv6.Lib.Numeral
import Xv6.Printf
import Xv6.Proofs.PrintfProofs
import Xv6.Proofs.Kwait
import Xv6.Proofs.Copy
import Xv6.Proofs.Exec
import Xv6.Proofs.MemSys
