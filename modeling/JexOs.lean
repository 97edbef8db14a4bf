import JexOs.Mkjexfs
import JexOs.Proof.StackSlots
import JexOs.Proof.Syscall
import JexOs.Proof.JexFsRemove
import JexOs.Proof.JexFsCopy
import JexOs.Proof.JexFsScan
import JexOs.Proof.KheapRun
import JexOs.Proof.SbrkTasks
import JexOs.Proof.TccExec
import JexOs.Proof.TcpStream
import JexOs.Proof.TcpSent
import JexOs.Proof.TcpBuffer
import JexOs.Proof.NetConfined
import JexOs.Proof.TccLexer
import JexOs.Proof.TccOutput
import JexOs.Proof.Elf
import JexOs.Proof.TccLayout
import JexOs.Proof.NetArp
import JexOs.Proof.LockdepTables
import JexOs.Proof.GdbStub
import JexOs.Proof.ShellLine
import JexOs.Proof.DhcpLease
import JexOs.Proof.NetVerify
import JexOs.Proof.EditorCursor
import JexOs.Proof.Kallsyms
import JexOs.Proof.Rtl8139
import JexOs.Proof.MallocRun
import JexOs.Proof.EditorSave
import JexOs.Proof.JexFsPlace
import JexOs.Proof.JexFsRename
import JexOs.Proof.ShellLs
import JexOs.Proof.PmmFirstFit
import JexOs.Proof.PmmInit
import JexOs.Proof.KstackExact
import JexOs.Proof.SbrkUndo
import JexOs.Proof.JexFsBounds
import JexOs.Proof.SizeLaw
import JexOs.Proof.KheapReclaim
import JexOs.Proof.JexFsSectors
import JexOs.Proof.JexFsFailure
import JexOs.Proof.ForkUndo
import JexOs.Proof.PageMap
import JexOs.Proof.Waiting
import JexOs.Proof.Fairness
import JexOs.Proof.UserStack
import JexOs.Proof.TccLogic
import JexOs.Proof.TccReturn
import JexOs.Proof.ElfSegments
import JexOs.Proof.SymtabNames
import JexOs.Proof.TccInitializer
import JexOs.Proof.DhcpReceive
import JexOs.Proof.DnsResponse
import JexOs.Proof.TccScan
import JexOs.Proof.TccStrings
import JexOs.Proof.TccOutside
import JexOs.Proof.Keyboard
import JexOs.Proof.Workqueue
import JexOs.Proof.UdpTable
import JexOs.Proof.VsnprintfNumbers
import JexOs.Proof.IntText
import JexOs.Proof.DnsQuery
import JexOs.Proof.Rtl8139Bounds
import JexOs.Proof.JexFsAccounts
import JexOs.Proof.VfsRead
import JexOs.Proof.MkjexfsRead
import JexOs.Proof.TcpLink
