import Pmon.Lib.Bytes
import Pmon.Lib.PackedStrings
import Pmon.Lib.Window
import Pmon.Lib.Run
import Pmon.Lib.Separate
import Pmon.Lib.Words
import Pmon.Lib.SeqFile
import Pmon.Lib.Buckets
import Pmon.Lib.AddressRing
import Pmon.Lib.MarkedText
import Pmon.Lib.Extremes
import Pmon.Lib.Repeats
import Pmon.Lib.WordMem
import Pmon.Lib.Traps
import Pmon.Libc.Strings
import Pmon.Nvram.Model
import Pmon.Nvram.Entries
import Pmon.Nvram.Area
import Pmon.Nvram.Edit
import Pmon.Nvram.Store
import Pmon.Nvram.RoundTrip
import Pmon.Nvram.Outcome
import Pmon.Env.Model
import Pmon.Env.Table
import Pmon.Env.Boot
import Pmon.Env.Reboot
import Pmon.Env.Runs
import Pmon.Loaders.LoadAddr
import Pmon.Loaders.Srec
import Pmon.Loaders.SrecRuns
import Pmon.Netio.Tftp
import Pmon.Netio.TftpBlocks
import Pmon.Netio.TftpRuns
import Pmon.Netio.TftpWrite
import Pmon.Netio.TftpWriteRuns
import Pmon.Cmds.Sym
import Pmon.Cmds.SymTable
import Pmon.Cmds.SymRuns
import Pmon.Cmds.Xmodem
import Pmon.Cmds.XmodemRuns
import Pmon.Cmds.Hist
import Pmon.Cmds.LineEditor
import Pmon.Cmds.HistRing
import Pmon.Cmds.CmdParser
import Pmon.Cmds.CmdParserRuns
import Pmon.Cmds.Password
import Pmon.Pci.ConfAccess
import Pmon.Pci.ConfRegisters
import Pmon.Debug.Breakpoints
import Pmon.Debug.BreakpointRuns
import Pmon.Fs.Devio
import Pmon.Fs.DevioRuns
import Pmon.Fs.Mtd
import Pmon.Fs.MtdWrites
import Pmon.Fs.Extents
import Pmon.Fs.ExtentTree
import Pmon.Fs.ExtentReads
import Pmon.Libc.Files
import Pmon.Libc.FileRuns
import Pmon.Loaders.SrecText
import Pmon.Cmds.Sdump
import Pmon.Cmds.Oload
import Pmon.Cmds.DumpLoad
import Pmon.Tools.Srecord
import Pmon.Lib.Writes
import Pmon.Env.ClientStack
import Pmon.Env.ClientVectors
import Pmon.Lib.DepthFirst
import Pmon.Pci.BusScan
import Pmon.Pci.BusNumbers
import Pmon.Lib.Packing
import Pmon.Pci.Windows
import Pmon.Pci.WindowSizes
import Pmon.Pci.WindowTrees
import Pmon.Pci.WindowsRight
import Pmon.Dtb.Fdt
import Pmon.Dtb.VerifyDtb
import Pmon.Dtb.VerifyEdits
import Pmon.Dtb.VerifyRuns
import Pmon.Env.Setting
import Pmon.Env.SetRuns
import Pmon.Env.Unsetting
import Pmon.Libc.Numbers
import Pmon.Debug.Rsa
import Pmon.Debug.RsaRuns
import Pmon.Cmds.Expand
import Pmon.Cmds.GetCmd
import Pmon.Lib.Rounds
import Pmon.Fs.NandOpt
import Pmon.Fs.NandRuns
import Pmon.Netio.NetFiles
import Pmon.Netio.NetFileRuns
import Pmon.Lib.Glob
import Pmon.Libc.Patterns
import Pmon.Libc.Strto
import Pmon.Lib.StrBuf
import Pmon.Libc.ParseUrl
import Pmon.Lib.Spans
import Pmon.Cmds.Time
import Pmon.Cmds.TimeRound
import Pmon.Loaders.SrecRejects
import Pmon.Lib.LowestFirst
import Pmon.Loaders.ElfSyms
import Pmon.Loaders.ElfSymsRuns
import Pmon.Lib.Walk
import Pmon.Fs.ExtentWalk
import Pmon.Fs.FatTable
import Pmon.Lib.Paths
import Pmon.Fs.Ext2Dir
import Pmon.Fs.Ext2Path
import Pmon.Lib.Pieces
import Pmon.Fs.BlockMap
import Pmon.Fs.BlockRuns
import Pmon.Fs.BlockLevels
import Pmon.Fs.Holes
import Pmon.Fs.Ext2Reads
import Pmon.Fs.FatChain
import Pmon.Fs.TransTable
import Pmon.Lib.Queue
import Pmon.Fs.MtdList
import Pmon.Netio.HttpHeader
import Pmon.Lib.Ledger
import Pmon.Debug.CommandStrings
import Pmon.Fs.MtdReads
import Pmon.Fs.DevioWindow
import Pmon.Netio.TftpSafe
import Pmon.Fs.FatDir
import Pmon.Fs.FatFile
import Pmon.Fs.FatFaults
import Pmon.Fs.FatNames
import Pmon.Fs.FatFind
import Pmon.Cmds.Fill
import Pmon.Cmds.Go
import Pmon.Flash.Map
import Pmon.Flash.Verify
import Pmon.Netio.BootpVendor
import Pmon.Pci.PayloadSizes
import Pmon.Pci.PayloadRight
import Pmon.Debug.Trace
import Pmon.Lib.BitPatterns
import Pmon.Lib.MipsTransfers
import Pmon.Debug.Distbl
import Pmon.Debug.TracePoints
import Pmon.Lib.Masks
import Pmon.Flash.Erase
import Pmon.Flash.EraseRight
import Pmon.Flash.Program
import Pmon.Pci.RoomyWindows
import Pmon.Pci.Overflow
import Pmon.Cmds.PasswordCheck
import Pmon.Fs.DevPart
import Pmon.Fs.DevPartRight
import Pmon.Dtb.BootArg
import Pmon.Dtb.ParseProp
import Pmon.Cmds.XmodemSession
import Pmon.Lib.RandomFile
import Pmon.Fs.RamFile
import Pmon.Fs.IsoFile
import Pmon.Fs.FatReads
import Pmon.Fs.OpenFiles
import Pmon.Loaders.FastLoad
import Pmon.Loaders.FastLoadRuns
import Pmon.Lib.Strides
import Pmon.Flash.SpiDriver
import Pmon.Flash.SpiProgram
import Pmon.Flash.SpiErase
import Pmon.Cmds.Search
import Pmon.Cmds.Argvize
import Pmon.Flash.SpiWrite
import Pmon.Netio.TftpdExec
import Pmon.Fs.OpenPath
import Pmon.Netio.HttpReads
import Pmon.Fs.NandPages
import Pmon.Fs.NandTrips
import Pmon.Lib.RingQueue
import Pmon.Fs.Termio
import Pmon.Fs.TermMoves
import Pmon.Fs.TermRuns
import Pmon.Nvram.Cksum
import Pmon.Nvram.Mapenv
import Pmon.Cmds.SetFreq
import Pmon.Cmds.Tod
import Pmon.Pci.IntRouting
import Pmon.Libc.Strtoull
import Pmon.Smbios.Uuid
import Pmon.Smbios.Format
import Pmon.Smbios.Tables
import Pmon.Smbios.TableStrings
import Pmon.Smbios.TablesRight
