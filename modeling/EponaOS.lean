import EponaOS.Lib.TableTrie
import EponaOS.Mm.Pmm
import EponaOS.Mm.Paging
import EponaOS.Mm.PageWalk
import EponaOS.Mm.PageStep
import EponaOS.Mm.PageMapping
import EponaOS.Mm.BootTables
import EponaOS.Mm.PageRights
import EponaOS.Kernel.UserPtr
import EponaOS.Kernel.Dispatch
import EponaOS.Kernel.ExitStatus
import EponaOS.Kernel.Descriptors
import EponaOS.Kernel.FileHandles
import EponaOS.Kernel.PipeCounts
import EponaOS.Kernel.TaskMemory
import EponaOS.Kernel.Fork
import EponaOS.Kernel.TrapStack
import EponaOS.Mm.HeapRun
import EponaOS.Fs.FatOverlay
import EponaOS.Fs.FatCopies
import EponaOS.Fs.Usable
import EponaOS.Fs.FatSlice
import EponaOS.Fs.FatFrame
import EponaOS.Fs.Truncation
import EponaOS.Net.TcpRun
import EponaOS.Net.TcpClose
import EponaOS.Net.Reads
import EponaOS.Net.HttpBody
import EponaOS.Net.DhcpHosts
import EponaOS.Net.GetRepeat
import EponaOS.Fs.FatDir
import EponaOS.Kernel.StdinWait
import EponaOS.Mm.FrameReach
import EponaOS.Kernel.Elf
import EponaOS.Mm.PageData
import EponaOS.Kernel.ElfFrames
import EponaOS.Kernel.ElfPages
import EponaOS.Kernel.ElfImage
import EponaOS.Kernel.PipeBytes
import EponaOS.Kernel.TermEscapes
import EponaOS.User.MallocRun
import EponaOS.Kernel.RingMemory
import EponaOS.Lib.VolumeOps
import EponaOS.Drivers.Rtl8139
import EponaOS.Fs.Mounts
import EponaOS.Fs.NameCodec
import EponaOS.Lib.Erase
import EponaOS.Fs.FreedChain
import EponaOS.Fs.Listing
import EponaOS.Fs.ReadEnd
import EponaOS.Fs.DirSearch
import EponaOS.Fs.CreateRoom
import EponaOS.Fs.FaultyTable
import EponaOS.Fs.NewEntry
import EponaOS.Fs.FailedCreation
import EponaOS.Fs.Lookup
import EponaOS.Fs.ParentLinks
import EponaOS.Fs.WriteTruth
import EponaOS.Fs.NodeLeak
import EponaOS.Fs.VolumeSteps
import EponaOS.Fs.TreeCache
import EponaOS.Fs.VolumeCalls
import EponaOS.Fs.VolumeRun
import EponaOS.Mm.FrameRuns
import EponaOS.Mm.UsableFrames
import EponaOS.Mm.HeapMerge
import EponaOS.Mm.Unmap
import EponaOS.Mm.HeapSizes
import EponaOS.Mm.HeapContents
import EponaOS.Mm.HeapGrowth
import EponaOS.Kernel.StackWords
import EponaOS.Kernel.ElfWrites
import EponaOS.Kernel.ElfFailure
import EponaOS.User.AllocSizes
import EponaOS.Net.Checksum
import EponaOS.Net.LongSegment
import EponaOS.Net.DnsNames
import EponaOS.Net.DnsAnswers
import EponaOS.Net.DnsCommand
import EponaOS.Kernel.Signals
import EponaOS.Kernel.UserPath
import EponaOS.Fs.ReadCopies
import EponaOS.Kernel.DescriptorIo
import EponaOS.Kernel.Redirect
import EponaOS.Kernel.UserStores
import EponaOS.Net.HttpRequest
import EponaOS.Net.Sent
import EponaOS.Net.SilentServer
import EponaOS.Net.DhcpOptions
import EponaOS.Kernel.TermParams
import EponaOS.Drivers.Console
import EponaOS.Kernel.TermCursor
import EponaOS.Kernel.Readline
import EponaOS.Kernel.LineHistory
import EponaOS.Kernel.LineRedraw
import EponaOS.Lib.PathStack
import EponaOS.Kernel.CanonicalPath
import EponaOS.Drivers.KeyHeld
import EponaOS.Drivers.Rtc
import EponaOS.Drivers.Ata
import EponaOS.Drivers.Mouse
import EponaOS.Drivers.PciChains
import EponaOS.Boot.LoadKernel
import EponaOS.User.ShellWrites
import EponaOS.Kernel.WindowRequests
import EponaOS.Lib.CString
import EponaOS.Lib.Digits
import EponaOS.Lib.Tokens
import EponaOS.Fs.Strtok
import EponaOS.User.Numbers
import EponaOS.User.Printf
import EponaOS.Kernel.WindowOrder
import EponaOS.Kernel.LineBuffer
import EponaOS.Drivers.KeyRing
import EponaOS.Lib.Lines
import EponaOS.Lib.Nested
import EponaOS.User.Edit
import EponaOS.Drivers.CursorFile
import EponaOS.Drivers.Framebuffer
import EponaOS.Drivers.Regions
import EponaOS.Drivers.Scroll
import EponaOS.Drivers.Pictures
import EponaOS.Drivers.ConsolePixels
import EponaOS.Kernel.WindowPlaces
import EponaOS.Kernel.TermPixels
import EponaOS.Kernel.Compositor
import EponaOS.Kernel.ScreenUpdate
import EponaOS.User.EditSession
import EponaOS.Kernel.Fairness
import EponaOS.User.Packages
import EponaOS.Drivers.Transmit
import EponaOS.Kernel.ShellCommands
import EponaOS.User.Calculator
