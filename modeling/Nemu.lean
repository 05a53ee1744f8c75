import Nemu.Lib.BitField
import Nemu.Lib.Effect
import Nemu.Config
import Nemu.Csr
import Nemu.Machine
import Nemu.Instr
import Nemu.Reset
import Nemu.Status
import Nemu.Intr
import Nemu.Isolation
import Nemu.IsolationRun
import Nemu.TrapTarget
import Nemu.Dasics
import Nemu.Lib.Bytes
import Nemu.Paddr
import Nemu.Mmu
import Nemu.Vaddr
import Nemu.AccessStops
import Nemu.AddressSpace
import Nemu.Priv
import Nemu.Exec
import Nemu.Decode
import Nemu.Loop
import Nemu.DecodeSpec
import Nemu.Frame
import Nemu.AccessContract
import Nemu.FetchContract
import Nemu.InstrContract
import Nemu.SystemContract
import Nemu.Coherence
import Nemu.Reachable
import Nemu.Sandbox
import Nemu.ZoneEntry
import Nemu.WalkContract
import Nemu.Confinement
import Nemu.Lib.Run
import Nemu.CsrWrites
import Nemu.Delegation
import Nemu.Pmp
import Nemu.PmpLock
import Nemu.Rv64i
import Nemu.Dispatch
import Nemu.Encoding
import Nemu.Expansion
import Nemu.Compressed
import Nemu.Exceptions
import Nemu.JumpCheck
import Nemu.PrivMode
import Nemu.TrapFrame
import Nemu.Difftest
import Nemu.Injection
import Nemu.Lib.Chain
import Nemu.Tcache
import Nemu.TcachePools
import Nemu.TcacheRecords
import Nemu.TcacheRoom
import Nemu.InstrCount
import Nemu.TcacheRanks
import Nemu.CountExact
import Nemu.HostTlb
import Nemu.PageWalk
import Nemu.Translation
import Nemu.TlbCoherence
import Nemu.Fence
import Nemu.Footprint
import Nemu.CsrViews
import Nemu.CsrAtomic
import Nemu.Reservation
import Nemu.StoreQueue
import Nemu.Formats
import Nemu.PcAlign
import Nemu.QueryRef
import Nemu.Lib.Fields
import Nemu.Regcpy
import Nemu.FpOff
import Nemu.Lib.Relate
import Nemu.Hidden
import Nemu.ZeroReg
import Nemu.Guided
import Nemu.FpCsr
import Nemu.Budget
import Nemu.Permission
import Nemu.MmuPaths
import Nemu.Alignment
import Nemu.Lib.Sv39
import Nemu.Sv39Walk
import Nemu.ProtectionKey
import Nemu.AdUpdate
import Nemu.CrossPage
import Nemu.SystemDecode
import Nemu.Memcpy
import Nemu.Lib.WideArith
import Nemu.Rvm
import Nemu.FpPairs
import Nemu.Vectored
import Nemu.Regions
import Nemu.TrapReturn
import Nemu.PmpWriteback
import Nemu.ScFail
import Nemu.Amo
import Nemu.Lib.Pattern
import Nemu.Expr
import Nemu.ExprSyntax
import Nemu.ExprLex
import Nemu.ExprContract
import Nemu.ExprOutline
import Nemu.ExprTokens
import Nemu.ExprSafety
import Nemu.Watchpoint
import Nemu.BbTable
import Nemu.SimPoint
import Nemu.Lib.Schedule
import Nemu.Checkpoint
import Nemu.Lib.Packed
import Nemu.Lib.Counted
import Nemu.Vreg
import Nemu.Vcfg
import Nemu.Vcompute
import Nemu.VectorCarry
import Nemu.VectorElement
import Nemu.VectorDivision
import Nemu.VectorPermute
import Nemu.VectorScan
import Nemu.VectorGroup
import Nemu.VectorMemory
import Nemu.Lib.XorHom
import Nemu.Lib.Lanes
import Nemu.Rvb
import Nemu.Rvk
import Nemu.AesRounds
import Nemu.Sm4Rounds
import Nemu.RvkTables
import Nemu.Lib.Ring
import Nemu.UserMemory
import Nemu.UserList
import Nemu.UserRun
import Nemu.UserRequest
import Nemu.Lib.Flags
import Nemu.LazyCc
import Nemu.LazyCcValue
import Nemu.LazyCcExact
import Nemu.Lib.ShiftIn
import Nemu.PatternDecode
import Nemu.PmemRange
import Nemu.Lib.OrHom
import Nemu.ImmDecode
import Nemu.ImmRoundTrip
import Nemu.PrivilegeRun
import Nemu.PmpRun
import Nemu.Lockstep
import Nemu.Lib.Component
import Nemu.IoMap
import Nemu.DeviceRun
import Nemu.DeviceMemory
import Nemu.ClintTimer
import Nemu.SdcardBlocks
import Nemu.Lib.Gf2
import Nemu.Clmul
import Nemu.Shuffle
import Nemu.Intrinsics
