import Nemu.Config

namespace Nemu

set_option autoImplicit true

-- The sizes of the register files, whose indices are written as numerals.
instance neZero2 : NeZero 2 := ⟨Nat.succ_ne_zero 1⟩

instance neZero8 : NeZero 8 := ⟨Nat.succ_ne_zero 7⟩

instance neZero16 : NeZero 16 := ⟨Nat.succ_ne_zero 15⟩

instance neZero32 : NeZero 32 := ⟨Nat.succ_ne_zero 31⟩

/-- The implemented CSRs. -/
inductive Csr where
  | mstatus | misa | medeleg | mideleg | mie | mtvec | mcounteren | mscratch | mepc | mcause
  | mtval | mip | mhartid
  | sstatus | sie | stvec | scounteren | sscratch | sepc | scause | stval | sip | satp | srnctl
  | fflags | frm | fcsr | mtime
  | ustatus | uie | utvec | uscratch | uepc | ucause | utval | uip | utimer | sedeleg | sideleg
  | vstart | vxsat | vxrm | vcsr | vl | vtype | vlenb
  | mvendorid | marchid | mimpid
  | pmpcfg (i : Fin 2) | pmpaddr (i : Fin 16)
  | dsmcfg | dsmbound (i : Fin 2) | dumcfg | dumbound (i : Fin 2)
  | dlcfg0 | dlbound (i : Fin 32) | dmaincall | dretpc | dretpcfz | dfreason
  | djbound (i : Fin 8) | djcfg
  | upkru | spkrs | spkctl
  deriving DecidableEq

namespace Csr

def addr : Csr → BitVec 12
  | mstatus => 0x300
  | misa => 0x301
  | medeleg => 0x302
  | mideleg => 0x303
  | mie => 0x304
  | mtvec => 0x305
  | mcounteren => 0x306
  | mscratch => 0x340
  | mepc => 0x341
  | mcause => 0x342
  | mtval => 0x343
  | mip => 0x344
  | mhartid => 0xf14
  | sstatus => 0x100
  | sie => 0x104
  | stvec => 0x105
  | scounteren => 0x106
  | sscratch => 0x140
  | sepc => 0x141
  | scause => 0x142
  | stval => 0x143
  | sip => 0x144
  | satp => 0x180
  | srnctl => 0x5c4
  | fflags => 0x001
  | frm => 0x002
  | fcsr => 0x003
  | mtime => 0xc01
  | ustatus => 0x000
  | uie => 0x004
  | utvec => 0x005
  | uscratch => 0x040
  | uepc => 0x041
  | ucause => 0x042
  | utval => 0x043
  | uip => 0x044
  | utimer => 0x045
  | sedeleg => 0x102
  | sideleg => 0x103
  | vstart => 0x008
  | vxsat => 0x009
  | vxrm => 0x00a
  | vcsr => 0x00f
  | vl => 0xc20
  | vtype => 0xc21
  | vlenb => 0xc22
  | mvendorid => 0xf11
  | marchid => 0xf12
  | mimpid => 0xf13
  -- `pmpcfg0` and `pmpcfg2`: the odd ones do not exist on RV64
  | pmpcfg i => 0x3a0 + 2 * BitVec.ofNat 12 i
  | pmpaddr i => 0x3b0 + BitVec.ofNat 12 i
  | dsmcfg => 0xbc0
  | dsmbound i => 0xbc2 + BitVec.ofNat 12 i
  | dumcfg => 0x9e0
  | dumbound i => 0x9e2 + BitVec.ofNat 12 i
  | dlcfg0 => 0x880
  | dlbound i => 0x890 + BitVec.ofNat 12 i
  | dmaincall => 0x8b0
  | dretpc => 0x8b1
  | dretpcfz => 0x8b2
  | dfreason => 0x8b3
  | djbound i => 0x8c0 + BitVec.ofNat 12 i
  | djcfg => 0x8c8
  | upkru => 0x800
  | spkrs => 0x9d1
  | spkctl => 0x9d0

/-- `csr_exist`, as `init_csr` fills it. -/
def exist (cfg : Config) : Csr → Bool
  | srnctl => cfg.svinval
  | mtime => !cfg.share
  | ustatus | uie | utvec | uscratch | uepc | ucause | utval | uip | utimer | sedeleg
  | sideleg => cfg.rvn
  | vstart | vxsat | vxrm | vcsr | vl | vtype | vlenb => cfg.rvv
  | mvendorid | marchid | mimpid => cfg.archCsrs
  | pmpcfg _ | pmpaddr _ => cfg.pmpCsr
  | dsmcfg | dsmbound _ | dumcfg | dumbound _ | dlcfg0 | dlbound _ | dmaincall | dretpc | dretpcfz
  | dfreason | djbound _ | djcfg | upkru | spkrs | spkctl => cfg.dasics
  | _ => true

def all : List Csr :=
  [mstatus, misa, medeleg, mideleg, mie, mtvec, mcounteren, mscratch, mepc, mcause, mtval, mip,
    mhartid, sstatus, sie, stvec, scounteren, sscratch, sepc, scause, stval, sip, satp, srnctl,
    fflags, frm, fcsr, mtime, ustatus, uie, utvec, uscratch, uepc, ucause, utval, uip, utimer,
    sedeleg, sideleg, vstart, vxsat, vxrm, vcsr, vl, vtype, vlenb, mvendorid, marchid, mimpid] ++
  (List.finRange 2).map pmpcfg ++ (List.finRange 16).map pmpaddr ++
  [dsmcfg, dumcfg, dlcfg0, dmaincall, dretpc, dretpcfz, dfreason, djcfg, upkru, spkrs, spkctl] ++
  (List.finRange 2).map dsmbound ++ (List.finRange 2).map dumbound ++
  (List.finRange 32).map dlbound ++ (List.finRange 8).map djbound

def ofAddr (cfg : Config) (a : BitVec 12) : Option Csr :=
  all.find? fun c => c.addr == a && c.exist cfg

theorem ofAddr_spec (h : ofAddr cfg a = some c) : c.addr = a ∧ c.exist cfg = true := by
  have := List.find?_some h
  simpa using this

end Csr

end Nemu
