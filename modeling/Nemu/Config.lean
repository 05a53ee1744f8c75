import Nemu.Lib.BitField

namespace Nemu

set_option autoImplicit true

abbrev Word := BitVec 64

/-- The `CONFIG_*` options that the modelled code tests, with the dependencies Kconfig puts on
them. `ignoreIllegalMemAccess` is the field of `dynamic_config`, `pmem64` the macro `PMEM64`. -/
structure Config where
  share : Bool
  debug : Bool
  rvb : Bool
  rvk : Bool
  rvv : Bool
  rvn : Bool
  rvDebug : Bool
  dasics : Bool
  pmpCsr : Bool
  pmpCheck : Bool
  pmpNum : Nat
  svinval : Bool
  misaUnchangeable : Bool
  archCsrs : Bool
  mvendorid : Word
  marchid : Word
  mimpid : Word
  fpuNone : Bool
  acSoft : Bool
  guidedExec : Bool
  storeCommit : Bool
  queryRef : Bool
  panicOnUnimpCsr : Bool
  ignoreIllegalMemAccess : Bool
  hasFlash : Bool
  difftestRefQemu : Bool
  reportIllegalInstr : Bool
  mbase : Word
  msize : Word
  paddrBits : Nat
  pmem64 : Bool
  resetVector : Word
  pmpNum_le : pmpNum ≤ 16
  paddrBits_ge : 12 ≤ paddrBits
  paddrBits_le : paddrBits ≤ 56
  pmpCheck_dep : pmpCheck → pmpCsr
  guidedExec_dep : guidedExec → share
  storeCommit_dep : storeCommit → share
  queryRef_dep : queryRef → share
  panicOnUnimpCsr_dep : panicOnUnimpCsr → share
  ignoreIllegalMemAccess_dep : ignoreIllegalMemAccess → share
  difftestRefQemu_dep : difftestRefQemu → share = false
  pmem64_dep : share → pmem64

/-- The stand-alone build with the plain interpreter loop. -/
def Config.standalone : Config where
  share := false
  debug := false
  rvb := true
  rvk := true
  rvv := true
  rvn := true
  rvDebug := true
  dasics := true
  pmpCsr := true
  pmpCheck := true
  pmpNum := 16
  svinval := true
  misaUnchangeable := true
  archCsrs := true
  mvendorid := 0
  marchid := 0
  mimpid := 0
  fpuNone := false
  acSoft := false
  guidedExec := false
  storeCommit := false
  queryRef := false
  panicOnUnimpCsr := false
  ignoreIllegalMemAccess := false
  hasFlash := false
  difftestRefQemu := false
  reportIllegalInstr := true
  mbase := 0x80000000
  msize := 0x8000000
  paddrBits := 40
  pmem64 := false
  resetVector := 0x80100000
  pmpNum_le := by decide
  paddrBits_ge := by decide
  paddrBits_le := by decide
  pmpCheck_dep := by decide
  guidedExec_dep := by decide
  storeCommit_dep := by decide
  queryRef_dep := by decide
  panicOnUnimpCsr_dep := by decide
  ignoreIllegalMemAccess_dep := by decide
  difftestRefQemu_dep := by decide
  pmem64_dep := by decide

/-- The stand-alone build without a check of the PMP. -/
def Config.unchecked : Config :=
  { Config.standalone with
    pmpCheck := false
    pmpCheck_dep := by decide }

/-- The reference built as a shared library for a processor under test. -/
def Config.reference : Config :=
  { Config.standalone with
    share := true
    acSoft := true
    guidedExec := true
    storeCommit := true
    queryRef := true
    paddrBits := 36
    pmem64 := true
    paddrBits_ge := by decide
    paddrBits_le := by decide
    guidedExec_dep := by decide
    storeCommit_dep := by decide
    queryRef_dep := by decide
    panicOnUnimpCsr_dep := by decide
    ignoreIllegalMemAccess_dep := by decide
    difftestRefQemu_dep := by decide
    pmem64_dep := by decide }

/-- The reference without guided execution. -/
def Config.unguided : Config :=
  { Config.reference with
    guidedExec := false
    guidedExec_dep := by decide }

def Config.paddr (cfg : Config) (a : Word) : Word :=
  if cfg.pmem64 then a else a &&& 0xffffffff

end Nemu
