import Nemu.Mmu

namespace Nemu

set_option autoImplicit true

def pageMask : Word := 0xfff

def memRetCrossPage : Word := 2

def vaddrReadCrossPage (P : Platform) (vaddr : Word) (type : MemType) :
    Nat → Nat → Word → Exec Word
  | 0, _, data => pure data
  | n + 1, i, data => do
    let addr := vaddr + BitVec.ofNat 64 i
    let mmuRet ← isaMmuTranslate P addr type
    if mmuRet &&& pageMask ≠ 0 then pure 0
    else do
      let s ← get
      let paddr := (mmuRet &&& ~~~pageMask) ||| (addr &&& pageMask)
      let byte ← paddrRead P paddr 1 type s.mode vaddr
      vaddrReadCrossPage P vaddr type n (i + 1) (data ||| (byte <<< (8 * i)))

def vaddrWriteCrossPage (P : Platform) (vaddr : Word) : Nat → Nat → Word → Exec Unit
  | 0, _, _ => pure ()
  | n + 1, i, data => do
    let addr := vaddr + BitVec.ofNat 64 i
    let mmuRet ← isaMmuTranslate P addr .write
    if mmuRet &&& pageMask ≠ 0 then pure ()
    else do
      let s ← get
      let paddr := (mmuRet &&& ~~~pageMask) ||| (addr &&& pageMask)
      paddrWrite P paddr 1 (data &&& 0xff) s.mode vaddr
      vaddrWriteCrossPage P vaddr n (i + 1) (data >>> 8)

def vaddrMmuRead (P : Platform) (addr : Word) (len : Nat) (type : MemType) : Exec Word := do
  let pgBase ← isaMmuTranslate P addr type
  if pgBase &&& pageMask = 0 then do
    let s ← get
    paddrRead P (pgBase ||| (addr &&& pageMask)) len type s.mode addr
  else if len ≠ 1 ∧ pgBase &&& pageMask = memRetCrossPage then
    vaddrReadCrossPage P addr type len 0 0
  else pure 0

def vaddrMmuWrite (P : Platform) (addr : Word) (len : Nat) (data : Word) : Exec Unit := do
  let pgBase ← isaMmuTranslate P addr .write
  if pgBase &&& pageMask = 0 then do
    let s ← get
    paddrWrite P (pgBase ||| (addr &&& pageMask)) len data s.mode addr
  else if len ≠ 1 ∧ pgBase &&& pageMask = memRetCrossPage then
    vaddrWriteCrossPage P addr len 0 data
  else pure ()

/-- The checks made before an access is translated. `pc` is absent for instruction fetches, which
have no `Decode`. -/
def vaddrCheck (P : Platform) (pc : Option Word) (addr : Word) (len : Nat) (type : MemType) :
    Exec Unit := do
  if P.share ∧ type ≠ .ifetch then isaMisalignDataAddrCheck P addr len type else pure ()
  match pc with
  | some pc => if P.dasics then dasicsLdstHelper P pc addr len type else pure ()
  | none => pure ()

/-- Resolves `MMU_DYNAMIC`. -/
def resolveMmuMode (P : Platform) (addr : Word) (len : Nat) (type : MemType) :
    MmuMode → Exec MmuMode
  | .dynamic => isaMmuCheck P addr len type
  | m => pure m

def vaddrReadInternal (P : Platform) (pc : Option Word) (addr : Word) (len : Nat)
    (type : MemType) (mmuMode : MmuMode) : Exec Word := do
  vaddrCheck P pc addr len type
  let m ← resolveMmuMode P addr len type mmuMode
  if m = .direct then do
    let s ← get
    paddrRead P addr len type s.mode addr
  else vaddrMmuRead P addr len type

def vaddrIfetch (P : Platform) (addr : Word) (len : Nat) : Exec Word :=
  vaddrReadInternal P none addr len .ifetch .dynamic

def vaddrRead (P : Platform) (pc addr : Word) (len : Nat) (mmuMode : MmuMode) : Exec Word :=
  vaddrReadInternal P (some pc) addr len .read mmuMode

def vaddrWrite (P : Platform) (pc addr : Word) (len : Nat) (data : Word) (mmuMode : MmuMode) :
    Exec Unit := do
  vaddrCheck P (some pc) addr len .write
  let m ← resolveMmuMode P addr len .write mmuMode
  if m = .direct then do
    let s ← get
    paddrWrite P addr len data s.mode addr
  else vaddrMmuWrite P addr len data

end Nemu
