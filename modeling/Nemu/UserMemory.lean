import Nemu.Config
import Nemu.Lib.Effect
import Nemu.Lib.Ring
import Nemu.Lib.Run

namespace Nemu

set_option autoImplicit true

section Model

/-- A `vma_t` without its links. The arguments of the host's `mmap` are the same. -/
structure Vma where
  addr : Word
  length : Word
  prot : BitVec 32
  flags : BitVec 32
  fd : BitVec 32
  offset : Word

/-- A pointer to a `vma_t`; 0 is `&vma_list`. -/
abbrev VmaPtr := Nat

abbrev UserMem := Word → BitVec 8

/-- The state of `memory.c`, with the nodes that `malloc` has handed out, the memory that the guest shares
with its host, and the rest of the host. -/
structure UserState (σ : Type) where
  vma : VmaPtr → Vma
  next : VmaPtr → VmaPtr
  prev : VmaPtr → VmaPtr
  dynStart : VmaPtr
  live : List VmaPtr
  os : σ
  mem : UserMem

/-- The host. `mremap` is only called with the flags 0. -/
structure Host (σ : Type) where
  malloc : σ → List VmaPtr → Option VmaPtr
  mmap : σ → UserMem → Vma → Word × σ × UserMem
  munmap : σ → UserMem → Word → Word → BitVec 32 × σ × UserMem
  mremap : σ → UserMem → Word → Word → Word → Word × σ × UserMem
  malloc_fresh : ∀ o live p, malloc o live = some p → p ≠ 0 ∧ p ∉ live

/-- The assertions of `memory.c`, and a loop that does not end. -/
inductive UserFault where
  | spin | noCandidate | noDynArea | overlap | malloc | mmap | notFound | munmap | mremapFixed | mremap
  deriving DecidableEq

def mapFixed : BitVec 32 := 0x10

def mremapFixed : BitVec 32 := 2

def roundup4096 (a : Word) : Word := (a + 4096 - 1) &&& ~~~(4096 - 1 : Word)

def mapFailed : Word := -1

/-- What the code relies on: an address that is asked for is the one of the result, or the call has failed.
Empty ranges and ranges beyond the address space are refused, and memory outside of the pages of the
range keeps its contents. -/
structure Host.Lawful {σ : Type} (H : Host σ) : Prop where
  mmap : ∀ o mem v, v.flags &&& mapFixed ≠ 0 → (H.mmap o mem v).1 = mapFailed ∨
    ((H.mmap o mem v).1 = v.addr ∧ v.addr.toNat % 4096 = 0 ∧ v.length ≠ 0 ∧
      v.addr.toNat + v.length.toNat < 2 ^ 64 ∧
      ∀ x, ¬ x - v.addr < roundup4096 v.length → (H.mmap o mem v).2.2 x = mem x)
  munmap : ∀ o mem addr length, (H.munmap o mem addr length).1 = 0 → length ≠ 0 ∧
    ∀ x, ¬ x - addr < roundup4096 length → (H.munmap o mem addr length).2.2 x = mem x
  mremap : ∀ o mem oldAddr oldSize newSize, (H.mremap o mem oldAddr oldSize newSize).1 = mapFailed ∨
    ((H.mremap o mem oldAddr oldSize newSize).1 = oldAddr ∧ oldSize ≠ 0 ∧ newSize ≠ 0 ∧
      oldAddr.toNat + newSize.toNat < 2 ^ 64 ∧
      ∀ x, x - oldAddr < oldSize → x - oldAddr < newSize →
        (H.mremap o mem oldAddr oldSize newSize).2.2 x = mem x)

section List

variable {σ : Type} {α β : Type}

def UserState.entries (s : UserState σ) : List VmaPtr :=
  match Ring.walk s.next 0 (fun (acc : List VmaPtr) p => (.inr (acc ++ [p]) : Empty ⊕ List VmaPtr))
    (s.live.length + 1) [] (s.next 0) with
  | some (.inr l) => l
  | _ => []

def vmaListAddAfter (s : UserState σ) (left new : VmaPtr) : UserState σ :=
  { s with
    next := Ring.nextInsert s.next left new
    prev := Ring.prevInsert s.next s.prev left new }

/-- A loop from `p` up to the end of the list. It meets every allocated node once at most. -/
def vmaForeach (s : UserState σ) (body : β → VmaPtr → α ⊕ β) (acc : β) (p : VmaPtr) : Except UserFault (α ⊕ β) :=
  match Ring.walk s.next 0 body (s.live.length + 1) acc p with
  | none => throw .spin
  | some r => pure r

def vmaListFindFixArea (s : UserState σ) (addr length : Word) : Except UserFault (Option VmaPtr) := do
  let r ← vmaForeach s (fun (_ : Unit) p =>
    if (s.vma p).addr = addr ∧ (s.vma p).length = length then .inl p else .inr ()) () (s.next 0)
  match r with
  | .inl p => pure (some p)
  | .inr _ => pure none

def vmaListNewFixArea (s : UserState σ) (addr length : Word) : Except UserFault (Option VmaPtr) := do
  let r ← vmaForeach s (fun (candidate : Option VmaPtr) p =>
    let l := (s.vma p).addr
    let r := (s.vma p).addr + (s.vma p).length
    if ¬ (addr + length ≤ l ∨ r ≤ addr) then .inl ()
    else
      let right := s.next p
      .inr (if (s.vma p).addr < addr ∧ addr < (s.vma right).addr then some p else candidate)) none (s.next 0)
  match r with
  | .inl _ => pure none
  | .inr none => throw .noCandidate
  | .inr (some candidate) => pure (some candidate)

/-- The unsigned size of the gap behind a node. -/
def UserState.freeAfter (s : UserState σ) (p : VmaPtr) : Word :=
  (s.vma (s.next p)).addr - ((s.vma p).addr + (s.vma p).length)

def vmaListNewDynArea (s : UserState σ) (length : Word) : Except UserFault VmaPtr := do
  let r ← vmaForeach s (fun (_ : Unit) p => if length ≤ s.freeAfter p then .inl p else .inr ()) () s.dynStart
  match r with
  | .inl p => pure p
  | .inr _ => throw .noDynArea

end List

section Calls

variable {σ : Type} (H : Host σ)

def vmaNew (s : UserState σ) (v : Vma) : Except UserFault (VmaPtr × UserState σ) :=
  match H.malloc s.os s.live with
  | none => throw .malloc
  | some p => pure (p, { s with vma := Function.update s.vma p v, live := p :: s.live })

def initMem (os : σ) (mem : UserMem) : Except UserFault (UserState σ) := do
  let blank : Vma := ⟨0, 0, 0, 0, 0, 0⟩
  let s : UserState σ := ⟨fun _ => blank, fun _ => 0, fun _ => 0, 0, [], os, mem⟩
  let (zeroVma, s) ← vmaNew H s ⟨0, 0, 0, 0, -1, 0⟩
  let s := vmaListAddAfter s 0 zeroVma
  let (dynStart, s) ← vmaNew H s ⟨0x80000000, 0, 0, 0, -1, 0⟩
  let s := vmaListAddAfter { s with dynStart := dynStart } zeroVma dynStart
  let (kernel, s) ← vmaNew H s ⟨0xc0000000, 0x40000000, 0, 0, -1, 0⟩
  pure (vmaListAddAfter s dynStart kernel)

/-- Where `user_mmap` puts a mapping of a rounded length: the node before it, its address and its flags. -/
def userPlace (s : UserState σ) (addr length : Word) (flags : BitVec 32) :
    Except UserFault (VmaPtr × Word × BitVec 32) := do
  if flags &&& mapFixed ≠ 0 then
    match ← vmaListNewFixArea s addr length with
    | none => throw .overlap
    | some left => pure (left, addr, flags)
  else
    let left ← vmaListNewDynArea s length
    pure (left, (s.vma left).addr + (s.vma left).length, flags ||| mapFixed)

/-- The rest of `user_mmap`. -/
def userInsert (s : UserState σ) (left : VmaPtr) (v : Vma) : Except UserFault (Word × UserState σ) := do
  let (new, s) ← vmaNew H s v
  let s := vmaListAddAfter s left new
  let (ret, os, mem) := H.mmap s.os s.mem v
  if v.flags &&& mapFixed ≠ 0 ∧ ret ≠ v.addr then throw .mmap
  pure (ret, { s with os := os, mem := mem })

def userMmap (s : UserState σ) (addr length : Word) (prot flags fd : BitVec 32) (offset : Word) :
    Except UserFault (Word × UserState σ) := do
  let (left, addr, flags) ← userPlace s addr (roundup4096 length) flags
  userInsert H s left ⟨addr, roundup4096 length, prot, flags, fd, offset⟩

def userMunmap (s : UserState σ) (addr length : Word) : Except UserFault (BitVec 32 × UserState σ) := do
  match ← vmaListFindFixArea s addr length with
  | none => throw .notFound
  | some p =>
    let s := { s with next := Ring.nextRemove s.next s.prev p, prev := Ring.prevRemove s.next s.prev p }
    let (ret, os, mem) := H.munmap s.os s.mem addr length
    if ret ≠ 0 then throw .munmap
    pure (ret, { s with os := os, mem := mem, live := s.live.erase p })

/-- `memcpy`, between ranges that do not overlap. -/
def userMemcpy (mem : UserMem) (dest src n : Word) : UserMem :=
  fun x => if x - dest < n then mem (src + (x - dest)) else mem x

/-- `user_mremap` where the mapping stays. -/
def userResize (s : UserState σ) (p : VmaPtr) (oldAddr oldSize newSize : Word) :
    Except UserFault (Word × UserState σ) := do
  let s := { s with vma := Function.update s.vma p { s.vma p with length := newSize } }
  let (ret, os, mem) := H.mremap s.os s.mem oldAddr oldSize newSize
  if ret ≠ oldAddr then throw .mremap
  pure (oldAddr, { s with os := os, mem := mem })

/-- `user_mremap` where the mapping moves. -/
def userMove (s : UserState σ) (p : VmaPtr) (oldAddr oldSize newSize : Word) :
    Except UserFault (Word × UserState σ) := do
  let (newAddr, s) ← userMmap H s 0 newSize (s.vma p).prot ((s.vma p).flags &&& ~~~mapFixed) (-1) 0
  let s := { s with mem := userMemcpy s.mem newAddr oldAddr oldSize }
  let (_, s) ← userMunmap H s oldAddr (s.vma p).length
  pure (newAddr, s)

/-- `next->addr - p->addr` -/
def UserState.freeToExpand (s : UserState σ) (p : VmaPtr) : Word := (s.vma (s.next p)).addr - (s.vma p).addr

def userMremap (s : UserState σ) (oldAddr oldSize newSize : Word) (flags : BitVec 32) :
    Except UserFault (Word × UserState σ) := do
  match ← vmaListFindFixArea s oldAddr oldSize with
  | none => throw .notFound
  | some p =>
    if flags &&& mremapFixed ≠ 0 then throw .mremapFixed
    if roundup4096 newSize ≤ s.freeToExpand p then userResize H s p oldAddr oldSize (roundup4096 newSize)
    else userMove H s p oldAddr oldSize (roundup4096 newSize)

end Calls

end Model

end Nemu
