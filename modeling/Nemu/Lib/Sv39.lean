import Mathlib.Data.BitVec

namespace Sv39

set_option autoImplicit true

/-- What an access does with its page. -/
inductive Kind where
  | fetch
  | load
  | store
  deriving DecidableEq

/-- The registers that a translation depends on. -/
structure Context where
  /-- the physical page of the root table -/
  root : BitVec 44
  /-- the access is made with user privilege, otherwise with supervisor privilege -/
  user : Bool
  /-- supervisors may access user pages -/
  sum : Bool
  /-- loads may read executable pages -/
  mxr : Bool
  /-- an access to a page whose A or D bit it would set is a page fault -/
  svade : Bool

/-- A page table entry. -/
structure Entry where
  val : BitVec 64
  deriving DecidableEq

namespace Entry

variable (e : Entry)

def v : Bool := e.val.getLsbD 0

def r : Bool := e.val.getLsbD 1

def w : Bool := e.val.getLsbD 2

def x : Bool := e.val.getLsbD 3

def u : Bool := e.val.getLsbD 4

def a : Bool := e.val.getLsbD 6

def d : Bool := e.val.getLsbD 7

def ppn : BitVec 44 := e.val.extractLsb' 10 44

/-- Not valid, or writable without being readable. -/
def reserved : Bool := !e.v || (!e.r && e.w)

def leaf : Bool := e.r || e.x

/-- The U bit against the privilege of the access. -/
def privileged (c : Context) (k : Kind) : Bool :=
  if e.u then c.user || (c.sum && decide (k ≠ .fetch)) else !c.user

def allows (c : Context) : Kind → Bool
  | .fetch => e.x
  | .load => e.r || (c.mxr && e.x)
  | .store => e.w

/-- The access leaves the bits A and D as they are. -/
def aged (k : Kind) : Bool := e.a && (decide (k ≠ .store) || e.d)

def grants (c : Context) (k : Kind) : Bool :=
  e.privileged c k && e.allows c k && (!c.svade || e.aged k)

/-- A page of size `4096 * 512 ^ level` begins at a multiple of its size. -/
def whole (level : Nat) : Bool := decide (2 ^ (9 * level) ∣ e.ppn.toNat)

/-- The 4 KiB page of `va` in the page of an entry at `level`. -/
def page (level : Nat) (va : BitVec 64) : BitVec 64 :=
  BitVec.ofNat 64 (2 ^ 12 * (2 ^ (9 * level) * (e.ppn.toNat / 2 ^ (9 * level)) +
    va.toNat / 2 ^ 12 % 2 ^ (9 * level)))

end Entry

def vpn (va : BitVec 64) (level : Nat) : Nat := va.toNat / 2 ^ (12 + 9 * level) % 512

def Canonical (va : BitVec 64) : Prop := ∀ i, 39 ≤ i → i < 64 → va.getLsbD i = va.getLsbD 38

/-- Bits 63 to 39 are compared one by one. -/
instance (va : BitVec 64) : Decidable (Canonical va) :=
  decidable_of_iff (∀ i : Fin 64, 39 ≤ i.val → va.getLsbD i = va.getLsbD 38)
    ⟨fun h i h1 h2 => h ⟨i, h2⟩ h1, fun h i h1 => h i h1 i.isLt⟩

/-- The address of the entry for `va` in the table at page `ppn`. -/
def entryAddr (ppn : BitVec 44) (va : BitVec 64) (level : Nat) : BitVec 64 :=
  BitVec.ofNat 64 (2 ^ 12 * ppn.toNat + 8 * vpn va level)

/-- A leaf, where it is and at which level. -/
structure Leaf where
  level : Nat
  addr : BitVec 64
  entry : Entry

def Leaf.admits (l : Leaf) (c : Context) (k : Kind) : Bool :=
  l.entry.grants c k && l.entry.whole l.level

def Leaf.page (l : Leaf) (va : BitVec 64) : BitVec 64 := l.entry.page l.level va

section Walk

variable {m : Type → Type} [Monad m] (read : BitVec 64 → m (BitVec 64))

/-- The descent through the tables from one at `level`. There is no result when it meets a
reserved entry or no leaf. -/
def descend (va : BitVec 64) (level : Nat) (ppn : BitVec 44) : m (Option Leaf) := do
  let val ← read (entryAddr ppn va level)
  let e : Entry := ⟨val⟩
  if e.reserved then pure none
  else if e.leaf then pure (some ⟨level, entryAddr ppn va level, e⟩)
  else match level with
    | 0 => pure none
    | level + 1 => descend va level e.ppn

/-- The leaf entry of an address. -/
def walk (c : Context) (va : BitVec 64) : m (Option Leaf) :=
  if Canonical va then descend read va 2 c.root else pure none

/-- The page of an access, or nothing when it is a page fault. -/
def translate (c : Context) (k : Kind) (va : BitVec 64) : m (Option (BitVec 64)) := do
  let found ← walk read c va
  pure ((found.filter fun l => l.admits c k).map fun l => l.page va)

end Walk

theorem Entry.page_getLsbD (e : Entry) (level : Nat) (va : BitVec 64) (i : Nat) (hi : i < 64) :
    (e.page level va).getLsbD i =
      if i < 12 then false else if i < 12 + 9 * level then va.getLsbD i
      else e.ppn.getLsbD (i - 12) := by
  have hlow : va.toNat / 2 ^ 12 % 2 ^ (9 * level) < 2 ^ (9 * level) :=
    Nat.mod_lt _ (Nat.two_pow_pos _)
  unfold page
  rw [BitVec.getLsbD_ofNat, decide_eq_true hi, Bool.true_and, Nat.testBit_two_pow_mul]
  by_cases h12 : i < 12
  · simp [h12, Nat.not_le.mpr h12]
  rw [if_neg h12, decide_eq_true (Nat.le_of_not_lt h12), Bool.true_and,
    Nat.testBit_two_pow_mul_add _ hlow]
  by_cases hl : i < 12 + 9 * level
  · have hin : i - 12 < 9 * level := by omega
    rw [if_pos hl, if_pos hin, Nat.testBit_mod_two_pow, decide_eq_true hin, Bool.true_and,
      ← Nat.shiftRight_eq_div_pow, Nat.testBit_shiftRight, Nat.add_sub_cancel' (by omega)]
    rfl
  · have hout : ¬ i - 12 < 9 * level := by omega
    rw [if_neg hl, if_neg hout, ← Nat.shiftRight_eq_div_pow, Nat.testBit_shiftRight,
      Nat.add_sub_cancel' (by omega)]
    rfl

end Sv39
