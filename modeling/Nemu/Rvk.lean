import Nemu.Rvb

namespace Nemu

set_option autoImplicit true

section Tables

def aesEncSbox : List (BitVec 8) :=
  [0x63, 0x7c, 0x77, 0x7b, 0xf2, 0x6b, 0x6f, 0xc5, 0x30, 0x01, 0x67, 0x2b, 0xfe, 0xd7, 0xab, 0x76,
   0xca, 0x82, 0xc9, 0x7d, 0xfa, 0x59, 0x47, 0xf0, 0xad, 0xd4, 0xa2, 0xaf, 0x9c, 0xa4, 0x72, 0xc0,
   0xb7, 0xfd, 0x93, 0x26, 0x36, 0x3f, 0xf7, 0xcc, 0x34, 0xa5, 0xe5, 0xf1, 0x71, 0xd8, 0x31, 0x15,
   0x04, 0xc7, 0x23, 0xc3, 0x18, 0x96, 0x05, 0x9a, 0x07, 0x12, 0x80, 0xe2, 0xeb, 0x27, 0xb2, 0x75,
   0x09, 0x83, 0x2c, 0x1a, 0x1b, 0x6e, 0x5a, 0xa0, 0x52, 0x3b, 0xd6, 0xb3, 0x29, 0xe3, 0x2f, 0x84,
   0x53, 0xd1, 0x00, 0xed, 0x20, 0xfc, 0xb1, 0x5b, 0x6a, 0xcb, 0xbe, 0x39, 0x4a, 0x4c, 0x58, 0xcf,
   0xd0, 0xef, 0xaa, 0xfb, 0x43, 0x4d, 0x33, 0x85, 0x45, 0xf9, 0x02, 0x7f, 0x50, 0x3c, 0x9f, 0xa8,
   0x51, 0xa3, 0x40, 0x8f, 0x92, 0x9d, 0x38, 0xf5, 0xbc, 0xb6, 0xda, 0x21, 0x10, 0xff, 0xf3, 0xd2,
   0xcd, 0x0c, 0x13, 0xec, 0x5f, 0x97, 0x44, 0x17, 0xc4, 0xa7, 0x7e, 0x3d, 0x64, 0x5d, 0x19, 0x73,
   0x60, 0x81, 0x4f, 0xdc, 0x22, 0x2a, 0x90, 0x88, 0x46, 0xee, 0xb8, 0x14, 0xde, 0x5e, 0x0b, 0xdb,
   0xe0, 0x32, 0x3a, 0x0a, 0x49, 0x06, 0x24, 0x5c, 0xc2, 0xd3, 0xac, 0x62, 0x91, 0x95, 0xe4, 0x79,
   0xe7, 0xc8, 0x37, 0x6d, 0x8d, 0xd5, 0x4e, 0xa9, 0x6c, 0x56, 0xf4, 0xea, 0x65, 0x7a, 0xae, 0x08,
   0xba, 0x78, 0x25, 0x2e, 0x1c, 0xa6, 0xb4, 0xc6, 0xe8, 0xdd, 0x74, 0x1f, 0x4b, 0xbd, 0x8b, 0x8a,
   0x70, 0x3e, 0xb5, 0x66, 0x48, 0x03, 0xf6, 0x0e, 0x61, 0x35, 0x57, 0xb9, 0x86, 0xc1, 0x1d, 0x9e,
   0xe1, 0xf8, 0x98, 0x11, 0x69, 0xd9, 0x8e, 0x94, 0x9b, 0x1e, 0x87, 0xe9, 0xce, 0x55, 0x28, 0xdf,
   0x8c, 0xa1, 0x89, 0x0d, 0xbf, 0xe6, 0x42, 0x68, 0x41, 0x99, 0x2d, 0x0f, 0xb0, 0x54, 0xbb, 0x16]

def aesDecSbox : List (BitVec 8) :=
  [0x52, 0x09, 0x6a, 0xd5, 0x30, 0x36, 0xa5, 0x38, 0xbf, 0x40, 0xa3, 0x9e, 0x81, 0xf3, 0xd7, 0xfb,
   0x7c, 0xe3, 0x39, 0x82, 0x9b, 0x2f, 0xff, 0x87, 0x34, 0x8e, 0x43, 0x44, 0xc4, 0xde, 0xe9, 0xcb,
   0x54, 0x7b, 0x94, 0x32, 0xa6, 0xc2, 0x23, 0x3d, 0xee, 0x4c, 0x95, 0x0b, 0x42, 0xfa, 0xc3, 0x4e,
   0x08, 0x2e, 0xa1, 0x66, 0x28, 0xd9, 0x24, 0xb2, 0x76, 0x5b, 0xa2, 0x49, 0x6d, 0x8b, 0xd1, 0x25,
   0x72, 0xf8, 0xf6, 0x64, 0x86, 0x68, 0x98, 0x16, 0xd4, 0xa4, 0x5c, 0xcc, 0x5d, 0x65, 0xb6, 0x92,
   0x6c, 0x70, 0x48, 0x50, 0xfd, 0xed, 0xb9, 0xda, 0x5e, 0x15, 0x46, 0x57, 0xa7, 0x8d, 0x9d, 0x84,
   0x90, 0xd8, 0xab, 0x00, 0x8c, 0xbc, 0xd3, 0x0a, 0xf7, 0xe4, 0x58, 0x05, 0xb8, 0xb3, 0x45, 0x06,
   0xd0, 0x2c, 0x1e, 0x8f, 0xca, 0x3f, 0x0f, 0x02, 0xc1, 0xaf, 0xbd, 0x03, 0x01, 0x13, 0x8a, 0x6b,
   0x3a, 0x91, 0x11, 0x41, 0x4f, 0x67, 0xdc, 0xea, 0x97, 0xf2, 0xcf, 0xce, 0xf0, 0xb4, 0xe6, 0x73,
   0x96, 0xac, 0x74, 0x22, 0xe7, 0xad, 0x35, 0x85, 0xe2, 0xf9, 0x37, 0xe8, 0x1c, 0x75, 0xdf, 0x6e,
   0x47, 0xf1, 0x1a, 0x71, 0x1d, 0x29, 0xc5, 0x89, 0x6f, 0xb7, 0x62, 0x0e, 0xaa, 0x18, 0xbe, 0x1b,
   0xfc, 0x56, 0x3e, 0x4b, 0xc6, 0xd2, 0x79, 0x20, 0x9a, 0xdb, 0xc0, 0xfe, 0x78, 0xcd, 0x5a, 0xf4,
   0x1f, 0xdd, 0xa8, 0x33, 0x88, 0x07, 0xc7, 0x31, 0xb1, 0x12, 0x10, 0x59, 0x27, 0x80, 0xec, 0x5f,
   0x60, 0x51, 0x7f, 0xa9, 0x19, 0xb5, 0x4a, 0x0d, 0x2d, 0xe5, 0x7a, 0x9f, 0x93, 0xc9, 0x9c, 0xef,
   0xa0, 0xe0, 0x3b, 0x4d, 0xae, 0x2a, 0xf5, 0xb0, 0xc8, 0xeb, 0xbb, 0x3c, 0x83, 0x53, 0x99, 0x61,
   0x17, 0x2b, 0x04, 0x7e, 0xba, 0x77, 0xd6, 0x26, 0xe1, 0x69, 0x14, 0x63, 0x55, 0x21, 0x0c, 0x7d]

def sm4Sbox : List (BitVec 8) :=
  [0xd6, 0x90, 0xe9, 0xfe, 0xcc, 0xe1, 0x3d, 0xb7, 0x16, 0xb6, 0x14, 0xc2, 0x28, 0xfb, 0x2c, 0x05,
   0x2b, 0x67, 0x9a, 0x76, 0x2a, 0xbe, 0x04, 0xc3, 0xaa, 0x44, 0x13, 0x26, 0x49, 0x86, 0x06, 0x99,
   0x9c, 0x42, 0x50, 0xf4, 0x91, 0xef, 0x98, 0x7a, 0x33, 0x54, 0x0b, 0x43, 0xed, 0xcf, 0xac, 0x62,
   0xe4, 0xb3, 0x1c, 0xa9, 0xc9, 0x08, 0xe8, 0x95, 0x80, 0xdf, 0x94, 0xfa, 0x75, 0x8f, 0x3f, 0xa6,
   0x47, 0x07, 0xa7, 0xfc, 0xf3, 0x73, 0x17, 0xba, 0x83, 0x59, 0x3c, 0x19, 0xe6, 0x85, 0x4f, 0xa8,
   0x68, 0x6b, 0x81, 0xb2, 0x71, 0x64, 0xda, 0x8b, 0xf8, 0xeb, 0x0f, 0x4b, 0x70, 0x56, 0x9d, 0x35,
   0x1e, 0x24, 0x0e, 0x5e, 0x63, 0x58, 0xd1, 0xa2, 0x25, 0x22, 0x7c, 0x3b, 0x01, 0x21, 0x78, 0x87,
   0xd4, 0x00, 0x46, 0x57, 0x9f, 0xd3, 0x27, 0x52, 0x4c, 0x36, 0x02, 0xe7, 0xa0, 0xc4, 0xc8, 0x9e,
   0xea, 0xbf, 0x8a, 0xd2, 0x40, 0xc7, 0x38, 0xb5, 0xa3, 0xf7, 0xf2, 0xce, 0xf9, 0x61, 0x15, 0xa1,
   0xe0, 0xae, 0x5d, 0xa4, 0x9b, 0x34, 0x1a, 0x55, 0xad, 0x93, 0x32, 0x30, 0xf5, 0x8c, 0xb1, 0xe3,
   0x1d, 0xf6, 0xe2, 0x2e, 0x82, 0x66, 0xca, 0x60, 0xc0, 0x29, 0x23, 0xab, 0x0d, 0x53, 0x4e, 0x6f,
   0xd5, 0xdb, 0x37, 0x45, 0xde, 0xfd, 0x8e, 0x2f, 0x03, 0xff, 0x6a, 0x72, 0x6d, 0x6c, 0x5b, 0x51,
   0x8d, 0x1b, 0xaf, 0x92, 0xbb, 0xdd, 0xbc, 0x7f, 0x11, 0xd9, 0x5c, 0x41, 0x1f, 0x10, 0x5a, 0xd8,
   0x0a, 0xc1, 0x31, 0x88, 0xa5, 0xcd, 0x7b, 0xbd, 0x2d, 0x74, 0xd0, 0x12, 0xb8, 0xe5, 0xb4, 0xb0,
   0x89, 0x69, 0x97, 0x4a, 0x0c, 0x96, 0x77, 0x7e, 0x65, 0xb9, 0xf1, 0x09, 0xc5, 0x6e, 0xc6, 0x84,
   0x18, 0xf0, 0x7d, 0xec, 0x3a, 0xdc, 0x4d, 0x20, 0x79, 0xee, 0x5f, 0x3e, 0xd7, 0xcb, 0x39, 0x48]

end Tables

section Aes

/-- `AES_SHIFROWS_LO`, on signed operands. -/
def aesShifrowsLo (rs1 rs2 : Word) : Word :=
  ((rs1.sshiftRight 24 &&& 0xff) <<< 56) |||
  ((rs2.sshiftRight 48 &&& 0xff) <<< 48) |||
  ((rs2.sshiftRight 8 &&& 0xff) <<< 40) |||
  ((rs1.sshiftRight 32 &&& 0xff) <<< 32) |||
  ((rs2.sshiftRight 56 &&& 0xff) <<< 24) |||
  ((rs2.sshiftRight 16 &&& 0xff) <<< 16) |||
  ((rs1.sshiftRight 40 &&& 0xff) <<< 8) |||
  ((rs1.sshiftRight 0 &&& 0xff) <<< 0)

def aesInvshifrowsLo (rs1 rs2 : Word) : Word :=
  ((rs2.sshiftRight 24 &&& 0xff) <<< 56) |||
  ((rs2.sshiftRight 48 &&& 0xff) <<< 48) |||
  ((rs1.sshiftRight 8 &&& 0xff) <<< 40) |||
  ((rs1.sshiftRight 32 &&& 0xff) <<< 32) |||
  ((rs1.sshiftRight 56 &&& 0xff) <<< 24) |||
  ((rs2.sshiftRight 16 &&& 0xff) <<< 16) |||
  ((rs2.sshiftRight 40 &&& 0xff) <<< 8) |||
  ((rs1.sshiftRight 0 &&& 0xff) <<< 0)

/-- The lookups of `aes64es` and `aes64ds`. `none` where an index is outside of the table. -/
def aesSubBytes (box : List (BitVec 8)) (temp : Word) : Option Word := do
  let b0 ← box[(temp >>> 0 &&& 0xff).toNat]?
  let b1 ← box[(temp >>> 8 &&& 0xff).toNat]?
  let b2 ← box[(temp >>> 16 &&& 0xff).toNat]?
  let b3 ← box[(temp >>> 24 &&& 0xff).toNat]?
  let b4 ← box[(temp >>> 32 &&& 0xff).toNat]?
  let b5 ← box[(temp >>> 40 &&& 0xff).toNat]?
  let b6 ← box[(temp >>> 48 &&& 0xff).toNat]?
  let b7 ← box[(temp >>> 56 &&& 0xff).toNat]?
  pure (b0.setWidth 64 <<< 0 ||| b1.setWidth 64 <<< 8 ||| b2.setWidth 64 <<< 16 ||| b3.setWidth 64 <<< 24 |||
    b4.setWidth 64 <<< 32 ||| b5.setWidth 64 <<< 40 ||| b6.setWidth 64 <<< 48 ||| b7.setWidth 64 <<< 56)

def aesXtime (a : BitVec 32) : BitVec 32 := (a <<< 1) ^^^ (if a &&& 0x80 ≠ 0 then 0x1b else 0)

def aesGfmul (a b : BitVec 32) : BitVec 32 :=
  ((if b &&& 0x1 ≠ 0 then a else 0) ^^^
    (if b &&& 0x2 ≠ 0 then aesXtime a else 0) ^^^
    (if b &&& 0x4 ≠ 0 then aesXtime (aesXtime a) else 0) ^^^
    (if b &&& 0x8 ≠ 0 then aesXtime (aesXtime (aesXtime a)) else 0)) &&& 0xff

def aesBy (x : BitVec 32) (i : Nat) : BitVec 32 := x >>> (8 * i) &&& 0xff

def aesMixbyte (col : BitVec 32) (b0 b1 b2 b3 : Nat) : BitVec 32 :=
  aesBy col b3 ^^^ aesBy col b2 ^^^ aesGfmul (aesBy col b1) 3 ^^^ aesGfmul (aesBy col b0) 2

def aesMixcolumn (col : BitVec 32) : BitVec 32 :=
  aesMixbyte col 3 0 1 2 <<< 24 ||| aesMixbyte col 2 3 0 1 <<< 16 ||| aesMixbyte col 1 2 3 0 <<< 8 |||
    aesMixbyte col 0 1 2 3 <<< 0

def aesInvmixbyte (col : BitVec 32) (b0 b1 b2 b3 : Nat) : BitVec 32 :=
  aesGfmul (aesBy col b3) 0x9 ^^^ aesGfmul (aesBy col b2) 0xd ^^^ aesGfmul (aesBy col b1) 0xb ^^^
    aesGfmul (aesBy col b0) 0xe

def aesInvmixcolumn (col : BitVec 32) : BitVec 32 :=
  aesInvmixbyte col 3 0 1 2 <<< 24 ||| aesInvmixbyte col 2 3 0 1 <<< 16 ||| aesInvmixbyte col 1 2 3 0 <<< 8 |||
    aesInvmixbyte col 0 1 2 3 <<< 0

/-- `((uint64_t)col_1 << 32) | col_0` -/
def joinColumns (col1 col0 : BitVec 32) : Word := col1.setWidth 64 <<< 32 ||| col0.setWidth 64

def aes64es (rs1 rs2 : Word) : Option Word := aesSubBytes aesEncSbox (aesShifrowsLo rs1 rs2)

def aes64esm (rs1 rs2 : Word) : Option Word := do
  let temp ← aes64es rs1 rs2
  let col0 := temp.setWidth 32
  let col1 := (temp >>> 32).setWidth 32
  pure (joinColumns (aesMixcolumn col1) (aesMixcolumn col0))

def aes64ds (rs1 rs2 : Word) : Option Word := aesSubBytes aesDecSbox (aesInvshifrowsLo rs1 rs2)

def aes64dsm (rs1 rs2 : Word) : Option Word := do
  let temp ← aes64ds rs1 rs2
  let col0 := temp.setWidth 32
  let col1 := (temp >>> 32).setWidth 32
  pure (joinColumns (aesInvmixcolumn col1) (aesInvmixcolumn col0))

def aes64im (rs1 : Word) : Word :=
  let col0 := rs1.setWidth 32
  let col1 := (rs1.sshiftRight 32).setWidth 32
  joinColumns (aesInvmixcolumn col1) (aesInvmixcolumn col0)

def roundConsts : List (BitVec 8) := [0x01, 0x02, 0x04, 0x08, 0x10, 0x20, 0x40, 0x80, 0x1b, 0x36]

/-- The lookups of `aes64ks1i`, which make a word. -/
def aesSubWord (temp : BitVec 32) : Option (BitVec 32) := do
  let b3 ← aesEncSbox[(temp >>> 24 &&& 0xff).toNat]?
  let b2 ← aesEncSbox[(temp >>> 16 &&& 0xff).toNat]?
  let b1 ← aesEncSbox[(temp >>> 8 &&& 0xff).toNat]?
  let b0 ← aesEncSbox[(temp >>> 0 &&& 0xff).toNat]?
  pure (b3.setWidth 32 <<< 24 ||| b2.setWidth 32 <<< 16 ||| b1.setWidth 32 <<< 8 ||| b0.setWidth 32 <<< 0)

def aes64ks1i (rs1 rs2 : Word) : Option Word := do
  let temp := (rs1.sshiftRight 32).setWidth 32
  let encRcon := (rs2 &&& 0xf).setWidth 8
  if encRcon ≠ 0xa then do
    let rcon ← roundConsts[encRcon.toNat]?
    let temp ← aesSubWord (temp >>> 8 ||| temp <<< 24)
    pure (joinColumns (temp ^^^ rcon.setWidth 32) (temp ^^^ rcon.setWidth 32))
  else do
    let temp ← aesSubWord temp
    pure (joinColumns temp temp)

def aes64ks2 (rs1 rs2 : Word) : Word :=
  let lo := (rs1.sshiftRight 32 ^^^ rs2).setWidth 32
  let hi := (rs2.sshiftRight 32 ^^^ lo.setWidth 64).setWidth 32
  joinColumns hi lo

end Aes

section Sha

def sha256sum0 (rs1 : BitVec 32) : BitVec 32 := rv32Ror rs1 2 ^^^ rv32Ror rs1 13 ^^^ rv32Ror rs1 22

def sha256sum1 (rs1 : BitVec 32) : BitVec 32 := rv32Ror rs1 6 ^^^ rv32Ror rs1 11 ^^^ rv32Ror rs1 25

def sha256sig0 (rs1 : BitVec 32) : BitVec 32 := rv32Ror rs1 7 ^^^ rv32Ror rs1 18 ^^^ rs1 >>> 3

def sha256sig1 (rs1 : BitVec 32) : BitVec 32 := rv32Ror rs1 17 ^^^ rv32Ror rs1 19 ^^^ rs1 >>> 10

def sha512sum0 (rs1 : Word) : Word := rv64Ror rs1 28 ^^^ rv64Ror rs1 34 ^^^ rv64Ror rs1 39

def sha512sum1 (rs1 : Word) : Word := rv64Ror rs1 14 ^^^ rv64Ror rs1 18 ^^^ rv64Ror rs1 41

def sha512sig0 (rs1 : Word) : Word := rv64Ror rs1 1 ^^^ rv64Ror rs1 8 ^^^ rs1 >>> 7

def sha512sig1 (rs1 : Word) : Word := rv64Ror rs1 19 ^^^ rv64Ror rs1 61 ^^^ rs1 >>> 6

def sm3p0 (rs1 : BitVec 32) : BitVec 32 := rs1 ^^^ rv32Rol rs1 9 ^^^ rv32Rol rs1 17

def sm3p1 (rs1 : BitVec 32) : BitVec 32 := rs1 ^^^ rv32Rol rs1 15 ^^^ rv32Rol rs1 23

end Sha

section Sm4

/-- What the host computes for shifts of 32-bit values. The language says so for amounts below 32 only. -/
structure HostShift where
  shl : BitVec 32 → Nat → BitVec 32
  shr : BitVec 32 → Nat → BitVec 32
  shl_lt : ∀ x n, n < 32 → shl x n = x <<< n
  shr_lt : ∀ x n, n < 32 → shr x n = x >>> n

/-- A computation that records the amounts of its shifts, and fails where an index is outside of a table. -/
abbrev Shifts := StateT (List Nat) Option

variable (H : HostShift)

def HostShift.left (x : BitVec 32) (n : Nat) : Shifts (BitVec 32) := do
  modify (· ++ [n])
  pure (H.shl x n)

def HostShift.right (x : BitVec 32) (n : Nat) : Shifts (BitVec 32) := do
  modify (· ++ [n])
  pure (H.shr x n)

/-- `(funct7 >> 5) << 3` -/
def sm4Bs (funct7 : BitVec 7) : Nat := ((funct7.setWidth 8 >>> 5) <<< 3).toNat

def sm4ed (rs1 rs2 : BitVec 32) (funct7 : BitVec 7) : Shifts (BitVec 32) := do
  let bs := sm4Bs funct7
  let sbIn ← H.right rs2 bs
  let sbOut8 ← StateT.lift sm4Sbox[(sbIn &&& 0xff).toNat]?
  let sbOut := sbOut8.setWidth 32
  let t1 ← H.left sbOut 8
  let t2 ← H.left sbOut 2
  let t3 ← H.left sbOut 18
  let t4 ← H.left (sbOut &&& 0x3f) 26
  let t5 ← H.left (sbOut &&& 0xc0) 10
  let linear := sbOut ^^^ t1 ^^^ t2 ^^^ t3 ^^^ t4 ^^^ t5
  let hi ← H.left linear bs
  let lo ← H.right linear (32 - bs)
  pure ((hi ||| lo) ^^^ rs1)

def sm4ks (rs1 rs2 : BitVec 32) (funct7 : BitVec 7) : Shifts (BitVec 32) := do
  let bs := sm4Bs funct7
  let sbIn ← H.right rs2 bs
  let sbOut8 ← StateT.lift sm4Sbox[(sbIn &&& 0xff).toNat]?
  let sbOut := sbOut8.setWidth 32
  let t1 ← H.left (sbOut &&& 0x07) 29
  let t2 ← H.left (sbOut &&& 0xfe) 7
  let t3 ← H.left (sbOut &&& 0x01) 23
  let t4 ← H.left (sbOut &&& 0xf8) 13
  let linear := sbOut ^^^ t1 ^^^ t2 ^^^ t3 ^^^ t4
  let hi ← H.left linear bs
  let lo ← H.right linear (32 - bs)
  pure ((hi ||| lo) ^^^ rs1)

end Sm4

/-- What an executor of RVK writes, from `*dsrc1` and, as `src2`, `*dsrc2` or the immediate. -/
def rvkExec (H : HostShift) (funct7 : BitVec 7) (dsrc1 src2 : Word) : RvkOp → Option Word
  | .aes64es => aes64es dsrc1 src2
  | .aes64esm => aes64esm dsrc1 src2
  | .aes64ds => aes64ds dsrc1 src2
  | .aes64dsm => aes64dsm dsrc1 src2
  | .aes64im => some (aes64im dsrc1)
  | .aes64ks1i => aes64ks1i dsrc1 src2
  | .aes64ks2 => some (aes64ks2 dsrc1 src2)
  | .sha256sum0 => some ((sha256sum0 (dsrc1.setWidth 32)).signExtend 64)
  | .sha256sum1 => some ((sha256sum1 (dsrc1.setWidth 32)).signExtend 64)
  | .sha256sig0 => some ((sha256sig0 (dsrc1.setWidth 32)).signExtend 64)
  | .sha256sig1 => some ((sha256sig1 (dsrc1.setWidth 32)).signExtend 64)
  | .sha512sum0 => some (sha512sum0 dsrc1)
  | .sha512sum1 => some (sha512sum1 dsrc1)
  | .sha512sig0 => some (sha512sig0 dsrc1)
  | .sha512sig1 => some (sha512sig1 dsrc1)
  | .sm3p0 => some ((sm3p0 (dsrc1.setWidth 32)).signExtend 64)
  | .sm3p1 => some ((sm3p1 (dsrc1.setWidth 32)).signExtend 64)
  | .sm4ed => ((sm4ed H (dsrc1.setWidth 32) (src2.setWidth 32) funct7).run []).map fun r => r.1.signExtend 64
  | .sm4ks => ((sm4ks H (dsrc1.setWidth 32) (src2.setWidth 32) funct7).run []).map fun r => r.1.signExtend 64

end Nemu
