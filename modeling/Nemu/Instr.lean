import Nemu.Machine

namespace Nemu

set_option autoImplicit true

/-- What the `preg` of an operand points to. -/
inductive Loc where
  | gpr (r : BitVec 5)
  | fpr (r : BitVec 5)
  | zeroNull
  deriving DecidableEq

/-- An operand. The source keeps `preg` and `imm` in a union; a decode helper sets the one that
the executor reads. -/
structure Operand where
  preg : Loc
  imm : Word
  deriving DecidableEq

/-- The integer operations of `c_op.h`, and those of RV64M that are written out in `exec.h`. -/
inductive AluOp where
  | add | sub | shl | sar | shr | slt | sltu | xor | or | and
  | addw | subw | shlw | shrw | sarw
  | mul | mulh | mulhu | mulhsu | div | divu | rem | remu | mulw | divw | divuw | remw | remuw
  deriving DecidableEq

inductive RelOp where
  | EQ | NE | LT | GE | LTU | GEU
  deriving DecidableEq

inductive RvbOp where
  | andn | orn | xnor | min | minu | max | maxu | bclr | bset | binv | bext
  | bclri | bseti | binvi | bexti | clmul | clmulr | clmulh | rol | rolw | ror | rori | rorw | roriw
  | sh1add | sh2add | sh3add | sh1adduw | sh2adduw | sh3adduw | pack | packh | packw | xpermn
  | xpermb | adduw | slliuw
  | clz | clzw | ctz | ctzw | cpop | cpopw | orc_b | rev8 | revb | sext_b | sext_h
  deriving DecidableEq

inductive RvkOp where
  | aes64es | aes64esm | aes64ds | aes64dsm | aes64ks1i | aes64ks2 | sm4ks | sm4ed
  | aes64im | sm3p0 | sm3p1 | sha256sig0 | sha256sig1 | sha256sum0 | sha256sum1
  | sha512sig0 | sha512sig1 | sha512sum0 | sha512sum1
  deriving DecidableEq

inductive FpWidth where
  | W32 | W64
  deriving DecidableEq

/-- The operations of `rtl_fpcall`, in the order of `FPCALL_*`. -/
inductive FpCall where
  | ADD | SUB | MUL | DIV | SQRT | MADD
  | I32ToF | U32ToF | I64ToF | U64ToF | FToI32 | FToU32 | FToI64 | FToU64 | F32ToF64 | F64ToF32
  | MAX | MIN | LE | EQ | LT
  deriving DecidableEq

/-- `op < FPCALL_NEED_RM`. -/
def FpCall.needRm : FpCall → Bool
  | MAX | MIN | LE | EQ | LT => false
  | _ => true

/-- The indices of `g_exec_table`. Executors that differ only in an operation, a width or an MMU
mode share a constructor; all executors of SYSTEM run `rtl_sys_slow_path` and all of AMO
`rtl_amo_slow_path`, whichever index the decoder gives them. -/
inductive ExecId where
  | inv | rt_inv | nemu_trap | fence_i | fence
  | lui | auipc
  | computeReg (o : AluOp) | computeImm (o : AluOp)
  | compressedReg (o : AluOp) | compressedImm (o : AluOp)
  | c_mv | c_li | p_li_0 | p_li_1 | p_inc | p_dec | p_sext_w
  | rvbReg (o : RvbOp) | rvbImm (o : RvbOp)
  | rvkReg (o : RvkOp) | rvkImm (o : RvkOp)
  | load (signed : Bool) (len : Nat) (mmuMode : MmuMode)
  | store (len : Nat) (mmuMode : MmuMode)
  | jal | p_jal | c_j | dasicscall_j
  | jalr | p_ret | c_jr | c_jalr | dasicscall_jr
  | branch (o : RelOp) | c_beqz | c_bnez | p_blez | p_bgez | p_bltz | p_bgtz
  | atomic | system
  | fload (w : FpWidth) (mmuMode : MmuMode) | fstore (w : FpWidth) (mmuMode : MmuMode)
  | fop (o : FpCall) (w : FpWidth)
  | funary (o : FpCall) (w wDest : FpWidth)
  | fcvtToI (o : FpCall) (w : FpWidth)
  | fcmp (o : FpCall) (w : FpWidth)
  | fmadd (negProduct negAddend : Bool) (w : FpWidth)
  | fsgnj (w : FpWidth) | fsgnjn (w : FpWidth) | fsgnjx (w : FpWidth)
  | fmv_x_w | fmv_x_d | fmv_w_x | fmv_d_x | fclass (w : FpWidth)
  | vector (mmuMode : MmuMode)
  deriving DecidableEq

/-- The part of `Decode` that an executor reads. -/
structure Decode where
  pc : Word
  snpc : Word
  instr : BitVec 32
  id : ExecId
  dest : Operand
  src1 : Operand
  src2 : Operand
  deriving DecidableEq

/-- The CSRs that vector executors write, through `vcsr_write` or directly. -/
inductive VCsr where
  | vstart | vl | vtype
  deriving DecidableEq

def VCsr.csr : VCsr → Csr
  | vstart => .vstart
  | vl => .vl
  | vtype => .vtype

/-- What a vector executor may do, step by step. -/
inductive VProg where
  | done
  | inv
  | stuck
  | get (k : Machine → VProg)
  | setVr (r : BitVec 5) (v : BitVec 128) (k : VProg)
  | setGpr (r : BitVec 5) (v : Word) (k : VProg)
  | setCsr (c : VCsr) (v : Word) (k : VProg)
  | load (addr : Word) (len : Nat) (k : Word → VProg)
  | store (addr : Word) (len : Nat) (data : Word) (k : VProg)

/-- The build, with everything the model leaves abstract: the devices, the FPU, and the values
of the bit-manipulation, cryptography and vector executors. -/
structure Platform extends Config where
  inMmio : Word → Bool
  mmioAccess : List DevEvent → MmioReq → Option MmioReply
  clintUptime : List DevEvent → Word × Bool
  fpu : FpCall → FpWidth → Option (BitVec 32) → Word → Word → Word → Word × BitVec 32
  fpClassify : FpWidth → Word → Word
  rvbValue : RvbOp → Word → Word → Word
  rvkValue : RvkOp → BitVec 32 → Word → Word → Word
  vector : Decode → VProg

/-- A build without devices and with trivial abstract parts. -/
def Platform.bare (cfg : Config) : Platform :=
  { toConfig := cfg
    inMmio := fun _ => false
    mmioAccess := fun _ _ => none
    clintUptime := fun _ => (0, false)
    fpu := fun _ _ _ _ _ _ => (0, 0)
    fpClassify := fun _ _ => 0
    rvbValue := fun _ _ _ => 0
    rvkValue := fun _ _ _ _ => 0
    vector := fun _ => .inv }

end Nemu
