import Nemu.AesRounds
import Nemu.Clmul
import Nemu.Footprint
import Nemu.Shuffle

namespace Nemu

open Effect Polynomial Gf2

set_option autoImplicit true

/-- What an executor of B writes, where its function is one of those above. -/
def rvbExec (dsrc1 src2 : Word) (o : RvbOp) : Option Word :=
  (rvbShift dsrc1 src2 o <|> rvbClmul dsrc1 src2 o) <|> rvbShuffle dsrc1 o

/-- A build whose executors of B and K compute with these functions, where they end. -/
def Platform.withIntrinsics (P : Platform) (H : HostShift) : Platform :=
  { P with
    rvbValue := fun o x y => (rvbExec x y o).getD (P.rvbValue o x y)
    rvkValue := fun o instr x y => (rvkExec H (instr.extractLsb' 25 7) x y o).getD (P.rvkValue o instr x y) }

/-- An instruction of B with the operation `o`, and the second operand that it reads in `s`. -/
inductive RvbReads (d : Decode) (s : Machine) (o : RvbOp) : Word → Prop where
  | reg : d.id = .rvbReg o → RvbReads d s o (s.readLoc d.src2.preg)
  | imm : d.id = .rvbImm o → RvbReads d s o d.src2.imm

/-- The same for K. -/
inductive RvkReads (d : Decode) (s : Machine) (o : RvkOp) : Word → Prop where
  | reg : d.id = .rvkReg o → RvkReads d s o (s.readLoc d.src2.preg)
  | imm : d.id = .rvkImm o → RvkReads d s o d.src2.imm

variable {P : Platform} {H : HostShift} {d : Decode} {s : Machine} {x y v : Word}

section Executors

theorem exec_rvb {o : RvbOp} (h : RvbReads d s o y) (hv : rvbExec (s.readLoc d.src1.preg) y o = some v) :
    exec (P.withIntrinsics H) d s = .ok () (s.writeLoc d.dest.preg v) := by
  have hvalue : (P.withIntrinsics H).rvbValue o (s.readLoc d.src1.preg) y = v := by
    change (rvbExec _ _ o).getD _ = v
    rw [hv, Option.getD_some]
  rw [← hvalue]
  unfold exec
  cases h with
  | reg hid =>
    rw [hid]
    rfl
  | imm hid =>
    rw [hid]
    rfl

theorem exec_rvk {o : RvkOp} (h : RvkReads d s o y)
    (hv : rvkExec H (d.instr.extractLsb' 25 7) (s.readLoc d.src1.preg) y o = some v) :
    exec (P.withIntrinsics H) d s = .ok () (s.writeLoc d.dest.preg v) := by
  have hvalue : (P.withIntrinsics H).rvkValue o d.instr (s.readLoc d.src1.preg) y = v := by
    change (rvkExec H _ _ _ o).getD _ = v
    rw [hv, Option.getD_some]
  rw [← hvalue]
  unfold exec
  cases h with
  | reg hid =>
    rw [hid]
    rfl
  | imm hid =>
    rw [hid]
    rfl

end Executors

section Programs

/-- An instruction with three registers. -/
structure Decode.Takes (d : Decode) (id : ExecId) (rd rs1 rs2 : Loc) : Prop where
  id : d.id = id
  dest : d.dest.preg = rd
  src1 : d.src1.preg = rs1
  src2 : d.src2.preg = rs2

variable {rd rs1 rs2 : Loc}

theorem exec_rvbReg {o : RvbOp} (h : d.Takes (.rvbReg o) rd rs1 rs2)
    (hv : rvbExec (s.readLoc rs1) (s.readLoc rs2) o = some v) :
    exec (P.withIntrinsics H) d s = .ok () (s.writeLoc rd v) := by
  obtain ⟨hid, rfl, rfl, rfl⟩ := h
  exact exec_rvb (.reg hid) hv

theorem exec_rvkReg {o : RvkOp} (h : d.Takes (.rvkReg o) rd rs1 rs2)
    (hv : rvkExec H (d.instr.extractLsb' 25 7) (s.readLoc rs1) (s.readLoc rs2) o = some v) :
    exec (P.withIntrinsics H) d s = .ok () (s.writeLoc rd v) := by
  obtain ⟨hid, rfl, rfl, rfl⟩ := h
  exact exec_rvk (.reg hid) hv

/-- `clmulh hi, rs1, rs2; clmul lo, rs1, rs2` leaves the product of the sources in the pair. -/
theorem product_executed {dh dl : Decode} {hi lo : Loc} (hh : dh.Takes (.rvbReg .clmulh) hi rs1 rs2)
    (hl : dl.Takes (.rvbReg .clmul) lo rs1 rs2) (h1 : hi ≠ rs1) (h2 : hi ≠ rs2) (hne : lo ≠ hi) :
    ∃ t, (do exec (P.withIntrinsics H) dh; exec (P.withIntrinsics H) dl) s = .ok () t ∧
      poly (s.readLoc rs1) * poly (s.readLoc rs2) = poly (t.readLoc lo) + X ^ 64 * poly (t.readLoc hi) := by
  have hfirst : exec (P.withIntrinsics H) dh s = .ok () (s.writeLoc hi (rv64Clmulh (s.readLoc rs1) (s.readLoc rs2))) :=
    exec_rvbReg hh rfl
  have hsecond : exec (P.withIntrinsics H) dl (s.writeLoc hi (rv64Clmulh (s.readLoc rs1) (s.readLoc rs2))) = .ok ()
      ((s.writeLoc hi (rv64Clmulh (s.readLoc rs1) (s.readLoc rs2))).writeLoc lo
        (rv64Clmul (s.readLoc rs1) (s.readLoc rs2))) := by
    apply exec_rvbReg hl
    rw [readLoc_writeLoc_ne s _ h1, readLoc_writeLoc_ne s _ h2]
    rfl
  refine ⟨_, (bind_ok hfirst).trans hsecond, ?_⟩
  rw [readLoc_writeLoc_self, readLoc_writeLoc_ne _ _ hne, readLoc_writeLoc_self]
  exact clmul_halves _ _

/-- `aes64es c, a, b; aes64es d, b, a; aes64ds a, c, d; aes64ds b, d, c` leaves every register but `c` and
`d` as it was. -/
theorem rounds_executed {d₁ d₂ d₃ d₄ : Decode} {a b c d : Loc} (h₁ : d₁.Takes (.rvkReg .aes64es) c a b)
    (h₂ : d₂.Takes (.rvkReg .aes64es) d b a) (h₃ : d₃.Takes (.rvkReg .aes64ds) a c d)
    (h₄ : d₄.Takes (.rvkReg .aes64ds) b d c) (hca : c ≠ a) (hcb : c ≠ b) (hda : d ≠ a) (hcd : c ≠ d) :
    ∃ t, (do
        exec (P.withIntrinsics H) d₁
        exec (P.withIntrinsics H) d₂
        exec (P.withIntrinsics H) d₃
        exec (P.withIntrinsics H) d₄) s = .ok () t ∧ ∀ l, l ≠ c → l ≠ d → t.readLoc l = s.readLoc l := by
  let x := s.readLoc a
  let y := s.readLoc b
  let s₁ := s.writeLoc c (encryptedHalf x y)
  let s₂ := s₁.writeLoc d (encryptedHalf y x)
  let s₃ := s₂.writeLoc a x
  have hfirst : exec (P.withIntrinsics H) d₁ s = .ok () s₁ := exec_rvkReg h₁ (aes64es_eq x y)
  have hsecond : exec (P.withIntrinsics H) d₂ s₁ = .ok () s₂ := by
    apply exec_rvkReg h₂
    rw [readLoc_writeLoc_ne s _ hca, readLoc_writeLoc_ne s _ hcb]
    exact aes64es_eq y x
  have hc : s₂.readLoc c = encryptedHalf x y := by
    rw [readLoc_writeLoc_ne _ _ hcd.symm, readLoc_writeLoc_self]
  have hd : s₂.readLoc d = encryptedHalf y x := readLoc_writeLoc_self _ _ _
  have hthird : exec (P.withIntrinsics H) d₃ s₂ = .ok () s₃ := by
    apply exec_rvkReg h₃
    rw [hc, hd]
    exact aes64ds_encrypted x y
  have hfourth : exec (P.withIntrinsics H) d₄ s₃ = .ok () (s₃.writeLoc b y) := by
    apply exec_rvkReg h₄
    rw [readLoc_writeLoc_ne s₂ _ hca.symm, readLoc_writeLoc_ne s₂ _ hda.symm, hc, hd]
    exact aes64ds_encrypted y x
  refine ⟨_, (bind_ok hfirst).trans ((bind_ok hsecond).trans ((bind_ok hthird).trans hfourth)), fun l hlc hld => ?_⟩
  have hkept : s₂.readLoc l = s.readLoc l := by
    rw [readLoc_writeLoc_ne _ _ hld.symm, readLoc_writeLoc_ne _ _ hlc.symm]
  by_cases hb : b = l
  · rw [← hb, readLoc_writeLoc_self]
  · rw [readLoc_writeLoc_ne _ _ hb]
    by_cases ha : a = l
    · rw [← ha, readLoc_writeLoc_self]
    · rw [readLoc_writeLoc_ne _ _ ha, hkept]

end Programs

end Nemu
