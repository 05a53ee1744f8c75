import Nemu.Instr

namespace Nemu

set_option autoImplicit true

namespace Machine

def mprv (s : Machine) : Bool := (s.csr .mstatus).getLsbD 17

def mpp (s : Machine) : Mode := Mode.ofBits ((s.csr .mstatus).extractLsb' 11 2)

def spp (s : Machine) : Mode := if (s.csr .mstatus).getLsbD 8 then .S else .U

def fs (s : Machine) : BitVec 2 := (s.csr .mstatus).extractLsb' 13 2

def sum (s : Machine) : Bool := (s.csr .mstatus).getLsbD 18

def mxr (s : Machine) : Bool := (s.csr .mstatus).getLsbD 19

def tvm (s : Machine) : Bool := (s.csr .mstatus).getLsbD 20

def tw (s : Machine) : Bool := (s.csr .mstatus).getLsbD 21

def tsr (s : Machine) : Bool := (s.csr .mstatus).getLsbD 22

def satpMode (s : Machine) : BitVec 4 := (s.csr .satp).extractLsb' 60 4

/-- The mode an access is made in: `mpp` for data accesses under `mprv`. -/
def accessMode (s : Machine) (ifetch : Bool) : Mode :=
  if s.mprv && !ifetch then s.mpp else s.mode

end Machine

def setBit (i : Nat) (b : Bool) (x : Word) : Word := BitField.insert i (BitVec.ofBool b) x

def Machine.mapMstatus (f : Word → Word) (s : Machine) : Machine :=
  s.setCsr .mstatus (f (s.csr .mstatus))

@[simp] theorem Machine.mapMstatus_mstatus (f : Word → Word) (s : Machine) :
    (s.mapMstatus f).csr .mstatus = f (s.csr .mstatus) :=
  s.setCsr_csr_self .mstatus _

theorem Machine.mapMstatus_csr (f : Word → Word) (s : Machine) (h : c ≠ .mstatus) :
    (s.mapMstatus f).csr c = s.csr c :=
  s.setCsr_csr_ne _ h

theorem Machine.mapMstatus_setCsr (f : Word → Word) (s : Machine) (x : Word) :
    (s.setCsr .mstatus x).mapMstatus f = s.setCsr .mstatus (f x) := by
  unfold Machine.mapMstatus
  rw [Machine.setCsr_csr_self, Machine.setCsr_setCsr]

def modifyMstatus (f : Word → Word) : Exec Unit := modify (Machine.mapMstatus f)

def updateMstatusSdVal (P : Platform) (x : Word) : Word :=
  let y := if P.difftestRefQemu && x.extractLsb' 13 2 ≠ 0 then BitField.insert 13 (3 : BitVec 2) x
    else x
  setBit 63 (y.extractLsb' 13 2 = 3) y

def updateMstatusSd (P : Platform) : Exec Unit := modifyMstatus (updateMstatusSdVal P)

def fpSetDirtyVal (P : Platform) (x : Word) : Word :=
  BitField.insert 13 (3 : BitVec 2) (if P.share then setBit 63 true x else x)

def fpSetDirty (P : Platform) : Exec Unit := modifyMstatus (fpSetDirtyVal P)

/-- `FPCALL_RM_*` has the encoding of `frm`. -/
def fpUpdateRmCache (rm : BitVec 32) : Exec Unit := do
  assert (rm < 5) .roundingMode
  modify fun s => { s with rmCache := rm }

def updateMmuStateInternal (ifetch : Bool) : Exec MmuMode := do
  let s ← get
  if s.accessMode ifetch < .M then do
    assert (s.satpMode = 0 ∨ s.satpMode = 8) .mmuState
    if s.satpMode = 8 then pure .translate else pure .direct
  else pure .direct

/-- The returned "has the data MMU mode changed" is used by the trace cache only. -/
def updateMmuState : Exec Unit := do
  let i ← updateMmuStateInternal true
  modify fun s => { s with ifetchMmuState := i }
  let d ← updateMmuStateInternal false
  modify fun s => { s with dataMmuState := d }

/-- What `update_mmu_state_internal` computes when its assertion holds. -/
def Machine.mmuState (s : Machine) (ifetch : Bool) : MmuMode :=
  if s.accessMode ifetch < .M ∧ s.satpMode = 8 then .translate else .direct

def Machine.SatpLegal (s : Machine) : Prop := s.satpMode = 0 ∨ s.satpMode = 8

instance (s : Machine) : Decidable s.SatpLegal := inferInstanceAs (Decidable (_ ∨ _))

def Machine.refreshMmu (s : Machine) : Machine :=
  { s with ifetchMmuState := s.mmuState true, dataMmuState := s.mmuState false }

theorem updateMmuStateInternal_run (ifetch : Bool) (h : s.accessMode ifetch < .M → s.SatpLegal) :
    updateMmuStateInternal ifetch s = .ok (s.mmuState ifetch) s := by
  unfold updateMmuStateInternal Machine.mmuState
  change (if s.accessMode ifetch < .M then _ else _ : Exec MmuMode) s = _
  by_cases hm : s.accessMode ifetch < .M
  · have ha : assert (s.satpMode = 0 ∨ s.satpMode = 8) .mmuState = (pure () : Exec Unit) :=
      if_pos (h hm)
    rw [if_pos hm, ha]
    by_cases h8 : s.satpMode = 8
    · simp only [hm, h8, and_self, ↓reduceIte]
      rfl
    · simp only [hm, h8, and_false, ↓reduceIte]
      rfl
  · rw [if_neg hm, if_neg (fun h => hm h.1)]
    rfl

theorem updateMmuStateInternal_legal (h : s.SatpLegal) (ifetch : Bool) :
    updateMmuStateInternal ifetch s = .ok (s.mmuState ifetch) s :=
  updateMmuStateInternal_run ifetch fun _ => h

theorem updateMmuState_run (h : ∀ ifetch, s.accessMode ifetch < .M → s.SatpLegal) :
    updateMmuState s = .ok () s.refreshMmu := by
  have h1 := updateMmuStateInternal_run true (h true)
  have h2 : updateMmuStateInternal false { s with ifetchMmuState := s.mmuState true } =
      .ok (s.mmuState false) { s with ifetchMmuState := s.mmuState true } :=
    updateMmuStateInternal_run (s := { s with ifetchMmuState := s.mmuState true }) false (h false)
  unfold updateMmuState
  change EStateM.bind (updateMmuStateInternal true) _ s = _
  simp only [EStateM.bind, h1]
  change EStateM.bind (updateMmuStateInternal false) _ _ = _
  simp only [EStateM.bind, h2]
  rfl

theorem updateMmuState_legal (h : s.SatpLegal) : updateMmuState s = .ok () s.refreshMmu :=
  updateMmuState_run fun _ _ => h

end Nemu
