import Nemu.Lib.Run
import Nemu.SystemContract

namespace Nemu

open Effect

set_option autoImplicit true

/-- A CSR and the value that `csr_write` is given for it. -/
structure CsrWrite where
  csr : Csr
  value : Word
  deriving DecidableEq

/-- One call of `csr_write`. It may raise an exception. -/
def WriteStep (P : Platform) (s : Machine) (w : CsrWrite) (t : Machine) : Prop :=
  t = final (csrWrite P w.csr w.value) s

/-- A view of the state that shows neither `mstatus` nor what is derived from it. -/
structure StatusBlind {τ : Type} (view : Machine → τ) : Prop where
  status : ∀ (s : Machine) (x : Word), view (s.setCsr .mstatus x) = view s
  mmu : ∀ s : Machine, view s.eraseMmu = view s
  rm : ∀ (s : Machine) (r : BitVec 32), view { s with rmCache := r } = view s

variable {τ : Type} {P : Platform} {s t : Machine} {view : Machine → τ} {c : Csr} {x : Word} {w : CsrWrite}

theorem StatusBlind.modifyMstatus (hv : StatusBlind view) :
    (keep Stop view).Within (modifyMstatus f) :=
  .update fun s => hv.status s _

theorem StatusBlind.updateMmuState (hv : StatusBlind view) :
    (keep Stop view).Within updateMmuState := by
  intro s
  rw [keep_iff]
  have h := congrArg view (updateMmuState_erase.final_eq s)
  rw [hv.mmu, hv.mmu] at h
  exact h

theorem assert_keep (p : Prop) [Decidable p] : (keep Stop view).Within (assert p a) := by
  unfold assert
  split
  · exact .ret _ _
  · exact .raise fun _ => rfl

/-- What `csr_write` brings up to date after its assignment. -/
def csrWriteRefresh (P : Platform) (c : Csr) : Exec Unit := do
  csrWriteFp P c
  csrWriteSd P c
  csrWriteMmu c

theorem StatusBlind.csrWriteRefresh (hv : StatusBlind view) :
    (keep Stop view).Within (csrWriteRefresh P c) := by
  refine .bind ?_ fun _ => .bind ?_ fun _ => ?_
  · unfold csrWriteFp
    split
    · exact .bind hv.modifyMstatus fun _ => .bind (.read _) fun _ =>
        .bind (assert_keep _) fun _ => .update fun s => hv.rm s _
    · exact .ret _ _
  · unfold csrWriteSd
    split
    · exact hv.modifyMstatus
    · exact .ret _ _
  · unfold csrWriteMmu
    split
    · exact hv.updateMmuState
    · exact .ret _ _

/-- The state after the assignment of `csr_write`, or the old one if it raises an exception. -/
def csrAssigned (P : Platform) (s : Machine) (w : CsrWrite) : Machine :=
  if csrWriteIllegal P s w.csr then s else csrStore P s w.csr w.value

theorem csrWrite_final (P : Platform) (s : Machine) (w : CsrWrite) :
    final (csrWrite P w.csr w.value) s =
      if csrWriteIllegal P s w.csr then s
      else final (csrWriteRefresh P w.csr) (csrStore P s w.csr w.value) := by
  have hget : csrWrite P w.csr w.value s =
      (illegalIf (csrWriteIllegal P s w.csr) >>= fun _ => csrWriteTail P w.csr w.value) s := rfl
  unfold final
  rw [hget]
  unfold illegalIf
  cases csrWriteIllegal P s w.csr with
  | true => rfl
  | false => rfl

theorem WriteStep.view_eq (hv : StatusBlind view) (h : WriteStep P s w t) :
    view t = view (csrAssigned P s w) := by
  unfold WriteStep at h
  rw [h, csrWrite_final]
  unfold csrAssigned
  split
  · rfl
  · exact hv.csrWriteRefresh.final_eq _

theorem csr_blind (hc : c ≠ .mstatus) : StatusBlind (fun s => s.csr c) where
  status s x := Machine.setCsr_csr_ne s x hc
  mmu _ := rfl
  rm _ _ := rfl

theorem WriteStep.csr_eq (h : WriteStep P s w t) (hc : c ≠ .mstatus) :
    t.csr c = (csrAssigned P s w).csr c :=
  h.view_eq (csr_blind hc)

def csrTargets : Csr → List Csr
  | .sstatus | .ustatus => [.mstatus]
  | .sie | .uie => [.mie]
  | .sip | .uip => [.mip]
  | .vcsr => [.vxrm, .vxsat]
  | .fflags => [.fflags, .fcsr]
  | .frm => [.frm, .fcsr]
  | .fcsr => [.fcsr, .fflags, .frm]
  | .dumcfg => [.dsmcfg]
  | c => [c]

theorem csrStore_frame (h : c ∉ csrTargets c') : (csrStore P s c' x).csr c = s.csr c := by
  have hset : ∀ {c''} (u : Machine) (y : Word), c'' ∈ csrTargets c' →
      (u.setCsr c'' y).csr c = u.csr c := by
    intro c'' u y hmem
    apply Machine.setCsr_csr_ne
    rintro rfl
    exact h hmem
  cases c' with
  | misa | pmpaddr _ | pmpcfg _ | satp =>
    unfold csrStore
    dsimp only
    split
    · first | rfl | exact hset _ _ List.mem_cons_self
    · first | rfl | exact hset _ _ List.mem_cons_self
  | vcsr | fflags | frm =>
    exact (hset _ _ (by decide)).trans (hset _ _ (by decide))
  | fcsr =>
    exact ((hset _ _ (by decide)).trans (hset _ _ (by decide))).trans (hset _ _ (by decide))
  | _ => exact hset _ _ List.mem_cons_self

theorem csrAssigned_frame (h : c ∉ csrTargets w.csr) : (csrAssigned P s w).csr c = s.csr c := by
  unfold csrAssigned
  split
  · rfl
  · exact csrStore_frame h

end Nemu
