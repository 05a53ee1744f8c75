import Nemu.Alignment
import Nemu.CrossPage
import Nemu.Lib.Relate
import Nemu.ProtectionKey

namespace Nemu

open Effect

set_option autoImplicit true

def Machine.withReservation (s : Machine) (addr valid : Word) : Machine :=
  { s with lrAddr := addr, lrValid := valid }

/-- States that differ in the reservation only. -/
def SameButReservation (s t : Machine) : Prop := ∃ addr valid, t = s.withReservation addr valid

/-- The reservation does not show in a computation. -/
def Unreserved (m : Exec α) : Prop := Effect.Alike SameButReservation m m

/-- A store-conditional whose reservation does not match, in `t`, reports what one does whose
reservation matches, in `s`. -/
structure ScReports (P : Platform) (d : Decode) (s t : Machine) : Prop where
  raises : ∀ f u, exec P d s = .error (.exception f) u →
    ∃ v, exec P d t = .error (.exception f) v ∧ v.csr = u.csr
  completes : ∀ u, exec P d s = .ok () u → ∃ v, exec P d t = .ok () v ∧
    v.readLoc d.dest.preg = 1 ∧ AdOnly P (t.scEntry P) .write (t.atomicAddr d) v

/-- The physical address `own` of a store from `s`, the address `seen` that a store-conditional
that fails looks at in its place, and the state in which it does. -/
inductive ScTarget (P : Platform) (d : Decode) (s : Machine) : Machine → Word → Word → Prop where
  | direct : s.dataMmuState = .direct → ScTarget P d s s (s.atomicAddr d) (s.atomicAddr d)
  | mapped : s.dataMmuState = .translate →
      isaMmuTranslate P (s.atomicAddr d) .write s = .ok page u →
        ScTarget P d s u page (page ||| (s.atomicAddr d &&& pageMask))

/-- The store goes to a device that does not take it, which stops the emulator. -/
structure StoreStops (P : Platform) (s : Machine) (own : Word) (len : Nat) (data : Word) : Prop where
  permitted : isaPmpCheckPermission P s (P.paddr own) len .write s.mode = true
  outside : inPmem P (P.paddr own) = false
  device : (!P.share && P.inMmio (P.paddr own)) = true
  stops : P.mmioAccess s.mmio ⟨P.paddr own, len, some data⟩ = none

/-- What a store-conditional that fails asks of the address it looks at. -/
def WritableMemory (P : Platform) (s : Machine) (seen : Word) (len : Nat) : Prop :=
  inPmem P (P.paddr seen) = true ∧
    isaPmpCheckPermission P s (P.paddr seen) len .write s.mode = true

/-- The address looked at is writable memory exactly if the store is no fault. -/
def TargetsAgree (P : Platform) (d : Decode) (s : Machine) : Prop :=
  ∀ u seen own, ScTarget P d s u seen own →
    StoreStops P u own d.amoWidth (s.readLoc d.src2.preg) ∨
      (Refuses P u .write (P.paddr own) d.amoWidth ↔ ¬ WritableMemory P u seen d.amoWidth)

/-- When the exceptions agree. A misaligned address that the alignment check stops has to be
canonical, since the failing path tests that first. Else the bounds of DASICS have to grant the
store, and the two paths have to agree at the addresses that they look at. -/
def ScSound (P : Platform) (d : Decode) (s : Machine) : Prop :=
  (Misaligned P (s.atomicAddr d) d.amoWidth ∧ ¬ NonCanonical s (s.atomicAddr d)) ∨
    (Checked P s d.pc (s.atomicAddr d) d.amoWidth .write ∧
      ∀ m s', isaMmuCheck P (s.atomicAddr d) d.amoWidth .write s = .ok m s' → TargetsAgree P d s)

variable {P : Platform} {d : Decode} {s t u : Machine}

namespace Unreserved

theorem ret (a : α) : Unreserved (pure a : Exec α) := Effect.Alike.ret a

theorem raise (e : Stop) : Unreserved (throw e : Exec α) := Effect.Alike.raise e

theorem bind {m : Exec α} {k : α → Exec β} (hm : Unreserved m) (hk : ∀ a, Unreserved (k a)) :
    Unreserved (m >>= k) :=
  Effect.Alike.bind hm hk

theorem read {k : Machine → Exec α} (hk : ∀ s a v, k (s.withReservation a v) = k s)
    (h : ∀ s, Unreserved (k s)) : Unreserved (get >>= k) := by
  apply Effect.Alike.bind_get
  rintro s _ ⟨a, v, rfl⟩
  rw [hk]
  exact h s

theorem change {f : Machine → Machine}
    (hf : ∀ s a v, f (s.withReservation a v) = (f s).withReservation a v) :
    Unreserved (modify f : Exec PUnit) := by
  apply Effect.Alike.update
  rintro s _ ⟨a, v, rfl⟩
  exact ⟨a, v, hf s a v⟩

theorem ite {p : Prop} [Decidable p] {m n : Exec α} (hm : Unreserved m) (hn : Unreserved n) :
    Unreserved (if p then m else n) := by
  split
  · exact hm
  · exact hn

end Unreserved

section Blind

theorem setCsr_unreserved (c : Csr) (x : Word) : Unreserved (setCsr c x) :=
  .change fun _ _ _ => rfl

theorem assert_unreserved (p : Prop) [Decidable p] : Unreserved (assert p a) :=
  .ite (.ret _) (.raise _)

theorem faultAt_unreserved : Unreserved (faultAt P ex va : Exec α) :=
  .read (fun _ _ _ => rfl) fun _ => .bind (setCsr_unreserved _ _) fun _ => .raise _

theorem dasicsFault_unreserved : Unreserved (dasicsFault P ex reason va : Exec α) :=
  .bind (setCsr_unreserved _ _) fun _ => faultAt_unreserved

theorem clearAmo_unreserved : Unreserved (modify fun s => { s with amo := false } : Exec PUnit) :=
  .change fun _ _ _ => rfl

theorem raiseAccessFault_unreserved : Unreserved (raiseAccessFault P ex va : Exec α) :=
  .bind clearAmo_unreserved fun _ => faultAt_unreserved

theorem raiseReadAccessFault_unreserved : Unreserved (raiseReadAccessFault P type va : Exec α) :=
  .read (fun _ _ _ => rfl) fun _ => .ite raiseAccessFault_unreserved
    (.ite raiseAccessFault_unreserved raiseAccessFault_unreserved)

theorem setMtip_unreserved (b : Option Bool) {f : Machine → Machine}
    (hf : ∀ s a v, f (s.withReservation a v) = (f s).withReservation a v) :
    Unreserved (modify fun s => setMtip b (f s) : Exec PUnit) := by
  apply Unreserved.change
  intro s a v
  rw [hf]
  cases b <;> rfl

theorem mmioRead_unreserved : Unreserved (mmioRead P a len) := by
  refine .read (fun _ _ _ => rfl) fun s => ?_
  split
  · exact .raise _
  · exact .bind (setMtip_unreserved _ fun _ _ _ => rfl) fun _ => .ret _

theorem mmioWrite_unreserved : Unreserved (mmioWrite P a len data) := by
  refine .read (fun _ _ _ => rfl) fun s => ?_
  split
  · exact .raise _
  · exact setMtip_unreserved _ fun _ _ _ => rfl

theorem pmpCheck_withReservation (s : Machine) (x v : Word) :
    isaPmpCheckPermission P (s.withReservation x v) a len type mode =
      isaPmpCheckPermission P s a len type mode := by
  have hloop : ∀ l base mode, pmpLoop (s.withReservation x v) a len type mode l base =
      pmpLoop s a len type mode l base := by
    intro l base mode
    apply pmpLoop_congr
    · exact fun _ => rfl
    · exact fun _ => rfl
    · exact fun _ _ _ => rfl
  unfold isaPmpCheckPermission
  dsimp only
  rw [hloop]
  rfl

theorem paddrRead_unreserved : Unreserved (paddrRead P pa len type mode va) := by
  refine .read (fun s x v => ?_) fun s => .ite raiseReadAccessFault_unreserved (.ite ?_
    (.ite mmioRead_unreserved (.ite (.ret _) raiseReadAccessFault_unreserved)))
  · rw [pmpCheck_withReservation]
  · exact .bind (assert_unreserved _) fun _ => .read (fun _ _ _ => rfl) fun _ => .ret _

theorem paddrWrite_unreserved : Unreserved (paddrWrite P pa len data mode va) := by
  refine .read (fun s x v => ?_) fun s => .ite raiseAccessFault_unreserved (.ite ?_
    (.ite mmioWrite_unreserved (.ite (.ret _) raiseAccessFault_unreserved)))
  · rw [pmpCheck_withReservation]
  · exact .bind (assert_unreserved _) fun _ => .change fun _ _ _ => rfl

theorem checkPermission_unreserved : Unreserved (checkPermission P pte b va type) := by
  refine .read (fun _ _ _ => rfl) fun s => .bind (assert_unreserved _) fun _ => ?_
  dsimp only
  cases type with
  | ifetch => exact .ite (.bind (assert_unreserved _) fun _ => faultAt_unreserved) (.ret _)
  | read | write | ifetchRead | writeRead =>
    exact .ite (.bind clearAmo_unreserved fun _ => faultAt_unreserved)
      (.ite dasicsFault_unreserved (.ret _))

theorem ptwLoop_unreserved : Unreserved (ptwLoop P va type level base) := by
  induction level generalizing base with
  | zero =>
    unfold ptwLoop
    exact .bind paddrRead_unreserved fun val => .ite (.ret _) (.ite (.ret _) (.ret _))
  | succ level ih =>
    unfold ptwLoop
    exact .bind paddrRead_unreserved fun val => .ite (.ret _) (.ite (.ret _) ih)

theorem ptwFinish_unreserved (w : Walk) : Unreserved (ptwFinish P va type w) := by
  cases w with
  | bad pte => exact .bind checkPermission_unreserved fun _ => .ret _
  | leaf level pPte pte =>
    have hmark : Unreserved (ptwUpdateAd P pPte pte va type) :=
      .read (fun _ _ _ => rfl) fun _ => .ite paddrWrite_unreserved (.ret _)
    exact .bind checkPermission_unreserved fun _ =>
      .ite (.bind checkPermission_unreserved fun _ => .ret _) (.bind hmark fun _ => .ret _)

theorem ptw_unreserved : Unreserved (ptw P va type) :=
  .bind (.read (fun _ _ _ => rfl) fun _ => .ite ptwLoop_unreserved (.ret _)) ptwFinish_unreserved

theorem forceRaisePf_unreserved : Unreserved (forceRaisePf P va type) := by
  have hrec : Unreserved (forceRaisePfRecord va type) :=
    .read (fun _ _ _ => rfl) fun _ => .bind (.change fun _ _ _ => rfl) fun _ => .ret _
  have hraise : ∀ {c : Csr} {x : Word} {f : Fault}, Unreserved (do
      setCsr c x
      Nemu.raise f : Exec Unit) := .bind (setCsr_unreserved _ _) fun _ => .raise _
  refine .read (fun _ _ _ => rfl) fun s => .ite (.ite ?_ (.ite ?_ (.ite ?_ (.ret _)))) (.ret _)
  · exact .bind hrec fun _ => .ite (.ret _) (.ite hraise hraise)
  · exact .bind hrec fun _ => .ite (.ret _) faultAt_unreserved
  · exact .bind hrec fun _ => .ite (.ret _) faultAt_unreserved

theorem isaMmuTranslate_unreserved : Unreserved (isaMmuTranslate P va type) :=
  .bind ptw_unreserved fun _ => .ite (.bind forceRaisePf_unreserved fun _ => .ret _) (.ret _)

theorem isaMmuCheck_unreserved : Unreserved (isaMmuCheck P va len type) := by
  refine .read (fun _ _ _ => rfl) fun s => ?_
  dsimp only
  refine .ite ?_ (.ite (.ret _) (.ite faultAt_unreserved (.ret _)))
  cases type with
  | ifetch =>
    exact .bind (setCsr_unreserved _ _) fun _ => .bind (setCsr_unreserved _ _) fun _ => .raise _
  | read | write | ifetchRead | writeRead => exact faultAt_unreserved

theorem readReg_unreserved (l : Loc) : Unreserved (readReg l) := by
  apply Unreserved.read
  · intro s a v
    cases l <;> rfl
  · exact fun _ => .ret _

theorem scFailCheck_unreserved : Unreserved (scFailCheck P d width) := by
  refine .bind (readReg_unreserved _) fun a => .bind isaMmuCheck_unreserved fun m => .bind ?_ fun pa =>
    .read (fun s x v => ?_) fun s => .ite faultAt_unreserved (.ret _)
  · cases m with
    | translate => exact isaMmuTranslate_unreserved
    | direct | dynamic => exact .ret _
  · rw [pmpCheck_withReservation]
    rfl

end Blind

section Ends

/-- Two ends of an instruction: the same exception with the same CSRs, and completion by both. -/
structure SameEnd (x y : EStateM.Result Stop Machine Unit) : Prop where
  raises : ∀ f u, x = .error (.exception f) u → ∃ v, y = .error (.exception f) v ∧ v.csr = u.csr
  completes : ∀ u, x = .ok () u → ∃ v, y = .ok () v

/-- The store of a store-conditional. -/
def scWrite (P : Platform) (d : Decode) (s : Machine) : EStateM.Result Stop Machine Unit :=
  vaddrWrite P d.pc (s.atomicAddr d) d.amoWidth (s.readLoc d.src2.preg) .dynamic s

theorem exec_scMatches (hd : d.IsSc) (h : (s.scEntry P).scSuccess d = true) :
    ∃ k : Exec Unit, (∀ u, ∃ v, k u = .ok () v) ∧ exec P d s =
      (vaddrWrite P d.pc ((s.scEntry P).atomicAddr d) d.amoWidth
        ((s.scEntry P).readLoc d.src2.preg) .dynamic >>= fun _ => k) (s.scEntry P) := by
  have hexec := congrFun (exec_sc (P := P) hd) s
  unfold scStep at hexec
  rw [bind_ok (scEntry_run P s), get_bind, if_pos h] at hexec
  unfold scStore at hexec
  simp only [bind_assoc] at hexec
  rw [bind_ok (readReg_run d.src2.preg _), rtlSm_bind] at hexec
  refine ⟨_, fun u => ?_, hexec⟩
  obtain ⟨v, hv⟩ := scEnd_run P d 0 ({ (if P.queryRef then { u with
    memEvent := ⟨u.currentPc, true, false, (s.scEntry P).atomicAddr d⟩ } else u) with lrValid := 0 })
  exact ⟨v, hv.1⟩

theorem exec_scMisses (hd : d.IsSc) (h : (s.scEntry P).scSuccess d = false) :
    exec P d s = (scFailCheck P d d.amoWidth >>= fun _ =>
      writeReg d.dest.preg 1 >>= fun _ => setScAmo P false) (s.scEntry P) := by
  have hexec := congrFun (exec_sc (P := P) hd) s
  have hmiss : ¬ (s.scEntry P).scSuccess d = true := fun htrue => Bool.false_ne_true (h.symm.trans htrue)
  unfold scStep at hexec
  rw [bind_ok (scEntry_run P s), get_bind, if_neg hmiss] at hexec
  exact hexec

/-- The last test of a store-conditional that fails. -/
def scFailTest (P : Platform) (a pa : Word) (len : Nat) : Exec Unit := do
  let s ← get
  if !inPmem P (P.paddr pa) || !isaPmpCheckPermission P s (P.paddr pa) len .write s.mode then
    faultAt P .SAF a
  else pure ()

theorem scFailCheck_run (P : Platform) (d : Decode) (len : Nat) (s : Machine) :
    scFailCheck P d len s = (isaMmuCheck P (s.atomicAddr d) len .write >>= fun m =>
      scFailPaddr P (s.atomicAddr d) m >>= fun pa => scFailTest P (s.atomicAddr d) pa len) s :=
  bind_ok (readReg_run d.src1.preg s)

theorem scFailTest_writable (h : WritableMemory P u pa len) : scFailTest P a pa len u = .ok () u := by
  unfold scFailTest
  rw [get_bind, h.1, h.2]
  rfl

theorem scFailTest_fault (h : ¬ WritableMemory P u pa len) :
    scFailTest P a pa len u =
      .error (.exception ⟨.SAF, some a, .plain⟩) (u.faulted P .SAF a) := by
  have htest : (!inPmem P (P.paddr pa) ||
      !isaPmpCheckPermission P u (P.paddr pa) len .write u.mode) = true := by
    by_contra hne
    apply h
    rw [Bool.not_eq_true, Bool.or_eq_false_iff, Bool.not_eq_false', Bool.not_eq_false'] at hne
    exact hne
  unfold scFailTest
  rw [get_bind, if_pos htest]
  exact faultAt_run P .SAF a u

theorem paddrWrite_refused (h : Refuses P u .write (P.paddr pa) len) :
    paddrWrite P pa len data u.mode va u =
      .error (.exception ⟨.SAF, some va, .plain⟩) (({ u with amo := false } : Machine).faulted P .SAF va) := by
  have hfault : (raiseAccessFault P .SAF va : Exec Unit) u =
      .error (.exception ⟨.SAF, some va, .plain⟩)
        (({ u with amo := false } : Machine).faulted P .SAF va) := raiseAccessFault_run .SAF
  unfold paddrWrite
  rw [get_bind]
  obtain hpmp | ⟨hmem, hdev, hign⟩ := h
  · rw [hpmp, Bool.not_false, if_pos rfl]
    exact hfault
  · have hio : (!P.share && P.inMmio (P.paddr pa)) = false := by
      unfold reachesDevice at hdev
      simpa using hdev
    simp only [hmem, hio, hign, Bool.false_eq_true, if_false]
    split
    · exact hfault
    · exact hfault

theorem mmioWrite_taken (h : P.mmioAccess u.mmio ⟨a, len, some data⟩ ≠ none) :
    ∃ v, mmioWrite P a len data u = .ok () v := by
  unfold mmioWrite
  rw [get_bind]
  cases hr : P.mmioAccess u.mmio ⟨a, len, some data⟩ with
  | none => exact absurd hr h
  | some r => exact ⟨_, rfl⟩

theorem paddrWrite_made (hlen : HostLength len) (h : ¬ Refuses P u .write (P.paddr pa) len)
    (hs : ¬ StoreStops P u pa len data) : ∃ v, paddrWrite P pa len data u.mode va u = .ok () v := by
  obtain ⟨hpmp, hmiss⟩ := not_or.mp h
  have hpmp := Bool.eq_true_of_not_eq_false hpmp
  unfold paddrWrite
  rw [get_bind, hpmp, Bool.not_true, if_neg Bool.false_ne_true]
  split
  case isTrue =>
    refine ⟨_, bind_ok (assert_pos _ hlen _ u)⟩
  case isFalse hmem =>
  have hout := Bool.eq_false_of_not_eq_true hmem
  split
  case isTrue hio => exact mmioWrite_taken fun hnone => hs ⟨hpmp, hout, hio, hnone⟩
  case isFalse hio =>
  split
  case isTrue => exact ⟨u, rfl⟩
  case isFalse hign =>
    refine absurd ⟨hout, ?_, Bool.eq_false_of_not_eq_true hign⟩ hmiss
    unfold reachesDevice
    simpa using hio

theorem paddrWrite_stopped (h : StoreStops P u pa len data) :
    paddrWrite P pa len data u.mode va u = .error (.abort .device) u := by
  unfold paddrWrite
  rw [get_bind, h.permitted, h.outside, h.device]
  simp only [Bool.not_true, Bool.false_eq_true, if_false, if_true]
  unfold mmioWrite
  rw [get_bind, h.stops]
  rfl

/-- The test of a store-conditional that fails, and the store at its address. -/
theorem sameEnd_target (hlen : HostLength len) :
    SameEnd (paddrWrite P own len data u.mode a u) (scFailTest P a seen len u) ↔
      StoreStops P u own len data ∨
        (Refuses P u .write (P.paddr own) len ↔ ¬ WritableMemory P u seen len) := by
  by_cases hs : StoreStops P u own len data
  · rw [paddrWrite_stopped hs]
    exact iff_of_true ⟨fun f u h => (nomatch h), fun u h => nomatch h⟩ (.inl hs)
  rw [or_iff_right hs]
  by_cases hr : Refuses P u .write (P.paddr own) len
  · rw [paddrWrite_refused hr]
    by_cases hw : WritableMemory P u seen len
    · rw [scFailTest_writable hw]
      refine iff_of_false (fun h => ?_) fun h => h.mp hr hw
      obtain ⟨v, hv, -⟩ := h.raises _ _ rfl
      cases hv
    · rw [scFailTest_fault hw]
      refine iff_of_true ⟨fun f u h => ?_, fun u h => nomatch h⟩ (iff_of_true hr hw)
      cases h
      exact ⟨_, rfl, rfl⟩
  · have hmade : ∃ v, paddrWrite P own len data u.mode a u = .ok () v := paddrWrite_made hlen hr hs
    obtain ⟨v, hv⟩ := hmade
    rw [hv]
    by_cases hw : WritableMemory P u seen len
    · rw [scFailTest_writable hw]
      refine iff_of_true ⟨fun f u h => (nomatch h), fun u h => ⟨_, rfl⟩⟩ ?_
      exact iff_of_false hr (not_not.mpr hw)
    · rw [scFailTest_fault hw]
      refine iff_of_false (fun h => ?_) fun h => hr (h.mpr hw)
      obtain ⟨v, hv⟩ := h.completes _ rfl
      cases hv

end Ends

section Reason

/-- An exception with a cause of DASICS is one of the protection keys for stores. -/
def keyReasoned : Effect Stop Machine where
  ok _ _ := True
  err _ e t := ∀ f, e = .exception f → isKeyFault f.cause →
    t.csr .dfreason = FaultReason.MFR_SF.code
  refl _ := trivial
  trans _ _ := trivial
  absorb _ h := h

theorem keyReasoned_of_avoids {m : Exec α} (h : (avoids isKeyFault).Within m) :
    keyReasoned.Within m :=
  fun s => (h s).mono (fun _ _ => trivial) fun _ _ herr f hf hk => absurd hk (herr f hf)

theorem checkPermission_reason : keyReasoned.Within (checkPermission P pte b va .write) := by
  have hspf : (avoids isKeyFault).Within (faultAt P .SPF va : Exec Unit) := avoids_fault (by decide)
  refine .bind (.read _) fun s => .bind (keyReasoned_of_avoids (avoids_assert _)) fun _ => ?_
  dsimp only
  split
  · exact .bind (keyReasoned_of_avoids avoids_update) fun _ => keyReasoned_of_avoids hspf
  split
  · intro u
    have hrun : (dasicsFault P (dasicsEx (s.accessMode (MemType.write = .ifetch))) .MFR_SF va :
        Exec Unit) u = _ := faultAt_run P _ va (u.setCsr .dfreason FaultReason.MFR_SF.code)
    refine At.of_error hrun fun f hf _ => ?_
    rw [Machine.setCsr_csr_ne, Machine.setCsr_csr_self]
    generalize trapLevel P _ _ = l
    cases l <;> exact fun h => nomatch h
  · exact .ret _ _

theorem ptw_reason : keyReasoned.Within (ptw P va .write) :=
  ptw_within (fun _ => keyReasoned_of_avoids (paddrRead_avoids isKeyFault_noAccess))
    (fun _ _ => checkPermission_reason)
    fun _ _ => keyReasoned_of_avoids (ptwUpdateAd_avoids isKeyFault_noAccess)

theorem isaMmuTranslate_reason : keyReasoned.Within (isaMmuTranslate P va .write) :=
  isaMmuTranslate_within ptw_reason (keyReasoned_of_avoids (forceRaisePf_avoids isKeyFault_noPage))

theorem isaMmuCheck_avoidsKey : (avoids isKeyFault).Within (isaMmuCheck P va len .write) := by
  have hspf : (avoids isKeyFault).Within (faultAt P .SPF va : Exec MmuMode) := avoids_fault (by decide)
  refine .bind (.read _) fun s => ?_
  dsimp only
  split
  · exact hspf
  split
  · exact .ret _ _
  split
  · apply avoids_fault
    split <;> decide
  · exact .ret _ _

theorem scFailCheck_reason : keyReasoned.Within (scFailCheck P d len) := by
  refine .bind (keyReasoned_of_avoids avoids_readReg) fun a =>
    .bind (keyReasoned_of_avoids isaMmuCheck_avoidsKey) fun m => .bind ?_ fun pa =>
      .bind (.read _) fun s => ?_
  · cases m with
    | translate => exact isaMmuTranslate_reason
    | direct | dynamic => exact .ret _ _
  · split
    · exact keyReasoned_of_avoids (avoids_fault (by decide))
    · exact .ret _ _

end Reason

section Compare

/-- A store that the bounds of DASICS do not grant is reported with a reason of its own. -/
theorem vaddrCheck_unchecked (hm : ¬ Misaligned P va len) (hc : ¬ Checked P s pc va len .write) :
    ∃ f u, vaddrCheck P (some pc) va len .write s = .error (.exception f) u ∧
      isKeyFault f.cause ∧ u.csr .dfreason = FaultReason.DFR_SF.code := by
  have hmissing : P.dasics = true ∧ dasicsInTrustedZone s pc = false ∧ ∃ i, s.Denies .write va len i := by
    by_contra hnone
    apply hc
    refine ⟨hm, fun hd hu hopen => ?_⟩
    intro j hj
    induction j using Nat.strong_induction_on with
    | _ j ih =>
      by_contra hmiss
      exact hnone ⟨hd, hu, j, hopen, hj, hmiss, fun i hi => ih i hi (hi.trans hj)⟩
  obtain ⟨hd, hu, i, hden⟩ := hmissing
  obtain ⟨e, u, hrun, -, -, hdenial⟩ := vaddrCheck_denied hd hu (.inr rfl) hden
  obtain ⟨rfl, hreason, -⟩ := hdenial hm
  exact ⟨_, u, hrun, dasicsEx_key _, hreason⟩

theorem sameEnd_refl_error (e : Stop) (u : Machine) : SameEnd (.error e u) (.error e u) where
  raises f v h := by
    cases h
    exact ⟨_, rfl, rfl⟩
  completes v h := nomatch h

theorem scWrite_error (h : vaddrCheck P (some d.pc) (s.atomicAddr d) d.amoWidth .write s = .error e u) :
    scWrite P d s = .error e u :=
  bind_error h

theorem scWrite_checked (hc : Checked P s d.pc (s.atomicAddr d) d.amoWidth .write) :
    scWrite P d s = (isaMmuCheck P (s.atomicAddr d) d.amoWidth .write >>= fun m =>
      if m = .direct then
        directWrite P (s.atomicAddr d) d.amoWidth (s.readLoc d.src2.preg)
      else vaddrMmuWrite P (s.atomicAddr d) d.amoWidth (s.readLoc d.src2.preg)) s :=
  bind_ok (hc.run (.inr rfl))

theorem sameEnd_misaligned (hm : Misaligned P (s.atomicAddr d) d.amoWidth) :
    SameEnd (scWrite P d s) (scFailCheck P d d.amoWidth s) ↔
      ¬ NonCanonical s (s.atomicAddr d) := by
  rw [scWrite_error (vaddrCheck_misaligned hm (by decide)), scFailCheck_run]
  by_cases hc : NonCanonical s (s.atomicAddr d)
  · rw [bind_error (isaMmuCheck_nonCanonical (.inr rfl) hc)]
    refine iff_of_false (fun h => ?_) (not_not.mpr hc)
    obtain ⟨v, hv, -⟩ := h.raises _ _ rfl
    simp [pageFault] at hv
  · rw [bind_error (isaMmuCheck_torn (.inr rfl) hm.2 hc)]
    exact iff_of_true (sameEnd_refl_error _ _) hc

theorem sameEnd_direct (hm : s.dataMmuState = .direct) :
    SameEnd (directWrite P (s.atomicAddr d) d.amoWidth (s.readLoc d.src2.preg) s)
      ((scFailPaddr P (s.atomicAddr d) .direct >>= fun pa =>
        scFailTest P (s.atomicAddr d) pa d.amoWidth) s) ↔ TargetsAgree P d s := by
  have hend : SameEnd (directWrite P (s.atomicAddr d) d.amoWidth (s.readLoc d.src2.preg) s)
      (scFailTest P (s.atomicAddr d) (s.atomicAddr d) d.amoWidth s) ↔ _ :=
    sameEnd_target (amoWidth_hostLength d)
  refine hend.trans ⟨fun h u seen own htarget => ?_, fun h => h _ _ _ (.direct hm)⟩
  cases htarget with
  | direct => exact h
  | mapped hm' => cases hm.symm.trans hm'

theorem sameEnd_mapped (hdev : NoWideDma P) (hm : s.dataMmuState = .translate) :
    SameEnd (vaddrMmuWrite P (s.atomicAddr d) d.amoWidth (s.readLoc d.src2.preg) s)
      ((scFailPaddr P (s.atomicAddr d) .translate >>= fun pa =>
        scFailTest P (s.atomicAddr d) pa d.amoWidth) s) ↔ TargetsAgree P d s := by
  cases htr : isaMmuTranslate P (s.atomicAddr d) .write s with
  | error e u =>
    have hstore : vaddrMmuWrite P (s.atomicAddr d) d.amoWidth (s.readLoc d.src2.preg) s =
      .error e u := bind_error htr
    have hfail : (scFailPaddr P (s.atomicAddr d) .translate >>= fun pa =>
      scFailTest P (s.atomicAddr d) pa d.amoWidth) s = .error e u := bind_error htr
    rw [hstore, hfail]
    refine iff_of_true (sameEnd_refl_error e u) fun u seen own htarget => ?_
    cases htarget with
    | direct hm' => cases hm.symm.trans hm'
    | mapped _ htr' => cases htr.symm.trans htr'
  | ok page u =>
    have hstore : vaddrMmuWrite P (s.atomicAddr d) d.amoWidth (s.readLoc d.src2.preg) s = _ :=
      vaddrMmuWrite_translated htr (translate_ok hdev htr).1
    have hfail : (scFailPaddr P (s.atomicAddr d) .translate >>= fun pa =>
      scFailTest P (s.atomicAddr d) pa d.amoWidth) s = _ := bind_ok htr
    rw [hstore, hfail, sameEnd_target (amoWidth_hostLength d)]
    refine ⟨fun h u seen own htarget => ?_, fun h => h _ _ _ (.mapped hm htr)⟩
    cases htarget with
    | direct hm' => cases hm.symm.trans hm'
    | mapped _ htr' =>
      cases htr.symm.trans htr'
      exact h

theorem sameEnd_checked (hdev : NoWideDma P) (hmmu : s.dataMmuState ≠ .dynamic)
    (hc : Checked P s d.pc (s.atomicAddr d) d.amoWidth .write) :
    SameEnd (scWrite P d s) (scFailCheck P d d.amoWidth s) ↔
      ∀ m s', isaMmuCheck P (s.atomicAddr d) d.amoWidth .write s = .ok m s' → TargetsAgree P d s := by
  rw [scWrite_checked hc, scFailCheck_run]
  cases hcheck : isaMmuCheck P (s.atomicAddr d) d.amoWidth .write s with
  | error e u =>
    rw [bind_error hcheck, bind_error hcheck]
    exact iff_of_true (sameEnd_refl_error e u) fun m s' h => nomatch h
  | ok m s' =>
    rw [bind_ok hcheck, bind_ok hcheck]
    obtain ⟨rfl, rfl⟩ := isaMmuCheck_ok hcheck
    have hone : (∀ m u, (.ok (s'.mmuCache (MemType.write = .ifetch)) s' :
        EStateM.Result Stop Machine MmuMode) = .ok m u → TargetsAgree P d s') ↔
          TargetsAgree P d s' := ⟨fun h => h _ _ rfl, fun h _ _ _ => h⟩
    rw [hone]
    cases hm : s'.dataMmuState with
    | dynamic => exact absurd hm hmmu
    | direct =>
      have hmode : s'.mmuCache (MemType.write = .ifetch) = .direct := hm
      rw [hmode]
      exact sameEnd_direct hm
    | translate =>
      have hmode : s'.mmuCache (MemType.write = .ifetch) = .translate := hm
      rw [hmode]
      exact sameEnd_mapped hdev hm

theorem not_sameEnd_unchecked (hm : ¬ Misaligned P (s.atomicAddr d) d.amoWidth)
    (hc : ¬ Checked P s d.pc (s.atomicAddr d) d.amoWidth .write) :
    ¬ SameEnd (scWrite P d s) (scFailCheck P d d.amoWidth s) := by
  intro h
  obtain ⟨f, u, hrun, hkey, hreason⟩ := vaddrCheck_unchecked hm hc
  obtain ⟨v, hfail, hcsr⟩ := h.raises f u (scWrite_error hrun)
  have hmfr : v.csr .dfreason = FaultReason.MFR_SF.code := scFailCheck_reason.error hfail f rfl hkey
  have heq : FaultReason.DFR_SF.code = FaultReason.MFR_SF.code :=
    hreason.symm.trans ((congrFun hcsr _).symm.trans hmfr)
  exact absurd heq (by decide)

theorem sameEnd_iff (hdev : NoWideDma P) (hmmu : s.dataMmuState ≠ .dynamic) :
    SameEnd (scWrite P d s) (scFailCheck P d d.amoWidth s) ↔ ScSound P d s := by
  by_cases hm : Misaligned P (s.atomicAddr d) d.amoWidth
  · rw [sameEnd_misaligned hm]
    refine ⟨fun h => .inl ⟨hm, h⟩, ?_⟩
    rintro (⟨-, h⟩ | ⟨hc, -⟩)
    · exact h
    · exact absurd hm hc.aligned
  by_cases hc : Checked P s d.pc (s.atomicAddr d) d.amoWidth .write
  · rw [sameEnd_checked hdev hmmu hc]
    refine ⟨fun h => .inr ⟨hc, h⟩, ?_⟩
    rintro (⟨hm', -⟩ | ⟨-, h⟩)
    · exact absurd hm' hm
    · exact h
  · refine iff_of_false (not_sameEnd_unchecked hm hc) ?_
    rintro (⟨hm', -⟩ | ⟨hc', -⟩)
    · exact hm hm'
    · exact hc hc'

end Compare

section Report

theorem scFailTest_ok (h : scFailTest P a pa len u = .ok () t) : t = u := by
  by_cases hw : WritableMemory P u pa len
  · rw [scFailTest_writable hw] at h
    cases h
    rfl
  · rw [scFailTest_fault hw] at h
    cases h

theorem scFailCheck_adOnly (hdev : NoWideDma P) (h : scFailCheck P d len s = .ok () t) :
    AdOnly P s .write (s.atomicAddr d) t := by
  rw [scFailCheck_run] at h
  obtain ⟨m, u, hcheck, h1⟩ := ok_of_bind h
  obtain ⟨rfl, -⟩ := isaMmuCheck_ok hcheck
  obtain ⟨pa, v, hpa, h2⟩ := ok_of_bind h1
  obtain rfl := scFailTest_ok h2
  cases m with
  | translate => exact (translate_ok hdev hpa).2
  | direct | dynamic =>
    cases hpa
    exact fun a => .inl rfl

theorem exec_scMatches_ends (hd : d.IsSc) (hs : s.reservation = some (s.atomicAddr d)) :
    (∀ f u, exec P d s = .error (.exception f) u ↔
      scWrite P d (s.scEntry P) = .error (.exception f) u) ∧
    ((∃ u, exec P d s = .ok () u) ↔ ∃ u, scWrite P d (s.scEntry P) = .ok () u) := by
  obtain ⟨k, hk, hexec⟩ := exec_scMatches hd ((scSuccess_iff P s d).mpr hs)
  cases hrun : scWrite P d (s.scEntry P) with
  | ok _ u =>
    obtain ⟨v, hv⟩ := hk u
    have hend : exec P d s = .ok () v := (hexec.trans (bind_ok hrun)).trans hv
    rw [hend]
    exact ⟨fun f w => ⟨fun h => (nomatch h), fun h => nomatch h⟩,
      fun _ => ⟨u, rfl⟩, fun _ => ⟨v, rfl⟩⟩
  | error e u =>
    have hend : exec P d s = .error e u := hexec.trans (bind_error hrun)
    rw [hend]
    refine ⟨fun f w => Iff.rfl, ?_, ?_⟩
    · rintro ⟨v, hv⟩
      cases hv
    · rintro ⟨v, hv⟩
      cases hv

/-- Without its reservation, an instruction does what the checks do in the state that has it. -/
theorem exec_scMisses_ends (hd : d.IsSc) (hdev : NoWideDma P)
    (ht : (s.withReservation a x).reservation ≠ some (s.atomicAddr d)) :
    (∀ e u, scFailCheck P d d.amoWidth (s.scEntry P) = .error e u →
      ∃ v, exec P d (s.withReservation a x) = .error e v ∧ v.csr = u.csr) ∧
    ∀ u, scFailCheck P d d.amoWidth (s.scEntry P) = .ok () u →
      ∃ v, exec P d (s.withReservation a x) = .ok () v ∧ v.readLoc d.dest.preg = 1 ∧
        AdOnly P ((s.withReservation a x).scEntry P) .write ((s.withReservation a x).atomicAddr d) v := by
  have haddr : ∀ l, ((s.withReservation a x).scEntry P).readLoc l = (s.withReservation a x).readLoc l := by
    intro l
    cases l <;> rfl
  have hsame : (s.withReservation a x).atomicAddr d = s.atomicAddr d := by
    unfold Machine.atomicAddr
    cases d.src1.preg <;> rfl
  have hmiss : ((s.withReservation a x).scEntry P).scSuccess d = false := by
    rw [Bool.eq_false_iff]
    intro h
    exact ht (((scSuccess_iff P _ d).mp h).trans (congrArg some hsame))
  have hrel : SameButReservation (s.scEntry P) ((s.withReservation a x).scEntry P) := ⟨a, x, rfl⟩
  rw [exec_scMisses hd hmiss]
  constructor
  · intro e u hrun
    obtain ⟨v, hv, y, z, rfl⟩ := scFailCheck_unreserved.error hrel hrun
    exact ⟨_, bind_error hv, rfl⟩
  · intro u hrun
    obtain ⟨v, hv, -⟩ := scFailCheck_unreserved.ok hrel hrun
    obtain ⟨w, hw, hrd, hmem, -⟩ := scEnd_run P d 1 v
    have had := scFailCheck_adOnly hdev hv
    refine ⟨w, (bind_ok hv).trans hw, hrd, fun b => ?_⟩
    rw [hmem]
    unfold Machine.atomicAddr at had ⊢
    rw [← haddr]
    exact had b

/-- A store-conditional that fails reports what one that succeeds does, exactly when `ScSound`. -/
theorem sc_reports_iff (hd : d.IsSc) (hdev : NoWideDma P) (hmmu : s.dataMmuState ≠ .dynamic)
    (hs : s.reservation = some (s.atomicAddr d))
    (ht : (s.withReservation a x).reservation ≠ some (s.atomicAddr d)) :
    ScReports P d s (s.withReservation a x) ↔ ScSound P d (s.scEntry P) := by
  obtain ⟨hraise, hdone⟩ := exec_scMatches_ends (P := P) hd hs
  obtain ⟨hfail, hcomplete⟩ := exec_scMisses_ends hd hdev ht
  rw [← sameEnd_iff hdev (s := s.scEntry P) hmmu]
  constructor
  · intro h
    refine ⟨fun f u hf => ?_, fun u hu => ?_⟩
    · obtain ⟨v, hv, hcsr⟩ := h.raises f u ((hraise f u).mpr hf)
      cases hrun : scFailCheck P d d.amoWidth (s.scEntry P) with
      | ok _ w =>
        obtain ⟨v', hv', -⟩ := hcomplete w hrun
        cases hv.symm.trans hv'
      | error e w =>
        obtain ⟨v', hv', hcsr'⟩ := hfail e w hrun
        cases hv.symm.trans hv'
        exact ⟨w, rfl, hcsr'.symm.trans hcsr⟩
    · obtain ⟨u', hu'⟩ := hdone.mpr ⟨u, hu⟩
      obtain ⟨v, hv, -⟩ := h.completes u' hu'
      cases hrun : scFailCheck P d d.amoWidth (s.scEntry P) with
      | ok _ w => exact ⟨w, rfl⟩
      | error e w =>
        obtain ⟨v', hv', -⟩ := hfail e w hrun
        cases hv.symm.trans hv'
  · intro h
    refine ⟨fun f u hf => ?_, fun u hu => ?_⟩
    · obtain ⟨w, hw, hcsr⟩ := h.raises f u ((hraise f u).mp hf)
      obtain ⟨v, hv, hcsr'⟩ := hfail _ w hw
      exact ⟨v, hv, hcsr'.trans hcsr⟩
    · obtain ⟨u', hu'⟩ := hdone.mp ⟨u, hu⟩
      obtain ⟨w, hw⟩ := h.completes u' hu'
      exact hcomplete w hw

/-- Machine mode, with a reservation at the address of a store-conditional. -/
def scReserved (P : Platform) : Machine :=
  { Machine.reset P (fun _ => 0) with
    gpr := fun r => if r = 2 then 0x80300000 else 0
    lrAddr := 0x80300000
    lrValid := 1 }

/-- `sc.w x1, x3, (x2)` -/
def scDecode : Decode := decodeR ⟨0x80100000, 0x80100004, 0x183120af, .direct, false⟩ .atomic

/-- In memory both paths find nothing to report. -/
theorem sc_reports_machine : ScReports (Platform.bare .standalone) scDecode
    (scReserved (Platform.bare .standalone))
    ((scReserved (Platform.bare .standalone)).withReservation 0 0) := by
  have hdev : NoWideDma (Platform.bare .standalone) := fun _ _ _ _ h => nomatch h
  have haddr : ((scReserved (Platform.bare .standalone)).scEntry (Platform.bare .standalone)).atomicAddr
      scDecode = 0x80300000 := rfl
  have htrusted : dasicsInTrustedZone ((scReserved (Platform.bare .standalone)).scEntry
    (Platform.bare .standalone)) scDecode.pc = true := rfl
  have haligned : ¬ Misaligned (Platform.bare .standalone) 0x80300000 4 := by decide
  have hwritable : WritableMemory (Platform.bare .standalone)
    ((scReserved (Platform.bare .standalone)).scEntry (Platform.bare .standalone)) 0x80300000 4 :=
    ⟨rfl, rfl⟩
  apply (sc_reports_iff ⟨rfl, rfl⟩ hdev (by decide) rfl (by decide)).mpr
  refine .inr ⟨⟨haligned, fun _ h => nomatch h.symm.trans htrusted⟩, fun m s' _ => ?_⟩
  intro u seen own htarget
  cases htarget with
  | mapped hm => cases hm
  | direct =>
    refine .inr (iff_of_false ?_ (not_not.mpr hwritable))
    rintro (hpmp | ⟨hout, -⟩)
    · cases hwritable.2.symm.trans hpmp
    · cases hwritable.1.symm.trans hout

/-- User code that is not trusted, with the same reservation. -/
def scSandboxed (P : Platform) : Machine :=
  { sandboxed P [0x183120af] with
    gpr := fun r => if r = 2 then 0x80300000 else 0
    lrAddr := 0x80300000
    lrValid := 1 }

/-- With the reservation the store is denied by DASICS; without it the instruction completes. -/
theorem sc_unchecked_by_dasics :
    ∃ d u f v w, fetchDecode (Platform.bare .standalone) (scSandboxed (Platform.bare .standalone)) =
        .ok d u ∧ d.IsSc ∧ u.reservation = some (u.atomicAddr d) ∧
      exec (Platform.bare .standalone) d u = .error (.exception f) v ∧ f.cause = .DUCF ∧
      exec (Platform.bare .standalone) d (u.withReservation 0 0) = .ok () w ∧
      ¬ ScReports (Platform.bare .standalone) d u (u.withReservation 0 0) := by
  have hrun : ∃ d u v w, fetchDecode (Platform.bare .standalone)
      (scSandboxed (Platform.bare .standalone)) = .ok d u ∧ d.IsSc ∧
      u.reservation = some (u.atomicAddr d) ∧
      exec (Platform.bare .standalone) d u = .error (.exception ⟨.DUCF, some 0x80300000, .plain⟩) v ∧
      exec (Platform.bare .standalone) d (u.withReservation 0 0) = .ok () w :=
    ⟨_, _, _, _, rfl, ⟨rfl, rfl⟩, rfl, rfl, rfl⟩
  obtain ⟨d, u, v, w, hf, hd, hr, hraises, hcompletes⟩ := hrun
  refine ⟨d, u, _, v, w, hf, hd, hr, hraises, rfl, hcompletes, fun h => ?_⟩
  obtain ⟨x, hx, -⟩ := h.raises _ _ hraises
  cases hx.symm.trans hcompletes

end Report

end Nemu
