import Nemu.AccessEffect
import Nemu.Confinement
import Nemu.PageWalk
import Nemu.Permission
import Nemu.Reset

namespace Nemu

open Effect

set_option autoImplicit true

def getDataMmuState (s : Machine) : MmuMode :=
  if s.dataMmuState = .direct then .direct else .translate

/-- The integer loads and stores. -/
inductive ScalarAccess where
  | load (signed : Bool) (len : Nat)
  | store (len : Nat)
  deriving DecidableEq

namespace ScalarAccess

/-- The executor with an `mmu_mode`. -/
def id : ScalarAccess → MmuMode → ExecId
  | load signed len, m => .load signed len m
  | store len, m => .store len m

def len : ScalarAccess → Nat
  | load _ len => len
  | store len => len

def type : ScalarAccess → MemType
  | load _ _ => .read
  | store _ => .write

end ScalarAccess

/-- How an access ends, but for the flag `amo`, which the handler of an exception clears. -/
def settle : EStateM.Result Stop Machine α → EStateM.Result Stop Machine α
  | .ok a t => .ok a t
  | .error e t => .error e { t with amo := false }

/-- Data accesses are translated, as `isa_mmu_check` computes it. -/
def Machine.VmEnabled (s : Machine) : Prop := s.accessMode false < .M ∧ s.satpMode = 8

/-- The checks that come before the `mmu_mode` is looked at let an access through. -/
structure Checked (P : Platform) (s : Machine) (pc va : Word) (len : Nat) (type : MemType) :
    Prop where
  aligned : ¬ Misaligned P va len
  granted : P.dasics = true → dasicsInTrustedZone s pc = false → s.closes type = false →
    ∀ j < len, s.Grants type (va + BitVec.ofNat 64 j)

variable {P : Platform} {s t : Machine} {pc va : Word} {len : Nat} {type : MemType}

section Check

theorem dasicsLdstHelper_granted (hu : dasicsInTrustedZone s pc = false)
    (ht : type = .read ∨ type = .write)
    (hg : s.closes type = false → ∀ j < len, s.Grants type (va + BitVec.ofNat 64 j)) :
    dasicsLdstHelper P pc va len type s = .ok () s := by
  have hnone : (List.range len).find? (fun j => !s.closes type &&
      !dasicsMatchDlib s (va + BitVec.ofNat 64 j) (libcfg type)) = none := by
    rw [List.find?_range_eq_none]
    intro j hj
    cases hc : s.closes type with
    | true => rfl
    | false => simp [(dasicsMatchDlib_iff s type _).mpr (hg hc j hj)]
  rw [dasicsLdstHelper_eq hu ht]
  unfold dasicsCheckBytes
  rw [get_bind, hnone]
  rfl

theorem isaMisalignDataAddrCheck_aligned
    (h : ¬ (P.acSoft = true ∧ va &&& (BitVec.ofNat 64 len - 1) ≠ 0)) :
    isaMisalignDataAddrCheck P va len type s = .ok () s := by
  unfold isaMisalignDataAddrCheck
  rw [get_bind, if_neg h]
  rfl

theorem dasicsCheck_granted (ht : type = .read ∨ type = .write)
    (hg : P.dasics = true → dasicsInTrustedZone s pc = false → s.closes type = false →
      ∀ j < len, s.Grants type (va + BitVec.ofNat 64 j)) :
    (if P.dasics then dasicsLdstHelper P pc va len type else pure ()) s = .ok () s := by
  split
  · next hd =>
    cases hu : dasicsInTrustedZone s pc with
    | true =>
      unfold dasicsLdstHelper
      rw [get_bind, hu]
      rfl
    | false => exact dasicsLdstHelper_granted hu ht (hg hd hu)
  · rfl

theorem Checked.run (h : Checked P s pc va len type) (ht : type = .read ∨ type = .write) :
    vaddrCheck P (some pc) va len type s = .ok () s := by
  unfold vaddrCheck
  by_cases hs : P.share = true ∧ type ≠ .ifetch
  · have ha : ¬ (P.acSoft = true ∧ va &&& (BitVec.ofNat 64 len - 1) ≠ 0) :=
      fun h' => h.aligned ⟨hs.1, h'⟩
    rw [if_pos hs, bind_ok (isaMisalignDataAddrCheck_aligned ha)]
    exact dasicsCheck_granted ht h.granted
  · rw [if_neg hs]
    exact dasicsCheck_granted ht h.granted

theorem vaddrCheck_misaligned (h : Misaligned P va len) (ht : type ≠ .ifetch) :
    vaddrCheck P (some pc) va len type s =
      .error (.exception ⟨if s.amo ∨ type = .write then .SAM else .LAM, some va, .plain⟩)
        (s.setCsr (trapLevel P s (if s.amo ∨ type = .write then Exc.SAM else .LAM).code).tval va) := by
  have hrun : isaMisalignDataAddrCheck P va len type s =
      (faultAt P (if s.amo ∨ type = .write then .SAM else .LAM) va : Exec Unit) s := by
    unfold isaMisalignDataAddrCheck
    rw [get_bind, if_pos h.2]
  unfold vaddrCheck
  rw [if_pos ⟨h.1, ht⟩, bind_error (hrun.trans (faultAt_run P _ va s))]

theorem Checked.of_run (h : vaddrCheck P (some pc) va len type s = .ok () t)
    (ht : type = .read ∨ type = .write) : Checked P s pc va len type where
  aligned hm := by
    have hne : type ≠ .ifetch := by
      obtain rfl | rfl := ht <;> decide
    rw [vaddrCheck_misaligned hm hne] at h
    cases h
  granted hd hu := (vaddrCheck_granted hd hu ht h).2.2

end Check

section Route

/-- Both tests of the upper bits accept the same addresses. -/
theorem msbs_iff_canonical (va : Word) :
    (va >>> 38 = ((1 : Word) <<< 26) - 1 ∨ va >>> 38 = 0) ↔
      (va.extractLsb' 0 39).signExtend 64 = va := by
  constructor
  · intro h
    refine canonical_iff.mpr fun i h1 h2 => ?_
    have hbit : ∀ k, 38 ≤ k → va.getLsbD k = (va >>> 38).getLsbD (k - 38) := by
      intro k hk
      rw [BitVec.getLsbD_ushiftRight, Nat.add_sub_cancel' hk]
    rw [hbit i (by omega), hbit 38 (by omega)]
    obtain h | h := h
    · have hmask : ∀ k < 26, (((1 : Word) <<< 26) - 1).getLsbD k = true := by decide
      rw [h, hmask _ (by omega), hmask _ (by omega)]
    · rw [h]
      exact BitVec.getLsbD_zero.trans BitVec.getLsbD_zero.symm
  · exact Canonical.msbs

/-- The address has the wrong upper bits, for a machine that translates it. -/
def NonCanonical (s : Machine) (va : Word) : Prop := s.VmEnabled ∧ ¬ Canonical va

/-- The test of the upper bits in `isa_mmu_check`. -/
def MsbsOk (s : Machine) (va : Word) (type : MemType) : Prop :=
  va >>> 38 = ((1 : Word) <<< 26) - 1 ∨ va >>> 38 = 0 ∨
    ¬ (s.accessMode (type = .ifetch) < .M ∧ s.satpMode = 8)

theorem msbsOk_iff (ht : type = .read ∨ type = .write) :
    MsbsOk s va type ↔ ¬ NonCanonical s va := by
  have hmode : s.accessMode (type = .ifetch) = s.accessMode false := by
    obtain rfl | rfl := ht <;> rfl
  have hc := msbs_iff_canonical va
  unfold MsbsOk NonCanonical Machine.VmEnabled Canonical
  rw [hmode, ← or_assoc, hc]
  tauto

theorem isaMmuCheck_nonCanonical (ht : type = .read ∨ type = .write) (h : NonCanonical s va) :
    isaMmuCheck P va len type s =
      .error (.exception ⟨pageFault s type, some va, .plain⟩)
        (s.faulted P (pageFault s type) va) := by
  have hmsb : ¬ MsbsOk s va type := fun hm => (msbsOk_iff ht).mp hm h
  unfold MsbsOk at hmsb
  unfold isaMmuCheck
  rw [get_bind, if_pos hmsb]
  obtain rfl | rfl := ht
  · exact faultAt_run P _ va s
  · exact faultAt_run P _ va s

theorem isaMmuCheck_cached (ht : type = .read ∨ type = .write)
    (ha : ¬ (P.acSoft = true ∧ va &&& (BitVec.ofNat 64 len - 1) ≠ 0)) (h : ¬ NonCanonical s va) :
    isaMmuCheck P va len type s = .ok s.dataMmuState s := by
  have hmsb : MsbsOk s va type := (msbsOk_iff ht).mpr h
  have hne : ¬ type = .ifetch := by
    obtain rfl | rfl := ht <;> decide
  unfold MsbsOk at hmsb
  unfold isaMmuCheck
  rw [get_bind, if_neg (not_not.mpr hmsb), if_neg hne, if_neg ha]
  rfl

theorem isaMmuTranslate_nonCanonical (hc : ¬ Canonical va) (ht : type = .read ∨ type = .write) :
    (Permitted s false → (isaMmuTranslate P va type s) = pageFaulted P s type va) ∧
      (¬ Permitted s false → isaMmuTranslate P va type s = .error (.abort .permissionMode) s) := by
  have hdec : decide (type = .ifetch) = false := by
    obtain rfl | rfl := ht <;> rfl
  have hne : type = .ifetch → s.amo = false := by
    intro h
    obtain rfl | rfl := ht <;> cases h
  have hwalk : ptwWalk P va type s = .ok (.bad ⟨0⟩) s := congrFun (if_neg hc) s
  have hptw : ptw P va type s = (checkPermission P ⟨0⟩ false va type >>= fun _ => pure memRetFail) s :=
    bind_ok hwalk
  constructor
  · intro hm
    have hp : checkPermission P ⟨0⟩ false va type s = pageFaulted P s type va := by
      rw [checkPermission_eq (hdec ▸ hm) hne]
      rfl
    exact bind_error (hptw.trans (bind_error hp))
  · intro hm
    have hp : checkPermission P ⟨0⟩ false va type s = .error (.abort .permissionMode) s :=
      checkPermission_mode (hdec ▸ hm)
    exact bind_error (hptw.trans (bind_error hp))

/-- An access in its three parts. -/
def route (P : Platform) (pc va : Word) (len : Nat) (type : MemType) (direct mapped : Exec α)
    (m : MmuMode) : Exec α := do
  vaddrCheck P (some pc) va len type
  let m ← resolveMmuMode P va len type m
  if m = .direct then direct else mapped

def directRead (P : Platform) (va : Word) (len : Nat) : Exec Word := do
  let s ← get
  paddrRead P va len .read s.mode va

def directWrite (P : Platform) (va : Word) (len : Nat) (data : Word) : Exec Unit := do
  let s ← get
  paddrWrite P va len data s.mode va

theorem vaddrRead_route (m : MmuMode) : vaddrRead P pc va len m =
    route P pc va len .read (directRead P va len) (vaddrMmuRead P va len .read) m := rfl

theorem vaddrWrite_route (data : Word) (m : MmuMode) : vaddrWrite P pc va len data m =
    route P pc va len .write (directWrite P va len data) (vaddrMmuWrite P va len data) m := rfl

variable {direct mapped : Exec α}

theorem route_static (h : Checked P s pc va len type) (ht : type = .read ∨ type = .write) :
    route P pc va len type direct mapped (getDataMmuState s) s =
      if s.dataMmuState = .direct then direct s else mapped s := by
  unfold route getDataMmuState
  rw [bind_ok (h.run ht)]
  split <;> rfl

theorem route_dynamic (h : Checked P s pc va len type) (ht : type = .read ∨ type = .write)
    (hP : P.share = true) (hc : ¬ NonCanonical s va) :
    route P pc va len type direct mapped .dynamic s =
      if s.dataMmuState = .direct then direct s else mapped s := by
  have ha : ¬ (P.acSoft = true ∧ va &&& (BitVec.ofNat 64 len - 1) ≠ 0) :=
    fun h' => h.aligned ⟨hP, h'⟩
  have hr : resolveMmuMode P va len type .dynamic s = .ok s.dataMmuState s :=
    isaMmuCheck_cached ht ha hc
  unfold route
  rw [bind_ok (h.run ht), bind_ok hr]
  split <;> rfl

theorem route_nonCanonical (h : Checked P s pc va len type) (ht : type = .read ∨ type = .write)
    (hc : NonCanonical s va) :
    route P pc va len type direct mapped .dynamic s =
      .error (.exception ⟨pageFault s type, some va, .plain⟩)
        (s.faulted P (pageFault s type) va) := by
  have hr : resolveMmuMode P va len type .dynamic s =
      .error (.exception ⟨pageFault s type, some va, .plain⟩)
        (s.faulted P (pageFault s type) va) := isaMmuCheck_nonCanonical ht hc
  unfold route
  rw [bind_ok (h.run ht), bind_error hr]

theorem route_unchecked (h : ¬ Checked P s pc va len type) (ht : type = .read ∨ type = .write) :
    ∃ e t, ∀ m, route P pc va len type direct mapped m s = .error e t := by
  cases hv : vaddrCheck P (some pc) va len type s with
  | ok _ t => exact absurd (Checked.of_run hv ht) h
  | error e t => exact ⟨e, t, fun _ => bind_error hv⟩

end Route

section Agree

/-- The two ways of choosing the path of an access disagree. -/
structure Diverges (P : Platform) (s : Machine) (pc va : Word) (len : Nat) (type : MemType) :
    Prop where
  checked : Checked P s pc va len type
  enabled : s.VmEnabled
  upper : ¬ Canonical va
  path : s.dataMmuState = .direct ∨ s.accessMode false = .H

theorem Machine.VmEnabled.permitted (h : s.VmEnabled) (hm : s.accessMode false ≠ .H) :
    Permitted s false := by
  have hlt := h.1
  revert hlt hm
  unfold Permitted
  cases s.accessMode false <;> decide

/-- No exception with a cause in `bad` is raised. -/
def avoids (bad : Exc → Prop) : Effect Stop Machine where
  ok _ _ := True
  err _ e _ := ∀ f, e = .exception f → ¬ bad f.cause
  refl _ := trivial
  trans _ _ := trivial
  absorb _ h := h

section Avoids

variable {bad : Exc → Prop}

theorem avoids_update {g : Machine → Machine} : (avoids bad).Within (modify g : Exec PUnit) :=
  .update fun _ => trivial

theorem avoids_fault (h : ¬ bad ex) : (avoids bad).Within (faultAt P ex va : Exec α) := by
  intro s
  refine At.of_error (faultAt_run P ex va s) ?_
  rintro f hf
  cases hf
  exact h

theorem avoids_abort (a : Abort) : (avoids bad).Within (throw (.abort a) : Exec α) :=
  .raise fun _ _ h => by cases h

theorem avoids_assert (p : Prop) [Decidable p] : (avoids bad).Within (assert p a) := by
  unfold assert
  split
  · exact .ret _ _
  · exact avoids_abort a

theorem avoids_readReg : (avoids bad).Within (readReg l) :=
  .bind (.read _) fun _ => .ret _ _

theorem avoids_accessFault (h : ¬ bad ex) :
    (avoids bad).Within (raiseAccessFault P ex va : Exec α) :=
  .bind avoids_update fun _ => avoids_fault h

/-- None of the access faults is in `bad`. -/
structure NoAccessFault (bad : Exc → Prop) : Prop where
  fetch : ¬ bad .IAF
  load : ¬ bad .LAF
  store : ¬ bad .SAF

theorem paddrRead_avoids (hb : NoAccessFault bad) :
    (avoids bad).Within (paddrRead P pa len type mode va) := by
  have hfault : (avoids bad).Within (raiseReadAccessFault P type va : Exec Word) := by
    refine .bind (.read _) fun s => ?_
    split
    · exact avoids_accessFault hb.fetch
    split
    · exact avoids_accessFault hb.store
    · exact avoids_accessFault hb.load
  refine .bind (.read _) fun s => ?_
  split
  · exact hfault
  split
  · exact .bind (avoids_assert _) fun _ => .bind (.read _) fun _ => .ret _ _
  split
  · refine .bind (.read _) fun s => ?_
    split
    · exact avoids_abort _
    · exact .bind avoids_update fun _ => .ret _ _
  split
  · exact .ret _ _
  · exact hfault

theorem paddrWrite_avoids (hb : NoAccessFault bad) :
    (avoids bad).Within (paddrWrite P pa len data mode va) := by
  refine .bind (.read _) fun s => ?_
  split
  · exact avoids_accessFault hb.store
  split
  · exact .bind (avoids_assert _) fun _ => avoids_update
  split
  · refine .bind (.read _) fun s => ?_
    split
    · exact avoids_abort _
    · exact avoids_update
  split
  · exact .ret _ _
  · exact avoids_accessFault hb.store

structure NoPageFault (bad : Exc → Prop) : Prop where
  ipf : ¬ bad .IPF
  lpf : ¬ bad .LPF
  spf : ¬ bad .SPF

theorem avoids_raise (h : ¬ bad ex) :
    (avoids bad).Within (raise ⟨ex, x, y⟩ : Exec α) :=
  .raise fun _ _ hf => by
    cases hf
    exact h

theorem forceRaisePf_avoids (hb : NoPageFault bad) :
    (avoids bad).Within (forceRaisePf P va type) :=
  forceRaisePf_within (.bind (.read _) fun _ => .bind avoids_update fun _ => .ret _ _)
    (fun _ _ => .bind avoids_update fun _ => avoids_raise hb.ipf) (avoids_fault hb.lpf) (avoids_fault hb.spf)

end Avoids

/-- The page faults of data accesses. -/
def isDataPageFault (ex : Exc) : Prop := ex = .LPF ∨ ex = .SPF

instance (ex : Exc) : Decidable (isDataPageFault ex) := inferInstanceAs (Decidable (_ ∨ _))

theorem isDataPageFault_noAccess : NoAccessFault isDataPageFault :=
  ⟨by decide, by decide, by decide⟩

theorem pageFault_data (ht : type = .read ∨ type = .write) :
    isDataPageFault (pageFault s type) := by
  unfold pageFault
  obtain rfl | rfl := ht
  · cases s.amo
    · exact .inl rfl
    · exact .inr rfl
  · exact .inr rfl

theorem settle_bind {m m' : Exec α} {k : α → Exec β} (h : settle (m s) = settle (m' s)) :
    settle ((m >>= k) s) = settle ((m' >>= k) s) := by
  cases hm : m s with
  | ok a t =>
    cases hm' : m' s with
    | ok a' t' =>
      rw [hm, hm'] at h
      cases h
      rw [bind_ok hm, bind_ok hm']
    | error e t' =>
      rw [hm, hm'] at h
      cases h
  | error e t =>
    cases hm' : m' s with
    | ok a' t' =>
      rw [hm, hm'] at h
      cases h
    | error e' t' =>
      rw [hm, hm'] at h
      rw [bind_error hm, bind_error hm']
      obtain ⟨he, ht⟩ := EStateM.Result.error.inj h
      have hr : (.error e { t with amo := false } : EStateM.Result Stop Machine β) =
          .error e' { t' with amo := false } := congr (congrArg EStateM.Result.error he) ht
      exact hr

variable {direct mapped : Exec α}

theorem route_agree {k' : Word → Exec α} (hP : P.share = true)
    (ht : type = .read ∨ type = .write)
    (hmap : mapped = isaMmuTranslate P va type >>= k') (hd : ¬ Diverges P s pc va len type) :
    settle (route P pc va len type direct mapped (getDataMmuState s) s) =
      settle (route P pc va len type direct mapped .dynamic s) := by
  by_cases hck : Checked P s pc va len type
  · by_cases hc : NonCanonical s va
    · have hpath : s.dataMmuState ≠ .direct ∧ s.accessMode false ≠ .H :=
        not_or.mp fun h => hd ⟨hck, hc.1, hc.2, h⟩
      have htr := (isaMmuTranslate_nonCanonical (P := P) hc.2 ht).1 (hc.1.permitted hpath.2)
      rw [route_static hck ht, route_nonCanonical hck ht hc, if_neg hpath.1, hmap, bind_error htr]
      rfl
    · rw [route_static hck ht, route_dynamic hck ht hP hc]
  · have hun : ∃ e t, ∀ m, route P pc va len type direct mapped m s = .error e t :=
      route_unchecked hck ht
    obtain ⟨e, t, he⟩ := hun
    rw [he, he]

theorem settle_ne_pageFault {r : EStateM.Result Stop Machine α} (ht : type = .read ∨ type = .write)
    (h : ∀ e t, r = .error e t → ∀ f, e = .exception f → ¬ isDataPageFault f.cause) :
    settle r ≠ settle (.error (.exception ⟨pageFault s type, x, y⟩) u) := by
  intro he
  cases r with
  | ok a t => cases he
  | error e t =>
    obtain ⟨he, -⟩ := EStateM.Result.error.inj he
    exact h e t rfl _ he (pageFault_data ht)

theorem route_diverges {k : α → Exec β} {k' : Word → Exec α} (ht : type = .read ∨ type = .write)
    (hmap : mapped = isaMmuTranslate P va type >>= k') (hdir : (avoids isDataPageFault).Within direct)
    (hk : ∀ a, (avoids isDataPageFault).Within (k a)) (hd : Diverges P s pc va len type) :
    settle ((route P pc va len type direct mapped (getDataMmuState s) >>= k) s) ≠
      settle ((route P pc va len type direct mapped .dynamic >>= k) s) := by
  have hc : NonCanonical s va := ⟨hd.enabled, hd.upper⟩
  have hst : route P pc va len type direct mapped (getDataMmuState s) s =
      if s.dataMmuState = .direct then direct s else mapped s := route_static hd.checked ht
  rw [bind_error (route_nonCanonical hd.checked ht hc)]
  refine settle_ne_pageFault ht fun e t he => ?_
  by_cases hdm : s.dataMmuState = .direct
  · have hrun : (route P pc va len type direct mapped (getDataMmuState s) >>= k) s =
        (direct >>= k) s := by
      rw [if_pos hdm] at hst
      cases hr : direct s with
      | ok a u => rw [bind_ok (hst.trans hr), bind_ok hr]
      | error e u => rw [bind_error (hst.trans hr), bind_error hr]
    exact (Within.bind hdir hk).error (hrun.symm.trans he)
  · have hm : ¬ Permitted s false := by
      have hH := hd.path.resolve_left hdm
      unfold Permitted
      rw [hH]
      decide
    have htr := (isaMmuTranslate_nonCanonical (P := P) hd.upper ht).2 hm
    have hms : mapped s = .error (.abort .permissionMode) s := by
      rw [hmap]
      exact bind_error htr
    rw [if_neg hdm, hms] at hst
    rw [bind_error hst] at he
    obtain ⟨rfl, -⟩ := EStateM.Result.error.inj he
    intro f hf
    cases hf

/-- What an integer load or store does with its access. -/
def loadTail (P : Platform) (d : Decode) (signed : Bool) (len : Nat) (v : Word) : Exec Unit :=
  if signed then do
    assert (HostLength len) .hostLength
    writeReg d.dest.preg ((v.setWidth (8 * len)).signExtend 64)
  else do
    writeReg d.dest.preg v
    let a ← readReg d.src1.preg
    recordMemEvent P true (a + d.src2.imm)

theorem exec_load_route (d : Decode) (signed : Bool) (m : MmuMode) :
    exec P { d with id := .load signed len m } s =
      (vaddrRead P d.pc (s.readLoc d.src1.preg + d.src2.imm) len m >>=
        loadTail P d signed len) s := by
  cases signed with
  | false => rfl
  | true =>
    have hexec : exec P { d with id := .load true len m } s =
        (rtlLms P d d.src1.preg d.src2.imm len m >>= fun v => writeReg d.dest.preg v) s := rfl
    rw [hexec]
    unfold rtlLms loadTail
    simp only [bind_assoc, pure_bind, ↓reduceIte]
    rfl

theorem exec_store_route (d : Decode) (m : MmuMode) :
    exec P { d with id := .store len m } s =
      (vaddrWrite P d.pc (s.readLoc d.src1.preg + d.src2.imm) len (s.readLoc d.dest.preg) m >>=
        fun _ => recordMemEvent P false (s.readLoc d.src1.preg + d.src2.imm)) s := rfl

theorem loadTail_avoids (d : Decode) (signed : Bool) (v : Word) :
    (avoids bad).Within (loadTail P d signed len v) := by
  unfold loadTail
  split
  · exact .bind (avoids_assert _) fun _ => avoids_update
  · exact .bind avoids_update fun _ => .bind avoids_readReg fun _ => avoids_update

/-- In the reference, the `mmu_mode` chosen at decode and `MMU_DYNAMIC` give an integer load or
store the same effect, except when the address is non-canonical and either the cached MMU mode is
stale or the mode of the access is the reserved one. -/
theorem mmu_modes_agree_iff (hP : P.share = true) (a : ScalarAccess) (d : Decode) (s : Machine) :
    (settle (exec P { d with id := a.id (getDataMmuState s) } s) =
        settle (exec P { d with id := a.id .dynamic } s) ↔
      ¬ Diverges P s d.pc (s.readLoc d.src1.preg + d.src2.imm) a.len a.type) ∧
    ∀ va : Word, (va >>> 38 = ((1 : Word) <<< 26) - 1 ∨ va >>> 38 = 0) ↔
      (va.extractLsb' 0 39).signExtend 64 = va := by
  refine ⟨?_, msbs_iff_canonical⟩
  cases a with
  | load signed len =>
    change settle (exec P { d with id := .load signed len _ } s) =
      settle (exec P { d with id := .load signed len _ } s) ↔ _
    rw [exec_load_route, exec_load_route, vaddrRead_route, vaddrRead_route]
    constructor
    · intro h hd
      refine route_diverges (.inl rfl) rfl ?_ (fun v => loadTail_avoids d signed v) hd h
      exact .bind (.read _) fun _ => paddrRead_avoids isDataPageFault_noAccess
    · intro hd
      exact settle_bind (route_agree hP (.inl rfl) rfl hd)
  | store len =>
    change settle (exec P { d with id := .store len _ } s) =
      settle (exec P { d with id := .store len _ } s) ↔ _
    rw [exec_store_route, exec_store_route, vaddrWrite_route, vaddrWrite_route]
    constructor
    · intro h hd
      refine route_diverges (.inr rfl) rfl ?_ (fun _ => avoids_update) hd h
      exact .bind (.read _) fun _ => paddrWrite_avoids isDataPageFault_noAccess
    · intro hd
      exact settle_bind (route_agree hP (.inr rfl) rfl hd)

/-- Machine mode with MPRV set, the reserved value in MPP and translation on; `x1` holds a
non-canonical address. -/
def reservedMpp : Machine :=
  { ((Machine.reset (Platform.bare .reference) fun _ => 0).setCsr .mstatus 0x21000).setCsr .satp
      (8 <<< 60) with
    gpr := fun r => if r = 1 then 0x4000000000 else 0
    dataMmuState := .translate }

/-- `ld x2, 0(x1)`. -/
def loadX1 : Decode where
  pc := 0x80000000
  snpc := 0x80000004
  instr := 0x0000b103
  id := .load true 8 .translate
  dest := ⟨.gpr 2, 0⟩
  src1 := ⟨.gpr 1, 0⟩
  src2 := ⟨.zeroNull, 0⟩

/-- The load fails an assertion with the mode chosen at decode and raises a page fault with
`MMU_DYNAMIC`. -/
theorem mmu_modes_disagree :
    reservedMpp.dataMmuState = reservedMpp.mmuState false ∧ ∃ t t',
      exec (Platform.bare .reference) { loadX1 with id := .load true 8 (getDataMmuState reservedMpp) }
        reservedMpp = .error (.abort .permissionMode) t ∧
      exec (Platform.bare .reference) { loadX1 with id := .load true 8 .dynamic } reservedMpp =
        .error (.exception ⟨.LPF, some 0x4000000000, .plain⟩) t' :=
  ⟨rfl, _, _, rfl, rfl⟩

/-- The same load with S in MPP. -/
theorem mmu_modes_agree_iff_ld :
    settle (exec (Platform.bare .reference)
        { loadX1 with id := .load true 8 (getDataMmuState (reservedMpp.setCsr .mstatus 0x20800)) }
        (reservedMpp.setCsr .mstatus 0x20800)) =
      settle (exec (Platform.bare .reference) { loadX1 with id := .load true 8 .dynamic }
        (reservedMpp.setCsr .mstatus 0x20800)) := by
  have h := (mmu_modes_agree_iff (P := Platform.bare .reference) rfl (.load true 8) loadX1
    (reservedMpp.setCsr .mstatus 0x20800)).1
  refine h.mpr fun hd => ?_
  obtain hp | hp := hd.path
  · cases hp
  · exact absurd hp (by decide)

end Agree

end Nemu
