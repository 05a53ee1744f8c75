import Nemu.CsrAtomic
import Nemu.Exceptions
import Nemu.Footprint
import Nemu.Sandbox

namespace Nemu

open Effect

set_option autoImplicit true

/-- The number of a cause, without the bit that tells interrupts from exceptions. -/
def causeNo (no : Word) : Word := no &&& ~~~intrBit

def IsIntr (no : Word) : Prop := no &&& intrBit ≠ 0

instance (no : Word) : Decidable (IsIntr no) := inferInstanceAs (Decidable (_ ≠ _))

/-- Where a trap with the cause `no` has to enter, after the value `v` was written to `xtvec`. -/
def vectorTarget (v no : Word) : Word :=
  if v &&& 3 = 1 then if IsIntr no then (v - 1) + 4 * causeNo no else v - 1 else v

/-- A CSR instruction that gives `csr_write` the value `v` for `xtvec`. -/
structure Decode.WritesTvec (d : Decode) (P : Platform) (s : Machine) (l : Level) (v : Word) :
    Prop where
  stores : d.StoresCsr P l.tvec
  value : d.csrOperand P s l.tvec = v

/-- The steps of a guest other than an instruction that writes `xtvec`. -/
inductive TvecKept (P : Platform) (l : Level) : Machine → Machine → Prop where
  | instr : executeStep P s = .ok d t → ¬ d.StoresCsr P l.tvec → TvecKept P l s t
  | fault : executeStep P s = .error (.exception f) t → TvecKept P l s t
  | cached : executeDecoded P d s = .ok d' t → ¬ d.StoresCsr P l.tvec → TvecKept P l s t
  | cachedFault : executeDecoded P d s = .error (.exception f) t → TvecKept P l s t
  | trap : handleException P f s = .ok () t → TvecKept P l s t
  | intr : takeIntr P no s = .ok () t → TvecKept P l s t
  | timer : TvecKept P l s (setMtip (some b) s)
  | guide : P.guidedExec = true → TvecKept P l s { s with guidedExec := b, guide := g }

/-- A trap is taken from the state `s` to the level `l`: an exception, an interrupt, or one that
an instruction raises by itself. -/
inductive TakesTrap (P : Platform) (s : Machine) : Level → Word → Word → Prop where
  | exception : handleException P f s = .ok () t →
      TakesTrap P s (trapLevel P s f.cause.code) f.cause.code t.pc
  | interrupt : takeIntr P no s = .ok () t → TakesTrap P s (trapLevel P s no) no t.pc
  | hostcall : hostcallTrap P pc imm epc s = .ok a t → t.mode = l.mode → t.csr l.cause = no →
      TakesTrap P s l no a

variable {P : Platform} {s t u : Machine} {d : Decode} {l : Level} {v no : Word}

section Frame

theorem csrTargets_tvec (h : l.tvec ∈ csrTargets c) : c = l.tvec := by
  cases l <;> cases c <;> simp [csrTargets, Level.tvec] at h ⊢

theorem tvec_mapMstatus (f : Word → Word) (s : Machine) (l : Level) :
    (s.mapMstatus f).csr l.tvec = s.csr l.tvec := by
  apply Machine.setCsr_csr_ne
  cases l <;> decide

theorem tvec_setCsr (s : Machine) (x : Word) (l : Level) (hc : c ≠ l.tvec) :
    (s.setCsr c x).csr l.tvec = s.csr l.tvec :=
  Machine.setCsr_csr_ne s x hc.symm

theorem tvec_erased (h : t.eraseFault.eraseAccess = s.eraseFault.eraseAccess) (l : Level) :
    t.csr l.tvec = s.csr l.tvec := by
  have hl : ∀ u : Machine, u.eraseFault.eraseAccess.csr l.tvec = u.csr l.tvec := by
    intro u
    cases l <;> rfl
  rw [← hl t, h, hl s]

theorem tvec_trapEntry (P : Platform) (no epc : Word) (s : Machine) (l : Level) :
    (trapEntry P no epc s).csr l.tvec = s.csr l.tvec := by
  apply trapEntry_csr
  cases trapLevel P s no <;> cases l <;> rfl

theorem csr_writeLoc (s : Machine) (loc : Loc) (x : Word) : (s.writeLoc loc x).csr = s.csr := by
  cases loc <;> rfl

/-- The executors other than those of the CSR instructions for `xtvec` keep it. -/
theorem Change.tvec_kept (h : Change P d s t) (hd : ¬ d.StoresCsr P l.tvec) :
    t.csr l.tvec = s.csr l.tvec := by
  cases h with
  | access h => exact tvec_erased h l
  | dest _ | link _ | vgpr _ _ => exact congrFun (csr_writeLoc s _ _) _
  | reserve _ | release _ | record _ | vreg _ | jump _ | rm _ => rfl
  | dirty _ | sd _ | fpCsr _ _ => exact tvec_mapMstatus _ s l
  | flags f _ =>
    rw [tvec_setCsr _ _ l (by cases l <;> decide), tvec_setCsr _ _ l (by cases l <;> decide)]
  | vcsr c _ => exact tvec_setCsr s _ l (by cases l <;> cases c <;> decide)
  | mie _ => exact tvec_setCsr s _ l (by cases l <;> decide)
  | dretpc _ => exact tvec_setCsr s _ l (by cases l <;> decide)
  | store hs _ =>
    apply csrStore_frame
    intro hmem
    rw [csrTargets_tvec hmem] at hs
    exact hd hs
  | mmu _ h => exact congrFun (congrArg Machine.csr h) _
  | trap no _ => exact tvec_trapEntry P no d.pc s l
  | uret _ => exact (tvec_mapMstatus _ _ l).trans (tvec_mapMstatus _ s l)
  | sret _ | mret _ =>
    exact ((tvec_mapMstatus _ _ l).trans (tvec_mapMstatus _ _ l)).trans (tvec_mapMstatus _ s l)

theorem exec_tvec_kept (hd : ¬ d.StoresCsr P l.tvec) (s : Machine) :
    (final (exec P d) s).csr l.tvec = s.csr l.tvec :=
  reached_keeps (I := fun u => u.csr l.tvec = s.csr l.tvec) (exec_reached P d s)
    (fun _ _ hc hu => (hc.tvec_kept hd).trans hu) rfl

theorem Decode.StoresCsr.exec_eq (h : d.StoresCsr P c) : exec P d = sysCsr P d :=
  exec_sysCsr h.id h.priv P

theorem csrOpen_of_ok (h : d.StoresCsr P c) (hok : exec P d s = .ok () t) : CsrOpen P s d c := by
  by_cases hl : (d.csrId.extractLsb' 8 2).toNat ≤ s.mode.toNat ∧
      (P.dasics = true → dasicsInTrustedZone s d.pc = true)
  · exact ⟨h.addr, hl.1, hl.2⟩
  · rw [h.exec_eq, sysCsr_read_error (bind_error (csrIsLegal_barred h.addr hl))] at hok
    cases hok

theorem csrVisible_tvec (P : Platform) (s : Machine) (l : Level) :
    csrVisible P s l.tvec = s.csr l.tvec &&& ~~~2 := by
  cases l <;> rfl

theorem csrPrepared_tvec (P : Platform) (s : Machine) (l : Level) :
    csrPrepared P s l.tvec = s := by
  cases l <;> rfl

theorem not_csrReadIllegal_tvec (P : Platform) (s : Machine) (l : Level) :
    ¬ csrReadIllegal P s l.tvec := by
  rintro (h | ⟨h, -⟩)
  · cases l <;> cases h
  · cases l <;> cases h

theorem csrWrite_tvec (P : Platform) (s : Machine) (l : Level) (x : Word) :
    csrWrite P l.tvec x s = .ok () (s.setCsr l.tvec (x &&& ~~~3)) := by
  cases l <;> rfl

theorem exec_writesTvec (h : d.WritesTvec P s l v) (hok : exec P d s = .ok () t) :
    t.csr l.tvec = v &&& ~~~3 := by
  have ho := csrOpen_of_ok h.stores hok
  rw [h.stores.exec_eq,
    ho.sysCsr_write (not_csrReadIllegal_tvec P s l) h.stores.writes, csrPrepared_tvec, h.value] at hok
  by_cases hr : d.csrId.extractLsb' 10 2 = 3
  · rw [bind_error (ho.csrrw_readOnly v hr)] at hok
    cases hok
  · obtain ⟨_, u, hu, h1⟩ := ok_of_bind hok
    rw [ho.csrrw_write v hr, bind_ok (csrWrite_tvec P s l v)] at hu
    cases hu
    cases h1
    rw [csr_writeLoc, Machine.setCsr_csr_self]

theorem exec_fault_tvec (h : d.StoresCsr P l.tvec) (he : exec P d s = .error (.exception f) t) :
    t.csr l.tvec = s.csr l.tvec := by
  rw [h.exec_eq] at he
  by_cases hl : (d.csrId.extractLsb' 8 2).toNat ≤ s.mode.toNat ∧
      (P.dasics = true → dasicsInTrustedZone s d.pc = true)
  · have ho : CsrOpen P s d l.tvec := ⟨h.addr, hl.1, hl.2⟩
    rw [ho.sysCsr_write (not_csrReadIllegal_tvec P s l) h.writes, csrPrepared_tvec] at he
    by_cases hr : d.csrId.extractLsb' 10 2 = 3
    · rw [bind_error (ho.csrrw_readOnly _ hr)] at he
      cases he
      rfl
    · rw [bind_ok ((ho.csrrw_write _ hr).trans (bind_ok (csrWrite_tvec P s l _)))] at he
      cases he
  · rw [sysCsr_read_error (bind_error (csrIsLegal_barred h.addr hl))] at he
    cases he

theorem tvec_ticked (P : Platform) (s : Machine) (l : Level) :
    (s.ticked P).csr l.tvec = s.csr l.tvec := by
  unfold Machine.ticked utimerTick
  split
  · split
    · exact tvec_setCsr s _ l (by cases l <;> decide)
    split
    · exact tvec_setCsr s _ l (by cases l <;> decide)
    · exact tvec_setCsr s _ l (by cases l <;> decide)
  · rfl

theorem fetchDecode_tvec (l : Level) :
    (keep Stop fun s : Machine => s.csr l.tvec).Within (fetchDecode P) := by
  intro s
  rw [keep_iff]
  have hl : ∀ u : Machine, u.eraseFetch.csr l.tvec = u.csr l.tvec := by
    intro u
    cases l <;> rfl
  rw [← hl, fetchDecode_frame.final_eq s, hl]

theorem executeDecoded_tvec (h : executeDecoded P d s = .ok d' t) (hd : ¬ d.StoresCsr P l.tvec) :
    t.csr l.tvec = s.csr l.tvec := by
  obtain ⟨-, u, he, rfl⟩ := executeDecoded_ok h
  have hu := exec_tvec_kept (l := l) hd (s.started d)
  rw [final_ok he] at hu
  exact (tvec_ticked P u l).trans hu

theorem exec_error_tvec (h : exec P d s = .error (.exception f) t) :
    t.csr l.tvec = s.csr l.tvec := by
  by_cases hd : d.StoresCsr P l.tvec
  · exact exec_fault_tvec hd h
  · have hu := exec_tvec_kept (l := l) hd s
    rwa [final_error h] at hu

theorem raiseIntr_tvec (l : Level) :
    (keep Stop fun s : Machine => s.csr l.tvec).Within (raiseIntr P no epc) := by
  intro s
  rw [keep_iff, raiseIntr_final_csr]
  exact tvec_trapEntry P no epc s l

/-- Every other step of a guest keeps `xtvec`. -/
theorem TvecKept.eq (h : TvecKept P l s t) : t.csr l.tvec = s.csr l.tvec := by
  cases h with
  | instr h hd =>
    obtain ⟨d', u, hf, h1⟩ := ok_of_bind h
    obtain ⟨rfl, -⟩ := executeDecoded_ok h1
    exact (executeDecoded_tvec h1 hd).trans ((fetchDecode_tvec l).ok hf)
  | fault h =>
    obtain hf | ⟨d, u, hf, he⟩ := executeStep_error h
    · exact (fetchDecode_tvec l).error hf
    · have hu : t.csr l.tvec = u.csr l.tvec := exec_error_tvec (s := u.started d) he
      exact hu.trans ((fetchDecode_tvec l).ok hf)
  | cached h hd => exact executeDecoded_tvec h hd
  | cachedFault h =>
    obtain hm | ⟨_, u, hm, h1⟩ := error_of_bind h
    · cases hm
    · cases hm
      obtain he | ⟨_, v, -, h2⟩ := error_of_bind h1
      · have hs : t.csr l.tvec = s.csr l.tvec := exec_error_tvec (s := s.started _) he
        exact hs
      · cases h2
  | @trap f _ _ h =>
    have hw : (keep Stop fun s : Machine => s.csr l.tvec).Within (handleException P f) := by
      refine .bind (.read _) fun s => .bind (.update fun s => ?_) fun _ =>
        .bind (raiseIntr_tvec l) fun pc => .update fun _ => rfl
      split <;> rfl
    exact hw.ok h
  | @intr no _ _ h =>
    have hw : (keep Stop fun s : Machine => s.csr l.tvec).Within (takeIntr P no) :=
      .bind (.read _) fun s => .bind (raiseIntr_tvec l) fun pc => .update fun _ => rfl
    exact hw.ok h
  | timer => exact tvec_setCsr s _ l (by cases l <;> decide)
  | guide _ => rfl

theorem run_tvec (h : Relation.ReflTransGen (TvecKept P l) s t) : t.csr l.tvec = s.csr l.tvec := by
  induction h with
  | refl => rfl
  | tail _ hs ih => exact hs.eq.trans ih

end Frame

section Entry

theorem raiseIntr_pc (h : raiseIntr P no epc s = .ok a t) :
    a = getTrapPc (s.csr (trapLevel P s no).tvec) no := by
  rw [raiseIntr_eq] at h
  obtain ⟨_, u, hu, h1⟩ := ok_of_bind h
  cases h1
  have hcsr : t.csr = (trapEntry P no epc s).csr := by
    have hm := congrArg Machine.csr (updateMmuState_erase.ok hu)
    exact hm
  rw [hcsr, tvec_trapEntry, trapEntry_cause]

theorem TakesTrap.pc_eq (h : TakesTrap P s l no a) : a = getTrapPc (s.csr l.tvec) no := by
  cases h with
  | @exception f _ h =>
    obtain ⟨_, _, hget, h1⟩ := ok_of_bind h
    cases hget
    obtain ⟨_, u, hm, h2⟩ := ok_of_bind h1
    cases hm
    obtain ⟨a, u, hr, h3⟩ := ok_of_bind h2
    cases h3
    have hpc : a = getTrapPc ((faultHandled P f s).csr
        (trapLevel P (faultHandled P f s) f.cause.code).tvec) f.cause.code := raiseIntr_pc hr
    unfold faultHandled at hpc
    split at hpc
    · exact hpc
    · exact hpc
  | interrupt h =>
    obtain ⟨_, _, hget, h1⟩ := ok_of_bind h
    cases hget
    obtain ⟨a, u, hr, h2⟩ := ok_of_bind h1
    cases h2
    exact raiseIntr_pc hr
  | @hostcall _ _ _ _ t _ _ h hm hc =>
    have hraise : ∀ {no' epc' : Word} {u : Machine}, u.csr l.tvec = s.csr l.tvec →
        raiseIntr P no' epc' u = .ok a t → a = getTrapPc (s.csr l.tvec) no := by
      intro no' epc' u hu hr
      obtain ⟨hcsr, hmode⟩ := raiseIntr_ok hr
      have hl : trapLevel P u no' = l := Level.mode_injective (hmode.symm.trans hm)
      have hno : no' = no := by
        rw [← hc, hcsr, ← hl, trapEntry_cause]
      rw [raiseIntr_pc hr, hl, hu, hno]
    have hset : ∀ x, (s.setCsr .dfreason x).csr l.tvec = s.csr l.tvec := fun x =>
      tvec_setCsr s x l (by cases l <;> decide)
    obtain ⟨_, _, hget, h1⟩ := ok_of_bind h
    cases hget
    dsimp only at h1
    split at h1
    · obtain ⟨_, _, hd, h2⟩ := ok_of_bind h1
      cases hd
      exact hraise (hset _) h2
    split at h1
    · obtain ⟨_, _, hd, h2⟩ := ok_of_bind h1
      cases hd
      exact hraise (hset _) h2
    · exact hraise rfl h1

theorem not_three_eq (v : Word) : v &&& ~~~3 = v - (v &&& 3) := by
  have hsplit : v = (v &&& ~~~3) + (v &&& 3) := by
    rw [BitVec.add_eq_or_of_and_eq_zero]
    · rw [← BitVec.and_or_distrib_left, BitVec.or_comm, BitVec.or_not_self, BitVec.and_allOnes]
    · apply BitVec.eq_of_getLsbD_eq
      intro i hi
      rw [BitVec.getLsbD_and, BitVec.getLsbD_and, BitVec.getLsbD_and, BitVec.getLsbD_not]
      cases v.getLsbD i <;> cases (3 : Word).getLsbD i <;> simp
  exact eq_sub_of_add_eq hsplit.symm

theorem shift_two (x : Word) : (x >>> 2) <<< 2 = x &&& ~~~3 := by
  have hmask : ∀ i < 64, (~~~(3 : Word)).getLsbD i = decide (2 ≤ i) := by decide
  apply BitVec.eq_of_getLsbD_eq
  intro i hi
  rw [BitVec.getLsbD_shiftLeft, BitVec.getLsbD_ushiftRight, BitVec.getLsbD_and, hmask i hi]
  by_cases h2 : 2 ≤ i
  · have hlt : ¬ i < 2 := by omega
    rw [Nat.add_sub_cancel' h2]
    simp [hi, hlt, h2]
  · have hlt : i < 2 := by omega
    simp [hlt, h2]

/-- The mode bit of a written value is lost: every trap enters at the base. -/
theorem getTrapPc_stored (v no : Word) : getTrapPc (v &&& ~~~3) no = v &&& ~~~3 := by
  have hmode : ¬ (v &&& ~~~3) &&& 1 = 1 := by
    rw [BitVec.and_assoc, (by decide : (~~~3 : Word) &&& 1 = 0#64), BitVec.and_zero]
    decide
  unfold getTrapPc
  rw [if_neg fun h => hmode h.2, shift_two, BitVec.and_assoc, BitVec.and_self]

theorem vectorTarget_iff (hv : v &&& 3 = 0 ∨ v &&& 3 = 1) :
    v &&& ~~~3 = vectorTarget v no ↔ (v &&& 3 = 1 → IsIntr no → 4 * causeNo no = 0) := by
  rw [not_three_eq]
  unfold vectorTarget
  obtain h | h := hv
  · rw [h, if_neg (by decide)]
    exact iff_of_true (BitVec.sub_zero v) fun h' => absurd h' (by decide)
  · rw [h, if_pos rfl]
    by_cases hi : IsIntr no
    · rw [if_pos hi]
      constructor
      · intro he _ _
        exact (left_eq_add.mp he)
      · intro hc
        rw [hc rfl hi]
        exact (BitVec.add_zero _).symm
    · rw [if_neg hi]
      exact iff_of_true rfl fun _ h' => absurd h' hi

/-- After a write of `v` to `xtvec`, and any steps without another write, a trap to the level enters
where `v` says exactly if it is not an interrupt with a number other than 0 that `v` vectors. -/
theorem vectored_entry_iff (hv : v &&& 3 = 0 ∨ v &&& 3 = 1) (hw : d.WritesTvec P s l v)
    (hx : executeDecoded P d s = .ok d' t) (hrun : Relation.ReflTransGen (TvecKept P l) t u)
    (hsame : w.csr l.tvec = u.csr l.tvec) (htrap : TakesTrap P w l no pc) :
    pc = vectorTarget v no ↔ (v &&& 3 = 1 → IsIntr no → 4 * causeNo no = 0) := by
  obtain ⟨-, t', he, rfl⟩ := executeDecoded_ok hx
  have hstart : d.WritesTvec P (s.started d) l v := by
    refine ⟨hw.stores, ?_⟩
    rw [← hw.value]
    unfold Decode.csrOperand
    rw [csrVisible_tvec, csrVisible_tvec]
    rfl
  have hstored : u.csr l.tvec = v &&& ~~~3 := by
    rw [run_tvec hrun, tvec_ticked, exec_writesTvec hstart he]
  rw [htrap.pc_eq, hsame, hstored, getTrapPc_stored]
  exact vectorTarget_iff hv

/-- `csrrw x0, mtvec, x5`, with `0x80000101` in `x5`. -/
def vectoring : Machine :=
  { Machine.reset (.bare .standalone) (fun _ => 0) with
    gpr := fun r => if r = 5 then 0x80000101 else 0 }

def vectoringInstr : Decode := csrrwInstr 0x305 0 5

theorem vectoring_writes : vectoringInstr.WritesTvec (.bare .standalone) vectoring .M 0x80000101 :=
  ⟨⟨rfl, by decide, by decide, by decide⟩, rfl⟩

/-- The state that the write leaves. -/
def vectoringDone : Machine :=
  ((vectoring.started vectoringInstr).setCsr .mtvec 0x80000100).writeLoc .zeroNull 0

theorem vectoring_done : executeDecoded (.bare .standalone) vectoringInstr vectoring =
    .ok vectoringInstr (vectoringDone.ticked (.bare .standalone)) := rfl

/-- An illegal instruction enters at the base. -/
theorem vectored_entry_illegal : TakesTrap (.bare .standalone)
      (vectoringDone.ticked (.bare .standalone)) .M Exc.II.code 0x80000100 ∧
    (0x80000100 : Word) = vectorTarget 0x80000101 Exc.II.code := by
  have htrap : TakesTrap (.bare .standalone) (vectoringDone.ticked (.bare .standalone)) .M
      Exc.II.code 0x80000100 :=
    .exception (f := ⟨.II, none, .plain⟩)
      (t := final (handleException (.bare .standalone) ⟨.II, none, .plain⟩)
        (vectoringDone.ticked (.bare .standalone))) rfl
  refine ⟨htrap, ?_⟩
  refine (vectored_entry_iff (.inr (by decide)) vectoring_writes vectoring_done .refl rfl htrap).mpr ?_
  intro _ hi
  exact absurd hi (by decide)

/-- The timer interrupt enters at the base too. -/
theorem vectored_entry_lost :
    vectoringInstr.WritesTvec (.bare .standalone) vectoring .M 0x80000101 ∧
      executeDecoded (.bare .standalone) vectoringInstr vectoring =
        .ok vectoringInstr (vectoringDone.ticked (.bare .standalone)) ∧
      TakesTrap (.bare .standalone) (vectoringDone.ticked (.bare .standalone)) .M (intrNo 7)
        0x80000100 ∧
      (0x80000100 : Word) ≠ vectorTarget 0x80000101 (intrNo 7) := by
  have htaken : takeIntr (.bare .standalone) (intrNo 7) (vectoringDone.ticked (.bare .standalone)) =
      .ok () (final (takeIntr (.bare .standalone) (intrNo 7))
        (vectoringDone.ticked (.bare .standalone))) := rfl
  exact ⟨vectoring_writes, vectoring_done, .interrupt htaken, by decide⟩

end Entry

end Nemu
