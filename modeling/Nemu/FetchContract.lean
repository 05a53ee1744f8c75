import Nemu.AccessContract

namespace Nemu

open Effect

set_option autoImplicit true

variable {P : Platform} {q : Machine → Prop} {s t : Machine} {d : Decode}

theorem liftDecode_access (h : DecodesAt f r) : (accessEffect P q).Within (liftDecode r) := by
  cases r with
  | ok d => exact .ret _ _
  | error e =>
    rcases h with rfl | rfl
    · exact illegal_access
    · exact abort_access rfl

theorem decodeRest_access :
    (accessEffect P (BadTranslation true .dynamic)).Within (decodeRest P pc lo) := by
  unfold decodeRest
  split
  · exact .bind (.read _) fun s => liftDecode_access tableRvc_decodes
  · exact .bind vaddrIfetch_access fun hi => .bind (.read _) fun s => .ret _ _

def Machine.decodeMode (s : Machine) : MmuMode :=
  if s.dataMmuState = .direct then .direct else .translate

/-- Where an instruction fetched at `pc` stands, with the mode of its accesses. -/
structure FetchedAt (a : Word) (m : MmuMode) (d : Decode) : Prop where
  pc : d.pc = a
  snpc : d.snpc = a + 2 ∨ d.snpc = a + 4
  uses : d.id.Uses m

theorem dataMmuState_of_eraseAccess (h : t.eraseAccess = s.eraseAccess) :
    t.dataMmuState = s.dataMmuState := by
  have h1 := congrArg Machine.dataMmuState h
  exact h1

theorem decodeMode_of_eraseAccess (h : t.eraseAccess = s.eraseAccess) : t.decodeMode = s.decodeMode := by
  unfold Machine.decodeMode
  rw [dataMmuState_of_eraseAccess h]

theorem liftDecode_ok {r : Except Stop Decode} (h : (liftDecode r : Exec Decode) s = .ok d t) :
    r = .ok d := by
  cases r with
  | ok d' =>
    cases h
    rfl
  | error e => cases h

/-- What is decoded, from the halves of the instruction and in the state after they are fetched. -/
theorem decodeRest_tables (h : decodeRest P pc lo s = .ok d t) :
    ∃ u : Machine, u.eraseAccess = s.eraseAccess ∧
      (lo.extractLsb' 0 2 ≠ 3 ∧ tableRvc P (u.fetched pc (pc + 2) (lo.setWidth 32)) = .ok d ∨
        lo.extractLsb' 0 2 = 3 ∧ ∃ hi : Word,
          d = tableMain P (u.fetched pc (pc + 4) (lo.setWidth 32 ||| (hi.setWidth 32 <<< 16)))) := by
  unfold decodeRest at h
  split at h
  · next hlow =>
    obtain ⟨_, _, hget, h1⟩ := ok_of_bind h
    cases hget
    exact ⟨_, rfl, .inl ⟨hlow, liftDecode_ok h1⟩⟩
  · next hlow =>
    obtain ⟨hi, u, hf, h1⟩ := ok_of_bind h
    obtain ⟨_, _, hget, h2⟩ := ok_of_bind h1
    cases hget
    cases h2
    exact ⟨_, vaddrIfetch_access.ok hf, .inr ⟨not_not.mp hlow, hi, rfl⟩⟩

theorem decodeRest_fetched (h : decodeRest P pc lo s = .ok d t) : FetchedAt pc s.decodeMode d := by
  obtain ⟨u, hu, ⟨-, htable⟩ | ⟨-, hi, rfl⟩⟩ := decodeRest_tables h
  · have hd := tableRvc_decodes (P := P) (f := u.fetched pc (pc + 2) (lo.setWidth 32))
    rw [htable] at hd
    have hm := decodeMode_of_eraseAccess hu
    exact ⟨hd.pc, .inl hd.snpc, hm ▸ hd.uses⟩
  · let f := u.fetched pc (pc + 4) (lo.setWidth 32 ||| (hi.setWidth 32 <<< 16))
    have hd : Placed f (tableMain P f) := tableMain_placed
    have hm := decodeMode_of_eraseAccess hu
    exact ⟨hd.pc, .inr hd.snpc, hm ▸ hd.uses⟩

/-- The check that the previous instruction has left pending fails in `s`. -/
def PendingFails (P : Platform) (s : Machine) : Prop :=
  P.dasics = true ∧ s.prevIsCfi = true ∧
    dasicsAllowCfi s s.pc s.prevPc s.prevType = false ∧ s.mcfgCloseFetch = false

instance (P : Platform) (s : Machine) : Decidable (PendingFails P s) :=
  inferInstanceAs (Decidable (_ ∧ _))

/-- The state in which a failed check of a jump is reported. -/
def jumpFaulted (P : Platform) (s : Machine) : Machine :=
  let t := ({ s with decPc := s.pc } : Machine).setCsr .dfreason FaultReason.DFR_JF.code
  t.setCsr (trapLevel P s (dasicsEx s.mode).code).tval s.pc

def fetchCheck (P : Platform) : Exec Unit := do
  let s ← get
  modify fun t => { t with decPc := s.pc }
  checkPending P s.pc

theorem fetchCheck_run (P : Platform) (s : Machine) :
    fetchCheck P s = if PendingFails P s then
      .error (.exception ⟨dasicsEx s.mode, some s.pc, .plain⟩) (jumpFaulted P s)
    else .ok () { s with decPc := s.pc } := by
  change checkPending P s.pc { s with decPc := s.pc } = _
  by_cases hp : (P.dasics && s.prevIsCfi) = true
  · have h1 : checkPending P s.pc { s with decPc := s.pc } =
        dasicsFetchHelper P s.pc s.prevPc s.prevType { s with decPc := s.pc } :=
      congrFun (if_pos hp) _
    rw [Bool.and_eq_true] at hp
    rw [h1]
    by_cases hf : (!dasicsAllowCfi s s.pc s.prevPc s.prevType && !s.mcfgCloseFetch) = true
    · have h2 : dasicsFetchHelper P s.pc s.prevPc s.prevType { s with decPc := s.pc } =
          dasicsFault P (dasicsEx s.mode) .DFR_JF s.pc { s with decPc := s.pc } :=
        congrFun (if_pos hf) _
      rw [Bool.and_eq_true, Bool.not_eq_true', Bool.not_eq_true'] at hf
      rw [h2, if_pos ⟨hp.1, hp.2, hf.1, hf.2⟩]
      exact faultAt_run P (dasicsEx s.mode) s.pc
        (({ s with decPc := s.pc } : Machine).setCsr .dfreason FaultReason.DFR_JF.code)
    · have h2 : dasicsFetchHelper P s.pc s.prevPc s.prevType { s with decPc := s.pc } =
          (pure () : Exec Unit) { s with decPc := s.pc } :=
        congrFun (if_neg hf) _
      rw [h2, if_neg]
      · rfl
      · rintro ⟨-, -, h3, h4⟩
        exact hf (by rw [h3, h4]; rfl)
  · have h1 : checkPending P s.pc { s with decPc := s.pc } =
        (pure () : Exec Unit) { s with decPc := s.pc } := congrFun (if_neg hp) _
    rw [h1, if_neg]
    · rfl
    · rintro ⟨h2, h3, -, -⟩
      exact hp (by rw [h2, h3]; rfl)

def fetchRest (P : Platform) (pc : Word) : Exec Decode := do
  let lo ← vaddrIfetch P pc 2
  let d ← decodeRest P pc lo
  modify fun s => { s with
    prevType := d.id.cfiType
    prevIsCfi := d.id.cfiType ≠ .none }
  pure d

theorem fetchDecode_eq (P : Platform) (s : Machine) :
    fetchDecode P s = (fetchCheck P >>= fun _ => fetchRest P s.pc) s := by
  have h1 : fetchDecode P s =
      (checkPending P s.pc >>= fun _ => fetchRest P s.pc) { s with decPc := s.pc } := rfl
  have h2 : fetchCheck P s = checkPending P s.pc { s with decPc := s.pc } := rfl
  rw [h1]
  cases hc : checkPending P s.pc { s with decPc := s.pc } with
  | ok a t => rw [bind_ok hc, bind_ok (h2.trans hc)]
  | error e t => rw [bind_error hc, bind_error (h2.trans hc)]

/-- A state in which `d` has just been fetched and decoded. -/
def Machine.decoded (s : Machine) (d : Decode) : Machine :=
  { s with
    decPc := s.pc
    prevType := d.id.cfiType
    prevIsCfi := d.id.cfiType ≠ .none }

/-- A completed fetch: the pending check did not fail, and has been replaced by that of the
fetched instruction. -/
structure Fetches (P : Platform) (s : Machine) (d : Decode) (t : Machine) : Prop where
  passed : ¬ PendingFails P s
  at_pc : FetchedAt s.pc s.decodeMode d
  frame : t.eraseAccess = (s.decoded d).eraseAccess

theorem fetchDecode_parts (h : fetchDecode P s = .ok d t) :
    ¬ PendingFails P s ∧ ∃ (lo : Word) (v w : Machine),
      v.eraseAccess = ({ s with decPc := s.pc } : Machine).eraseAccess ∧
      decodeRest P s.pc lo v = .ok d w ∧
      t = { w with prevType := d.id.cfiType, prevIsCfi := d.id.cfiType ≠ .none } := by
  rw [fetchDecode_eq] at h
  obtain ⟨_, u, hc, h1⟩ := ok_of_bind h
  rw [fetchCheck_run] at hc
  split at hc
  · cases hc
  · next hp =>
    cases hc
    obtain ⟨lo, v, hlo, h2⟩ := ok_of_bind h1
    obtain ⟨d', w, hd, h3⟩ := ok_of_bind h2
    cases h3
    exact ⟨hp, lo, v, w, vaddrIfetch_access.ok hlo, hd, rfl⟩

theorem fetchDecode_ok (h : fetchDecode P s = .ok d t) : Fetches P s d t := by
  obtain ⟨hp, lo, v, w, hv, hd, rfl⟩ := fetchDecode_parts h
  have hw : w.eraseAccess = _ := decodeRest_access.ok hd
  have hf := decodeRest_fetched hd
  have hm : v.decodeMode = ({ s with decPc := s.pc } : Machine).decodeMode :=
    decodeMode_of_eraseAccess hv
  refine ⟨hp, hm ▸ hf, ?_⟩
  have hwv := congrArg (fun x : Machine => ({ x with
    prevType := d.id.cfiType, prevIsCfi := d.id.cfiType ≠ .none } : Machine)) (hw.trans hv)
  exact hwv

theorem fetchDecode_error (h : fetchDecode P s = .error e t) :
    (PendingFails P s ∧ e = .exception ⟨dasicsEx s.mode, some s.pc, .plain⟩ ∧
      t = jumpFaulted P s) ∨
    (¬ PendingFails P s ∧ Stops P Machine.eraseAccess (BadTranslation true .dynamic)
      ({ s with decPc := s.pc } : Machine).eraseAccess e t) := by
  rw [fetchDecode_eq] at h
  rcases error_of_bind h with hc | ⟨_, u, hc, h1⟩
  · rw [fetchCheck_run] at hc
    split at hc
    · next hp =>
      cases hc
      exact .inl ⟨hp, rfl, rfl⟩
    · cases hc
  · rw [fetchCheck_run] at hc
    split at hc
    · cases hc
    · next hp =>
      cases hc
      refine .inr ⟨hp, ?_⟩
      rcases error_of_bind h1 with h2 | ⟨lo, v, hlo, h2⟩
      · exact vaddrIfetch_access.error h2
      · rcases error_of_bind h2 with h3 | ⟨d, w, hd, h3⟩
        · exact (accessEffect P _).absorb (vaddrIfetch_access.ok hlo) (decodeRest_access.error h3)
        · cases h3

end Nemu
