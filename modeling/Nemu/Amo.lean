import Nemu.AdUpdate
import Nemu.Alignment
import Nemu.Exceptions
import Nemu.ProtectionKey
import Nemu.TlbCoherence

namespace Nemu

open Effect

set_option autoImplicit true

inductive AmoOp where
  | swap | add | xor | and | or | min | max | minu | maxu
  deriving DecidableEq

namespace AmoOp

def funct5 : AmoOp → BitVec 5
  | swap => 0b00001
  | add => 0b00000
  | xor => 0b00100
  | and => 0b01100
  | or => 0b01000
  | min => 0b10000
  | max => 0b10100
  | minu => 0b11000
  | maxu => 0b11100

/-- What the instruction computes from the old value and the operand, at its own width. -/
def apply (x y : BitVec n) : AmoOp → BitVec n
  | swap => y
  | add => x + y
  | xor => x ^^^ y
  | and => x &&& y
  | or => x ||| y
  | min => if x.slt y then x else y
  | max => if y.slt x then x else y
  | minu => if x.ult y then x else y
  | maxu => if y.ult x then x else y

end AmoOp

structure Decode.IsAmo (d : Decode) (op : AmoOp) : Prop where
  id : d.id = .atomic
  funct5_eq : d.funct5 = op.funct5

namespace Machine

/-- The state without the device log and the counters of forced faults. -/
def eraseLog (s : Machine) : Machine :=
  { s with mmio := [], forcePfAddr := fun _ => 0, forcePfCount := fun _ => 0 }

/-- The state without the records that the emulator keeps for itself. -/
def eraseRecords (s : Machine) : Machine := { s.eraseLog with memEvent := ⟨0, false, false, 0⟩ }

/-- The guide asks for a load page fault, whatever the instruction. -/
def ForcesLpf (s : Machine) : Prop :=
  s.guidedExec = true ∧ s.guide.forceRaiseException = true ∧ s.guide.exceptionNum = Exc.LPF.code

end Machine

/-- A reference build has no device but the flash, which is only read. -/
structure FlashOnly (P : Platform) : Prop where
  quiet : ∀ log a len r, P.mmioAccess log ⟨a, len, none⟩ = some r → r.mtip = none
  constant : ∀ log log' a len r r', P.mmioAccess log ⟨a, len, none⟩ = some r →
    P.mmioAccess log' ⟨a, len, none⟩ = some r' → r'.data = r.data

/-- The physical address of the word that an AMO reads. -/
inductive AmoAddr (P : Platform) (d : Decode) (s : Machine) : Word → Prop where
  | direct : s.dataMmuState = .direct → AmoAddr P d s (P.paddr (s.atomicAddr d))
  | mapped : s.dataMmuState ≠ .direct →
      isaMmuTranslate P (s.atomicAddr d) .read { s with amo := true } = .ok page u →
        AmoAddr P d s (P.paddr (page ||| (s.atomicAddr d &&& pageMask)))

/-- The word of memory at `a`, of the width of the instruction. -/
def amoWord (d : Decode) (s : Machine) (a : Word) : BitVec (8 * d.amoWidth) :=
  (Bytes.readLE 64 s.pmem a d.amoWidth).setWidth (8 * d.amoWidth)

/-- The state after an AMO at the word `a` of memory. -/
def Machine.amoDone (s : Machine) (d : Decode) (op : AmoOp) (a : Word) : Machine :=
  { s with
    pmem := Bytes.writeLE s.pmem a d.amoWidth
      (op.apply (amoWord d s a) ((s.readLoc d.src2.preg).setWidth (8 * d.amoWidth)))
    amo := false }.writeLoc d.dest.preg ((amoWord d s a).signExtend 64)

/-- The causes of the exceptions of an AMO. -/
inductive AmoCause (s : Machine) : Exc → Prop where
  | misaligned : AmoCause s .SAM
  | page : AmoCause s .SPF
  | access : AmoCause s .SAF
  | dasics : isKeyFault ex → AmoCause s ex
  | forced : s.ForcesLpf → AmoCause s .LPF

structure AmoContract (P : Platform) (d : Decode) (op : AmoOp) (s : Machine) : Prop where
  completes : ∀ t, exec P d s = .ok () t → ∃ a, AmoAddr P d s a ∧
    (P.acSoft = true → s.atomicAddr d &&& (BitVec.ofNat 64 d.amoWidth - 1) = 0) ∧
    (inPmem P a = true ∧ t.eraseRecords = (s.amoDone d op a).eraseRecords ∨
      inPmem P a = false ∧ P.ignoreIllegalMemAccess = true ∧ ∃ v,
        t.eraseRecords = ({ s with amo := false }.writeLoc d.dest.preg v).eraseRecords)
  raises : ∀ f u, exec P d s = .error (.exception f) u → AmoCause s f.cause ∧
    u.pmem = s.pmem ∧ (∀ l, u.readLoc l = s.readLoc l) ∧
    ∀ t, handleException P f u = .ok () t →
      t.amo = false ∧ t.pmem = s.pmem ∧ ∀ l, t.readLoc l = s.readLoc l

variable {P : Platform} {d : Decode} {op : AmoOp} {s t u : Machine} {va pa : Word} {len : Nat}
  {type : MemType}

section Value

theorem amoValue_word (op : AmoOp) (x : BitVec 32) (y : Word) :
    ∃ v, amoValue op.funct5 4 (x.signExtend 64) y = some v ∧
      v.setWidth 32 = op.apply x (y.setWidth 32) := by
  have hx : (x.signExtend 64).setWidth 32 = x := by
    ext i hi
    rw [BitVec.getElem_setWidth, BitVec.getLsbD_signExtend, if_pos hi, decide_eq_true (by omega)]
    rfl
  have hlow : ∀ z : Word, z.extractLsb' 0 32 = z.setWidth 32 := by
    intro z
    ext i hi
    simp
  have hite : ∀ b : Bool, (if b then x.signExtend 64 else y).setWidth 32 =
      if b then x else y.setWidth 32 := by
    intro b
    cases b
    · rfl
    · exact hx
  cases op with
  | swap => exact ⟨y, rfl, rfl⟩
  | add => exact ⟨_, rfl, by rw [BitVec.setWidth_add _ _ (by decide), hx]; rfl⟩
  | xor => exact ⟨_, rfl, by rw [BitVec.setWidth_xor, hx]; rfl⟩
  | and => exact ⟨_, rfl, by rw [BitVec.setWidth_and, hx]; rfl⟩
  | or => exact ⟨_, rfl, by rw [BitVec.setWidth_or, hx]; rfl⟩
  | min | max | minu | maxu =>
    refine ⟨_, rfl, ?_⟩
    simp only [Nat.reduceEqDiff, if_false, hlow, hx, hite]
    rfl

theorem amoValue_double (op : AmoOp) (x y : Word) : amoValue op.funct5 8 x y = some (op.apply x y) := by
  cases op <;> rfl

theorem amoValue_apply (op : AmoOp) (hw : w = 4 ∨ w = 8) (x : BitVec (8 * w)) (y : Word) :
    ∃ v, amoValue op.funct5 w (x.signExtend 64) y = some v ∧
      v.setWidth (8 * w) = op.apply x (y.setWidth (8 * w)) := by
  obtain rfl | rfl := hw
  · exact amoValue_word op x y
  · have hx : x.signExtend 64 = x := BitVec.signExtend_eq x
    have hy : y.setWidth (8 * 8) = y := BitVec.setWidth_eq y
    refine ⟨op.apply x y, ?_, ?_⟩
    · rw [hx]
      exact amoValue_double op x y
    · rw [hy]
      exact BitVec.setWidth_eq _

theorem amoWidth_cases (d : Decode) : d.amoWidth = 4 ∨ d.amoWidth = 8 := by
  unfold Decode.amoWidth
  split
  · exact .inr rfl
  · exact .inl rfl

end Value

section Chain

theorem ForcesLpf_of_eraseLog (h : t.eraseLog = s.eraseLog) : t.ForcesLpf ↔ s.ForcesLpf := by
  have hg : t.guidedExec = s.guidedExec := (congrArg Machine.guidedExec h :)
  have hguide : t.guide = s.guide := (congrArg Machine.guide h :)
  unfold Machine.ForcesLpf
  rw [hg, hguide]

theorem AmoCause.congr (h : AmoCause t ex) (hs : t.ForcesLpf → s.ForcesLpf) : AmoCause s ex := by
  cases h with
  | misaligned => exact .misaligned
  | page => exact .page
  | access => exact .access
  | dasics hk => exact .dasics hk
  | forced hk => exact .forced (hs hk)

/-- What an AMO may do before it writes: it keeps all but its records, and a fault is one of those
of stores. -/
def amoEffect : Effect Stop Machine where
  ok s t := t.eraseLog = s.eraseLog
  err s e t := t.eraseLog.eraseFault = s.eraseLog.eraseFault ∧
    ∀ f, e = .exception f → s.amo = true → AmoCause s f.cause
  refl _ := rfl
  trans h k := k.trans h
  absorb := by
    intro s t e u h k
    have hamo : t.amo = s.amo := (congrArg Machine.amo h :)
    refine ⟨k.1.trans (congrArg Machine.eraseFault h), fun f hf hs => ?_⟩
    exact (k.2 f hf (hamo.trans hs)).congr (ForcesLpf_of_eraseLog h).mp

theorem amo_logged {g : Machine → Machine} (h : ∀ s, (g s).eraseLog = s.eraseLog) :
    amoEffect.Within (modify g : Exec PUnit) :=
  .update h

theorem amo_abort (a : Abort) : amoEffect.Within (throw (.abort a) : Exec α) :=
  .raise fun _ => ⟨rfl, fun _ hf => nomatch hf⟩

theorem amo_assert (p : Prop) [Decidable p] : amoEffect.Within (assert p a) := by
  unfold assert
  split
  · exact .ret _ _
  · exact amo_abort _

theorem amo_faulted (hframe : t.eraseLog.eraseFault = s.eraseLog.eraseFault)
    (h : s.amo = true → AmoCause s ex) :
    amoEffect.err s (.exception ⟨ex, some va, .plain⟩) (t.faulted P ex va) := by
  refine ⟨?_, fun f hf hs => ?_⟩
  · have hcsr : (t.faulted P ex va).eraseLog.eraseFault = t.eraseLog.eraseFault :=
      eraseFault_setCsr t.eraseLog va (Level.tval_fault _)
    exact hcsr.trans hframe
  · cases hf
    exact h hs

theorem amo_faultAt (h : s.amo = true → AmoCause s ex) :
    amoEffect.At s (faultAt P ex va : Exec α) :=
  At.of_error (faultAt_run P ex va s) (amo_faulted rfl h)

/-- The flag is cleared on the way, but only after the cause is chosen. -/
theorem amo_cleared (h : s.amo = true → AmoCause s ex) :
    amoEffect.At s (raiseAccessFault P ex va : Exec α) :=
  At.of_error (raiseAccessFault_run ex) (amo_faulted rfl h)

theorem amo_dasicsFault (mode : Mode) (reason : FaultReason) :
    amoEffect.Within (dasicsFault P (dasicsEx mode) reason va : Exec α) := by
  intro s
  have hrun : (dasicsFault P (dasicsEx mode) reason va : Exec α) s = _ :=
    faultAt_run P (dasicsEx mode) va (s.setCsr .dfreason reason.code)
  exact At.of_error hrun (amo_faulted (eraseFault_setCsr s.eraseLog _ rfl)
    fun _ => .dasics (dasicsEx_key mode))

theorem amo_raiseReadAccessFault (ht : type = .read ∨ type = .writeRead) :
    amoEffect.Within (raiseReadAccessFault P type va : Exec α) := by
  apply Within.bind_get
  intro s
  have hne : ¬ (type = .ifetch ∨ type = .ifetchRead) := by
    obtain rfl | rfl := ht <;> decide
  rw [if_neg hne]
  split
  · exact amo_cleared fun _ => .access
  · next h => exact amo_cleared fun hs => absurd (.inl hs) h

theorem amo_mmioRead (hf : FlashOnly P) : amoEffect.Within (mmioRead P va len) := by
  apply Within.bind_get
  intro s
  cases hr : P.mmioAccess s.mmio ⟨va, len, none⟩ with
  | none => exact amo_abort _ s
  | some r =>
    refine At.bind (At.update ?_) fun _ _ _ => Within.ret _ _ _
    rw [hf.quiet _ _ _ _ hr]
    rfl

theorem amo_paddrRead (hf : FlashOnly P) (ht : type = .read ∨ type = .writeRead) :
    amoEffect.Within (paddrRead P pa len type mode va) := by
  refine .bind (.read _) fun s => ?_
  split
  · exact amo_raiseReadAccessFault ht
  split
  · exact .bind (amo_assert _) fun _ => .bind (.read _) fun _ => .ret _ _
  split
  · exact amo_mmioRead hf
  split
  · exact .ret _ _
  · exact amo_raiseReadAccessFault ht

theorem amo_checkPermission (ht : type = .read ∨ type = .write) :
    amoEffect.Within (checkPermission P pte b va type) := by
  apply Within.bind_get
  intro s
  refine At.bind (amo_assert _ s) fun _ t hassert => ?_
  obtain ⟨rfl, -⟩ := assert_ok hassert
  obtain rfl | rfl := ht
  · dsimp only
    split
    · apply amo_cleared
      intro hs
      rw [if_pos hs]
      exact .page
    split
    · exact amo_dasicsFault _ _ t
    · exact Within.ret _ _ t
  · dsimp only
    split
    · exact amo_cleared fun _ => .page
    split
    · exact amo_dasicsFault _ _ t
    · exact Within.ret _ _ t

theorem amo_ptw (hP : P.share = true) (hf : FlashOnly P) (ht : type = .read ∨ type = .write) :
    amoEffect.Within (ptw P va type) := by
  have hupdate : ∀ pPte pte, amoEffect.Within (ptwUpdateAd P pPte pte va type) := by
    intro pPte pte
    refine .bind (.read _) fun s => ?_
    rw [hP, Bool.not_true, Bool.false_and, if_neg Bool.false_ne_true]
    exact .ret _ _
  have hread : ∀ pa, amoEffect.Within (paddrRead P pa 8 (ptwReadType type) .S va) := by
    intro pa
    apply amo_paddrRead hf
    obtain rfl | rfl := ht
    · exact .inl rfl
    · exact .inr rfl
  exact ptw_within hread (fun _ _ => amo_checkPermission ht) hupdate

theorem amo_forceRaisePf (ht : type = .read ∨ type = .write) :
    amoEffect.Within (forceRaisePf P va type) := by
  have hrecord : amoEffect.Within (forceRaisePfRecord va type) :=
    .bind (.read _) fun _ => .bind (amo_logged fun _ => rfl) fun _ => .ret _ _
  apply Within.bind_get
  intro s
  have hne : ¬ type = .ifetch := by
    obtain rfl | rfl := ht <;> decide
  split
  case isFalse => exact Within.ret _ _ s
  case isTrue hguided =>
  rw [if_neg fun h => hne h.1]
  split
  case isTrue hload =>
    refine At.bind (hrecord s) fun b t hrun => ?_
    split
    · exact Within.ret _ _ t
    · have hforce : s.ForcesLpf := by
        rw [Bool.and_eq_true] at hguided
        exact ⟨hguided.1, hguided.2, hload.2⟩
      exact amo_faultAt fun _ => .forced ((ForcesLpf_of_eraseLog (hrecord.ok hrun)).mpr hforce)
  case isFalse =>
  split
  · refine Within.bind hrecord (fun b => ?_) s
    split
    · exact .ret _ _
    · exact fun t => amo_faultAt fun _ => .page
  · exact Within.ret _ _ s

theorem amo_isaMmuTranslate (hP : P.share = true) (hf : FlashOnly P)
    (ht : type = .read ∨ type = .write) : amoEffect.Within (isaMmuTranslate P va type) :=
  isaMmuTranslate_within (amo_ptw hP hf ht) (amo_forceRaisePf ht)

theorem amoCause_align (h : s.amo = true) :
    AmoCause s (if s.amo = true ∨ type = .write then .SAM else .LAM) := by
  rw [if_pos (.inl h)]
  exact .misaligned

theorem amo_isaMmuCheck (ht : type = .read ∨ type = .write) :
    amoEffect.Within (isaMmuCheck P va len type) := by
  apply Within.bind_get
  intro s
  dsimp only
  split
  · obtain rfl | rfl := ht
    · apply amo_faultAt
      intro hs
      rw [if_pos hs]
      exact .page
    · exact amo_faultAt fun _ => .page
  split
  · exact Within.ret _ _ s
  split
  · exact amo_faultAt amoCause_align
  · exact Within.ret _ _ s

theorem amo_vaddrCheck : amoEffect.Within (vaddrCheck P (some pc) va len type) := by
  have halign : amoEffect.Within (isaMisalignDataAddrCheck P va len type) := by
    apply Within.bind_get
    intro s
    split
    · exact amo_faultAt amoCause_align
    · exact Within.ret _ _ s
  exact vaddrCheck_within (fun _ => halign) fun _ _ _ _ _ => amo_dasicsFault _ _

end Chain

section Walk

/-- What a read at the physical address `a` returns in a reference build. -/
inductive ReadsAs (P : Platform) (s : Machine) (a : Word) (len : Nat) : Word → Prop where
  | memory : inPmem P a = true → ReadsAs P s a len (Bytes.readLE 64 s.pmem a len)
  | flash : inPmem P a = false → (P.hasFlash && P.inMmio a) = true →
      P.mmioAccess s.mmio ⟨a, len, none⟩ = some r → ReadsAs P s a len r.data
  | ignored : inPmem P a = false → (P.hasFlash && P.inMmio a) = false →
      P.ignoreIllegalMemAccess = true → ReadsAs P s a len 0

theorem ReadsAs.unique (hf : FlashOnly P) (h : ReadsAs P s a len x) (h' : ReadsAs P t a len y)
    (hmem : t.pmem = s.pmem) : y = x := by
  cases h with
  | memory hin =>
    cases h' with
    | memory _ => rw [hmem]
    | flash hout | ignored hout => cases hin.symm.trans hout
  | flash hout hdev hr =>
    cases h' with
    | memory hin => cases hin.symm.trans hout
    | flash _ _ hr' => exact hf.constant _ _ _ _ _ _ hr hr'
    | ignored _ hdev' => cases hdev.symm.trans hdev'
  | ignored hout hdev =>
    cases h' with
    | memory hin => cases hin.symm.trans hout
    | flash _ hdev' => cases hdev'.symm.trans hdev
    | ignored => rfl

theorem paddrRead_readsAs (hP : P.share = true) (h : paddrRead P pa len type mode va s = .ok x t) :
    ReadsAs P s (P.paddr pa) len x := by
  unfold paddrRead at h
  rw [get_bind, hP] at h
  split at h
  · exact absurd h raiseReadAccessFault_not_ok
  split at h
  · next hin =>
    obtain ⟨_, _, hassert, h1⟩ := ok_of_bind h
    obtain ⟨rfl, -⟩ := assert_ok hassert
    cases h1
    exact .memory hin
  next hin =>
  have hout := Bool.eq_false_of_not_eq_true hin
  rw [Bool.not_true, Bool.false_or, Bool.true_and] at h
  split at h
  · next hdev =>
    unfold mmioRead at h
    rw [get_bind] at h
    cases hr : P.mmioAccess s.mmio ⟨P.paddr pa, len, none⟩ with
    | none =>
      rw [hr] at h
      cases h
    | some r =>
      rw [hr] at h
      cases h
      exact .flash hout hdev hr
  next hdev =>
  split at h
  · next hign =>
    cases h
    exact .ignored hout (Bool.eq_false_of_not_eq_true hdev) hign
  · exact absurd h raiseReadAccessFault_not_ok

theorem pte_same (hP : P.share = true) (hf : FlashOnly P) (hs : t.eraseLog = s.eraseLog)
    (hr : paddrRead P pa len .read mode va s = .ok x u)
    (hw : paddrRead P pa len .writeRead mode va t = .ok y v) : y = x ∧ v.eraseLog = u.eraseLog := by
  have hu : u.eraseLog = s.eraseLog := (amo_paddrRead hf (.inl rfl)).ok hr
  have hv : v.eraseLog = t.eraseLog := (amo_paddrRead hf (.inr rfl)).ok hw
  constructor
  · exact (paddrRead_readsAs hP hr).unique hf (paddrRead_readsAs hP hw) (congrArg Machine.pmem hs :)
  · exact (hv.trans hs).trans hu.symm

theorem entry_same {p q : Prop} [Decidable p] [Decidable q] {a b : Walk} {m n : Exec Walk}
    (hr : (if p then pure a else if q then pure b else m) s = .ok w s')
    (hw : (if p then pure a else if q then pure b else n) t = .ok w' t')
    (hrest : m s = .ok w s' → n t = .ok w' t' → w' = w) : w' = w := by
  by_cases hbad : p
  · rw [if_pos hbad] at hr hw
    cases hr
    cases hw
    rfl
  · rw [if_neg hbad] at hr hw
    by_cases hleaf : q
    · rw [if_pos hleaf] at hr hw
      cases hr
      cases hw
      rfl
    · rw [if_neg hleaf] at hr hw
      exact hrest hr hw

/-- Both parts of an AMO find the same entry. -/
theorem ptwLoop_same (hP : P.share = true) (hf : FlashOnly P) (hs : t.eraseLog = s.eraseLog)
    (hr : ptwLoop P va .read level base s = .ok w s') (hw : ptwLoop P va .write level base t = .ok w' t') :
    w' = w := by
  induction level generalizing base s t with
  | zero =>
    unfold ptwLoop at hr hw
    obtain ⟨x, u, hx, hr⟩ := ok_of_bind hr
    obtain ⟨y, v, hy, hw⟩ := ok_of_bind hw
    obtain ⟨rfl, -⟩ := pte_same hP hf hs hx hy
    refine entry_same hr hw fun hr hw => ?_
    cases hr
    cases hw
    rfl
  | succ level ih =>
    unfold ptwLoop at hr hw
    obtain ⟨x, u, hx, hr⟩ := ok_of_bind hr
    obtain ⟨y, v, hy, hw⟩ := ok_of_bind hw
    obtain ⟨rfl, huv⟩ := pte_same hP hf hs hx hy
    exact entry_same hr hw fun hr hw => ih huv hr hw

theorem ptwWalk_same (hP : P.share = true) (hf : FlashOnly P) (hs : t.eraseLog = s.eraseLog)
    (hr : ptwWalk P va .read s = .ok w s') (hw : ptwWalk P va .write t = .ok w' t') : w' = w := by
  have hsatp : t.csr .satp = s.csr .satp := congrFun (congrArg Machine.csr hs :) .satp
  unfold ptwWalk at hr hw
  rw [get_bind] at hr hw
  rw [hsatp] at hw
  split at hr
  · next hc =>
    rw [if_pos hc] at hw
    exact ptwLoop_same hP hf hs hr hw
  · next hc =>
    rw [if_neg hc] at hw
    cases hr
    cases hw
    rfl

theorem translate_walk (h : isaMmuTranslate P va type s = .ok page t) :
    ∃ level pPte pte u, ptwWalk P va type s = .ok (.leaf level pPte pte) u ∧
      page = frame P level pte va := by
  obtain ⟨r, u, hptw, h1⟩ := ok_of_bind h
  obtain ⟨level, pPte, pte, v, hwalk, -, -, -, rfl⟩ := ptw_leaf hptw
  refine ⟨level, pPte, pte, v, hwalk, ?_⟩
  split at h1
  · obtain ⟨_, _, -, h2⟩ := ok_of_bind h1
    cases h2
    rfl
  · cases h1
    rfl

theorem translate_same (hP : P.share = true) (hf : FlashOnly P) (hs : t.eraseLog = s.eraseLog)
    (hr : isaMmuTranslate P va .read s = .ok page s')
    (hw : isaMmuTranslate P va .write t = .ok page' t') : page' = page := by
  obtain ⟨level, pPte, pte, u, hwalk, rfl⟩ := translate_walk hr
  obtain ⟨level', pPte', pte', v, hwalk', rfl⟩ := translate_walk hw
  cases ptwWalk_same hP hf hs hwalk hwalk'
  rfl

end Walk

section Parts

theorem amo_vaddrRead (hP : P.share = true) (hf : FlashOnly P) :
    amoEffect.Within (vaddrRead P pc va len .dynamic) := by
  refine .bind amo_vaddrCheck fun _ => .bind (amo_isaMmuCheck (.inl rfl)) fun m => ?_
  have hread : ∀ pa mode, amoEffect.Within (paddrRead P pa len .read mode va) :=
    fun pa mode => amo_paddrRead hf (.inl rfl)
  split
  · exact .bind (.read _) fun s => hread _ _
  · intro s
    refine At.bind (amo_isaMmuTranslate hP hf (.inl rfl) s) fun page t htr => ?_
    rw [if_pos (translate_page htr)]
    exact Within.bind (.read _) (fun v => hread _ _) t

theorem route_passed {direct mapped : Exec α} (hP : P.share = true) (ht : type = .read ∨ type = .write)
    (h : route P pc va len type direct mapped .dynamic s = .ok x t) :
    (P.acSoft = true → va &&& (BitVec.ofNat 64 len - 1) = 0) ∧
      (s.dataMmuState = .direct ∧ direct s = .ok x t ∨
        s.dataMmuState ≠ .direct ∧ mapped s = .ok x t) := by
  obtain ⟨_, u, hcheck, h1⟩ := ok_of_bind h
  have hc : Checked P s pc va len type := Checked.of_run hcheck ht
  cases (hc.run ht).symm.trans hcheck
  obtain ⟨m, v, hmode, h2⟩ := ok_of_bind h1
  obtain ⟨rfl, rfl⟩ := isaMmuCheck_ok hmode
  have hcache : v.mmuCache (type = .ifetch) = v.dataMmuState := by
    obtain rfl | rfl := ht <;> rfl
  rw [hcache] at h2
  refine ⟨fun hac => not_not.mp fun hne => hc.aligned ⟨hP, hac, hne⟩, ?_⟩
  split at h2
  · next hm => exact .inl ⟨hm, h2⟩
  · next hm => exact .inr ⟨hm, h2⟩

theorem vaddrRead_amo (hP : P.share = true) (hf : FlashOnly P)
    (h : vaddrRead P pc (s.atomicAddr d) len .dynamic { s with amo := true } = .ok x u) :
    ∃ a v, AmoAddr P d s a ∧ (P.acSoft = true → s.atomicAddr d &&& (BitVec.ofNat 64 len - 1) = 0) ∧
      v.pmem = s.pmem ∧ ReadsAs P v a len x := by
  rw [vaddrRead_route] at h
  obtain ⟨halign, ⟨hm, h1⟩ | ⟨hm, h1⟩⟩ := route_passed hP (.inl rfl) h
  · exact ⟨_, { s with amo := true }, .direct hm, halign, rfl, paddrRead_readsAs hP h1⟩
  · obtain ⟨page, v, htr, h2⟩ := ok_of_bind h1
    rw [if_pos (translate_page htr), get_bind] at h2
    have hv : v.eraseLog = _ := (amo_isaMmuTranslate hP hf (.inl rfl)).ok htr
    exact ⟨_, v, .mapped hm htr, halign, (congrArg Machine.pmem hv :), paddrRead_readsAs hP h2⟩

theorem paddrWrite_amo (hP : P.share = true) (h : paddrWrite P pa len data mode va s = .ok () t) :
    inPmem P (P.paddr pa) = true ∧ t = { s with pmem := Bytes.writeLE s.pmem (P.paddr pa) len data } ∨
      inPmem P (P.paddr pa) = false ∧ P.ignoreIllegalMemAccess = true ∧ t = s := by
  unfold paddrWrite at h
  rw [get_bind, hP] at h
  split at h
  · cases (raiseAccessFault_run _).symm.trans h
  split at h
  · next hin =>
    obtain ⟨_, _, hassert, h1⟩ := ok_of_bind h
    obtain ⟨rfl, -⟩ := assert_ok hassert
    cases h1
    exact .inl ⟨hin, rfl⟩
  next hin =>
  rw [Bool.not_true, Bool.false_and, if_neg Bool.false_ne_true, Bool.true_and] at h
  split at h
  · next hign =>
    cases h
    exact .inr ⟨Bool.eq_false_of_not_eq_true hin, hign, rfl⟩
  · cases (raiseAccessFault_run _).symm.trans h

theorem amo_paddrWrite (hP : P.share = true) (h : paddrWrite P pa len data mode va s = .error e t) :
    amoEffect.err s e t := by
  have hclear : amoEffect.At s (raiseAccessFault P .SAF va : Exec Unit) := amo_cleared fun _ => .access
  have hfault : (raiseAccessFault P .SAF va : Exec Unit) s = .error e t → amoEffect.err s e t :=
    fun hrun => hclear.error hrun
  unfold paddrWrite at h
  rw [get_bind, hP] at h
  split at h
  · exact hfault h
  split at h
  · have hpmem : amoEffect.Within (assert (HostLength len) .hostLength) := amo_assert _
    obtain herr | ⟨_, v, -, hmod⟩ := error_of_bind h
    · exact hpmem.error herr
    · cases hmod
  rw [Bool.not_true, Bool.false_and, if_neg Bool.false_ne_true] at h
  split at h
  · cases h
  · exact hfault h

theorem amo_vaddrWrite (hP : P.share = true) (hf : FlashOnly P)
    (h : vaddrWrite P pc va len data .dynamic s = .error e t) : amoEffect.err s e t := by
  obtain hcheck | ⟨_, u, hcheck, h1⟩ := error_of_bind h
  · exact amo_vaddrCheck.error hcheck
  have hu : amoEffect.ok s u := amo_vaddrCheck.ok hcheck
  refine amoEffect.absorb hu ?_
  obtain hmode | ⟨m, v, hmode, h2⟩ := error_of_bind h1
  · exact (amo_isaMmuCheck (.inr rfl)).error hmode
  obtain ⟨rfl, -⟩ := isaMmuCheck_ok hmode
  split at h2
  · exact amo_paddrWrite hP h2
  obtain htr | ⟨page, w, htr, h3⟩ := error_of_bind h2
  · exact (amo_isaMmuTranslate hP hf (.inr rfl)).error htr
  have hw : amoEffect.ok v w := (amo_isaMmuTranslate hP hf (.inr rfl)).ok htr
  rw [if_pos (translate_page htr), get_bind] at h3
  exact amoEffect.absorb hw (amo_paddrWrite hP h3)

theorem eraseLog_pmem (h : t.eraseLog = s.eraseLog) (mem : Word → BitVec 8) :
    ({ t with pmem := mem } : Machine).eraseLog = ({ s with pmem := mem } : Machine).eraseLog :=
  (congrArg (fun m : Machine => { m with pmem := mem }) h :)

theorem vaddrWrite_amo (hP : P.share = true) (hf : FlashOnly P) (ha : AmoAddr P d s a)
    (hu : u.eraseLog = ({ s with amo := true } : Machine).eraseLog)
    (h : vaddrWrite P pc (s.atomicAddr d) len data .dynamic u = .ok () t) :
    inPmem P a = true ∧ t.eraseLog = ({ u with pmem := Bytes.writeLE u.pmem a len data } : Machine).eraseLog ∨
      inPmem P a = false ∧ P.ignoreIllegalMemAccess = true ∧ t.eraseLog = u.eraseLog := by
  have hmode : u.dataMmuState = s.dataMmuState := (congrArg Machine.dataMmuState hu :)
  rw [vaddrWrite_route] at h
  obtain ⟨-, hrun⟩ := route_passed hP (.inr rfl) h
  rw [hmode] at hrun
  cases ha with
  | direct hm =>
    obtain ⟨-, h1⟩ | ⟨hm', -⟩ := hrun
    · obtain ⟨hin, rfl⟩ | ⟨hout, hign, rfl⟩ := paddrWrite_amo hP h1
      · exact .inl ⟨hin, rfl⟩
      · exact .inr ⟨hout, hign, rfl⟩
    · exact absurd hm hm'
  | mapped hm htr =>
    obtain ⟨hm', -⟩ | ⟨-, h1⟩ := hrun
    · exact absurd hm' hm
    obtain ⟨page, v, htr', h2⟩ := ok_of_bind h1
    rw [if_pos (translate_page htr'), get_bind] at h2
    obtain rfl := translate_same hP hf hu htr htr'
    have hv : v.eraseLog = u.eraseLog := (amo_isaMmuTranslate hP hf (.inr rfl)).ok htr'
    have hmem : v.pmem = u.pmem := (congrArg Machine.pmem hv :)
    obtain ⟨hin, rfl⟩ | ⟨hout, hign, rfl⟩ := paddrWrite_amo hP h2
    · rw [hmem]
      exact .inl ⟨hin, eraseLog_pmem hv _⟩
    · exact .inr ⟨hout, hign, hv⟩

end Parts

section Instruction

theorem exec_amo (hd : d.IsAmo op) (s : Machine) : exec P d s = amoStep P d op.funct5 d.amoWidth s := by
  have hf : d.instr.extractLsb' 27 5 = op.funct5 := hd.funct5_eq
  rw [exec_atomic hd.id]
  unfold rtlAmoSlowPath
  rw [hf]
  cases op <;> rfl

theorem exec_amo_refused (hd : d.IsAmo op)
    (h : vaddrRead P d.pc (s.atomicAddr d) d.amoWidth .dynamic { s with amo := true } = .error e u) :
    exec P d s = .error e u := by
  have hset : setAmo true s = .ok () { s with amo := true } := rfl
  rw [exec_amo hd]
  unfold amoStep
  rw [bind_ok hset, rtlLms_bind]
  exact bind_error h

def amoWrite (P : Platform) (d : Decode) (va x v : Word) : Exec Unit := do
  vaddrWrite P d.pc va d.amoWidth v .dynamic
  recordMemEvent P false va
  writeReg d.dest.preg ((x.setWidth (8 * d.amoWidth)).signExtend 64)
  setAmo false

theorem exec_amo_write (hd : d.IsAmo op)
    (h : vaddrRead P d.pc (s.atomicAddr d) d.amoWidth .dynamic { s with amo := true } = .ok x u) :
    ∃ v, v.setWidth (8 * d.amoWidth) = op.apply (x.setWidth (8 * d.amoWidth))
        ((u.readLoc d.src2.preg).setWidth (8 * d.amoWidth)) ∧
      exec P d s = amoWrite P d (u.atomicAddr d) x v u := by
  have hset : setAmo true s = .ok () { s with amo := true } := rfl
  have hlen := amoWidth_hostLength d
  obtain ⟨v, hv, happly⟩ := amoValue_apply op (amoWidth_cases d) (x.setWidth (8 * d.amoWidth))
    (u.readLoc d.src2.preg)
  refine ⟨v, happly, ?_⟩
  rw [exec_amo hd]
  unfold amoStep
  rw [bind_ok hset, rtlLms_bind]
  refine (bind_ok h).trans ?_
  rw [bind_ok (assert_pos _ hlen _ u), bind_ok (readReg_run d.src2.preg u), hv]
  exact rtlSm_bind v d.src1.preg .dynamic _

def SameData (s t : Machine) : Prop := t.pmem = s.pmem ∧ ∀ l, t.readLoc l = s.readLoc l

theorem sameData_of_fields (hmem : t.pmem = s.pmem) (hgpr : t.gpr = s.gpr) (hfpr : t.fpr = s.fpr)
    (hzero : t.zeroNull = s.zeroNull) : SameData s t := by
  refine ⟨hmem, fun l => ?_⟩
  cases l with
  | gpr r => exact congrFun hgpr r
  | fpr r => exact congrFun hfpr r
  | zeroNull => exact hzero

theorem sameData_of_fault (h : t.eraseLog.eraseFault = s.eraseLog.eraseFault) : SameData s t :=
  sameData_of_fields (congrArg Machine.pmem h :) (congrArg Machine.gpr h :) (congrArg Machine.fpr h :)
    (congrArg Machine.zeroNull h :)

/-- The handler finds the registers and the memory as the exception left them. -/
theorem handleException_data (h : handleException P f s = .ok () t) :
    t.amo = false ∧ SameData s t := by
  obtain ⟨pc, u, hraise, rfl⟩ := handleException_ok h
  have hstart : SameData s (faultHandled P f s) := by
    unfold faultHandled
    split
    · exact sameData_of_fields rfl rfl rfl rfl
    · exact ⟨rfl, fun _ => rfl⟩
  have hfinal := raiseIntr_final P f.cause.code (faultEpc P f s) (faultHandled P f s)
  rw [final_ok hraise, trapEntry_only] at hfinal
  have hu : SameData (faultHandled P f s) { u with pc := pc, amo := false } :=
    sameData_of_fields (congrArg Machine.pmem hfinal :) (congrArg Machine.gpr hfinal :)
      (congrArg Machine.fpr hfinal :) (congrArg Machine.zeroNull hfinal :)
  exact ⟨rfl, hu.1.trans hstart.1, fun l => (hu.2 l).trans (hstart.2 l)⟩

theorem amo_raises (hP : P.share = true) (hf : FlashOnly P) (hd : d.IsAmo op)
    (h : exec P d s = .error e u) : amoEffect.err { s with amo := true } e u := by
  cases hread : vaddrRead P d.pc (s.atomicAddr d) d.amoWidth .dynamic { s with amo := true } with
  | error e' u' =>
    cases (exec_amo_refused hd hread).symm.trans h
    exact (amo_vaddrRead hP hf).error hread
  | ok x v =>
    obtain ⟨data, -, hrun⟩ := exec_amo_write hd hread
    refine amoEffect.absorb ((amo_vaddrRead hP hf).ok hread) ?_
    obtain hwrite | ⟨_, w, -, hrest⟩ := error_of_bind (hrun.symm.trans h)
    · exact amo_vaddrWrite hP hf hwrite
    · cases hrest

theorem amoWrite_end (h : amoWrite P d va x v s = .ok () t) :
    ∃ u, vaddrWrite P d.pc va d.amoWidth v .dynamic s = .ok () u ∧
      t.eraseRecords = ({ u with amo := false }.writeLoc d.dest.preg
        ((x.setWidth (8 * d.amoWidth)).signExtend 64)).eraseRecords := by
  obtain ⟨_, u, hwrite, hrest⟩ := ok_of_bind h
  refine ⟨u, hwrite, ?_⟩
  cases hrest
  split
  · cases d.dest.preg <;> rfl
  · cases d.dest.preg <;> rfl

theorem eraseRecords_writeLoc (h : t.eraseLog = s.eraseLog) (l : Loc) (v : Word) :
    ({ t with amo := false }.writeLoc l v).eraseRecords =
      ({ s with amo := false }.writeLoc l v).eraseRecords := by
  have herase : ∀ m : Machine, ({ m.eraseLog with amo := false }.writeLoc l v).eraseRecords =
      ({ m with amo := false }.writeLoc l v).eraseRecords := by
    intro m
    cases l <;> rfl
  rw [← herase t, ← herase s, h]

theorem amo_completes (hP : P.share = true) (hf : FlashOnly P) (hd : d.IsAmo op)
    (h : exec P d s = .ok () t) : ∃ a, AmoAddr P d s a ∧
      (P.acSoft = true → s.atomicAddr d &&& (BitVec.ofNat 64 d.amoWidth - 1) = 0) ∧
      (inPmem P a = true ∧ t.eraseRecords = (s.amoDone d op a).eraseRecords ∨
        inPmem P a = false ∧ P.ignoreIllegalMemAccess = true ∧ ∃ v,
          t.eraseRecords = ({ s with amo := false }.writeLoc d.dest.preg v).eraseRecords) := by
  cases hread : vaddrRead P d.pc (s.atomicAddr d) d.amoWidth .dynamic { s with amo := true } with
  | error e u => cases (exec_amo_refused hd hread).symm.trans h
  | ok x u =>
    obtain ⟨a, v, haddr, halign, hmem, hvalue⟩ := vaddrRead_amo hP hf hread
    have hu : u.eraseLog = ({ s with amo := true } : Machine).eraseLog := (amo_vaddrRead hP hf).ok hread
    have hdata : SameData s u := sameData_of_fault (congrArg Machine.eraseFault hu :)
    have hsrc : u.atomicAddr d = s.atomicAddr d := hdata.2 _
    obtain ⟨data, happly, hrun⟩ := exec_amo_write hd hread
    obtain ⟨w, hwrite, hend⟩ := amoWrite_end (hrun.symm.trans h)
    rw [hsrc] at hwrite
    refine ⟨a, haddr, halign, ?_⟩
    obtain ⟨hin, hw⟩ | ⟨hout, hign, hw⟩ := vaddrWrite_amo hP hf haddr hu hwrite
    · refine .inl ⟨hin, ?_⟩
      cases hvalue with
      | flash hout | ignored hout => cases hin.symm.trans hout
      | memory _ =>
        rw [hmem] at hend happly
        have hword : Bytes.writeLE u.pmem a d.amoWidth data = Bytes.writeLE s.pmem a d.amoWidth
            (op.apply (amoWord d s a) ((s.readLoc d.src2.preg).setWidth (8 * d.amoWidth))) := by
          rw [hdata.1, ← Bytes.writeLE_setWidth, happly, hdata.2]
          rfl
        rw [hword] at hw
        rw [hend, eraseRecords_writeLoc (hw.trans (eraseLog_pmem hu _))]
        rfl
    · refine .inr ⟨hout, hign, (x.setWidth (8 * d.amoWidth)).signExtend 64, ?_⟩
      rw [hend, eraseRecords_writeLoc (hw.trans hu)]

/-- The AMO instructions of a reference build. -/
theorem amo_contract (hP : P.share = true) (hf : FlashOnly P) (hd : d.IsAmo op) :
    AmoContract P d op s where
  completes t h := amo_completes hP hf hd h
  raises f u h := by
    obtain ⟨hframe, hcause⟩ := amo_raises hP hf hd h
    have hdata : SameData s u := sameData_of_fault hframe
    refine ⟨(hcause f rfl rfl).congr id, hdata.1, hdata.2, fun t ht => ?_⟩
    obtain ⟨hamo, hhandled⟩ := handleException_data ht
    exact ⟨hamo, hhandled.1.trans hdata.1, fun l => (hhandled.2 l).trans (hdata.2 l)⟩

/-- `amoadd.w x1, x3, (x2)` -/
def amoDecode : Decode := decodeR ⟨0x80100000, 0x80100004, 0x003120af, .direct, false⟩ .atomic

/-- Machine mode, `x2` holding an address. -/
def amoState (P : Platform) (addr : Word) : Machine :=
  { Machine.reset P (fun _ => 0) with
    gpr := fun r => if r = 2 then addr else if r = 3 then 5 else 0 }

theorem amo_contract_add : ∃ t a, exec (Platform.bare .reference) amoDecode
      (amoState (Platform.bare .reference) 0x80300000) = .ok () t ∧ t.pmem 0x80300000 = 5 ∧
    AmoAddr (Platform.bare .reference) amoDecode (amoState (Platform.bare .reference) 0x80300000) a ∧
    t.eraseRecords =
      ((amoState (Platform.bare .reference) 0x80300000).amoDone amoDecode .add a).eraseRecords := by
  have hf : FlashOnly (Platform.bare .reference) :=
    ⟨fun _ _ _ _ h => (nomatch h), fun _ _ _ _ _ _ h => nomatch h⟩
  have hrun : ∃ t, exec (Platform.bare .reference) amoDecode
      (amoState (Platform.bare .reference) 0x80300000) = .ok () t ∧ t.pmem 0x80300000 = 5 :=
    ⟨_, rfl, rfl⟩
  have hd : amoDecode.IsAmo .add := ⟨rfl, rfl⟩
  obtain ⟨t, ht, hmem⟩ := hrun
  have hc : AmoContract (Platform.bare .reference) amoDecode .add
    (amoState (Platform.bare .reference) 0x80300000) := amo_contract rfl hf hd
  obtain ⟨a, haddr, -, ⟨-, hdone⟩ | ⟨-, hign, -⟩⟩ := hc.completes t ht
  · exact ⟨t, a, ht, hmem, haddr, hdone⟩
  · cases hign

/-- The contract without the ignored accesses, the unchecked alignment and the forced faults. -/
structure AmoStrict (P : Platform) (d : Decode) (op : AmoOp) (s : Machine) : Prop where
  completes : ∀ t, exec P d s = .ok () t → ∃ a, AmoAddr P d s a ∧
    s.atomicAddr d &&& (BitVec.ofNat 64 d.amoWidth - 1) = 0 ∧
    t.eraseRecords = (s.amoDone d op a).eraseRecords
  raises : ∀ f u, exec P d s = .error (.exception f) u →
    f.cause = .SAM ∨ f.cause = .SPF ∨ f.cause = .SAF ∨ isKeyFault f.cause

/-- A reference without the software check of the alignment. -/
def unalignedPlatform : Platform := Platform.bare { Config.reference with acSoft := false }

/-- The guide asks for a load page fault at the start of memory. -/
def amoForced : Machine :=
  { supervisor 0x80000 gigaTable with guidedExec := true, guide := ⟨true, 13, 0, 0, false, 0⟩ }

theorem amo_strict_fails :
    ¬ AmoStrict (walkPlatform true) amoDecode .add (amoState (walkPlatform true) 0) ∧
      ¬ AmoStrict unalignedPlatform amoDecode .add (amoState unalignedPlatform 0x80300001) ∧
        ¬ AmoStrict (walkPlatform false) amoDecode .add amoForced := by
  refine ⟨fun h => ?_, fun h => ?_, fun h => ?_⟩
  · have hrun : ∃ t, exec (walkPlatform true) amoDecode (amoState (walkPlatform true) 0) = .ok () t ∧
        t.pmem 0 = 0 := ⟨_, rfl, rfl⟩
    obtain ⟨t, ht, hmem⟩ := hrun
    obtain ⟨a, haddr, -, hdone⟩ := h.completes t ht
    cases haddr with
    | mapped hm => exact hm rfl
    | direct =>
      have hfive : t.pmem 0 = 5 := (congrFun (congrArg Machine.pmem hdone) 0 :)
      exact absurd (hmem.symm.trans hfive) (by decide)
  · have hrun : ∃ t, exec unalignedPlatform amoDecode (amoState unalignedPlatform 0x80300001) =
        .ok () t := ⟨_, rfl⟩
    obtain ⟨t, ht⟩ := hrun
    obtain ⟨a, -, halign, -⟩ := h.completes t ht
    exact absurd halign (by decide)
  · have hrun : ∃ t, exec (walkPlatform false) amoDecode amoForced =
        .error (.exception ⟨.LPF, some 0, .plain⟩) t := ⟨_, rfl⟩
    obtain ⟨t, ht⟩ := hrun
    exact absurd (h.raises _ t ht) (by decide)

end Instruction

end Nemu
