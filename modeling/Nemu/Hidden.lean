import Nemu.Formats
import Nemu.Lib.Relate
import Nemu.Loop

namespace Nemu

open Effect

set_option autoImplicit true

/-- What the `Decode` record and `cpu.debug` keep of the last instruction. -/
structure LastInstr where
  prevPc : Word
  prevType : CfiType
  prevIsCfi : Bool
  currentPc : Word

/-- The part of the state that two runs are compared without: the next `pc`, the substitute of `x0`,
the guide and the last instruction. -/
structure Hidden where
  pc : Word
  zeroNull : Word
  guidedExec : Bool
  guide : ExecutionGuide
  last : LastInstr

namespace Machine

def last (s : Machine) : LastInstr := ⟨s.prevPc, s.prevType, s.prevIsCfi, s.currentPc⟩

def hidden (s : Machine) : Hidden := ⟨s.pc, s.zeroNull, s.guidedExec, s.guide, s.last⟩

def withHidden (s : Machine) (h : Hidden) : Machine :=
  { s with
    pc := h.pc
    zeroNull := h.zeroNull
    guidedExec := h.guidedExec
    guide := h.guide
    prevPc := h.last.prevPc
    prevType := h.last.prevType
    prevIsCfi := h.last.prevIsCfi
    currentPc := h.last.currentPc }

end Machine

namespace Hidden

/-- The guide as the access functions see it: a forced exception. -/
def forced (h : Hidden) : Option ExecutionGuide :=
  if h.guidedExec && h.guide.forceRaiseException then some h.guide else none

/-- The jump target as the jumps see it. -/
def redirect (P : Platform) (h : Hidden) (target : Word) : Word :=
  if P.guidedExec ∧ h.guidedExec ∧ h.guide.forceSetJumpTarget then h.guide.jumpTarget else target

def withPc (h : Hidden) (a : Word) : Hidden := { h with pc := a }

def withNull (h : Hidden) (v : Word) : Hidden := { h with zeroNull := v }

def withLast (h : Hidden) (l : LastInstr) : Hidden := { h with last := l }

theorem eq_withLast {h h' : Hidden} (hl : h'.last = h.last) : h' = h'.withLast h.last := by
  rw [← hl]
  rfl

theorem forced_eq_some {h : Hidden} (hg : h.forced = some g) :
    h.guidedExec = true ∧ h.guide.forceRaiseException = true ∧ h.guide = g := by
  unfold forced at hg
  split at hg
  · next hb =>
    rw [Bool.and_eq_true] at hb
    exact ⟨hb.1, hb.2, Option.some.inj hg⟩
  · cases hg

theorem forced_eq_none {h : Hidden} (hg : h.forced = none) :
    (h.guidedExec && h.guide.forceRaiseException) = false := by
  unfold forced at hg
  split at hg
  · cases hg
  · next hb => exact Bool.eq_false_of_not_eq_true hb

end Hidden

/-- Two states that differ in their hidden parts only, as `Q` allows. -/
def Hides (Q : Hidden → Hidden → Prop) (s t : Machine) : Prop :=
  ∃ h, t = s.withHidden h ∧ Q s.hidden h

/-- The hidden part does not show in a computation. -/
def Oblivious (Q : Hidden → Hidden → Prop) (m : Exec α) : Prop := Alike (Hides Q) m m

variable {P : Platform} {Q : Hidden → Hidden → Prop} {d : Decode} {s t u : Machine}

namespace Oblivious

theorem ret (a : α) : Oblivious Q (pure a : Exec α) := Alike.ret a

theorem raise (e : Stop) : Oblivious Q (throw e : Exec α) := Alike.raise e

theorem bind {m : Exec α} {k : α → Exec β} (hm : Oblivious Q m) (hk : ∀ a, Oblivious Q (k a)) :
    Oblivious Q (m >>= k) :=
  Alike.bind hm hk

theorem read_of {k : Machine → Exec α} (hk : ∀ s h, Q s.hidden h → k (s.withHidden h) = k s)
    (h : ∀ s, Oblivious Q (k s)) : Oblivious Q (get >>= k) := by
  refine Alike.bind_get ?_
  rintro s _ ⟨h', rfl, hq⟩
  rw [hk s h' hq]
  exact h s

theorem read {k : Machine → Exec α} (hk : ∀ s h, k (s.withHidden h) = k s)
    (h : ∀ s, Oblivious Q (k s)) : Oblivious Q (get >>= k) :=
  read_of (fun s h' _ => hk s h') h

theorem change {f : Machine → Machine} (hf : ∀ s h, f (s.withHidden h) = (f s).withHidden h)
    (hh : ∀ s, (f s).hidden = s.hidden) : Oblivious Q (modify f : Exec PUnit) := by
  refine Alike.update ?_
  rintro s _ ⟨h', rfl, hq⟩
  refine ⟨h', hf s h', ?_⟩
  rw [hh]
  exact hq

theorem hide {f : Machine → Machine} {g : Hidden → Hidden}
    (hf : ∀ s, f s = s.withHidden (g s.hidden)) (hg : ∀ h h', Q h h' → Q (g h) (g h')) :
    Oblivious Q (modify f : Exec PUnit) := by
  refine Alike.update ?_
  rintro s _ ⟨h', rfl, hq⟩
  rw [hf, hf]
  exact ⟨_, rfl, hg _ _ hq⟩

theorem ite {p : Prop} [Decidable p] {m n : Exec α} (hm : Oblivious Q m) (hn : Oblivious Q n) :
    Oblivious Q (if p then m else n) := by
  split
  · exact hm
  · exact hn

end Oblivious

theorem setCsr_oblivious (c : Csr) (v : Word) : Oblivious Q (setCsr c v) :=
  .change (fun _ _ => rfl) fun _ => rfl

theorem assert_oblivious (p : Prop) [Decidable p] : Oblivious Q (assert p a) :=
  .ite (.ret _) (.raise _)

section Accesses

theorem faultAt_oblivious : Oblivious Q (faultAt P ex va : Exec α) :=
  .read (fun _ _ => rfl) fun _ => .bind (setCsr_oblivious _ _) fun _ => .raise _

theorem dasicsFault_oblivious : Oblivious Q (dasicsFault P ex reason va : Exec α) :=
  .bind (setCsr_oblivious _ _) fun _ => faultAt_oblivious

theorem dasicsCheckBytes_oblivious : Oblivious Q (dasicsCheckBytes P close cfg reason va len) := by
  refine .read (fun _ _ => rfl) fun s => ?_
  split
  · exact dasicsFault_oblivious
  · exact .ret _

theorem dasicsLdstHelper_oblivious : Oblivious Q (dasicsLdstHelper P pc va len type) := by
  refine .read (fun _ _ => rfl) fun s => .ite (.ret _) ?_
  split
  · exact dasicsCheckBytes_oblivious
  · exact dasicsCheckBytes_oblivious
  · exact .ret _

theorem dasicsFetchHelper_oblivious : Oblivious Q (dasicsFetchHelper P pc prev type) :=
  .read (fun _ _ => rfl) fun _ => .ite dasicsFault_oblivious (.ret _)

theorem dasicsCheckTrusted_oblivious : Oblivious Q (dasicsCheckTrusted pc) :=
  .read (fun _ _ => rfl) fun _ => .ite (.ret _) (.raise _)

theorem raiseAccessFault_oblivious : Oblivious Q (raiseAccessFault P ex va : Exec α) :=
  .bind (.change (fun _ _ => rfl) fun _ => rfl) fun _ => faultAt_oblivious

theorem raiseReadAccessFault_oblivious : Oblivious Q (raiseReadAccessFault P type va : Exec α) :=
  .read (fun _ _ => rfl) fun _ => .ite raiseAccessFault_oblivious
    (.ite raiseAccessFault_oblivious raiseAccessFault_oblivious)

theorem pmemRead_oblivious : Oblivious Q (pmemRead addr len) :=
  .bind (assert_oblivious _) fun _ => .read (fun _ _ => rfl) fun _ => .ret _

theorem pmemWrite_oblivious : Oblivious Q (pmemWrite addr len data) :=
  .bind (assert_oblivious _) fun _ => .change (fun _ _ => rfl) fun _ => rfl

theorem setMtip_oblivious (b : Option Bool) {f : Machine → Machine}
    (hf : ∀ s h, f (s.withHidden h) = (f s).withHidden h) (hh : ∀ s, (f s).hidden = s.hidden) :
    Oblivious Q (modify fun s => setMtip b (f s) : Exec PUnit) := by
  refine .change (fun s h => ?_) fun s => ?_
  · rw [hf]
    cases b <;> rfl
  · have hb : (setMtip b (f s)).hidden = (f s).hidden := by cases b <;> rfl
    exact hb.trans (hh s)

theorem mmioRead_oblivious : Oblivious Q (mmioRead P addr len) := by
  refine .read (fun _ _ => rfl) fun s => ?_
  split
  · exact .raise _
  · exact .bind (setMtip_oblivious _ (fun _ _ => rfl) fun _ => rfl) fun _ => .ret _

theorem mmioWrite_oblivious : Oblivious Q (mmioWrite P addr len data) := by
  refine .read (fun _ _ => rfl) fun s => ?_
  split
  · exact .raise _
  · exact setMtip_oblivious _ (fun _ _ => rfl) fun _ => rfl

theorem pmpLoop_withHidden (s : Machine) (h : Hidden) (l : List (Fin 16)) :
    pmpLoop (s.withHidden h) addr len type mode l base = pmpLoop s addr len type mode l base := by
  apply pmpLoop_congr
  · exact fun _ => rfl
  · exact fun _ => rfl
  · exact fun _ _ _ => rfl

theorem isaPmpCheckPermission_withHidden (s : Machine) (h : Hidden) :
    isaPmpCheckPermission P (s.withHidden h) addr len type mode =
      isaPmpCheckPermission P s addr len type mode := by
  unfold isaPmpCheckPermission
  dsimp only
  rw [pmpLoop_withHidden]
  rfl

theorem paddrRead_oblivious : Oblivious Q (paddrRead P pa len type mode va) := by
  refine .read (fun s h => ?_) fun s => .ite raiseReadAccessFault_oblivious (.ite pmemRead_oblivious
    (.ite mmioRead_oblivious (.ite (.ret _) raiseReadAccessFault_oblivious)))
  rw [isaPmpCheckPermission_withHidden]

theorem paddrWrite_oblivious : Oblivious Q (paddrWrite P pa len data mode va) := by
  refine .read (fun s h => ?_) fun s => .ite raiseAccessFault_oblivious (.ite pmemWrite_oblivious
    (.ite mmioWrite_oblivious (.ite (.ret _) raiseAccessFault_oblivious)))
  rw [isaPmpCheckPermission_withHidden]

theorem checkPermission_oblivious : Oblivious Q (checkPermission P pte b va type) := by
  refine .read (fun _ _ => rfl) fun s => .bind (assert_oblivious _) fun _ => ?_
  have hamo : Oblivious Q (modify fun s => { s with amo := false } : Exec PUnit) :=
    .change (fun _ _ => rfl) fun _ => rfl
  dsimp only
  cases type with
  | ifetch =>
    dsimp only
    exact .ite (.bind (assert_oblivious _) fun _ => faultAt_oblivious) (.ret _)
  | read | write | ifetchRead | writeRead =>
    dsimp only
    exact .ite (.bind hamo fun _ => faultAt_oblivious) (.ite dasicsFault_oblivious (.ret _))

theorem ptwLoop_oblivious : Oblivious Q (ptwLoop P va type level base) := by
  induction level generalizing base with
  | zero =>
    unfold ptwLoop
    exact .bind paddrRead_oblivious fun val => .ite (.ret _) (.ite (.ret _) (.ret _))
  | succ level ih =>
    unfold ptwLoop
    exact .bind paddrRead_oblivious fun val => .ite (.ret _) (.ite (.ret _) ih)

theorem ptwWalk_oblivious : Oblivious Q (ptwWalk P va type) :=
  .read (fun _ _ => rfl) fun _ => .ite ptwLoop_oblivious (.ret _)

theorem ptwUpdateAd_oblivious : Oblivious Q (ptwUpdateAd P pPte pte va type) :=
  .read (fun _ _ => rfl) fun _ => .ite paddrWrite_oblivious (.ret _)

theorem ptwFinish_oblivious (w : Walk) : Oblivious Q (ptwFinish P va type w) := by
  cases w with
  | bad pte => exact .bind checkPermission_oblivious fun _ => .ret _
  | leaf level pPte pte =>
    exact .bind checkPermission_oblivious fun _ => .ite (.bind checkPermission_oblivious fun _ => .ret _)
      (.bind ptwUpdateAd_oblivious fun _ => .ret _)

theorem ptw_oblivious : Oblivious Q (ptw P va type) :=
  .bind ptwWalk_oblivious fun w => ptwFinish_oblivious w

theorem isaMmuCheck_oblivious : Oblivious Q (isaMmuCheck P va len type) := by
  refine .read (fun _ _ => rfl) fun s => ?_
  dsimp only
  refine .ite ?_ (.ite (.ret _) (.ite faultAt_oblivious (.ret _)))
  cases type with
  | ifetch => exact .bind (setCsr_oblivious _ _) fun _ => .bind (setCsr_oblivious _ _) fun _ => .raise _
  | read | write | ifetchRead | writeRead => exact faultAt_oblivious

theorem isaMisalignDataAddrCheck_oblivious : Oblivious Q (isaMisalignDataAddrCheck P va len type) :=
  .read (fun _ _ => rfl) fun _ => .ite faultAt_oblivious (.ret _)

theorem forceRaisePfRecord_oblivious : Oblivious Q (forceRaisePfRecord va type) :=
  .read (fun _ _ => rfl) fun _ => .bind (.change (fun _ _ => rfl) fun _ => rfl) fun _ => .ret _

/-- Both runs are forced to the same exception, or neither is. -/
def SameForce (Q : Hidden → Hidden → Prop) : Prop := ∀ h h', Q h h' → h.forced = h'.forced

theorem forceRaisePf_oblivious (hQ : SameForce Q) : Oblivious Q (forceRaisePf P va type) := by
  refine .read_of (fun s h hq => ?_) fun s => ?_
  · have hf := hQ _ _ hq
    cases hs : s.hidden.forced with
    | none =>
      have hc : ¬ (s.guidedExec && s.guide.forceRaiseException) = true :=
        Bool.eq_false_iff.mp (Hidden.forced_eq_none hs)
      have hc' : ¬ (h.guidedExec && h.guide.forceRaiseException) = true :=
        Bool.eq_false_iff.mp (Hidden.forced_eq_none (hf.symm.trans hs))
      exact (if_neg hc').trans (if_neg hc).symm
    | some g =>
      obtain ⟨h1, -, h3⟩ := Hidden.forced_eq_some hs
      obtain ⟨h1', -, h3'⟩ := Hidden.forced_eq_some (hf.symm.trans hs)
      obtain ⟨pc, z, guided, g', last⟩ := h
      obtain rfl : guided = s.guidedExec := h1'.trans h1.symm
      obtain rfl : g' = s.guide := h3'.trans h3.symm
      rfl
  · exact .ite (.ite
        (.bind forceRaisePfRecord_oblivious fun _ => .ite (.ret _) (.ite
          (.bind (setCsr_oblivious _ _) fun _ => .raise _)
          (.bind (setCsr_oblivious _ _) fun _ => .raise _)))
        (.ite (.bind forceRaisePfRecord_oblivious fun _ => .ite (.ret _) faultAt_oblivious)
          (.ite (.bind forceRaisePfRecord_oblivious fun _ => .ite (.ret _) faultAt_oblivious) (.ret _))))
      (.ret _)

section Translated

variable (hQ : SameForce Q)

include hQ

theorem isaMmuTranslate_oblivious : Oblivious Q (isaMmuTranslate P va type) :=
  .bind ptw_oblivious fun _ => .ite (.bind (forceRaisePf_oblivious hQ) fun _ => .ret _) (.ret _)

theorem vaddrReadCrossPage_oblivious (n i : Nat) (data : Word) :
    Oblivious Q (vaddrReadCrossPage P va type n i data) := by
  induction n generalizing i data with
  | zero => exact .ret _
  | succ n ih =>
    unfold vaddrReadCrossPage
    exact .bind (isaMmuTranslate_oblivious hQ) fun _ => .ite (.ret _)
      (.read (fun _ _ => rfl) fun _ => .bind paddrRead_oblivious fun _ => ih _ _)

theorem vaddrWriteCrossPage_oblivious (n i : Nat) (data : Word) :
    Oblivious Q (vaddrWriteCrossPage P va n i data) := by
  induction n generalizing i data with
  | zero => exact .ret _
  | succ n ih =>
    unfold vaddrWriteCrossPage
    exact .bind (isaMmuTranslate_oblivious hQ) fun _ => .ite (.ret _)
      (.read (fun _ _ => rfl) fun _ => .bind paddrWrite_oblivious fun _ => ih _ _)

theorem vaddrMmuRead_oblivious : Oblivious Q (vaddrMmuRead P va len type) :=
  .bind (isaMmuTranslate_oblivious hQ) fun _ => .ite
    (.read (fun _ _ => rfl) fun _ => paddrRead_oblivious)
    (.ite (vaddrReadCrossPage_oblivious hQ _ _ _) (.ret _))

theorem vaddrMmuWrite_oblivious : Oblivious Q (vaddrMmuWrite P va len data) :=
  .bind (isaMmuTranslate_oblivious hQ) fun _ => .ite
    (.read (fun _ _ => rfl) fun _ => paddrWrite_oblivious)
    (.ite (vaddrWriteCrossPage_oblivious hQ _ _ _) (.ret _))

omit hQ in
theorem vaddrCheck_oblivious (pc : Option Word) : Oblivious Q (vaddrCheck P pc va len type) := by
  cases pc with
  | none => exact .ite (.bind isaMisalignDataAddrCheck_oblivious fun _ => .ret _) (.ret _)
  | some pc =>
    have h : Oblivious Q (if P.dasics then dasicsLdstHelper P pc va len type else pure ()) :=
      .ite dasicsLdstHelper_oblivious (.ret _)
    exact .ite (.bind isaMisalignDataAddrCheck_oblivious fun _ => h) h

omit hQ in
theorem resolveMmuMode_oblivious (m : MmuMode) : Oblivious Q (resolveMmuMode P va len type m) := by
  cases m with
  | direct | translate => exact .ret _
  | dynamic => exact isaMmuCheck_oblivious

theorem vaddrReadInternal_oblivious (pc : Option Word) :
    Oblivious Q (vaddrReadInternal P pc va len type m) :=
  .bind (vaddrCheck_oblivious pc) fun _ => .bind (resolveMmuMode_oblivious m) fun _ => .ite
    (.read (fun _ _ => rfl) fun _ => paddrRead_oblivious) (vaddrMmuRead_oblivious hQ)

theorem vaddrIfetch_oblivious : Oblivious Q (vaddrIfetch P va len) :=
  vaddrReadInternal_oblivious hQ none

theorem vaddrRead_oblivious : Oblivious Q (vaddrRead P pc va len m) :=
  vaddrReadInternal_oblivious hQ (some pc)

theorem vaddrWrite_oblivious : Oblivious Q (vaddrWrite P pc va len data m) :=
  .bind (vaddrCheck_oblivious (some pc)) fun _ => .bind (resolveMmuMode_oblivious m) fun _ => .ite
    (.read (fun _ _ => rfl) fun _ => paddrWrite_oblivious) (vaddrMmuWrite_oblivious hQ)

end Translated

end Accesses

section Privileged

theorem modifyMstatus_oblivious (g : Word → Word) : Oblivious Q (modifyMstatus g) :=
  .change (fun _ _ => rfl) fun _ => rfl

theorem updateMmuStateInternal_oblivious : Oblivious Q (updateMmuStateInternal ifetch) :=
  .read (fun _ _ => rfl) fun _ => .ite
    (.bind (assert_oblivious _) fun _ => .ite (.ret _) (.ret _)) (.ret _)

theorem updateMmuState_oblivious : Oblivious Q updateMmuState :=
  .bind updateMmuStateInternal_oblivious fun _ => .bind (.change (fun _ _ => rfl) fun _ => rfl) fun _ =>
    .bind updateMmuStateInternal_oblivious fun _ => .change (fun _ _ => rfl) fun _ => rfl

theorem raiseIntr_oblivious : Oblivious Q (raiseIntr P no epc) := by
  have htail : ∀ l : Level, Oblivious Q (do
      modify fun s => { s with mode := l.mode }
      updateMmuState
      let s ← get
      pure (getTrapPc (s.csr l.tvec) (s.csr l.cause))) := fun l =>
    .bind (.change (fun _ _ => rfl) fun _ => rfl) fun _ => .bind updateMmuState_oblivious fun _ =>
      .read (fun _ _ => rfl) fun _ => .ret _
  exact .read (fun _ _ => rfl) fun s => .bind (setCsr_oblivious _ _) fun _ =>
    .bind (setCsr_oblivious _ _) fun _ => .bind (modifyMstatus_oblivious _) fun _ =>
    .ite (htail _) (.bind (setCsr_oblivious _ _) fun _ => htail _)

theorem illegalIf_oblivious (p : Prop) [Decidable p] : Oblivious Q (illegalIf p) :=
  .ite (.raise _) (.ret _)

theorem uret_oblivious : Oblivious Q (uret P) :=
  .bind (modifyMstatus_oblivious _) fun _ => .bind (.change (fun _ _ => rfl) fun _ => rfl) fun _ =>
    .bind (modifyMstatus_oblivious _) fun _ => .bind updateMmuState_oblivious fun _ =>
    .read (fun _ _ => rfl) fun _ => .ret _

theorem sret_oblivious : Oblivious Q (sret P) :=
  .read (fun _ _ => rfl) fun _ => .bind (illegalIf_oblivious _) fun _ =>
    .bind (modifyMstatus_oblivious _) fun _ => .bind (.change (fun _ _ => rfl) fun _ => rfl) fun _ =>
    .read (fun _ _ => rfl) fun _ => .bind (modifyMstatus_oblivious _) fun _ =>
    .bind (modifyMstatus_oblivious _) fun _ => .bind updateMmuState_oblivious fun _ =>
    .read (fun _ _ => rfl) fun _ => .ret _

theorem mret_oblivious : Oblivious Q (mret P) :=
  .read (fun _ _ => rfl) fun _ => .bind (illegalIf_oblivious _) fun _ =>
    .bind (modifyMstatus_oblivious _) fun _ => .bind (.change (fun _ _ => rfl) fun _ => rfl) fun _ =>
    .read (fun _ _ => rfl) fun _ => .bind (modifyMstatus_oblivious _) fun _ =>
    .bind (modifyMstatus_oblivious _) fun _ => .bind updateMmuState_oblivious fun _ =>
    .read (fun _ _ => rfl) fun _ => .ret _

theorem illegalWhen_oblivious (p : Prop) [Decidable p] : Oblivious Q (illegalWhen p) :=
  .bind (illegalIf_oblivious p) fun _ => .ret _

theorem privFence_oblivious : Oblivious Q (privFence P op) :=
  .read (fun _ _ => rfl) fun _ => .ite (illegalWhen_oblivious _) (.ite (illegalWhen_oblivious _)
    (.ite (.ret _) (.ite (illegalWhen_oblivious _) (.ite (illegalWhen_oblivious _)
      (.ite (.raise _) (.raise _))))))

theorem privInstr_oblivious : Oblivious Q (privInstr P op) :=
  .ite uret_oblivious (.ite sret_oblivious (.ite mret_oblivious privFence_oblivious))

theorem hostcallTrap_oblivious : Oblivious Q (hostcallTrap P pc imm epc) :=
  .read (fun _ _ => rfl) fun _ => .ite
    (.bind (setCsr_oblivious _ _) fun _ => raiseIntr_oblivious)
    (.ite (.bind (setCsr_oblivious _ _) fun _ => raiseIntr_oblivious) raiseIntr_oblivious)

theorem csrIsLegal_oblivious : Oblivious Q (csrIsLegal P addr w pc) := by
  refine .read (fun _ _ => rfl) fun s => ?_
  split
  · exact .bind (assert_oblivious _) fun _ => .ret _
  · exact .bind (assert_oblivious _) fun _ => .ite (.ret _) (.ret _)

theorem csrReadValue_oblivious (c : Csr) : Oblivious Q (csrReadValue P c) := by
  refine .read (fun _ _ => rfl) fun s => ?_
  cases c with
  | pmpaddr i => exact .ite (.raise _) (.ite (.ret _) (.ret _))
  | fcsr | fflags | frm | satp => exact .ite (.raise _) (.ret _)
  | mtime => exact .bind (setMtip_oblivious _ (fun _ _ => rfl) fun _ => rfl) fun _ => .ret _
  | _ => exact .ret _

theorem csrRead_oblivious (c : Csr) : Oblivious Q (csrRead P c) :=
  .bind (.ite (modifyMstatus_oblivious _) (.ret _)) fun _ => csrReadValue_oblivious c

theorem csrStore_withHidden (s : Machine) (h : Hidden) (c : Csr) (x : Word) :
    csrStore P (s.withHidden h) c x = (csrStore P s c x).withHidden h := by
  cases c with
  | misa | pmpcfg _ | satp =>
    unfold csrStore
    dsimp only
    split
    · rfl
    · rfl
  | pmpaddr i =>
    have hl : pmpaddrLocked P (s.withHidden h) i = pmpaddrLocked P s i := rfl
    unfold csrStore
    dsimp only
    rw [hl]
    split
    · rfl
    · rfl
  | _ => rfl

theorem csrStore_hidden (s : Machine) (c : Csr) (x : Word) :
    (csrStore P s c x).hidden = s.hidden := by
  rw [csrStore_only]
  rfl

theorem csrWrite_oblivious (c : Csr) (x : Word) : Oblivious Q (csrWrite P c x) := by
  have hfp : Oblivious Q (csrWriteFp P c) :=
    .ite (.bind (modifyMstatus_oblivious _) fun _ => .read (fun _ _ => rfl) fun _ =>
      .bind (assert_oblivious _) fun _ => .change (fun _ _ => rfl) fun _ => rfl) (.ret _)
  exact .read (fun _ _ => rfl) fun _ => .bind (illegalIf_oblivious _) fun _ =>
    .bind (.change (fun s h => csrStore_withHidden s h c x) fun s => csrStore_hidden s c x) fun _ =>
    .bind hfp fun _ => .bind (.ite (modifyMstatus_oblivious _) (.ret _)) fun _ =>
    .ite updateMmuState_oblivious (.ret _)

theorem csrrw_oblivious (r : Bool) (src : Option Word) : Oblivious Q (csrrw P r src csrid pc) := by
  refine .bind csrIsLegal_oblivious fun c => ?_
  cases c with
  | none => exact .raise _
  | some c =>
    cases r with
    | true =>
      cases src with
      | none => exact csrRead_oblivious c
      | some x => exact .bind (csrRead_oblivious c) fun _ => .bind (csrWrite_oblivious c x) fun _ => .ret _
    | false =>
      cases src with
      | none => exact .ret _
      | some x => exact .bind (csrWrite_oblivious c x) fun _ => .ret _

end Privileged

/-- What a relation between hidden parts must admit for the executors to respect it: any two words in
place of `x0`, the same `pc`, the same jump, and the same last instruction, which it has to show. -/
structure Masks (P : Platform) (Q : Hidden → Hidden → Prop) : Prop where
  forced : SameForce Q
  last : ∀ h h', Q h h' → h'.last = h.last
  ended : ∀ h h' l, Q h h' → Q (h.withLast l) (h'.withLast l)
  null : ∀ h h' v v', Q h h' → Q (h.withNull v) (h'.withNull v')
  pc : ∀ h h' a, Q h h' → Q (h.withPc a) (h'.withPc a)
  jump : ∀ h h' a, Q h h' → Q (h.withPc (h.redirect P a)) (h'.withPc (h'.redirect P a))

section Registers

variable (hQ : Masks P Q)

theorem readReg_oblivious (h : l ≠ .zeroNull) : Oblivious Q (readReg l) := by
  refine .read (fun s h' => ?_) fun _ => .ret _
  cases l with
  | gpr r | fpr r => rfl
  | zeroNull => exact absurd rfl h

theorem writeLoc_withHidden (h : l ≠ .zeroNull) (s : Machine) (h' : Hidden) (v : Word) :
    (s.withHidden h').writeLoc l v = (s.writeLoc l v).withHidden h' := by
  cases l with
  | gpr r | fpr r => rfl
  | zeroNull => exact absurd rfl h

theorem writeLoc_hidden (h : l ≠ .zeroNull) (s : Machine) (v : Word) :
    (s.writeLoc l v).hidden = s.hidden := by
  cases l with
  | gpr r | fpr r => rfl
  | zeroNull => exact absurd rfl h

include hQ

/-- What is written in place of `x0` may differ. -/
theorem writeReg_alike (h : l = .zeroNull ∨ v = v') : Alike (Hides Q) (writeReg l v) (writeReg l v') := by
  by_cases hl : l = .zeroNull
  · subst hl
    refine Alike.update ?_
    rintro s _ ⟨h', rfl, hq⟩
    exact ⟨h'.withNull v', rfl, hQ.null _ _ v v' hq⟩
  · obtain rfl := h.resolve_left hl
    exact Oblivious.change (fun s h' => writeLoc_withHidden hl s h' v) fun s => writeLoc_hidden hl s v

theorem writeReg_oblivious (l : Loc) (v : Word) : Oblivious Q (writeReg l v) :=
  writeReg_alike hQ (.inr rfl)

/-- A register that is read only to be overwritten may stand in place of `x0`. -/
theorem updateReg_oblivious (l : Loc) (g : Word → Word) : Oblivious Q (do
    let x ← readReg l
    writeReg l (g x)) := by
  by_cases hl : l = .zeroNull
  · subst hl
    refine Alike.bind_get fun s t _ => ?_
    exact writeReg_alike hQ (.inl rfl)
  · exact .bind (readReg_oblivious hl) fun _ => writeReg_oblivious hQ _ _

theorem rtlJ_oblivious (a : Word) : Oblivious Q (rtlJ P a) := by
  refine .hide (g := fun h => h.withPc (h.redirect P a)) (fun s => ?_) fun h h' => hQ.jump h h' a
  unfold Hidden.redirect
  by_cases hg : P.guidedExec ∧ s.guidedExec ∧ s.guide.forceSetJumpTarget
  · have hg' : P.guidedExec ∧ s.hidden.guidedExec ∧ s.hidden.guide.forceSetJumpTarget := hg
    rw [if_pos hg']
    by_cases ht : s.guide.jumpTarget = a
    · rw [if_neg fun h => h.2.2.2 ht, ← ht]
      rfl
    · rw [if_pos ⟨hg.1, hg.2.1, hg.2.2, ht⟩]
      rfl
  · have hg' : ¬ (P.guidedExec ∧ s.hidden.guidedExec ∧ s.hidden.guide.forceSetJumpTarget) := hg
    rw [if_neg hg', if_neg fun h => hg ⟨h.1, h.2.1, h.2.2.1⟩]
    rfl

end Registers

/-- A vector executor that looks at the hidden part no more than the others do. -/
def VProg.Oblivious : VProg → Prop
  | .done | .inv | .stuck => True
  | .get k => (∀ s h, h.last = s.last → k (s.withHidden h) = k s) ∧ ∀ s, (k s).Oblivious
  | .setVr _ _ k | .setGpr _ _ k | .setCsr _ _ k | .store _ _ _ k => k.Oblivious
  | .load _ _ k => ∀ v, (k v).Oblivious

section Executors

variable (hQ : Masks P Q)

include hQ

theorem recordMemEvent_oblivious : Oblivious Q (recordMemEvent P isLoad va) := by
  refine Alike.update ?_
  rintro s _ ⟨h', rfl, hq⟩
  have hlast := Hidden.eq_withLast (hQ.last _ _ hq)
  rw [hlast] at hq ⊢
  split
  · exact ⟨_, rfl, hq⟩
  · exact ⟨_, rfl, hq⟩

theorem rtlLm_oblivious (ha : addr ≠ .zeroNull) : Oblivious Q (rtlLm P d dest addr offset len m) :=
  .bind (readReg_oblivious ha) fun _ => .bind (vaddrRead_oblivious hQ.forced) fun _ =>
    .bind (writeReg_oblivious hQ _ _) fun _ => .bind (readReg_oblivious ha) fun _ =>
    recordMemEvent_oblivious hQ

theorem rtlSm_oblivious (ha : addr ≠ .zeroNull) : Oblivious Q (rtlSm P d data addr offset len m) :=
  .bind (readReg_oblivious ha) fun _ => .bind (vaddrWrite_oblivious hQ.forced) fun _ =>
    recordMemEvent_oblivious hQ

theorem rtlLms_oblivious (ha : addr ≠ .zeroNull) : Oblivious Q (rtlLms P d addr offset len m) :=
  .bind (readReg_oblivious ha) fun _ => .bind (vaddrRead_oblivious hQ.forced) fun _ =>
    .bind (assert_oblivious _) fun _ => .ret _

theorem lrStep_oblivious (h1 : d.src1.preg ≠ .zeroNull) : Oblivious Q (lrStep P d width) :=
  .read (fun _ _ => rfl) fun _ => .bind (assert_oblivious _) fun _ => .bind (rtlLms_oblivious hQ h1) fun _ =>
    .bind (writeReg_oblivious hQ _ _) fun _ => .bind (readReg_oblivious h1) fun _ =>
    .change (fun _ _ => rfl) fun _ => rfl

omit hQ in
theorem setAmo_oblivious (b : Bool) : Oblivious Q (setAmo b) := .change (fun _ _ => rfl) fun _ => rfl

omit hQ in
theorem setScAmo_oblivious (b : Bool) : Oblivious Q (setScAmo P b) := .ite (setAmo_oblivious b) (.ret _)

theorem scFailCheck_oblivious (h1 : d.src1.preg ≠ .zeroNull) : Oblivious Q (scFailCheck P d width) := by
  refine .bind (readReg_oblivious h1) fun a => .bind isaMmuCheck_oblivious fun m => .bind ?_ fun pa =>
    .read (fun s h => ?_) fun _ => .ite faultAt_oblivious (.ret _)
  · cases m with
    | direct | dynamic => exact .ret _
    | translate => exact isaMmuTranslate_oblivious hQ.forced
  · rw [isaPmpCheckPermission_withHidden]
    rfl

theorem scStep_oblivious (h1 : d.src1.preg ≠ .zeroNull) (h2 : d.src2.preg ≠ .zeroNull) :
    Oblivious Q (scStep P d width) := by
  have hstore : Oblivious Q (scStore P d width) :=
    .bind (readReg_oblivious h2) fun _ => .bind (rtlSm_oblivious hQ h1) fun _ =>
      .change (fun _ _ => rfl) fun _ => rfl
  have htail : ∀ v, Oblivious Q (do
      writeReg d.dest.preg v
      setScAmo P false) := fun v => .bind (writeReg_oblivious hQ _ v) fun _ => setScAmo_oblivious _
  refine .bind (setScAmo_oblivious _) fun _ => .read (fun s h => ?_) fun _ => .ite
    (.bind hstore fun _ => htail 0) (.bind (scFailCheck_oblivious hQ h1) fun _ => htail 1)
  have hs : (s.withHidden h).scSuccess d = s.scSuccess d := by
    unfold Machine.scSuccess
    cases hl : d.src1.preg with
    | gpr r | fpr r => rfl
    | zeroNull => exact absurd hl h1
  rw [hs]

theorem amoStep_oblivious (h1 : d.src1.preg ≠ .zeroNull) (h2 : d.src2.preg ≠ .zeroNull) :
    Oblivious Q (amoStep P d funct5 width) := by
  refine .bind (setAmo_oblivious _) fun _ => .bind (rtlLms_oblivious hQ h1) fun x =>
    .bind (readReg_oblivious h2) fun y => ?_
  split
  · exact .raise _
  · exact .bind (rtlSm_oblivious hQ h1) fun _ => .bind (writeReg_oblivious hQ _ _) fun _ =>
      setAmo_oblivious _

theorem rtlAmoSlowPath_oblivious (h1 : d.src1.preg ≠ .zeroNull) (h2 : d.src2.preg ≠ .zeroNull) :
    Oblivious Q (rtlAmoSlowPath P d) :=
  .ite (lrStep_oblivious hQ h1) (.ite (scStep_oblivious hQ h1 h2) (amoStep_oblivious hQ h1 h2))

theorem rtlTrap_oblivious (no : Word) : Oblivious Q (rtlTrap P d no) :=
  .bind hostcallTrap_oblivious fun _ => .bind (rtlJ_oblivious hQ _) fun _ => .ret _

theorem rtlSysSlowPath_oblivious (h1 : d.src1.preg ≠ .zeroNull) : Oblivious Q (rtlSysSlowPath P d) := by
  have htarget : Oblivious Q (sysTarget P d) :=
    .read (fun _ _ => rfl) fun _ => .ite (rtlTrap_oblivious hQ _) (.ite (rtlTrap_oblivious hQ _)
      privInstr_oblivious)
  have hcsr : Oblivious Q (sysCsr P d) :=
    .bind (csrrw_oblivious _ _) fun _ => .ite
      (.bind (readReg_oblivious h1) fun _ => .bind (csrrw_oblivious _ _) fun _ => writeReg_oblivious hQ _ _)
      (writeReg_oblivious hQ _ _)
  exact .ite (.bind htarget fun _ => .ite (rtlJ_oblivious hQ _) (.ret _)) hcsr

theorem rtlFsr_oblivious (v : Word) (w : FpWidth) : Oblivious Q (rtlFsr P dest v w) :=
  .bind (writeReg_oblivious hQ _ _) fun _ => modifyMstatus_oblivious _

omit hQ in
theorem rtlFpcall_oblivious : Oblivious Q (rtlFpcall P d op w x y z) := by
  have hrm : Oblivious Q (fpcallRm d op) :=
    .ite (.bind (.read (fun _ _ => rfl) fun _ => .ite (.ret _) (.ite (.ret _) (.raise _))) fun _ => .ret _)
      (.ret _)
  have hex : ∀ ex, Oblivious Q (isaFpSetEx P ex) := fun ex =>
    .bind (.change (fun _ _ => rfl) fun _ => rfl) fun _ => modifyMstatus_oblivious _
  exact .bind (.read (fun _ _ => rfl) fun _ => .ite (.raise _) (.ret _)) fun _ => .bind hrm fun _ => .ite
    (.bind (hex _) fun _ => .ret _) (.ret _)

theorem execFload_oblivious (h1 : d.src1.preg ≠ .zeroNull) (h3 : d.dest.preg ≠ .zeroNull) :
    Oblivious Q (execFload P d w m) :=
  .bind (rtlLm_oblivious hQ h1) fun _ => .bind (readReg_oblivious h3) fun _ => rtlFsr_oblivious hQ _ _

theorem execFmadd_oblivious (h1 : d.src1.preg ≠ .zeroNull) (h2 : d.src2.preg ≠ .zeroNull) :
    Oblivious Q (execFmadd P d p a w) :=
  .bind (readReg_oblivious Loc.noConfusion) fun _ => .bind (readReg_oblivious h1) fun _ =>
    .bind (readReg_oblivious h2) fun _ => .bind rtlFpcall_oblivious fun _ => rtlFsr_oblivious hQ _ _

theorem execFcmp_oblivious (h1 : d.src1.preg ≠ .zeroNull) (h2 : d.src2.preg ≠ .zeroNull) :
    Oblivious Q (execFcmp P d o w) := by
  refine .bind (readReg_oblivious h1) fun x => .bind (readReg_oblivious h2) fun y => .bind ?_ fun _ =>
    .bind rtlFpcall_oblivious fun _ => writeReg_oblivious hQ _ _
  cases hc : fcmpCopies o w with
  | true => exact writeReg_oblivious hQ d.dest.preg x
  | false => exact .change (fun _ _ => rfl) fun _ => rfl

theorem execFsgnj_oblivious (h1 : d.src1.preg ≠ .zeroNull) (h2 : d.src2.preg ≠ .zeroNull) :
    Oblivious Q (execFsgnj P d w sign) :=
  .bind (readReg_oblivious h1) fun _ => .bind (readReg_oblivious h2) fun _ => rtlFsr_oblivious hQ _ _

theorem execInv_oblivious : Oblivious Q (execInv P d) :=
  .ite (.bind (vaddrIfetch_oblivious hQ.forced) fun _ => .bind (vaddrIfetch_oblivious hQ.forced) fun _ =>
    .raise _) (.raise _)

theorem runVector_oblivious (v : VProg) (hv : v.Oblivious) : Oblivious Q (runVector P d m v) := by
  induction v with
  | done => exact .ret _
  | inv => exact execInv_oblivious hQ
  | stuck => exact .raise _
  | get k ih =>
    unfold runVector
    refine .read_of (fun s h hq => ?_) fun s => ih s (hv.2 s)
    rw [hv.1 s h (hQ.last _ _ hq)]
  | setVr r v k ih =>
    unfold runVector
    exact .bind (.change (fun _ _ => rfl) fun _ => rfl) fun _ => ih hv
  | setGpr r v k ih =>
    unfold runVector
    refine .bind (.change (fun s h => ?_) fun s => ?_) fun _ => ih hv
    · split <;> rfl
    · split <;> rfl
  | setCsr c v k ih =>
    unfold runVector
    exact .bind (setCsr_oblivious _ _) fun _ => ih hv
  | load addr len k ih =>
    unfold runVector
    exact .bind (vaddrRead_oblivious hQ.forced) fun v => .bind (recordMemEvent_oblivious hQ) fun _ => ih v (hv v)
  | store addr len data k ih =>
    unfold runVector
    exact .bind (vaddrWrite_oblivious hQ.forced) fun v => .bind (recordMemEvent_oblivious hQ) fun _ => ih hv

/-- Both runs give the indirect jumps the same link value. -/
def SameLink (P : Platform) (Q : Hidden → Hidden → Prop) (a : Word) : Prop :=
  ∀ h h', Q h h' → h.redirect P a = h'.redirect P a

theorem execJalr_oblivious (h1 : d.src1.preg ≠ .zeroNull)
    (hl : d.dest.preg = .zeroNull ∨ SameLink P Q d.snpc) : Oblivious Q (do
      let x ← readReg d.src1.preg
      let s ← get
      writeReg d.dest.preg (linkValue P s d.snpc)
      rtlJ P ((x + d.src2.imm) &&& ~~~1)) := by
  refine Alike.bind (readReg_oblivious h1) fun x => Alike.bind_get ?_
  rintro s _ ⟨h, rfl, hq⟩
  refine Alike.bind (writeReg_alike hQ ?_) fun _ => rtlJ_oblivious hQ _
  exact hl.imp_right fun hs => hs _ _ hq

omit hQ in
theorem rtlSetDretpc_oblivious (v : Word) : Oblivious Q (rtlSetDretpc d v) :=
  .bind dasicsCheckTrusted_oblivious fun _ => setCsr_oblivious _ _

theorem execDasicscallJr_oblivious (h1 : d.src1.preg ≠ .zeroNull) (hl : SameLink P Q d.snpc) :
    Oblivious Q (do
      let x ← readReg d.src1.preg
      let s ← get
      rtlSetDretpc d (linkValue P s d.snpc)
      writeReg d.dest.preg (linkValue P s d.snpc)
      rtlJ P ((x + d.src2.imm) &&& ~~~1)) := by
  refine .bind (readReg_oblivious h1) fun x => .read_of (fun s h hq => ?_) fun s =>
    .bind (rtlSetDretpc_oblivious _) fun _ => .bind (writeReg_oblivious hQ _ _) fun _ => rtlJ_oblivious hQ _
  have he : linkValue P (s.withHidden h) d.snpc = linkValue P s d.snpc := (hl _ _ hq).symm
  rw [he]

/-- The compressed operations read their destination, which may stand in place of `x0`. -/
theorem compressedReg_oblivious (h2 : r ≠ .zeroNull) (g : Word → Word → Word) : Oblivious Q (do
    let x ← readReg l
    let y ← readReg r
    writeReg l (g x y)) := by
  by_cases hl : l = .zeroNull
  · subst hl
    refine Alike.bind_get fun s t _ => Alike.bind (readReg_oblivious h2) fun y => ?_
    exact writeReg_alike hQ (.inl rfl)
  · exact .bind (readReg_oblivious hl) fun x => .bind (readReg_oblivious h2) fun y =>
      writeReg_oblivious hQ _ _

omit hQ in
theorem execNemuTrap_oblivious : Oblivious Q execNemuTrap :=
  .read (fun _ _ => rfl) fun _ => .ite (setCsr_oblivious _ _) (.ite (.ret _) (.raise _))

/-- Every executor that the decoder can choose, one case for each. -/
theorem exec_oblivious (hf : Formed f d)
    (hjalr : d.id = .jalr → d.dest.preg = .zeroNull ∨ SameLink P Q d.snpc)
    (hcall : d.id = .dasicscall_jr → SameLink P Q d.snpc)
    (hv : ∀ m, d.id = .vector m → (P.vector d).Oblivious) : Oblivious Q (exec P d) := by
  have hw : ∀ l v, Oblivious Q (writeReg l v) := writeReg_oblivious hQ
  have hj : ∀ a, Oblivious Q (rtlJ P a) := rtlJ_oblivious hQ
  have hb : ∀ o x y, Oblivious Q (rtlJrelop P d o x y) := fun o x y => hj _
  have hread : ∀ {l : Loc} {k : Word → Exec Unit}, l ≠ .zeroNull → (∀ x, Oblivious Q (k x)) →
      Oblivious Q (readReg l >>= k) := fun hl hk => .bind (readReg_oblivious hl) hk
  have hfsr : ∀ v w, Oblivious Q (rtlFsr P d.dest.preg v w) := rtlFsr_oblivious hQ
  have hr1 : ∀ {i : ExecId}, d.id = i → i.readsSrc1 = true → d.src1.preg ≠ .zeroNull := fun he hr =>
    hf.src1 (he ▸ hr)
  have hr2 : ∀ {i : ExecId}, d.id = i → i.readsSrc2 = true → d.src2.preg ≠ .zeroNull := fun he hr =>
    hf.src2 (he ▸ hr)
  have hr3 : ∀ {i : ExecId}, d.id = i → i.readsDest = true → d.dest.preg ≠ .zeroNull := fun he hr =>
    hf.data (he ▸ hr)
  unfold exec
  cases hid : d.id with
  | inv => exact execInv_oblivious hQ
  | rt_inv => exact .raise _
  | nemu_trap => exact execNemuTrap_oblivious
  | fence_i => exact .bind privInstr_oblivious fun _ => .ret _
  | fence => exact .ret _
  | lui | auipc | c_li | p_li_0 | p_li_1 => exact hw _ _
  | computeReg o | rvbReg o | rvkReg o =>
    exact hread (hr1 hid rfl) fun _ => hread (hr2 hid rfl) fun _ => hw _ _
  | computeImm o | rvbImm o | rvkImm o => exact hread (hr1 hid rfl) fun _ => hw _ _
  | compressedReg o => exact compressedReg_oblivious hQ (hr2 hid rfl) _
  | compressedImm o => exact updateReg_oblivious hQ _ _
  | p_inc | p_dec => exact updateReg_oblivious hQ _ _
  | c_mv | p_sext_w | fmv_x_w | fmv_x_d | fclass w => exact hread (hr1 hid rfl) fun _ => hw _ _
  | load signed len m =>
    cases signed with
    | true => exact .bind (rtlLms_oblivious hQ (hr1 hid rfl)) fun _ => hw _ _
    | false => exact rtlLm_oblivious hQ (hr1 hid rfl)
  | store len m => exact hread (hr3 hid rfl) fun _ => rtlSm_oblivious hQ (hr1 hid rfl)
  | jal | p_jal => exact .bind (hw _ _) fun _ => hj _
  | c_j => exact hj _
  | dasicscall_j =>
    exact .bind (rtlSetDretpc_oblivious _) fun _ => .bind (hw _ _) fun _ => hj _
  | jalr => exact execJalr_oblivious hQ (hr1 hid rfl) (hjalr hid)
  | dasicscall_jr => exact execDasicscallJr_oblivious hQ (hr1 hid rfl) (hcall hid)
  | p_ret => exact hread Loc.noConfusion fun _ => hj _
  | c_jr => exact hread (hr1 hid rfl) fun _ => hj _
  | c_jalr =>
    exact hread (hr1 hid rfl) fun _ => .bind (hw _ _) fun _ => hread (hr1 hid rfl) fun _ => hj _
  | branch o => exact hread (hr1 hid rfl) fun _ => hread (hr2 hid rfl) fun _ => hb _ _ _
  | c_beqz | c_bnez | p_bltz | p_bgez => exact hread (hr1 hid rfl) fun _ => hb _ _ _
  | p_blez | p_bgtz => exact hread (hr2 hid rfl) fun _ => hb _ _ _
  | atomic => exact rtlAmoSlowPath_oblivious hQ (hr1 hid rfl) (hr2 hid rfl)
  | system => exact rtlSysSlowPath_oblivious hQ (hr1 hid rfl)
  | fload w m => exact execFload_oblivious hQ (hr1 hid rfl) (hr3 hid rfl)
  | fstore w m => exact hread (hr3 hid rfl) fun _ => rtlSm_oblivious hQ (hr1 hid rfl)
  | fop o w =>
    exact hread (hr1 hid rfl) fun _ => hread (hr2 hid rfl) fun _ => .bind rtlFpcall_oblivious fun _ =>
      hfsr _ _
  | funary o w w' => exact hread (hr1 hid rfl) fun _ => .bind rtlFpcall_oblivious fun _ => hfsr _ _
  | fcvtToI o w => exact hread (hr1 hid rfl) fun _ => .bind rtlFpcall_oblivious fun _ => hw _ _
  | fcmp o w => exact execFcmp_oblivious hQ (hr1 hid rfl) (hr2 hid rfl)
  | fmadd p a w => exact execFmadd_oblivious hQ (hr1 hid rfl) (hr2 hid rfl)
  | fsgnj w | fsgnjn w | fsgnjx w => exact execFsgnj_oblivious hQ (hr1 hid rfl) (hr2 hid rfl)
  | fmv_w_x | fmv_d_x => exact hread (hr1 hid rfl) fun _ => hfsr _ _
  | vector m => exact runVector_oblivious hQ _ (hv m hid)

end Executors

section Steps

/-- The same next `pc` as well. -/
def AtPc (Q : Hidden → Hidden → Prop) (h h' : Hidden) : Prop := Q h h' ∧ h'.pc = h.pc

theorem Hides.atPc (h : Hides (AtPc Q) s t) : Hides Q s t := by
  obtain ⟨h', ht, hq, -⟩ := h
  exact ⟨h', ht, hq⟩

theorem Oblivious.at_pc {k : Machine → Exec α}
    (hk : ∀ (s : Machine) (h : Hidden), k (s.withHidden (h.withPc s.pc)) = k s)
    (h : ∀ s, Oblivious (AtPc Q) (k s)) : Oblivious (AtPc Q) (get >>= k) := by
  refine .read_of (fun s h' hq => ?_) h
  have hpc : h' = h'.withPc s.pc := by
    rw [← show h'.pc = s.pc from hq.2]
    rfl
  rw [hpc]
  exact hk s h'

theorem liftDecode_oblivious (r : Except Stop Decode) : Oblivious Q (liftDecode r) := by
  cases r with
  | ok d => exact .ret _
  | error e => exact .raise _

theorem decodeRest_oblivious (hQ : SameForce Q) (pc lo : Word) : Oblivious Q (decodeRest P pc lo) :=
  .ite (.read (fun _ _ => rfl) fun _ => liftDecode_oblivious _)
    (.bind (vaddrIfetch_oblivious hQ) fun _ => .read (fun _ _ => rfl) fun _ => .ret _)

theorem fetchDecode_oblivious (hQ : Masks P Q) : Oblivious (AtPc Q) (fetchDecode P) := by
  have hQ' : SameForce (AtPc Q) := fun h h' hq => hQ.forced h h' hq.1
  have hpending : ∀ pc, Oblivious (AtPc Q) (checkPending P pc) := fun pc => by
    refine .read_of (fun s h hq => ?_) fun _ => .ite dasicsFetchHelper_oblivious (.ret _)
    rw [Hidden.eq_withLast (hQ.last _ _ hq.1)]
    rfl
  have hend : ∀ d : Decode, Oblivious (AtPc Q) (modify fun s => { s with
      prevType := d.id.cfiType
      prevIsCfi := d.id.cfiType ≠ .none } : Exec PUnit) := by
    intro d
    refine Alike.update ?_
    rintro s _ ⟨h', rfl, hq, hpc⟩
    rw [Hidden.eq_withLast (hQ.last _ _ hq)]
    exact ⟨_, rfl, hQ.ended _ _ ⟨s.prevPc, d.id.cfiType, d.id.cfiType ≠ .none, s.currentPc⟩ hq, hpc⟩
  exact .at_pc (fun _ _ => rfl) fun s => .bind (.change (fun _ _ => rfl) fun _ => rfl) fun _ =>
    .bind (hpending s.pc) fun _ => .bind (vaddrIfetch_oblivious hQ') fun lo =>
    .bind (decodeRest_oblivious hQ' s.pc lo) fun d => .bind (hend d) fun _ => .ret d

theorem tick_oblivious : Oblivious Q (modify fun s => if P.rvn then utimerTick s else s : Exec PUnit) := by
  refine .change (fun s h => ?_) fun s => ?_
  · split
    · have hu : utimerTick (s.withHidden h) = (utimerTick s).withHidden h := by
        unfold utimerTick
        by_cases h1 : 1 < s.csr .utimer ∧ s.mode = .U
        · have h1' : 1 < (s.withHidden h).csr .utimer ∧ (s.withHidden h).mode = .U := h1
          rw [if_pos h1, if_pos h1']
          rfl
        · have h1' : ¬ (1 < (s.withHidden h).csr .utimer ∧ (s.withHidden h).mode = .U) := h1
          rw [if_neg h1, if_neg h1']
          by_cases h2 : s.csr .utimer = 1
          · have h2' : (s.withHidden h).csr .utimer = 1 := h2
            rw [if_pos h2, if_pos h2']
            rfl
          · have h2' : ¬ (s.withHidden h).csr .utimer = 1 := h2
            rw [if_neg h2, if_neg h2']
            rfl
      exact hu
    · rfl
  · unfold utimerTick
    split
    · split
      · rfl
      split
      · rfl
      · rfl
    · rfl

theorem Hides.started (hQ : Masks P Q) (h : Hides (AtPc Q) s t) (d : Decode) :
    Hides Q (s.started d) (t.started d) := by
  obtain ⟨h', rfl, hq, hpc⟩ := h
  have hpc' : (s.withHidden h').pc = s.pc := hpc
  have hstart := hQ.ended _ _ ⟨s.pc, s.prevType, s.prevIsCfi, d.pc⟩ (hQ.pc _ _ d.snpc hq)
  rw [Hidden.eq_withLast (hQ.last _ _ hq)]
  refine ⟨_, ?_, hstart⟩
  unfold Machine.started
  rw [show (s.withHidden (h'.withLast s.hidden.last)).pc = s.pc from hpc']
  rfl

/-- Two iterations of the loop of `execute` from states with the same `pc`. -/
theorem executeStep_match (hQ : Masks P Q) (h : Hides (AtPc Q) s t)
    (hexec : ∀ d u u', fetchDecode P s = .ok d u → Hides Q (u.started d) u' →
      Match (Hides Q) (exec P d (u.started d)) (exec P d u')) :
    Match (Hides Q) (executeStep P s) (executeStep P t) := by
  have hfetch := fetchDecode_oblivious hQ s t h
  unfold executeStep
  cases hf : fetchDecode P s with
  | error e u =>
    rw [hf] at hfetch
    obtain ⟨u', hu', hr⟩ := hfetch.of_error
    rw [bind_error hf, bind_error hu']
    exact .error e hr.atPc
  | ok d u =>
    rw [hf] at hfetch
    obtain ⟨u', hu', hr⟩ := hfetch.of_ok
    have hstart := hr.started hQ d
    have hx := hexec d u _ hf hstart
    have htail : Oblivious Q (do
        modify fun s => if P.rvn then utimerTick s else s
        pure d) := .bind tick_oblivious fun _ => .ret d
    rw [bind_ok hf, bind_ok hu']
    change Match (Hides Q)
      ((exec P d >>= fun _ => do
        modify fun s => if P.rvn then utimerTick s else s
        pure d) (u.started d))
      ((exec P d >>= fun _ => do
        modify fun s => if P.rvn then utimerTick s else s
        pure d) (u'.started d))
    cases he : exec P d (u.started d) with
    | error e v =>
      rw [he] at hx
      obtain ⟨v', hv', hr'⟩ := hx.of_error
      rw [bind_error he, bind_error hv']
      exact .error e hr'
    | ok _ v =>
      rw [he] at hx
      obtain ⟨v', hv', hr'⟩ := hx.of_ok
      rw [bind_ok he, bind_ok hv']
      exact htail v v' hr'

theorem handleException_oblivious (hQ : Masks P Q) (x : Fault) : Oblivious Q (handleException P x) := by
  have hend : ∀ pc, Oblivious Q (modify fun s => { s with pc := pc, amo := false } : Exec PUnit) := by
    intro pc
    refine Alike.update ?_
    rintro s _ ⟨h', rfl, hq⟩
    exact ⟨h'.withPc pc, rfl, hQ.pc _ _ pc hq⟩
  refine .read_of (fun s h hq => ?_) fun s => .bind (Alike.update ?_) fun _ =>
    .bind raiseIntr_oblivious fun pc => hend pc
  · rw [Hidden.eq_withLast (hQ.last _ _ hq)]
    rfl
  · rintro s _ ⟨h', rfl, hq⟩
    have hj : isJumpFault P (s.withHidden h') x = isJumpFault P s x := rfl
    rw [hj]
    split
    · rw [Hidden.eq_withLast (hQ.last _ _ hq)]
      exact ⟨_, rfl, hQ.ended _ _ ⟨s.prevPc, .none, false, s.currentPc⟩ hq⟩
    · exact ⟨h', rfl, hq⟩

theorem takeIntr_oblivious (hQ : Masks P Q) (no : Word) : Oblivious (AtPc Q) (takeIntr P no) := by
  refine .at_pc (fun _ _ => rfl) fun a => .bind raiseIntr_oblivious fun pc => Alike.update ?_
  rintro s _ ⟨h', rfl, hq, -⟩
  exact ⟨h'.withPc pc, rfl, hQ.pc _ _ pc hq, rfl⟩

end Steps

end Nemu
