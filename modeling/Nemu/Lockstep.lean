import Nemu.Regcpy

namespace Nemu

set_option autoImplicit true

/-- The registers that are copied between the reference and the emulator. -/
abbrev RegBuffer (P : Platform) := Fin (Slot.reached P).length → Word

/-- The word of a field that a copy of registers reaches. -/
def RegBuffer.word {P : Platform} (b : RegBuffer P) (k : Slot) : Word := Fields.load (Slot.reached P) b (fun _ => 0) k

/-- `isa_difftest_checkregs`: all words but the first, which is x0. -/
def isaDifftestCheckregs {P : Platform} (cpu refR : RegBuffer P) : Bool := decide (∀ i, 0 < i.val → refR i = cpu i)

/-- The functions that `init_difftest` finds in the library of the reference. -/
structure RefLib (P : Platform) (σ : Type) where
  memcpyToRef : Word → (Nat → BitVec 8) → Nat → σ → σ
  regcpyToRef : RegBuffer P → σ → σ
  regcpyToDut : σ → RegBuffer P × σ
  exec : Nat → σ → σ
  raiseIntr : Word → σ → σ

/-- The static variables of the test, and the reference. -/
structure Difftest (σ : Type) where
  isSkipRef : Bool
  skipDutNrInstr : Int
  patchFn : Option (σ → σ)
  isDetach : Bool
  ref : σ

/-- How the emulator stops: `NEMU_ABORT` with `halt_pc`, or "can not catch up with ref.pc = .. at pc = ..". -/
inductive Alarm where
  | abort (haltPc : Word)
  | canNotCatchUp (refPc pc : Word)

variable {P : Platform} {σ : Type} {L : RefLib P σ} {d : Difftest σ} {s t : σ}

namespace Difftest

def skipRef (d : Difftest σ) : Difftest σ := if d.isDetach then d else { d with isSkipRef := true, skipDutNrInstr := 0 }

def skipDut (L : RefLib P σ) (nrRef nrDut : Int) (d : Difftest σ) : Difftest σ :=
  if d.isDetach then d
  else { d with skipDutNrInstr := d.skipDutNrInstr + nrDut, ref := (L.exec 1)^[nrRef.toNat] d.ref }

def setPatch (fn : σ → σ) (d : Difftest σ) : Difftest σ := { d with patchFn := some fn }

def checkregs (cpu refR : RegBuffer P) (pc : Word) (d : Difftest σ) : Except Alarm (Difftest σ) :=
  if isaDifftestCheckregs cpu refR then .ok d else .error (.abort pc)

/-- `difftest_step`, after an instruction at `pc` that left the emulator with the registers `cpu`. -/
def step (L : RefLib P σ) (cpu : RegBuffer P) (pc npc : Word) (d : Difftest σ) : Except Alarm (Difftest σ) :=
  if d.isDetach then .ok d
  else if 0 < d.skipDutNrInstr then
    let (refR, s) := L.regcpyToDut d.ref
    let d := { d with ref := s }
    if refR.word .pc = npc then checkregs cpu refR npc { d with skipDutNrInstr := 0 }
    else
      let d := { d with skipDutNrInstr := d.skipDutNrInstr - 1 }
      if d.skipDutNrInstr = 0 then .error (.canNotCatchUp (refR.word .pc) pc) else .ok d
  else if d.isSkipRef then .ok { d with ref := L.regcpyToRef cpu d.ref, isSkipRef := false }
  else
    let s := L.exec 1 d.ref
    let s := match d.patchFn with
      | some fn => fn s
      | none => s
    let (refR, s) := L.regcpyToDut s
    checkregs cpu refR pc { d with patchFn := none, ref := s }

def detach (d : Difftest σ) : Difftest σ := { d with isDetach := true }

def isaAttach (L : RefLib P σ) (cpu : RegBuffer P) (pmem : Word → BitVec 8) (s : σ) : σ :=
  L.regcpyToRef cpu (L.memcpyToRef P.mbase (fun i => pmem (P.mbase + BitVec.ofNat 64 i)) P.msize.toNat s)

def attach (L : RefLib P σ) (cpu : RegBuffer P) (pmem : Word → BitVec 8) (d : Difftest σ) : Difftest σ :=
  { d with isDetach := false, isSkipRef := false, skipDutNrInstr := 0, ref := isaAttach L cpu pmem d.ref }

end Difftest

/-- What the emulator calls. -/
inductive DiffCall (P : Platform) (σ : Type) where
  | skipRef
  | skipDut (nrRef nrDut : Int)
  | setPatch (fn : σ → σ)
  | step (cpu : RegBuffer P) (pc npc : Word)
  | detach
  | attach (cpu : RegBuffer P) (pmem : Word → BitVec 8)
  | raiseIntr (no : Word)

namespace DiffCall

def run (L : RefLib P σ) (d : Difftest σ) : DiffCall P σ → Except Alarm (Difftest σ)
  | skipRef => .ok d.skipRef
  | skipDut nrRef nrDut => .ok (d.skipDut L nrRef nrDut)
  | setPatch fn => .ok (d.setPatch fn)
  | step cpu pc npc => d.step L cpu pc npc
  | detach => .ok d.detach
  | attach cpu pmem => .ok (d.attach L cpu pmem)
  | raiseIntr no => .ok { d with ref := L.raiseIntr no d.ref }

def runAll (L : RefLib P σ) (cs : List (DiffCall P σ)) (d : Difftest σ) : Except Alarm (Difftest σ) :=
  cs.foldlM (fun d c => c.run L d) d

theorem runAll_append (cs cs' : List (DiffCall P σ)) (d : Difftest σ) :
    runAll L (cs ++ cs') d = runAll L cs d >>= runAll L cs' := List.foldlM_append

theorem runAll_cons {c : DiffCall P σ} {cs : List (DiffCall P σ)} (h : c.run L d = .ok d') :
    runAll L (c :: cs) d = runAll L cs d' := by
  unfold runAll
  rw [List.foldlM_cons, h]
  rfl

end DiffCall

/-- A relation between references that the functions of the library keep, and that a copy of registers out does not
leave. -/
structure RefLib.Transparent (L : RefLib P σ) (same : σ → σ → Prop) : Prop where
  refl : ∀ s, same s s
  memcpy : ∀ {s t}, same s t → same (L.memcpyToRef a b n s) (L.memcpyToRef a b n t)
  toRef : ∀ {s t}, same s t → same (L.regcpyToRef cpu s) (L.regcpyToRef cpu t)
  view : ∀ {s t}, same s t → (L.regcpyToDut s).1 = (L.regcpyToDut t).1
  toDut : ∀ {s t}, same s t → same (L.regcpyToDut s).2 t
  exec : ∀ {s t}, same s t → same (L.exec n s) (L.exec n t)
  raiseIntr : ∀ {s t}, same s t → same (L.raiseIntr no s) (L.raiseIntr no t)

/-- The words that are compared are equal. -/
def Agree (cpu refR : RegBuffer P) : Prop := ∀ k ∈ Slot.reached P, k ≠ .gpr 0 → refR.word k = cpu.word k

section Check

theorem ite_nil_sublist (b : Bool) (l : List α) : (if b then l else []).Sublist l := by
  cases b
  · exact List.nil_sublist l
  · exact List.Sublist.refl l

theorem mem_of_mem_ite_nil {b : Bool} {l : List α} {k : α} (h : k ∈ if b then l else []) : k ∈ l :=
  (ite_nil_sublist b l).subset h

/-- The fields after the second mark. -/
def Slot.late : Slot → Bool
  | vr _ _ => true
  | shadow c => (c matches .utimer | .vstart | .vxsat | .vxrm | .vcsr | .vl | .vtype | .vlenb)
  | _ => false

theorem synced_early : ∀ k ∈ Slot.synced P, k.late = false := by
  have hfull : ∀ k ∈ Slot.base ++ (Slot.rvnCsrs.map Slot.shadow ++ Slot.dasicsCsrs.map Slot.shadow), k.late = false := by
    decide +kernel
  intro k hk
  apply hfull
  unfold Slot.synced at hk
  simp only [List.mem_append] at hk ⊢
  obtain hk | hk | hk := hk
  · exact .inl hk
  · exact .inr (.inl (mem_of_mem_ite_nil hk))
  · exact .inr (.inr (mem_of_mem_ite_nil hk))

theorem unsynced_late : ∀ k ∈ Slot.unsynced P, k.late = true := by
  have hfull : ∀ k ∈ [Slot.shadow .utimer] ++ (Slot.vectorRegs ++ Slot.vectorCsrs.map Slot.shadow), k.late = true := by
    decide +kernel
  intro k hk
  apply hfull
  unfold Slot.unsynced at hk
  rw [List.mem_append] at hk ⊢
  exact hk.imp mem_of_mem_ite_nil mem_of_mem_ite_nil

theorem unsynced_nodup (P : Platform) : (Slot.unsynced P).Nodup := by
  have hfull : ([Slot.shadow .utimer] ++ (Slot.vectorRegs ++ Slot.vectorCsrs.map Slot.shadow)).Nodup := by
    apply List.Nodup.of_map Slot.number
    decide +kernel
  exact hfull.sublist ((ite_nil_sublist _ _).append (ite_nil_sublist _ _))

theorem layout_nodup (P : Platform) : (Slot.layout P).Nodup := by
  rw [Slot.layout_eq]
  refine (Slot.synced_nodup P).append (unsynced_nodup P) fun k hk hk' => ?_
  have hearly := synced_early k hk
  rw [unsynced_late k hk'] at hearly
  cases hearly

theorem reached_nodup (P : Platform) : (Slot.reached P).Nodup := (layout_nodup P).sublist (List.take_sublist _ _)

theorem reached_split (P : Platform) : ∃ l, Slot.reached P = .gpr 0 :: l ∧ Slot.pc ∈ l := by
  have hsize : Slot.base.length ≤ Slot.regSize P := by
    change 83 ≤ Slot.regSize P
    unfold Slot.regSize
    omega
  unfold Slot.reached Slot.layout
  rw [List.take_append, List.take_of_length_le hsize]
  exact ⟨Slot.base.tail ++ _, rfl, List.mem_append_left _ (by decide)⟩

theorem checkregs_iff (cpu refR : RegBuffer P) : isaDifftestCheckregs cpu refR = true ↔ Agree cpu refR := by
  obtain ⟨l, hl, _⟩ := reached_split P
  have hnodup := reached_nodup P
  unfold isaDifftestCheckregs
  rw [decide_eq_true_iff]
  constructor
  · intro h k hk hne
    have hpos : 0 < (Slot.reached P).idxOf k := by
      rw [hl, List.idxOf_cons_ne _ hne.symm]
      exact Nat.succ_pos _
    unfold RegBuffer.word
    rw [Fields.load_mem hk, Fields.load_mem hk]
    exact h _ hpos
  · intro h i hi
    have hword : ∀ b : RegBuffer P, b.word ((Slot.reached P).get i) = b i := fun b => Fields.load_get hnodup b i
    have hne : (Slot.reached P).get i ≠ .gpr 0 := by
      intro h0
      have hidx : (Slot.reached P).idxOf (.gpr 0) = i.val := by
        rw [← h0]
        exact hnodup.idxOf_getElem i.val i.isLt
      have hzero : (Slot.reached P).idxOf (.gpr 0) = 0 := by
        rw [hl]
        exact List.idxOf_cons_self
      omega
    rw [← hword refR, ← hword cpu]
    exact h _ (List.get_mem _ _) hne

theorem Agree.pc {cpu refR : RegBuffer P} (h : Agree cpu refR) : refR.word .pc = cpu.word .pc := by
  obtain ⟨l, hl, hpc⟩ := reached_split P
  refine h _ ?_ (by decide)
  rw [hl]
  exact List.mem_cons_of_mem _ hpc

end Check

/-- An instruction of the emulator, and the registers that it leaves. -/
structure Retired (P : Platform) where
  pc : Word
  cpu : RegBuffer P

namespace Retired

def npc (i : Retired P) : Word := i.cpu.word .pc

def call (i : Retired P) : DiffCall P σ := .step i.cpu i.pc i.npc

end Retired

/-- The calls that do nothing to a detached reference. -/
def DiffCall.Quiet : DiffCall P σ → Prop
  | skipRef | skipDut _ _ | step _ _ _ | detach => True
  | _ => False

/-- The parts of a run between which the reference follows the emulator: an instruction, also with a patch, or one
that the reference skips; instructions that the reference packs into one, or an exception that it takes within one;
an interrupt; and a time without the reference. -/
inductive Round (P : Platform) (σ : Type) where
  | plain (i : Retired P)
  | patched (fn : σ → σ) (i : Retired P)
  | skipped (n : Nat) (i : Retired P)
  | packed (nrRef nrDut : Int) (waiting : List (Retired P)) (i : Retired P)
  | interrupt (no : Word)
  | apart (cs : List (DiffCall P σ)) (cpu : RegBuffer P) (pmem : Word → BitVec 8)

namespace Round

def calls : Round P σ → List (DiffCall P σ)
  | plain i => [i.call]
  | patched fn i => [.setPatch fn, i.call]
  | skipped n i => List.replicate (n + 1) .skipRef ++ [i.call]
  | packed nrRef nrDut waiting i => .skipDut nrRef nrDut :: (waiting.map Retired.call ++ [i.call])
  | interrupt no => [.raiseIntr no]
  | apart cs cpu pmem => .detach :: (cs ++ [.attach cpu pmem])

/-- What the reference does, without copies of registers out of it. -/
def reference (L : RefLib P σ) : Round P σ → σ → σ
  | plain _, s => L.exec 1 s
  | patched fn _, s => fn (L.exec 1 s)
  | skipped _ i, s => L.regcpyToRef i.cpu s
  | packed nrRef _ _ _, s => (L.exec 1)^[nrRef.toNat] s
  | interrupt no, s => L.raiseIntr no s
  | apart _ cpu pmem, s => Difftest.isaAttach L cpu pmem s

/-- The registers that the reference has after it. -/
def expected (L : RefLib P σ) (r : Round P σ) (s : σ) : RegBuffer P := (L.regcpyToDut (r.reference L s)).1

/-- The instruction after which registers are compared. -/
def checked : Round P σ → Option (Retired P)
  | plain i | patched _ i | packed _ _ _ i => some i
  | _ => none

def Passes (L : RefLib P σ) (r : Round P σ) (s : σ) : Prop := ∀ i, r.checked = some i → Agree i.cpu (r.expected L s)

/-- A patch is a function of the reference; instructions are packed up to the one that reaches its pc, and to
`nr_dut` at most; only quiet calls take place apart. -/
def Formed (L : RefLib P σ) (same : σ → σ → Prop) (s : σ) : Round P σ → Prop
  | patched fn _ => ∀ s t, same s t → same (fn s) (fn t)
  | r@(packed _ nrDut waiting i) => (∀ w ∈ waiting, (r.expected L s).word .pc ≠ w.npc) ∧
    ((r.expected L s).word .pc = i.npc ∧ (waiting.length : Int) < nrDut ∨ (waiting.length : Int) + 1 = nrDut)
  | apart cs _ _ => ∀ c ∈ cs, c.Quiet
  | _ => True

/-- The alarm of a round that does not pass. -/
def alarm (L : RefLib P σ) (s : σ) : Round P σ → Option Alarm
  | plain i | patched _ i => some (.abort i.pc)
  | r@(packed _ _ _ i) =>
    if (r.expected L s).word .pc = i.npc then some (.abort i.npc)
    else some (.canNotCatchUp ((r.expected L s).word .pc) i.pc)
  | _ => none

end Round

/-- Between rounds: attached, nothing to skip, and the same reference as `s`. -/
structure Following (same : σ → σ → Prop) (d : Difftest σ) (s : σ) : Prop where
  attached : d.isDetach = false
  skipRef : d.isSkipRef = false
  skipDut : d.skipDutNrInstr = 0
  patch : d.patchFn = none
  ref : same d.ref s

variable {same : σ → σ → Prop} {i : Retired P} {r : Round P σ}

section Rounds

theorem iterate_same {f : σ → σ} (hf : ∀ s t, same s t → same (f s) (f t)) (n : Nat) (h : same s t) :
    same (f^[n] s) (f^[n] t) := by
  induction n generalizing s t with
  | zero => exact h
  | succ n ih => exact ih (hf _ _ h)

theorem checkregs_pass (h : Agree cpu refR) (pc : Word) (d : Difftest σ) : Difftest.checkregs cpu refR pc d = .ok d :=
  if_pos ((checkregs_iff cpu refR).mpr h)

theorem checkregs_fail (h : ¬ Agree cpu refR) (pc : Word) (d : Difftest σ) :
    Difftest.checkregs cpu refR pc d = .error (.abort pc) :=
  if_neg fun hc => h ((checkregs_iff cpu refR).mp hc)

/-- A comparison that follows the reference when it passes. -/
theorem checkregs_follows (hL : L.Transparent same) (ha : d.isDetach = false) (hs : d.isSkipRef = false)
    (hk : d.skipDutNrInstr = 0) (hp : d.patchFn = none) (hu : same u t) (hd : d.ref = (L.regcpyToDut u).2)
    (h : Agree cpu (L.regcpyToDut t).1) :
    ∃ d', Difftest.checkregs cpu (L.regcpyToDut u).1 pc d = .ok d' ∧ Following same d' t := by
  rw [hL.view hu]
  exact ⟨d, checkregs_pass h pc d, ha, hs, hk, hp, hd ▸ hL.toDut hu⟩

/-- What a patch does, or nothing. -/
def patchedBy (fn : Option (σ → σ)) (s : σ) : σ :=
  match fn with
  | some fn => fn s
  | none => s

theorem step_check (ha : d.isDetach = false) (hs : d.isSkipRef = false) (hk : d.skipDutNrInstr = 0) :
    d.step L cpu pc npc =
      Difftest.checkregs cpu (L.regcpyToDut (patchedBy d.patchFn (L.exec 1 d.ref))).1 pc
        { d with patchFn := none, ref := (L.regcpyToDut (patchedBy d.patchFn (L.exec 1 d.ref))).2 } := by
  unfold Difftest.step
  rw [ha, hs, hk]
  rfl

theorem step_skipping (ha : d.isDetach = false) (hk : 0 < d.skipDutNrInstr) :
    d.step L cpu pc npc =
      if (L.regcpyToDut d.ref).1.word .pc = npc then
        Difftest.checkregs cpu (L.regcpyToDut d.ref).1 npc
          { d with ref := (L.regcpyToDut d.ref).2, skipDutNrInstr := 0 }
      else if d.skipDutNrInstr - 1 = 0 then .error (.canNotCatchUp ((L.regcpyToDut d.ref).1.word .pc) pc)
      else .ok { d with ref := (L.regcpyToDut d.ref).2, skipDutNrInstr := d.skipDutNrInstr - 1 } := by
  unfold Difftest.step
  rw [ha, if_neg Bool.false_ne_true, if_pos hk]

theorem run_singleton (c : DiffCall P σ) (d : Difftest σ) : DiffCall.runAll L [c] d = c.run L d := by
  change (c.run L d >>= pure) = c.run L d
  exact bind_pure _

theorem run_check (hL : L.Transparent same) (ha : d.isDetach = false) (hs : d.isSkipRef = false)
    (hk : d.skipDutNrInstr = 0) (hu : same (patchedBy d.patchFn (L.exec 1 d.ref)) t) :
    (Agree i.cpu (L.regcpyToDut t).1 →
      ∃ d', DiffCall.runAll L [i.call] d = .ok d' ∧ Following same d' t) ∧
    (¬ Agree i.cpu (L.regcpyToDut t).1 → DiffCall.runAll L [i.call] d = .error (.abort i.pc)) := by
  rw [run_singleton, show i.call.run L d = _ from step_check ha hs hk]
  constructor
  · exact checkregs_follows hL ha hs hk rfl hu rfl
  · intro h
    rw [hL.view hu]
    exact checkregs_fail h _ _

theorem run_skipRefs (n : Nat) (ha : d.isDetach = false) :
    DiffCall.runAll L (List.replicate (n + 1) .skipRef) d = .ok { d with isSkipRef := true, skipDutNrInstr := 0 } := by
  have hagain : ∀ d : Difftest σ, d.isDetach = false →
      d.skipRef = { d with isSkipRef := true, skipDutNrInstr := 0 } := by
    intro d ha
    unfold Difftest.skipRef
    rw [ha]
    rfl
  have hskip := hagain d ha
  have hcall : DiffCall.run L d .skipRef = .ok { d with isSkipRef := true, skipDutNrInstr := 0 } :=
    congrArg Except.ok hskip
  induction n generalizing d with
  | zero => exact (run_singleton _ _).trans hcall
  | succ n ih =>
    rw [List.replicate_succ, DiffCall.runAll_cons hcall]
    exact ih (d := { d with isSkipRef := true, skipDutNrInstr := 0 }) ha (hagain _ ha) (congrArg Except.ok (hagain _ ha))

theorem run_waiting (hL : L.Transparent same) (ws : List (Retired P)) (ha : d.isDetach = false)
    (hs : d.isSkipRef = false) (hp : d.patchFn = none) (hk : (ws.length : Int) < d.skipDutNrInstr) (hd : same d.ref t)
    (hw : ∀ w ∈ ws, (L.regcpyToDut t).1.word .pc ≠ w.npc) :
    ∃ d', DiffCall.runAll L (ws.map Retired.call) d = .ok d' ∧ d'.isDetach = false ∧ d'.isSkipRef = false ∧
      d'.patchFn = none ∧ d'.skipDutNrInstr = d.skipDutNrInstr - ws.length ∧ same d'.ref t := by
  induction ws generalizing d with
  | nil => exact ⟨d, rfl, ha, hs, hp, by simp, hd⟩
  | cons w ws ih =>
    rw [List.length_cons] at hk
    have hstep : w.call.run L d =
        .ok { d with ref := (L.regcpyToDut d.ref).2, skipDutNrInstr := d.skipDutNrInstr - 1 } := by
      refine (step_skipping ha (by omega)).trans ?_
      rw [hL.view hd, if_neg (hw w List.mem_cons_self), if_neg (by omega)]
    obtain ⟨d', hrun, ha', hs', hp', hk', hd'⟩ :=
      ih (d := { d with ref := (L.regcpyToDut d.ref).2, skipDutNrInstr := d.skipDutNrInstr - 1 }) ha hs hp
        (by change (ws.length : Int) < d.skipDutNrInstr - 1; omega) (hL.toDut hd)
        fun w hw' => hw w (List.mem_cons_of_mem _ hw')
    refine ⟨d', ?_, ha', hs', hp', ?_, hd'⟩
    · rw [List.map_cons, DiffCall.runAll_cons hstep, hrun]
    · rw [hk', List.length_cons]
      change d.skipDutNrInstr - 1 - _ = _
      push_cast
      omega

theorem run_quiet (cs : List (DiffCall P σ)) (hc : ∀ c ∈ cs, c.Quiet) (ha : d.isDetach = true) :
    DiffCall.runAll L cs d = .ok d := by
  induction cs with
  | nil => rfl
  | cons c cs ih =>
    have hcall : c.run L d = .ok d := by
      have hq := hc c List.mem_cons_self
      cases c with
      | skipRef => exact congrArg Except.ok (if_pos ha)
      | skipDut => exact congrArg Except.ok (if_pos ha)
      | step => exact if_pos ha
      | detach =>
        change Except.ok { d with isDetach := true } = _
        rw [← ha]
      | setPatch | attach | raiseIntr => exact hq.elim
    rw [DiffCall.runAll_cons hcall]
    exact ih fun c h => hc c (List.mem_cons_of_mem _ h)

/-- One round: it ends with the reference where it would be alone, or with its alarm. -/
theorem Round.run (hL : L.Transparent same) (h : Following same d s) (hr : r.Formed L same s) :
    (r.Passes L s → ∃ d', DiffCall.runAll L r.calls d = .ok d' ∧ Following same d' (r.reference L s)) ∧
      (¬ r.Passes L s → ∃ a, r.alarm L s = some a ∧ DiffCall.runAll L r.calls d = .error a) := by
  have hchecked : ∀ {i}, r.checked = some i → (r.Passes L s ↔ Agree i.cpu (r.expected L s)) := by
    intro i hi
    refine ⟨fun hp => hp i hi, fun ha j hj => ?_⟩
    cases hi.symm.trans hj
    exact ha
  cases r with
  | plain i =>
    have hu : same (patchedBy d.patchFn (L.exec 1 d.ref)) (L.exec 1 s) := by
      rw [h.patch]
      exact hL.exec h.ref
    rw [hchecked rfl]
    have hrun := run_check (i := i) hL h.attached h.skipRef h.skipDut hu
    exact ⟨hrun.1, fun hn => ⟨_, rfl, hrun.2 hn⟩⟩
  | patched fn i =>
    have hu : same (fn (L.exec 1 d.ref)) (fn (L.exec 1 s)) := hr _ _ (hL.exec h.ref)
    rw [hchecked rfl]
    have hset : DiffCall.run L d (.setPatch fn) = .ok (d.setPatch fn) := rfl
    have hrun := run_check (d := d.setPatch fn) (i := i) hL h.attached h.skipRef h.skipDut hu
    change (_ → ∃ d', DiffCall.runAll L (_ :: _) d = _ ∧ _) ∧ (_ → ∃ a, _ ∧ DiffCall.runAll L (_ :: _) d = _)
    rw [DiffCall.runAll_cons hset]
    exact ⟨hrun.1, fun hn => ⟨_, rfl, hrun.2 hn⟩⟩
  | skipped n i =>
    refine ⟨fun _ => ?_, fun hn => absurd (fun j hj => by cases hj) hn⟩
    change ∃ d', DiffCall.runAll L (_ ++ _) d = _ ∧ _
    rw [DiffCall.runAll_append, run_skipRefs n h.attached]
    refine ⟨{ d with isSkipRef := false, skipDutNrInstr := 0, ref := L.regcpyToRef i.cpu d.ref }, ?_,
      h.attached, rfl, rfl, h.patch, hL.toRef h.ref⟩
    refine (run_singleton _ _).trans ?_
    change Difftest.step _ _ _ _ _ = _
    unfold Difftest.step
    rw [if_neg (by rw [h.attached]; decide)]
    rfl
  | packed nrRef nrDut ws i =>
    obtain ⟨hwait, hend⟩ := hr
    have hpack : DiffCall.run L d (.skipDut nrRef nrDut) =
        .ok { d with skipDutNrInstr := 0 + nrDut, ref := (L.exec 1)^[nrRef.toNat] d.ref } := by
      refine congrArg Except.ok ?_
      unfold Difftest.skipDut
      rw [h.attached, h.skipDut]
      rfl
    have hsame : same ((L.exec 1)^[nrRef.toNat] d.ref) ((L.exec 1)^[nrRef.toNat] s) :=
      iterate_same (fun _ _ hst => hL.exec hst) _ h.ref
    obtain ⟨d', hrun, ha, hs, hp, hk, hd⟩ := run_waiting hL ws
      (d := { d with skipDutNrInstr := 0 + nrDut, ref := (L.exec 1)^[nrRef.toNat] d.ref }) h.attached h.skipRef h.patch
      (by change (ws.length : Int) < 0 + nrDut; omega) hsame hwait
    replace hk : d'.skipDutNrInstr = nrDut - ws.length :=
      hk.trans (show 0 + nrDut - (ws.length : Int) = _ by omega)
    have hview := hL.view hd
    have hlast : DiffCall.runAll L (Round.packed nrRef nrDut ws i).calls d = i.call.run L d' := by
      change DiffCall.runAll L (_ :: (_ ++ _)) d = _
      rw [DiffCall.runAll_cons hpack, DiffCall.runAll_append, hrun]
      exact run_singleton _ _
    have hstep : i.call.run L d' = _ := step_skipping ha (by omega)
    rw [hlast, hstep, hchecked rfl, hview]
    change (Agree i.cpu (L.regcpyToDut ((L.exec 1)^[nrRef.toNat] s)).1 → _) ∧ _
    by_cases hmeet : (L.regcpyToDut ((L.exec 1)^[nrRef.toNat] s)).1.word .pc = i.npc
    · rw [if_pos hmeet]
      refine ⟨fun hagree => ?_, fun hn => ⟨_, if_pos hmeet, checkregs_fail hn _ _⟩⟩
      exact ⟨_, checkregs_pass hagree _ _, ha, hs, rfl, hp, hL.toDut hd⟩
    · have hcount : d'.skipDutNrInstr - 1 = 0 := by
        rcases hend with hend | hend
        · exact absurd hend.1 hmeet
        · omega
      rw [if_neg hmeet, if_pos hcount]
      exact ⟨fun hagree => absurd hagree.pc hmeet, fun _ => ⟨_, if_neg hmeet, rfl⟩⟩
  | interrupt no =>
    refine ⟨fun _ => ?_, fun hn => absurd (fun j hj => by cases hj) hn⟩
    exact ⟨_, run_singleton _ _, h.attached, h.skipRef, h.skipDut, h.patch, hL.raiseIntr h.ref⟩
  | apart cs cpu pmem =>
    refine ⟨fun _ => ?_, fun hn => absurd (fun j hj => by cases hj) hn⟩
    have hdetach : DiffCall.run L d .detach = .ok d.detach := rfl
    change ∃ d', DiffCall.runAll L (_ :: (_ ++ _)) d = _ ∧ _
    rw [DiffCall.runAll_cons hdetach, DiffCall.runAll_append, run_quiet cs hr rfl]
    change ∃ d', DiffCall.runAll L [.attach cpu pmem] d.detach = _ ∧ _
    exact ⟨d.detach.attach L cpu pmem, run_singleton _ _, rfl, rfl, rfl, h.patch, hL.toRef (hL.memcpy h.ref)⟩

end Rounds

section Run

/-- The reference after rounds, alone. -/
def referenceAfter (L : RefLib P σ) (rs : List (Round P σ)) (s : σ) : σ := rs.foldl (fun s r => r.reference L s) s

/-- Each round has `Q` where the reference stands before it. -/
def EachRound (L : RefLib P σ) (Q : Round P σ → σ → Prop) : List (Round P σ) → σ → Prop
  | [], _ => True
  | r :: rs, s => Q r s ∧ EachRound L Q rs (r.reference L s)

theorem EachRound.append {Q : Round P σ → σ → Prop} {rs rs' : List (Round P σ)} (h : EachRound L Q (rs ++ rs') s) :
    EachRound L Q rs s ∧ EachRound L Q rs' (referenceAfter L rs s) := by
  induction rs generalizing s with
  | nil => exact ⟨trivial, h⟩
  | cons r rs ih => exact ⟨⟨h.1, (ih h.2).1⟩, (ih h.2).2⟩

theorem run_rounds (hL : L.Transparent same) (rs : List (Round P σ)) (h : Following same d s)
    (hf : EachRound L (fun r s => r.Formed L same s) rs s) (hp : EachRound L (fun r s => r.Passes L s) rs s) :
    ∃ d', DiffCall.runAll L (rs.flatMap Round.calls) d = .ok d' ∧ Following same d' (referenceAfter L rs s) := by
  induction rs generalizing d s with
  | nil => exact ⟨d, rfl, h⟩
  | cons r rs ih =>
    obtain ⟨d1, hrun, h1⟩ := (Round.run hL h hf.1).1 hp.1
    obtain ⟨d2, hruns, h2⟩ := ih h1 hf.2 hp.2
    refine ⟨d2, ?_, h2⟩
    rw [List.flatMap_cons, DiffCall.runAll_append, hrun]
    exact hruns

def initDifftest (L : RefLib P σ) (cpu : RegBuffer P) (image : Nat → BitVec 8) (imgSize : Nat) (s : σ) :
    Difftest σ where
  isSkipRef := false
  skipDutNrInstr := 0
  patchFn := none
  isDetach := false
  ref := L.regcpyToRef cpu (L.memcpyToRef P.resetVector image imgSize s)

theorem initDifftest_following (hL : L.Transparent same) :
    Following same (initDifftest L cpu image n s) (initDifftest L cpu image n s).ref :=
  ⟨rfl, rfl, rfl, rfl, hL.refl _⟩

/-- A test goes through exactly when after each checked round the emulator agrees with a reference that runs alone,
and else it stops at the first round after which it does not, with the alarm of this round. -/
theorem difftest_first_alarm (hL : L.Transparent same) (rs : List (Round P σ)) (h : Following same d s)
    (hf : EachRound L (fun r s => r.Formed L same s) rs s) :
    (EachRound L (fun r s => r.Passes L s) rs s →
      ∃ d', DiffCall.runAll L (rs.flatMap Round.calls) d = .ok d' ∧ Following same d' (referenceAfter L rs s)) ∧
    ∀ l r l', rs = l ++ r :: l' → EachRound L (fun r s => r.Passes L s) l s → ¬ r.Passes L (referenceAfter L l s) →
      ∃ a, r.alarm L (referenceAfter L l s) = some a ∧ DiffCall.runAll L (rs.flatMap Round.calls) d = .error a := by
  refine ⟨run_rounds hL rs h hf, ?_⟩
  rintro l r l' rfl hl hr
  obtain ⟨hfl, hfr, _⟩ := hf.append
  obtain ⟨d1, hrun, h1⟩ := run_rounds hL l h hfl hl
  obtain ⟨a, ha, hstop⟩ := (Round.run hL h1 hfr).2 hr
  refine ⟨a, ha, ?_⟩
  rw [List.flatMap_append, List.flatMap_cons, DiffCall.runAll_append, hrun]
  change DiffCall.runAll L (_ ++ _) d1 = _
  rw [DiffCall.runAll_append, hstop]
  rfl

end Run

section Example

/-- Registers that are zero, apart from x5 and the pc. -/
def sparse (P : Platform) (x5 pc : Word) : RegBuffer P :=
  Fields.store (Slot.reached P) fun k => if k = .gpr 5 then x5 else if k = .pc then pc else 0

/-- A reference that runs through memory full of `nop`. -/
def nops (P : Platform) : RefLib P (RegBuffer P) where
  memcpyToRef _ _ _ s := s
  regcpyToRef cpu _ := cpu
  regcpyToDut s := (s, s)
  exec n s := Fields.store (Slot.reached P) fun k => if k = .pc then s.word .pc + 4 * BitVec.ofNat 64 n else s.word k
  raiseIntr _ s := s

theorem nops_transparent (P : Platform) : (nops P).Transparent Eq where
  refl _ := rfl
  memcpy h := h
  toRef _ := rfl
  view h := h
  toDut h := h
  exec := by
    rintro n s t rfl
    rfl
  raiseIntr h := h

theorem sparse_word (hk : k ∈ Slot.reached P) :
    (sparse P x5 pc).word k = if k = .gpr 5 then x5 else if k = .pc then pc else 0 := Fields.load_store hk

theorem nops_exec (x5 pc : Word) : (nops P).exec 1 (sparse P x5 pc) = sparse P x5 (pc + 4) := by
  funext i
  have hk : (Slot.reached P).get i ∈ Slot.reached P := List.get_mem _ _
  have hpc : Slot.pc ∈ Slot.reached P := by
    obtain ⟨l, hl, hpc⟩ := reached_split P
    rw [hl]
    exact List.mem_cons_of_mem _ hpc
  change (if _ = Slot.pc then (sparse P x5 pc).word .pc + 4 * 1 else (sparse P x5 pc).word _) = if _ then _ else _
  rw [sparse_word hk, sparse_word hpc]
  by_cases h : (Slot.reached P).get i = .pc
  · rw [if_pos h, h]
    rfl
  · rw [if_neg h]
    simp only [if_neg h]

/-- The emulator sets x5 where there is a second `nop`. -/
theorem difftest_first_alarm_nops :
    DiffCall.runAll (nops (.bare .standalone))
      ([.plain ⟨0x80100000, sparse _ 0 0x80100004⟩, .plain ⟨0x80100004, sparse _ 7 0x80100008⟩].flatMap Round.calls)
      (initDifftest (nops _) (sparse _ 0 0x80100000) (fun _ => 0x13) 8 (sparse _ 0 0)) =
        .error (.abort 0x80100004) := by
  have hlaw := nops_transparent (.bare .standalone)
  have h5 : Slot.gpr 5 ∈ Slot.reached (.bare .standalone) := by decide
  have hpass : (Round.plain ⟨0x80100000, sparse _ 0 0x80100004⟩).Passes (nops (.bare .standalone))
      (sparse _ 0 0x80100000) := by
    intro i hi
    cases hi
    change Agree _ ((nops _).exec 1 _)
    rw [nops_exec]
    exact fun k _ _ => rfl
  have hfail : ¬ (Round.plain ⟨0x80100004, sparse _ 7 0x80100008⟩).Passes (nops (.bare .standalone))
      ((nops _).exec 1 (sparse _ 0 0x80100000)) := by
    intro hp
    have hx : Agree (sparse _ 7 0x80100008) ((nops (.bare .standalone)).exec 1 ((nops _).exec 1 _)) := hp _ rfl
    rw [nops_exec, nops_exec] at hx
    have hword := hx (.gpr 5) h5 (by decide)
    rw [sparse_word h5, sparse_word h5] at hword
    exact absurd hword (by decide)
  obtain ⟨a, ha, hrun⟩ := (difftest_first_alarm hlaw
    [.plain ⟨0x80100000, sparse _ 0 0x80100004⟩, .plain ⟨0x80100004, sparse _ 7 0x80100008⟩]
    (initDifftest_following hlaw) ⟨trivial, trivial, trivial⟩).2 [.plain ⟨0x80100000, sparse _ 0 0x80100004⟩]
      (.plain ⟨0x80100004, sparse _ 7 0x80100008⟩) [] rfl ⟨hpass, trivial⟩ hfail
  cases ha
  exact hrun

end Example

end Nemu
