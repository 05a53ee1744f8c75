import Nemu.Reset
import Nemu.Translation

namespace Nemu

open Effect

set_option autoImplicit true

section Check

variable {P : Platform} {s t : Machine} {va : Word} {type : MemType} {len : Nat}

/-- `isa_mmu_check` finds nothing wrong with the alignment of an access. -/
def Untorn (P : Platform) (va : Word) (len : Nat) (type : MemType) : Prop :=
  type = .ifetch ∨ ¬ (P.acSoft = true ∧ va &&& (BitVec.ofNat 64 len - 1) ≠ 0)

theorem passes_msbs (hc : Canonical va) (q : Prop) :
    ¬ ¬ (va >>> 38 = ((1 : Word) <<< 26) - 1 ∨ va >>> 38 = 0 ∨ q) := by
  intro h
  apply h
  obtain hm | hm := hc.msbs
  · exact .inl hm
  · exact .inr (.inl hm)

theorem mmuCheck_run (hc : Canonical va) (hu : Untorn P va len type) :
    isaMmuCheck P va len type s = .ok (s.mmuCache (type = .ifetch)) s := by
  unfold isaMmuCheck
  rw [get_bind, if_neg (passes_msbs hc _)]
  by_cases hf : type = .ifetch
  · rw [if_pos hf]
    simp only [hf, Machine.mmuCache, decide_true, ↓reduceIte]
    rfl
  · rw [if_neg hf, if_neg (hu.resolve_left hf)]
    simp only [hf, Machine.mmuCache, decide_false]
    rfl

theorem mmuCheck_refused (hc : Canonical va) (hu : ¬ Untorn P va len type) :
    Refused (isaMmuCheck P va len type) s := by
  obtain ⟨hf, hu⟩ := not_or.mp hu
  have hrun : isaMmuCheck P va len type s = (faultAt P
      (if s.amo ∨ type = .write then .SAM else .LAM) va : Exec MmuMode) s := by
    unfold isaMmuCheck
    rw [get_bind, if_neg (passes_msbs hc _), if_neg hf, if_pos (not_not.mp hu)]
  obtain ⟨e, t, he, hne⟩ : Refused (faultAt P
      (if s.amo ∨ type = .write then .SAM else .LAM) va : Exec MmuMode) s := refused_faultAt _ _ _
  exact ⟨e, t, hrun.trans he, hne⟩

theorem translate_page (h : isaMmuTranslate P va type s = .ok r t) : r &&& pageMask = 0 := by
  have hptw : ∀ {s t r}, ptw P va type s = .ok r t → r &&& pageMask = 0 := by
    intro s t r h
    obtain ⟨walk, u, hw, h1⟩ := ok_of_bind h
    cases walk with
    | bad pte =>
      obtain ⟨_, _, hc, -⟩ := ok_of_bind h1
      cases (checkPermission_ok hc).2
    | leaf level pPte pte =>
      obtain ⟨_, _, hc, h2⟩ := ok_of_bind h1
      split at h2
      · obtain ⟨_, _, hc, -⟩ := ok_of_bind h2
        cases (checkPermission_ok hc).2
      · obtain ⟨_, _, -, h3⟩ := ok_of_bind h2
        cases h3
        exact frame_page P level pte va
  obtain ⟨r', u, hp, h1⟩ := ok_of_bind h
  have hr := hptw hp
  split at h1
  · obtain ⟨_, _, _, h2⟩ := ok_of_bind h1
    cases h2
    exact hr
  · cases h1
    exact hr

theorem va2pa_run (hc : isaMmuCheck P va len type s = .ok .translate s)
    (ht : isaMmuTranslate P va type s = .ok r t) :
    va2pa P va len type s = .ok (P.paddr (r ||| (va &&& pageMask))) t := by
  unfold va2pa
  rw [bind_ok hc, if_neg (by decide), bind_ok ht,
    bind_ok (assert_pos _ (translate_page ht) _ t)]
  rfl

theorem va2pa_inv (hm : s.mmuCache (type = .ifetch) = .translate)
    (h : va2pa P va len type s = .ok pa t) :
    ∃ r, isaMmuCheck P va len type s = .ok .translate s ∧
      isaMmuTranslate P va type s = .ok r t ∧ pa = P.paddr (r ||| (va &&& pageMask)) := by
  obtain ⟨m, u, hc, h1⟩ := ok_of_bind h
  obtain ⟨rfl, rfl⟩ := isaMmuCheck_ok hc
  rw [hm] at hc
  rw [hm, if_neg (by decide)] at h1
  obtain ⟨r, v, ht, h2⟩ := ok_of_bind h1
  obtain ⟨_, _, ha, h3⟩ := ok_of_bind h2
  obtain ⟨rfl, _⟩ := assert_ok ha
  cases h3
  exact ⟨r, hc, ht, rfl⟩

end Check

namespace HostAccess

/-- The machine once the access has been translated, before memory is touched: on the slow path
the bits A and D may have been set. -/
def translated (P : Platform) (a : HostAccess) (s : HostState) : Machine :=
  if a.Hits s.tlb then s.machine
  else match va2pa P a.vaddr a.len a.type s.machine with
    | .ok _ t => t
    | .error _ _ => s.machine

/-- Translation is on for an access that comes to the tables, and a walk that succeeds has found
its entries in memory. -/
structure Proper (P : Platform) (a : HostAccess) (s : HostState) : Prop where
  translating : s.machine.mmuCache (a.type = .ifetch) = .translate
  walked : ∀ pa t, ¬ a.Hits s.tlb → va2pa P a.vaddr a.len a.type s.machine = .ok pa t →
    ∃ w, memoryWalk P s.machine a.vaddr = some w

def isStore : HostAccess → Bool
  | store _ _ _ => true
  | _ => false

end HostAccess

/-- A step changes the translation of `va` otherwise than by setting A and D for an access. -/
def Changes (P : Platform) (va : Word) (x : Transition HostState HostEvent) : Prop :=
  match x.label with
  | .access a =>
    ¬ Kept (memoryWalk P (a.translated P x.source) va) (memoryWalk P x.target.machine va)
  | .other _ _ => ¬ Kept (memoryWalk P x.source.machine va) (memoryWalk P x.target.machine va)

/-- A step executes a fence for all addresses, or for one of the page of `va`. -/
def Fences (va : Word) (x : Transition HostState HostEvent) : Prop :=
  ∃ m v, x.label = .other m (some v) ∧ (v = 0 ∨ hosttlbVpn v = hosttlbVpn va)

/-- The translation of `va` has changed and there has been no fence for it since. -/
def Stale (P : Platform) (tr : List (Transition HostState HostEvent)) (va : Word) : Prop :=
  ∃ tr₁ x tr₂, tr = tr₁ ++ x :: tr₂ ∧ Changes P va x ∧ ∀ y ∈ x :: tr₂, ¬ Fences va y

/-- The accesses of a run are all made in the way that the tables expect. -/
def ProperStep (P : Platform) (x : Transition HostState HostEvent) : Prop :=
  ∀ a, x.label = .access a → a.Proper P x.source

section Stale

variable {P : Platform} {tr : List (Transition HostState HostEvent)}
  {x : Transition HostState HostEvent} {va : Word}

theorem not_stale_snoc (h : ¬ Stale P (tr ++ [x]) va) (hf : ¬ Fences va x) :
    ¬ Stale P tr va ∧ ¬ Changes P va x := by
  constructor
  · rintro ⟨tr₁, y, tr₂, rfl, hc, hn⟩
    apply h
    refine ⟨tr₁, y, tr₂ ++ [x], by simp, hc, ?_⟩
    intro z hz
    rw [← List.cons_append, List.mem_append, List.mem_singleton] at hz
    obtain hz | rfl := hz
    · exact hn z hz
    · exact hf
  · intro hc
    apply h
    refine ⟨tr, x, [], rfl, hc, ?_⟩
    intro y hy
    obtain rfl := List.mem_singleton.mp hy
    exact hf

end Stale

/-- The table for writes, or the one for reads and fetches. -/
def HostTlb.table (tlb : HostTlb) (w : Bool) : Nat → HostTLBEntry :=
  if w then tlb.hostwtlb else tlb.hostrtlb

def HostTlb.fill (w : Bool) (vaddr paddr : Word) (tlb : HostTlb) : HostTlb :=
  if w then tlb.fillWrite vaddr paddr else tlb.fillRead vaddr paddr

/-- The entry `e` for the page of `va` is what a walk would find now. -/
structure Current (P : Platform) (m : Machine) (va : Word) (w : Bool) (e : HostTLBEntry)
    (level : Nat) (pPte : Word) (pte : Pte) : Prop where
  walk : memoryWalk P m va = some (.leaf level pPte pte)
  whole : pte.base &&& pgMask level = 0
  accessed : pte.a = true
  dirty : w = true → pte.d = true
  inMemory : inPmem P (frame P level pte va ||| (va &&& pageMask)) = true
  offset : e.offset + va = frame P level pte va ||| (va &&& pageMask)

/-- The tables agree with the page tables wherever no fence is due. -/
def TlbCoherent (P : Platform) (tr : List (Transition HostState HostEvent)) (s : HostState) : Prop :=
  ∀ va w, ¬ Stale P tr va → (s.tlb.table w (hosttlbIdx va)).gvpn = hosttlbVpn va →
    ∃ level pPte pte, Current P s.machine va w (s.tlb.table w (hosttlbIdx va)) level pPte pte

section Entries

variable {P : Platform} {m m' : Machine} {va va' : Word} {w : Bool} {e : HostTLBEntry}
  {tlb : HostTlb}

theorem frame_extends (h : pte.Extends pte') (level : Nat) (va : Word) :
    frame P level pte' va = frame P level pte va := by
  unfold frame
  rw [h.base]

theorem Current.kept (h : Current P m va w e level pPte pte)
    (hk : Kept (memoryWalk P m va) (memoryWalk P m' va)) :
    ∃ pPte' pte', Current P m' va w e level pPte' pte' := by
  obtain ⟨pPte', pte', hw, hext⟩ := hk level pPte pte h.walk
  refine ⟨pPte', pte', hw, ?_, hext.set h.accessed, fun hd => hext.set (h.dirty hd), ?_, ?_⟩
  · rw [hext.base]
    exact h.whole
  · rw [frame_extends hext]
    exact h.inMemory
  · rw [frame_extends hext]
    exact h.offset

theorem invalid_vpn (va : Word) : (-1 : Word) ≠ hosttlbVpn va := by
  intro h
  have hbit := congrArg (fun x => x.getLsbD 63) h
  simp [hosttlbVpn] at hbit

/-- A fence for the page of `va` leaves no entry for it. -/
theorem flush_drops (h : v = 0 ∨ hosttlbVpn v = hosttlbVpn va) :
    ((hosttlbFlush v tlb).table w (hosttlbIdx va)).gvpn ≠ hosttlbVpn va := by
  unfold hosttlbFlush HostTlb.table
  by_cases hv : v = 0
  · rw [if_pos hv]
    cases w <;> exact invalid_vpn va
  · have hvpn := h.resolve_left hv
    have hidx : hosttlbIdx v = hosttlbIdx va := by
      unfold hosttlbIdx
      rw [hvpn]
    have hdrop : ∀ e : HostTLBEntry, (e.drop (hosttlbVpn v)).gvpn ≠ hosttlbVpn va := by
      intro e
      unfold HostTLBEntry.drop
      split
      · exact invalid_vpn va
      · next hne => rwa [← hvpn]
    rw [if_neg hv, hidx]
    cases w <;> simp only [Bool.false_eq_true, ↓reduceIte, Function.update_self] <;> exact hdrop _

theorem flush_keeps (h : ((hosttlbFlush v tlb).table w i).gvpn = hosttlbVpn va) :
    (hosttlbFlush v tlb).table w i = tlb.table w i := by
  unfold hosttlbFlush at h ⊢
  by_cases hv : v = 0
  · rw [if_pos hv] at h
    cases w <;> exact absurd h (invalid_vpn va)
  · rw [if_neg hv] at h ⊢
    have hdrop : ∀ e : HostTLBEntry, (e.drop (hosttlbVpn v)).gvpn = hosttlbVpn va →
        e.drop (hosttlbVpn v) = e := by
      intro e he
      unfold HostTLBEntry.drop at he ⊢
      split
      · next heq =>
        rw [if_pos heq] at he
        exact absurd he (invalid_vpn va)
      · rfl
    have hupd : ∀ table : Nat → HostTLBEntry,
        (Function.update table (hosttlbIdx v) ((table (hosttlbIdx v)).drop (hosttlbVpn v)) i).gvpn =
          hosttlbVpn va →
        Function.update table (hosttlbIdx v) ((table (hosttlbIdx v)).drop (hosttlbVpn v)) i =
          table i := by
      intro table ht
      by_cases hi : i = hosttlbIdx v
      · subst hi
        rw [Function.update_self] at ht ⊢
        exact hdrop _ ht
      · rw [Function.update_of_ne hi]
    cases w <;> exact hupd _ h

theorem fill_table (w w' : Bool) (va pa : Word) (tlb : HostTlb) (i : Nat) :
    (tlb.fill w va pa).table w' i =
      if w' = w ∧ i = hosttlbIdx va then hostEntry va pa else tlb.table w' i := by
  by_cases hi : i = hosttlbIdx va
  · subst hi
    cases w <;> cases w' <;>
      simp [HostTlb.fill, HostTlb.table, HostTlb.fillRead, HostTlb.fillWrite]
  · cases w <;> cases w' <;>
      simp [HostTlb.fill, HostTlb.table, HostTlb.fillRead, HostTlb.fillWrite, hi]

end Entries

section Access

variable {P : Platform} {s : HostState} {a : HostAccess}

theorem onMachine_ok {x : Exec α} (h : x s.machine = .ok b t) :
    onMachine x s = .ok b { s with machine := t } := by
  unfold onMachine
  rw [h]

theorem onMachine_error {x : Exec α} (h : x s.machine = .error e t) :
    onMachine x s = .error e { s with machine := t } := by
  unfold onMachine
  rw [h]

theorem final_onMachine (x : Exec α) (s : HostState) :
    final (onMachine x) s = { s with machine := final x s.machine } := by
  cases hx : x s.machine with
  | ok b t => rw [final_ok hx, final_ok (onMachine_ok hx)]
  | error e t => rw [final_error hx, final_error (onMachine_error hx)]

theorem final_tlb {x : HostExec α} {y : Exec α} (h : x s = onMachine y s') :
    (final x s).tlb = s'.tlb := by
  have hend : final x s = final (onMachine y) s' := by
    unfold final
    rw [h]
  rw [hend, final_onMachine]

/-- The access to memory at `pa`, without any check. -/
def HostAccess.memory (pa : Word) : HostAccess → Exec Word
  | fetch _ len => pmemRead pa len
  | load _ len => pmemRead pa len
  | store _ len data => do
    pmemWrite pa len data
    pure 0

/-- The physical access of the slow path: a fetch reads as a load does. -/
def HostAccess.slow (P : Platform) (pa : Word) : HostAccess → Exec Word
  | fetch vaddr len => paddrRead P pa len .read .S vaddr
  | load vaddr len => paddrRead P pa len .read .S vaddr
  | store vaddr len data => do
    paddrWrite P pa len data .S vaddr
    pure 0

theorem onMachine_pure (x : Exec α) (c : β) (s : HostState) :
    (onMachine x >>= fun _ => pure c : HostExec β) s = onMachine (x >>= fun _ => pure c) s := by
  cases hx : x s.machine with
  | ok b t =>
    have hpure : (x >>= fun _ => pure c : Exec β) s.machine = .ok c t := bind_ok hx
    exact (bind_ok (onMachine_ok hx)).trans (onMachine_ok hpure).symm
  | error e t => rw [bind_error (onMachine_error hx), onMachine_error (bind_error hx)]

theorem host_store {x y : HostExec Unit} (h : x s = y s') :
    (x >>= fun _ => pure (0 : Word) : HostExec Word) s = (y >>= fun _ => pure 0) s' := by
  cases hx : x s with
  | ok b t => rw [bind_ok hx, bind_ok (h.symm.trans hx)]
  | error e t => rw [bind_error hx, bind_error (h.symm.trans hx)]

theorem HostAccess.host_hit (h : a.Hits s.tlb) :
    a.host P s = onMachine (a.memory ((a.entry s.tlb).offset + a.vaddr)) s := by
  cases a with
  | fetch va len | load va len =>
    change hosttlbRead P va len _ s = _
    unfold hosttlbRead
    rw [get_bind]
    exact congrFun (if_neg (not_not.mpr h)) s
  | store va len data =>
    have hwrite : hosttlbWrite P va len data s =
        onMachine (pmemWrite ((s.tlb.hostwtlb (hosttlbIdx va)).offset + va) len data) s := by
      unfold hosttlbWrite
      rw [get_bind]
      exact congrFun (if_neg (not_not.mpr h)) s
    exact (host_store hwrite).trans (onMachine_pure _ _ s)

theorem HostAccess.host_error (h : ¬ a.Hits s.tlb)
    (hv : va2pa P a.vaddr a.len a.type s.machine = .error e t) :
    a.host P s = .error e { s with machine := t } := by
  cases a with
  | fetch va len | load va len =>
    change hosttlbRead P va len _ s = _
    unfold hosttlbRead
    rw [get_bind]
    refine (congrFun (if_pos h) s).trans ?_
    exact bind_error (onMachine_error hv)
  | store va len data =>
    have hwrite : hosttlbWrite P va len data s = .error e { s with machine := t } := by
      unfold hosttlbWrite
      rw [get_bind]
      refine (congrFun (if_pos h) s).trans ?_
      exact bind_error (onMachine_error hv)
    exact bind_error hwrite

theorem HostAccess.host_miss (h : ¬ a.Hits s.tlb)
    (hv : va2pa P a.vaddr a.len a.type s.machine = .ok pa t) :
    a.host P s = onMachine (a.slow P pa)
      ⟨t, if inPmem P pa then s.tlb.fill a.isStore a.vaddr pa else s.tlb⟩ := by
  cases a with
  | fetch va len | load va len =>
    change hosttlbRead P va len _ s = _
    unfold hosttlbRead
    rw [get_bind]
    refine (congrFun (if_pos h) s).trans ?_
    refine (bind_ok (onMachine_ok hv)).trans ?_
    dsimp only
    split <;> rfl
  | store va len data =>
    have hwrite : hosttlbWrite P va len data s = onMachine (paddrWrite P pa len data .S va)
        ⟨t, if inPmem P pa then s.tlb.fill true va pa else s.tlb⟩ := by
      unfold hosttlbWrite
      rw [get_bind]
      refine (congrFun (if_pos h) s).trans ?_
      refine (bind_ok (onMachine_ok hv)).trans ?_
      dsimp only
      split <;> rfl
    exact (host_store hwrite).trans (onMachine_pure _ _ _)

end Access

section Steps

variable {P : Platform} {s s' : HostState} {m t : Machine} {a : HostAccess} {va va' : Word}
  {tr : List (Transition HostState HostEvent)}

theorem memoryWalk_of_eq (hpmem : t.pmem = m.pmem) (hcsr : t.csr = m.csr) (va : Word) :
    memoryWalk P t va = memoryWalk P m va := by
  unfold memoryWalk rootBase
  rw [hpmem, hcsr]

theorem getLsbD_adBits (type : MemType) :
    (adBits type).getLsbD 6 = true ∧ (type = .write → (adBits type).getLsbD 7 = true) := by
  cases type <;> decide

theorem Mapped.marked (h : Mapped P m va type level pPte pte)
    (hpmem : t.pmem = (m.marked P pPte pte type).pmem) (hcsr : t.csr = m.csr) :
    (∀ va', Kept (memoryWalk P m va') (memoryWalk P t va')) ∧
      ∃ pte', memoryWalk P t va = some (.leaf level pPte pte') ∧ pte.Extends pte' ∧
        pte'.a = true ∧ (type = .write → pte'.d = true) := by
  unfold Machine.marked at hpmem
  cases hneeds : needsMark pte type with
  | true =>
    rw [hneeds, if_pos rfl] at hpmem
    have hleaf := (memoryWalk_leaf h.walk).2
    have hwalk : ∀ va', memoryWalk P t va' =
        (memoryWalk P m va').map (Walk.mark P (P.paddr pPte) (adBits type)) :=
      memoryWalk_mark (adBits_mark type) hleaf hpmem (congrFun hcsr _)
    refine ⟨fun va' => ?_, ⟨pte.val ||| (adBits type).setWidth 64⟩, ?_,
      ⟨adBits type, adBits_mark type, rfl⟩, ?_, ?_⟩
    · rw [hwalk]
      exact kept_mark (adBits_mark type) _
    · rw [hwalk, h.walk]
      simp only [Option.map_some, Walk.mark, ↓reduceIte]
    · simp [Pte.a, (getLsbD_adBits type).1]
    · intro hw
      simp [Pte.d, (getLsbD_adBits type).2 hw]
  | false =>
    rw [hneeds, if_neg (by decide)] at hpmem
    have hwalk := memoryWalk_of_eq (P := P) hpmem hcsr
    simp only [needsMark, Bool.or_eq_false_iff, Bool.not_eq_false', Bool.and_eq_false_iff,
      decide_eq_false_iff_not] at hneeds
    refine ⟨fun va' => ?_, pte, (hwalk va).trans h.walk, .refl pte, hneeds.1, ?_⟩
    · rw [hwalk]
      exact .refl _
    · exact fun hw => hneeds.2.resolve_right (not_not.mpr hw)

theorem HostAccess.Proper.found (hshare : P.share = false) (hpmp : P.pmpCheck = false)
    (h : a.Proper P s) (hmiss : ¬ a.Hits s.tlb)
    (hv : va2pa P a.vaddr a.len a.type s.machine = .ok pa t) :
    ∃ level pPte pte, Mapped P s.machine a.vaddr a.type level pPte pte ∧
      pa = frame P level pte a.vaddr ||| (a.vaddr &&& pageMask) ∧
      t.pmem = (s.machine.marked P pPte pte a.type).pmem ∧ t.csr = s.machine.csr := by
  obtain ⟨w, hw⟩ := h.walked pa t hmiss hv
  obtain ⟨r, _, ht, hpa⟩ := va2pa_inv h.translating hv
  obtain ⟨level, pPte, pte, hm, hr, hpmem, hcsr⟩ := translate_inv hshare hpmp hw ht
  refine ⟨level, pPte, pte, hm, ?_, hpmem, hcsr⟩
  rw [hpa, hr]
  exact paddr_low P _ _

/-- The entry made on the slow path is right for the whole page. -/
theorem current_fill (hP : PageAligned P) (h : Mapped P m va type level pPte pte)
    (hwalk : memoryWalk P t va = some (.leaf level pPte pte')) (hext : pte.Extends pte')
    (ha : pte'.a = true) (hd : w = true → pte'.d = true)
    (hin : inPmem P (frame P level pte va ||| (va &&& pageMask)) = true)
    (hpage : hosttlbVpn va = hosttlbVpn va') :
    Current P t va' w (hostEntry va (frame P level pte va ||| (va &&& pageMask))) level pPte
      pte' := by
  have hframe : frame P level pte' va' = frame P level pte va := by
    rw [frame_extends hext, frame_congr hpage]
  have hf := frame_page P level pte va
  have hlow : ∀ x : Word, hosttlbVpn (frame P level pte va ||| (x &&& pageMask)) =
      hosttlbVpn (frame P level pte va) := by
    intro x
    unfold hosttlbVpn
    rw [BitVec.ushiftRight_or_distrib]
    have hzero : (x &&& pageMask) >>> 12 = 0#64 := by
      rw [BitVec.ushiftRight_and_distrib]
      exact BitVec.and_zero
    rw [hzero, BitVec.or_zero]
  refine ⟨?_, ?_, ha, hd, ?_, ?_⟩
  · rw [← memoryWalk_congr hpage]
    exact hwalk
  · rw [hext.base]
    exact h.whole
  · rw [hframe, ← hin]
    exact inPmem_congr hP ((hlow va').trans (hlow va).symm)
  · rw [hframe]
    exact offset_frame hpage hf

theorem not_fences_access : ¬ Fences va ⟨s, .access a, s'⟩ := by
  rintro ⟨m, v, h, _⟩
  cases h

/-- The tables keep to the page tables when the walks are kept on the way to the new state. -/
theorem TlbCoherent.kept (h : TlbCoherent P tr s) (hstale : ¬ Stale P tr va)
    (hkept : Kept (memoryWalk P s.machine va) (memoryWalk P m va))
    (hhit : (s.tlb.table w (hosttlbIdx va)).gvpn = hosttlbVpn va) :
    ∃ level pPte pte, Current P m va w (s.tlb.table w (hosttlbIdx va)) level pPte pte := by
  obtain ⟨level, pPte, pte, hc⟩ := h va w hstale hhit
  exact ⟨level, hc.kept hkept⟩

theorem TlbCoherent.access (hshare : P.share = false) (hpmp : P.pmpCheck = false)
    (hP : PageAligned P) (h : TlbCoherent P tr s) (ha : a.Proper P s) :
    TlbCoherent P (tr ++ [⟨s, .access a, final (a.host P) s⟩]) (final (a.host P) s) := by
  intro va w hstale hhit
  obtain ⟨hold, hkept⟩ := not_stale_snoc hstale not_fences_access
  have hkept : Kept (memoryWalk P (a.translated P s) va)
      (memoryWalk P (final (a.host P) s).machine va) := not_not.mp hkept
  unfold HostAccess.translated at hkept
  by_cases hit : a.Hits s.tlb
  · have hend : (final (a.host P) s).tlb = s.tlb := final_tlb (HostAccess.host_hit hit)
    rw [if_pos hit] at hkept
    rw [hend] at hhit ⊢
    exact h.kept hold hkept hhit
  · rw [if_neg hit] at hkept
    cases hv : va2pa P a.vaddr a.len a.type s.machine with
    | error e t =>
      rw [hv] at hkept
      have hend : final (a.host P) s = { s with machine := t } :=
        final_error (HostAccess.host_error hit hv)
      rw [hend] at hhit hkept ⊢
      exact h.kept hold hkept hhit
    | ok pa t =>
      rw [hv] at hkept
      dsimp only at hkept
      obtain ⟨level, pPte, pte, hm, hpa, hpmem, hcsr⟩ := ha.found hshare hpmp hit hv
      obtain ⟨hall, pte', hwalk, hext, hacc, hdirty⟩ := hm.marked hpmem hcsr
      have hend : (final (a.host P) s).tlb =
          if inPmem P pa then s.tlb.fill a.isStore a.vaddr pa else s.tlb :=
        final_tlb (HostAccess.host_miss hit hv)
      have hkept' := (hall va).trans hkept
      rw [hend] at hhit ⊢
      split at hhit
      · next hin =>
        rw [if_pos hin]
        rw [fill_table] at hhit ⊢
        split at hhit
        · next hslot =>
          rw [if_pos hslot]
          have hd : w = true → pte'.d = true := by
            intro hw
            apply hdirty
            rw [hslot.1] at hw
            cases a with
            | store => rfl
            | _ => cases hw
          rw [hpa] at hin
          have hcur := current_fill hP hm hwalk hext hacc hd hin hhit
          rw [hpa]
          exact ⟨level, hcur.kept hkept⟩
        · next hslot =>
          rw [if_neg hslot]
          exact h.kept hold hkept' hhit
      · next hin =>
        rw [if_neg hin]
        exact h.kept hold hkept' hhit

theorem TlbCoherent.other (h : TlbCoherent P tr s) (hstep : HostStep P s (.other m fence) s') :
    TlbCoherent P (tr ++ [⟨s, .other m fence, s'⟩]) s' := by
  intro va w hstale hhit
  cases fence with
  | none =>
    cases hstep
    have hn : ¬ Fences va ⟨s, .other m none, ⟨m, s.tlb⟩⟩ := by
      rintro ⟨m', v, hl, _⟩
      cases hl
    obtain ⟨hold, hkept⟩ := not_stale_snoc hstale hn
    exact h.kept hold (not_not.mp hkept) hhit
  | some v =>
    cases hstep
    by_cases hfence : v = 0 ∨ hosttlbVpn v = hosttlbVpn va
    · exact absurd hhit (flush_drops hfence)
    · have hn : ¬ Fences va ⟨s, .other m (some v), ⟨m, hosttlbFlush v s.tlb⟩⟩ := by
        rintro ⟨m', v', hl, hv'⟩
        cases hl
        exact hfence hv'
      obtain ⟨hold, hkept⟩ := not_stale_snoc hstale hn
      have hsame := flush_keeps hhit
      dsimp only at hhit ⊢
      rw [hsame] at hhit ⊢
      exact h.kept hold (not_not.mp hkept) hhit

/-- In every run from `hosttlb_init`, the tables agree with the page tables wherever no fence is
due. -/
theorem coherent_run (hshare : P.share = false) (hpmp : P.pmpCheck = false) (hP : PageAligned P)
    {s₀ : HostState} (h0 : s₀.tlb = hosttlbFlush 0 tlb₀) (hrun : Run (HostStep P) s₀ tr s)
    (hgood : ∀ x ∈ tr, ProperStep P x) : TlbCoherent P tr s := by
  refine hrun.history (I := fun tr s => TlbCoherent P tr s) hgood ?_ ?_
  · intro va w _ hhit
    rw [h0] at hhit
    exact absurd hhit (flush_drops (.inl rfl))
  · rintro tr ⟨s, ev, s'⟩ hproper hstep h
    cases ev with
    | access a =>
      obtain rfl : s' = final (a.host P) s := hstep
      exact h.access hshare hpmp hP (hproper a rfl)
    | other m fence => exact h.other hstep

end Steps

section Outcomes

variable {P : Platform} {s : HostState} {m : Machine} {a : HostAccess} {pa pa' : Word}

/-- Memory or a device is behind a physical address. -/
def Backed (P : Platform) (pa : Word) : Prop := inPmem P pa = true ∨ P.inMmio pa = true

/-- On the fast path the entry of the page must permit the access now, and the access must not be
torn; on the slow path a fetch must not end where there is nothing. -/
structure HostAccess.Admissible (P : Platform) (a : HostAccess) (s : HostState) : Prop where
  hit : ∀ level pPte pte, a.Hits s.tlb →
    memoryWalk P s.machine a.vaddr = some (.leaf level pPte pte) →
    permits P s.machine pte true a.type = true
  untorn : a.Hits s.tlb → Untorn P a.vaddr a.len a.type
  backed : ∀ level pPte pte, ¬ a.Hits s.tlb → a.type = .ifetch →
    Mapped P s.machine a.vaddr a.type level pPte pte →
    Backed P (frame P level pte a.vaddr ||| (a.vaddr &&& pageMask))

theorem hostOutcome_onMachine (x : Exec Word) (s : HostState) :
    hostOutcome (onMachine x s) = outcome (x s.machine) := by
  cases hx : x s.machine with
  | ok b t =>
    rw [onMachine_ok hx]
    rfl
  | error e t =>
    rw [onMachine_error hx]
    rfl

theorem physical_memory (hpmp : P.pmpCheck = false) (hpa : P.paddr pa = pa)
    (hin : inPmem P pa = true) : a.physical P pa m = a.memory pa m := by
  rw [← hpa] at hin
  cases a with
  | fetch va len | load va len =>
    refine (get_bind _ m).trans ?_
    refine (paddrRead_pmem hpmp hin _).trans ?_
    rw [hpa]
    rfl
  | store va len data =>
    refine (get_bind _ m).trans ?_
    have hwrite : paddrWrite P pa len data m.mode va m = pmemWrite pa len data m := by
      rw [paddrWrite_memory hpmp hin, hpa]
    change (paddrWrite P pa len data m.mode va >>= fun _ => pure 0 : Exec Word) m =
      (pmemWrite pa len data >>= fun _ => pure 0 : Exec Word) m
    cases hrun : pmemWrite pa len data m with
    | ok b t => rw [bind_ok (hwrite.trans hrun), bind_ok hrun]
    | error e t => rw [bind_error (hwrite.trans hrun), bind_error hrun]

/-- An access that is not refused fails for its length only. -/
theorem memory_outcome (h : a.memory pa m = .error e t) : e = .abort .hostLength := by
  have hassert : assert (HostLength a.len) .hostLength m = .error e t →
      e = .abort .hostLength := by
    intro ha
    unfold assert at ha
    split at ha
    · cases ha
    · cases ha
      rfl
  cases a with
  | fetch va len | load va len =>
    obtain ha | ⟨_, _, _, h1⟩ := error_of_bind h
    · exact hassert ha
    · cases h1
  | store va len data =>
    obtain hw | ⟨_, _, _, h1⟩ := error_of_bind h
    · obtain ha | ⟨_, _, _, h2⟩ := error_of_bind hw
      · exact hassert ha
      · cases h2
    · cases h1

theorem Refused.outcome_ne (h : Refused (a.fresh P) m) :
    outcome (a.memory pa m) ≠ outcome (a.fresh P m) := by
  obtain ⟨e, t, he, hne⟩ := h
  intro heq
  rw [he] at heq
  cases hm : a.memory pa m with
  | ok b u =>
    rw [hm] at heq
    cases congrArg Outcome.result heq
  | error e' u =>
    rw [hm] at heq
    have hstop : (.error e' : Except Stop Word) = .error e := congrArg Outcome.result heq
    cases hstop
    exact hne (memory_outcome hm)

theorem Current.not_needsMark (h : Current P m va a.isStore e level pPte pte) :
    needsMark pte a.type = false := by
  unfold needsMark
  rw [h.accessed]
  cases a with
  | store => simp [h.dirty rfl]
  | _ => simp [HostAccess.type]

/-- The access without the tables where the fast path would have found its entry. -/
theorem Current.fresh_run (hshare : P.share = false) (hpmp : P.pmpCheck = false)
    (h : Current P m a.vaddr a.isStore e level pPte pte) (hg : m.guidedExec = false)
    (ht : m.mmuCache (a.type = .ifetch) = .translate) (hu : Untorn P a.vaddr a.len a.type)
    (hp : permits P m pte true a.type = true) :
    a.fresh P m = a.memory (e.offset + a.vaddr) m := by
  have hcheck : isaMmuCheck P a.vaddr a.len a.type m = .ok .translate m := by
    rw [← ht]
    exact mmuCheck_run (memoryWalk_leaf h.walk).1 hu
  have hmapped : Mapped P m a.vaddr a.type level pPte pte := ⟨h.walk, hp, h.whole⟩
  have hmarked : m.marked P pPte pte a.type = m := by
    unfold Machine.marked
    rw [h.not_needsMark]
    rfl
  have hrun := hmapped.run hshare hpmp hg
  rw [hmarked] at hrun
  unfold HostAccess.fresh
  rw [bind_ok hcheck, if_neg (by decide), bind_ok hrun, h.offset]
  exact physical_memory hpmp (paddr_low P _ _) h.inMemory

theorem Current.fresh_refused (hshare : P.share = false) (hpmp : P.pmpCheck = false)
    (h : Current P m a.vaddr a.isStore e level pPte pte)
    (ht : m.mmuCache (a.type = .ifetch) = .translate)
    (hn : ¬ (Untorn P a.vaddr a.len a.type ∧ permits P m pte true a.type = true)) :
    Refused (a.fresh P) m := by
  have hc := (memoryWalk_leaf h.walk).1
  by_cases hu : Untorn P a.vaddr a.len a.type
  · have hcheck : isaMmuCheck P a.vaddr a.len a.type m = .ok .translate m := by
      rw [← ht]
      exact mmuCheck_run hc hu
    apply Refused.of_bind hcheck
    rw [if_neg (by decide)]
    apply Refused.bind
    apply translate_refused hshare hpmp h.walk
    intro level' pPte' pte' hm
    have hleaf := h.walk.symm.trans hm.walk
    cases hleaf
    exact hn ⟨hu, hm.permitted⟩
  · exact (mmuCheck_refused hc hu).bind

theorem host_hit_iff (hshare : P.share = false) (hpmp : P.pmpCheck = false)
    (h : Current P s.machine a.vaddr a.isStore (a.entry s.tlb) level pPte pte)
    (hit : a.Hits s.tlb) (hg : s.machine.guidedExec = false)
    (ht : s.machine.mmuCache (a.type = .ifetch) = .translate) :
    hostOutcome (a.host P s) = outcome (a.fresh P s.machine) ↔
      Untorn P a.vaddr a.len a.type ∧ permits P s.machine pte true a.type = true := by
  rw [HostAccess.host_hit hit, hostOutcome_onMachine]
  constructor
  · intro heq
    by_contra hn
    exact (h.fresh_refused hshare hpmp ht hn).outcome_ne heq
  · rintro ⟨hu, hp⟩
    rw [h.fresh_run hshare hpmp hg ht hu hp]

theorem paddrRead_agree (hshare : P.share = false) (hpmp : P.pmpCheck = false)
    (hpa : P.paddr pa = P.paddr pa') (hb : type = type' ∨ Backed P (P.paddr pa)) :
    paddrRead P pa len type mode va m = paddrRead P pa' len type' mode' va m := by
  have hpass : ∀ type mode, isaPmpCheckPermission P m (P.paddr pa) len type mode = true := by
    intro type mode
    simp [isaPmpCheckPermission, hpmp]
  unfold paddrRead
  rw [get_bind, get_bind, ← hpa, hpass, hpass, hshare]
  obtain rfl | hin | hmmio := hb
  · rfl
  · rw [hin]
    rfl
  · rw [hmmio]
    rfl

theorem paddrWrite_agree (hpmp : P.pmpCheck = false) (hpa : P.paddr pa = P.paddr pa') :
    paddrWrite P pa len data mode va m = paddrWrite P pa' len data mode' va m := by
  have hpass : ∀ mode, isaPmpCheckPermission P m (P.paddr pa) len .write mode = true := by
    intro mode
    simp [isaPmpCheckPermission, hpmp]
  unfold paddrWrite
  rw [get_bind, get_bind, ← hpa, hpass, hpass]

theorem slow_eq_physical (hshare : P.share = false) (hpmp : P.pmpCheck = false)
    (hpa : P.paddr pa = P.paddr pa') (hb : a.type = .ifetch → Backed P (P.paddr pa)) :
    a.slow P pa m = a.physical P pa' m := by
  cases a with
  | fetch va len =>
    refine Eq.trans ?_ (get_bind _ m).symm
    exact paddrRead_agree hshare hpmp hpa (.inr (hb rfl))
  | load va len =>
    refine Eq.trans ?_ (get_bind _ m).symm
    exact paddrRead_agree hshare hpmp hpa (.inl rfl)
  | store va len data =>
    refine Eq.trans ?_ (get_bind _ m).symm
    have hwrite : paddrWrite P pa len data .S va m = paddrWrite P pa' len data m.mode va m :=
      paddrWrite_agree hpmp hpa
    change (paddrWrite P pa len data .S va >>= fun _ => pure 0 : Exec Word) m =
      (paddrWrite P pa' len data m.mode va >>= fun _ => pure 0 : Exec Word) m
    cases hrun : paddrWrite P pa' len data m.mode va m with
    | ok b t => rw [bind_ok (hwrite.trans hrun), bind_ok hrun]
    | error e t => rw [bind_error (hwrite.trans hrun), bind_error hrun]

theorem paddr_idem (P : Platform) (x : Word) : P.paddr (P.paddr x) = P.paddr x := by
  unfold Config.paddr
  split
  · rfl
  · rw [BitVec.and_assoc, BitVec.and_self]

theorem fresh_error (ht : m.mmuCache (a.type = .ifetch) = .translate)
    (hv : va2pa P a.vaddr a.len a.type m = .error e t) : a.fresh P m = .error e t := by
  obtain hc | ⟨r, u, hc, h1⟩ := error_of_bind hv
  · exact bind_error hc
  · obtain ⟨rfl, rfl⟩ := isaMmuCheck_ok hc
    rw [ht] at hc
    rw [ht, if_neg (by decide)] at h1
    refine (bind_ok hc).trans ?_
    rw [if_neg (by decide)]
    obtain htr | ⟨r, v, htr, h2⟩ := error_of_bind h1
    · exact bind_error htr
    · rw [bind_ok (assert_pos _ (translate_page htr) _ v)] at h2
      cases h2

theorem fresh_translated (hc : isaMmuCheck P a.vaddr a.len a.type m = .ok .translate m)
    (htr : isaMmuTranslate P a.vaddr a.type m = .ok r t) :
    a.fresh P m = a.physical P (r ||| (a.vaddr &&& pageMask)) t := by
  unfold HostAccess.fresh
  rw [bind_ok hc, if_neg (by decide), bind_ok htr]

theorem raiseReadAccessFault_cause (P : Platform) (type : MemType) (va : Word) (m : Machine) :
    ∃ ex t, (raiseReadAccessFault P type va : Exec Word) m =
        .error (.exception ⟨ex, some va, .plain⟩) t ∧
      (ex = .IAF ↔ type = .ifetch ∨ type = .ifetchRead) := by
  have hraise : ∀ ex, (raiseAccessFault P ex va : Exec Word) m = .error
      (.exception ⟨ex, some va, .plain⟩)
      ({ m with amo := false }.setCsr (trapLevel P { m with amo := false } ex.code).tval va) :=
    fun ex => faultAt_run P ex va _
  unfold raiseReadAccessFault
  rw [get_bind]
  by_cases hf : type = .ifetch ∨ type = .ifetchRead
  · rw [if_pos hf]
    exact ⟨.IAF, _, hraise .IAF, by simp [hf]⟩
  · rw [if_neg hf]
    split
    · exact ⟨.SAF, _, hraise .SAF, by simp [hf]⟩
    · exact ⟨.LAF, _, hraise .LAF, by simp [hf]⟩

theorem paddrRead_unbacked (hshare : P.share = false) (hpmp : P.pmpCheck = false)
    (hb : ¬ Backed P (P.paddr pa)) :
    paddrRead P pa len type mode va m = (raiseReadAccessFault P type va : Exec Word) m := by
  have hpass : isaPmpCheckPermission P m (P.paddr pa) len type mode = true := by
    simp [isaPmpCheckPermission, hpmp]
  obtain ⟨hin, hmmio⟩ := not_or.mp hb
  unfold paddrRead
  rw [get_bind, hpass, hshare, Bool.eq_false_iff.mpr hin, Bool.eq_false_iff.mpr hmmio,
    Bool.and_false]
  rfl

/-- A fetch where there is nothing is taken for a load on the slow path. -/
theorem unbacked_outcome (hshare : P.share = false) (hpmp : P.pmpCheck = false)
    (hpa : P.paddr pa = P.paddr pa') (hb : ¬ Backed P (P.paddr pa)) (hf : a.type = .ifetch) :
    outcome (a.slow P pa m) ≠ outcome (a.physical P pa' m) := by
  cases a with
  | fetch va len =>
    obtain ⟨ex, t, h1, hex⟩ := raiseReadAccessFault_cause P .read va m
    obtain ⟨ex', t', h2, hex'⟩ := raiseReadAccessFault_cause P .ifetch va m
    have hslow : HostAccess.slow P pa (.fetch va len) m =
        .error (.exception ⟨ex, some va, .plain⟩) t :=
      (paddrRead_unbacked hshare hpmp hb).trans h1
    have hphys : HostAccess.physical P pa' (.fetch va len) m =
        .error (.exception ⟨ex', some va, .plain⟩) t' :=
      (get_bind _ m).trans ((paddrRead_unbacked hshare hpmp (hpa ▸ hb)).trans h2)
    rw [hslow, hphys]
    intro heq
    have hstop := congrArg Outcome.result heq
    simp only [outcome, Except.error.injEq, Stop.exception.injEq, Fault.mk.injEq, and_self,
      and_true] at hstop
    rw [hstop] at hex
    have hiaf := hex'.mpr (.inl rfl)
    exact absurd (hex.mp hiaf) (by decide)
  | load va len => cases hf
  | store va len data => cases hf

theorem host_miss_iff (hshare : P.share = false) (hpmp : P.pmpCheck = false) (ha : a.Proper P s)
    (hmiss : ¬ a.Hits s.tlb) (hg : s.machine.guidedExec = false) :
    hostOutcome (a.host P s) = outcome (a.fresh P s.machine) ↔
      ∀ level pPte pte, a.type = .ifetch →
        Mapped P s.machine a.vaddr a.type level pPte pte →
        Backed P (frame P level pte a.vaddr ||| (a.vaddr &&& pageMask)) := by
  cases hv : va2pa P a.vaddr a.len a.type s.machine with
  | error e t =>
    have heq : hostOutcome (a.host P s) = outcome (a.fresh P s.machine) := by
      rw [HostAccess.host_error hmiss hv, fresh_error ha.translating hv]
      rfl
    refine ⟨fun _ level pPte pte hf hm => ?_, fun _ => heq⟩
    -- a fetch that the page tables let through does not fail
    have hcheck : isaMmuCheck P a.vaddr a.len a.type s.machine = .ok .translate s.machine := by
      rw [← ha.translating]
      exact mmuCheck_run (memoryWalk_leaf hm.walk).1 (.inl hf)
    have hrun := va2pa_run hcheck (hm.run hshare hpmp hg)
    cases hv.symm.trans hrun
  | ok pa t =>
    obtain ⟨r, hcheck, htr, rfl⟩ := va2pa_inv ha.translating hv
    obtain ⟨w, hw⟩ := ha.walked _ t hmiss hv
    obtain ⟨level, pPte, pte, hm, rfl, _, _⟩ := translate_inv hshare hpmp hw htr
    have hlow := paddr_low P ((pte.base &&& ~~~pgMask level) |||
      (a.vaddr &&& pgMask level &&& ~~~0xfff)) a.vaddr
    have hpa := paddr_idem P (frame P level pte a.vaddr ||| (a.vaddr &&& pageMask))
    rw [HostAccess.host_miss hmiss hv, hostOutcome_onMachine, fresh_translated hcheck htr]
    constructor
    · intro heq level' pPte' pte' hf hm'
      cases hm.walk.symm.trans hm'.walk
      by_contra hb
      apply unbacked_outcome hshare hpmp hpa _ hf heq
      intro hb'
      apply hb
      rw [hpa] at hb'
      unfold frame at hb' ⊢
      rwa [hlow] at hb'
    · intro hback
      rw [slow_eq_physical hshare hpmp hpa]
      intro hf
      have hb := hback level pPte pte hf hm
      rw [hpa]
      unfold frame at hb ⊢
      rwa [hlow]

end Outcomes

/-- In every state that a run from `hosttlb_init` reaches, an access through the tables to a page
for which no fence is due does what the walk does, provided that the entry of the page permits it
now. -/
theorem hosttlb_refines_walk_iff {P : Platform} {s₀ s : HostState} {a : HostAccess}
    (hshare : P.share = false) (hpmp : P.pmpCheck = false) (hP : PageAligned P)
    (h0 : s₀.tlb = hosttlbFlush 0 tlb₀) (hrun : Run (HostStep P) s₀ tr s)
    (hgood : ∀ x ∈ tr, ProperStep P x) (ha : a.Proper P s) (hg : s.machine.guidedExec = false)
    (hfence : ¬ Stale P tr a.vaddr) :
    hostOutcome (a.host P s) = outcome (a.fresh P s.machine) ↔ a.Admissible P s := by
  have hcoh := coherent_run hshare hpmp hP h0 hrun hgood
  by_cases hit : a.Hits s.tlb
  · have hentry : a.entry s.tlb = s.tlb.table a.isStore (hosttlbIdx a.vaddr) := by
      cases a <;> rfl
    have hslot : (s.tlb.table a.isStore (hosttlbIdx a.vaddr)).gvpn = hosttlbVpn a.vaddr := by
      rw [← hentry]
      exact hit
    obtain ⟨level, pPte, pte, hcur⟩ := hcoh a.vaddr a.isStore hfence hslot
    rw [← hentry] at hcur
    rw [host_hit_iff hshare hpmp hcur hit hg ha.translating]
    constructor
    · rintro ⟨hu, hp⟩
      refine ⟨fun level' pPte' pte' _ hw => ?_, fun _ => hu, fun _ _ _ hmiss => absurd hit hmiss⟩
      cases hcur.walk.symm.trans hw
      exact hp
    · intro hadm
      exact ⟨hadm.untorn hit, hadm.hit level pPte pte hit hcur.walk⟩
  · rw [host_miss_iff hshare hpmp ha hit hg]
    constructor
    · intro hback
      exact ⟨fun _ _ _ h => absurd h hit, fun h => absurd h hit,
        fun level pPte pte _ hf hm => hback level pPte pte hf hm⟩
    · intro hadm level pPte pte hf hm
      exact hadm.backed level pPte pte hit hf hm

section Executable

/-- The supervisor behind a page table at `0x80200000` whose entry for the gigabyte at
`0xc0000000` leads to memory, with the bits V, X, A and D. -/
def executeOnly : HostState :=
  ⟨{ (Machine.reset (Platform.bare .performance)
      (Bytes.writeLE (fun _ => 0) 0x80200018 8 (0x200000c9 : Word))).setCsr .satp
        0x8000000000080200 with
      mode := .S
      ifetchMmuState := .translate
      dataMmuState := .translate },
    hosttlbFlush 0 ⟨fun _ => ⟨0, 0⟩, fun _ => ⟨0, 0⟩⟩⟩

def executeAccess : HostAccess := .fetch 0xc0100000 4

def executed : HostState := final (executeAccess.host (Platform.bare .performance)) executeOnly

theorem executed_run : Run (HostStep (Platform.bare .performance)) executeOnly
    [⟨executeOnly, .access executeAccess, executed⟩] executed := .cons rfl .nil

theorem executed_walk : memoryWalk (Platform.bare .performance) executed.machine 0xc0100000 =
    some (.leaf 2 0x80200018 ⟨0x200000c9⟩) := rfl

theorem executed_proper :
    ∀ x ∈ [(⟨executeOnly, .access executeAccess, executed⟩ : Transition HostState HostEvent)],
      ProperStep (Platform.bare .performance) x := by
  intro x hx a ha
  obtain rfl := List.mem_singleton.mp hx
  cases ha
  exact ⟨rfl, fun _ _ _ _ => ⟨_, rfl⟩⟩

theorem executed_fenced :
    ¬ Stale (Platform.bare .performance) [⟨executeOnly, .access executeAccess, executed⟩]
      0xc0100000 := by
  rintro ⟨tr₁, x, tr₂, htr, hc, _⟩
  have hx : x ∈ [(⟨executeOnly, .access executeAccess, executed⟩ :
      Transition HostState HostEvent)] := by
    rw [htr]
    exact List.mem_append_right _ List.mem_cons_self
  obtain rfl := List.mem_singleton.mp hx
  have hsame : memoryWalk (Platform.bare .performance)
      (executeAccess.translated (Platform.bare .performance) executeOnly) 0xc0100000 =
    memoryWalk (Platform.bare .performance) executed.machine 0xc0100000 := rfl
  apply hc
  rw [← hsame]
  exact .refl _

theorem executed_hits : executeAccess.Hits executed.tlb := by
  change (executed.tlb.hostrtlb 0x100).gvpn = 0xc0100
  rfl

theorem performance_aligned : PageAligned (Platform.bare .performance) :=
  ⟨by decide, by decide⟩

/-- The page may be fetched again. -/
theorem hosttlb_refines_walk_fetch :
    hostOutcome (executeAccess.host (Platform.bare .performance) executed) =
      outcome (executeAccess.fresh (Platform.bare .performance) executed.machine) := by
  have hproper : executeAccess.Proper (Platform.bare .performance) executed := by
    refine ⟨rfl, fun _ _ _ _ => ?_⟩
    exact ⟨_, executed_walk⟩
  have hg : executed.machine.guidedExec = false := rfl
  have h0 : executeOnly.tlb = hosttlbFlush 0 ⟨fun _ => ⟨0, 0⟩, fun _ => ⟨0, 0⟩⟩ := rfl
  refine (hosttlb_refines_walk_iff rfl rfl performance_aligned h0 executed_run executed_proper
    hproper hg executed_fenced).mpr ⟨?_, ?_, ?_⟩
  · intro level pPte pte _ hw
    cases executed_walk.symm.trans hw
    rfl
  · exact fun _ => .inl rfl
  · intro level pPte pte hmiss
    exact absurd executed_hits hmiss

/-- It may not be read, but the entry made by the fetch lets a load through. -/
theorem hosttlb_ignores_permission : ∃ (s₀ s : HostState) (tr : _) (a : HostAccess),
    s₀.tlb = hosttlbFlush 0 ⟨fun _ => ⟨0, 0⟩, fun _ => ⟨0, 0⟩⟩ ∧
      Run (HostStep (Platform.bare .performance)) s₀ tr s ∧
      (∀ x ∈ tr, ProperStep (Platform.bare .performance) x) ∧
      a.Proper (Platform.bare .performance) s ∧ s.machine.guidedExec = false ∧
      ¬ Stale (Platform.bare .performance) tr a.vaddr ∧
      hostOutcome (a.host (Platform.bare .performance) s) ≠
        outcome (a.fresh (Platform.bare .performance) s.machine) := by
  have hproper : (HostAccess.load 0xc0100000 4).Proper (Platform.bare .performance) executed := by
    refine ⟨rfl, fun _ _ _ _ => ?_⟩
    exact ⟨_, executed_walk⟩
  have hg : executed.machine.guidedExec = false := rfl
  refine ⟨executeOnly, executed, _, .load 0xc0100000 4, rfl, executed_run, executed_proper,
    hproper, hg, executed_fenced, ?_⟩
  intro heq
  have hload : (hostOutcome (HostAccess.host (Platform.bare .performance) (.load 0xc0100000 4)
      executed)).result = .ok 0 := rfl
  have hfresh : (outcome (HostAccess.fresh (Platform.bare .performance) (.load 0xc0100000 4)
      executed.machine)).result = .error (.exception ⟨.LPF, some 0xc0100000, .plain⟩) := rfl
  rw [heq, hfresh] at hload
  cases hload

end Executable

end Nemu
