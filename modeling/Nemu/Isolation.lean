import Nemu.AddressSpace
import Nemu.InstrContract
import Nemu.Lib.Relate
import Nemu.MmuPaths
import Nemu.PcAlign
import Nemu.SystemContract

namespace Nemu

open Effect

set_option autoImplicit true

open Classical in
/-- The memory outside `vis` is replaced by `rest`. -/
noncomputable def Machine.beyond (vis : Set Word) (rest : Word → BitVec 8) (s : Machine) : Machine :=
  { s with pmem := vis.piecewise s.pmem rest }

/-- A vector program looks at memory by its loads only. -/
def VProg.MemoryBlind : VProg → Prop
  | .done | .inv | .stuck => True
  | .get k => (∀ (s : Machine) (pmem : Word → BitVec 8), k { s with pmem := pmem } = k s) ∧
      ∀ s, (k s).MemoryBlind
  | .setVr _ _ k | .setGpr _ _ k | .setCsr _ _ k | .store _ _ _ k => k.MemoryBlind
  | .load _ _ k => ∀ v, (k v).MemoryBlind

variable {P : Platform} {A : AddressSpace P} {rest : Word → BitVec 8} {V : Machine → Prop}

/-- Started in a state of `V`, a computation neither depends on the memory outside the address space
nor changes it, and it ends in a state of `V`. -/
def AddressSpace.Local (A : AddressSpace P) (rest : Word → BitVec 8) (V : Machine → Prop) (m : Exec α) :
    Prop :=
  Effect.Alike (fun s t => V s ∧ t = s.beyond A.visible rest) m m

/-- The page tables in memory are those of the address space. -/
def AddressSpace.Loaded (A : AddressSpace P) (s : Machine) : Prop := ∀ a ∈ A.tables, s.pmem a = A.image a

/-- A property that only a change of what decides about accesses, or of memory, can take away. -/
def KeptBeside (V : Machine → Prop) : Prop :=
  ∀ s t, t.userView = s.userView → t.pmem = s.pmem → V s → V t

theorem keptBeside_active : KeptBeside A.Active := by
  intro s t hv hm h
  refine ⟨hv.trans h.view, fun a ha => ?_⟩
  rw [hm]
  exact h.image a ha

theorem keptBeside_loaded : KeptBeside A.Loaded := by
  intro s t _ hm h a ha
  rw [hm]
  exact h a ha

namespace AddressSpace.Local

theorem ret (a : α) : A.Local rest V (pure a : Exec α) := Effect.Alike.ret a

theorem raise (e : Stop) : A.Local rest V (throw e : Exec α) := Effect.Alike.raise e

theorem bind {m : Exec α} {k : α → Exec β} (hm : A.Local rest V m) (hk : ∀ a, A.Local rest V (k a)) :
    A.Local rest V (m >>= k) :=
  Effect.Alike.bind hm hk

theorem bind_of {m : Exec α} {k : α → Exec β} {Q : α → Prop} (hm : A.Local rest V m)
    (hq : ∀ s a u, V s → m s = .ok a u → Q a) (hk : ∀ a, Q a → A.Local rest V (k a)) :
    A.Local rest V (m >>= k) :=
  Effect.Alike.bind_of hm (fun s _ a u hst h => hq s a u hst.1 h) hk

theorem read {k : Machine → Exec α} (hk : ∀ s, V s → k (s.beyond A.visible rest) = k s)
    (h : ∀ s, V s → A.Local rest V (k s)) : A.Local rest V (get >>= k) := by
  refine Effect.Alike.bind_get ?_
  rintro s _ ⟨hs, rfl⟩
  rw [hk s hs]
  exact h s hs

theorem change_of {f : Machine → Machine}
    (hf : ∀ s, V s → f (s.beyond A.visible rest) = (f s).beyond A.visible rest) (hV : ∀ s, V s → V (f s)) :
    A.Local rest V (modify f : Exec PUnit) := by
  refine Effect.Alike.update ?_
  rintro s _ ⟨hs, rfl⟩
  exact ⟨hV s hs, hf s hs⟩

theorem change (hV : KeptBeside V) {f : Machine → Machine}
    (hf : ∀ s, f (s.beyond A.visible rest) = (f s).beyond A.visible rest)
    (hview : ∀ s, (f s).userView = s.userView) (hm : ∀ s, (f s).pmem = s.pmem) :
    A.Local rest V (modify f : Exec PUnit) :=
  change_of (fun s _ => hf s) fun s hs => hV s (f s) (hview s) (hm s) hs

theorem ite {p : Prop} [Decidable p] {m n : Exec α} (hm : p → A.Local rest V m)
    (hn : ¬ p → A.Local rest V n) : A.Local rest V (if p then m else n) := by
  split
  · next hp => exact hm hp
  · next hp => exact hn hp

end AddressSpace.Local

section Primitive

variable (hV : KeptBeside V)

theorem assert_local (p : Prop) [Decidable p] : A.Local rest V (assert p a) :=
  .ite (fun _ => .ret _) fun _ => .raise _

theorem userView_setCsr (s : Machine) (v : Word) (h1 : c ≠ .mstatus) (h2 : c ≠ .satp) :
    (s.setCsr c v).userView = s.userView := by
  unfold Machine.userView Machine.mprv
  rw [s.setCsr_csr_ne v h1.symm, s.setCsr_csr_ne v h2.symm]
  rfl

theorem userView_mapMstatus (s : Machine) {f : Word → Word} (hf : ∀ x : Word, (f x).getLsbD 17 = x.getLsbD 17) :
    (s.mapMstatus f).userView = s.userView := by
  unfold Machine.userView Machine.mprv
  rw [Machine.mapMstatus_mstatus, hf, s.mapMstatus_csr f (by decide)]
  rfl

include hV

theorem setCsr_local (c : Csr) (v : Word) (h1 : c ≠ .mstatus) (h2 : c ≠ .satp) :
    A.Local rest V (setCsr c v) :=
  .change hV (fun _ => rfl) (fun s => userView_setCsr s v h1 h2) fun _ => rfl

theorem setTval_local (l : Level) (v : Word) : A.Local rest V (setCsr l.tval v) :=
  setCsr_local hV _ _ (by cases l <;> decide) (by cases l <;> decide)

theorem modifyMstatus_local {f : Word → Word} (hf : ∀ x : Word, (f x).getLsbD 17 = x.getLsbD 17) :
    A.Local rest V (modifyMstatus f) :=
  .change hV (fun _ => rfl) (fun s => userView_mapMstatus s hf) fun _ => rfl

theorem faultAt_local : A.Local rest V (faultAt P ex va : Exec α) := by
  refine .read (fun _ _ => rfl) fun s _ => .bind ?_ fun _ => .raise _
  rw [intrTvalReg_eq]
  exact setTval_local hV _ _

theorem dasicsFault_local : A.Local rest V (dasicsFault P ex reason va : Exec α) :=
  .bind (setCsr_local hV _ _ (by decide) (by decide)) fun _ => faultAt_local hV

theorem setAmo_local (b : Bool) : A.Local rest V (setAmo b) :=
  .change hV (fun _ => rfl) (fun _ => rfl) fun _ => rfl

theorem raiseAccessFault_local : A.Local rest V (raiseAccessFault P ex va : Exec α) :=
  .bind (setAmo_local hV false) fun _ => faultAt_local hV

theorem raiseReadAccessFault_local : A.Local rest V (raiseReadAccessFault P type va : Exec α) :=
  .read (fun _ _ => rfl) fun _ _ => .ite (fun _ => raiseAccessFault_local hV) fun _ =>
    .ite (fun _ => raiseAccessFault_local hV) fun _ => raiseAccessFault_local hV

theorem mmioRead_local : A.Local rest V (mmioRead P addr len) := by
  refine .read (fun _ _ => rfl) fun s _ => ?_
  cases P.mmioAccess s.mmio ⟨addr, len, none⟩ with
  | none => exact .raise _
  | some r =>
    refine .bind (.change hV (fun s => ?_) (fun s => ?_) fun s => pmem_setMtip _ _) fun _ => .ret _
    · cases r.mtip <;> rfl
    · cases r.mtip with
      | none => rfl
      | some b => exact userView_setCsr _ _ (by decide) (by decide)

end Primitive

section Memory

variable {m : Word → BitVec 8} {a : Word}

/-- The bytes of an access all lie in `T`. -/
def BytesIn (T : Set Word) (a : Word) (len : Nat) : Prop := ∀ i < len, a + BitVec.ofNat 64 i ∈ T

theorem pmpLoop_beyond (s : Machine) (vis : Set Word) (l : List (Fin 16)) :
    pmpLoop (s.beyond vis rest) addr len type mode l base = pmpLoop s addr len type mode l base := by
  apply pmpLoop_congr
  · exact fun _ => rfl
  · exact fun _ => rfl
  · exact fun _ _ _ => rfl

theorem isaPmpCheckPermission_beyond (s : Machine) (vis : Set Word) :
    isaPmpCheckPermission P (s.beyond vis rest) addr len type mode =
      isaPmpCheckPermission P s addr len type mode := by
  unfold isaPmpCheckPermission
  dsimp only
  rw [pmpLoop_beyond]
  rfl

open Classical in
theorem readLE_beyond {vis : Set Word} {v : Nat} (s : Machine) (h : BytesIn vis a len) :
    Bytes.readLE v (s.beyond vis rest).pmem a len = Bytes.readLE v s.pmem a len :=
  Bytes.readLE_congr fun i hi => Set.piecewise_eq_of_mem _ _ _ (h i hi)

theorem writeLE_outside {vis : Set Word} (h : BytesIn vis a len) (data : Word) {x : Word} (hx : x ∉ vis) :
    Bytes.writeLE m a len data x = m x := by
  refine Bytes.writeLE_off m data fun i hi hxi => hx ?_
  rw [hxi]
  exact h i hi

theorem writeLE_disjoint {T : Set Word} (h : BytesIn (Set.compl T) a len) (data : Word) {x : Word} (hx : x ∈ T) :
    Bytes.writeLE m a len data x = m x :=
  writeLE_outside h data fun hn => hn hx

open Classical in
theorem writeLE_piecewise {vis : Set Word} (h : BytesIn vis a len) (data : Word) :
    Bytes.writeLE (vis.piecewise m rest) a len data = vis.piecewise (Bytes.writeLE m a len data) rest := by
  funext x
  by_cases hx : x ∈ vis
  · rw [Set.piecewise_eq_of_mem _ _ _ hx]
    unfold Bytes.writeLE
    rw [Set.piecewise_eq_of_mem _ _ _ hx]
  · rw [Set.piecewise_eq_of_notMem _ _ _ hx, writeLE_outside h data hx, Set.piecewise_eq_of_notMem _ _ _ hx]

theorem pmemRead_local (h : HostLength len → BytesIn A.visible a len) : A.Local rest V (pmemRead a len) := by
  by_cases hl : HostLength len
  · exact .bind (assert_local _) fun _ => .read
      (fun s _ => congrArg (fun x : Word => (pure x : Exec Word)) (readLE_beyond s (h hl))) fun s _ => .ret _
  · unfold pmemRead assert
    rw [if_neg hl]
    change A.Local rest V (throw (.abort .hostLength) : Exec Word)
    exact .raise _

theorem pmemWrite_local (h : HostLength len → BytesIn A.visible a len)
    (ht : HostLength len → BytesIn (Set.compl A.tables) a len) (data : Word) :
    A.Local rest A.Active (pmemWrite a len data) := by
  by_cases hl : HostLength len
  · refine .bind (assert_local _) fun _ => .change_of (fun s _ => ?_) fun s hs => ⟨hs.view, fun x hx => ?_⟩
    · exact congrArg (fun m => ({ s with pmem := m } : Machine)) (writeLE_piecewise (h hl) data)
    · exact (writeLE_disjoint (ht hl) data hx).trans (hs.image x hx)
  · unfold pmemWrite assert
    rw [if_neg hl]
    change A.Local rest A.Active (throw (.abort .hostLength) : Exec Unit)
    exact .raise _

variable {va : Word}

theorem paddrRead_local (hV : KeptBeside V) (h : HostLength len → BytesIn A.visible (P.paddr pa) len) :
    A.Local rest V (paddrRead P pa len type mode va) := by
  refine .read (fun s _ => ?_) fun s _ => .ite (fun _ => raiseReadAccessFault_local hV) fun _ =>
    .ite (fun _ => pmemRead_local h) fun _ => .ite (fun _ => mmioRead_local hV) fun _ =>
      .ite (fun _ => .ret _) fun _ => raiseReadAccessFault_local hV
  rw [isaPmpCheckPermission_beyond]

/-- The reference has no devices to write to. -/
theorem paddrWrite_local (hP : P.share = true) (h : HostLength len → BytesIn A.visible (P.paddr pa) len)
    (ht : HostLength len → BytesIn (Set.compl A.tables) (P.paddr pa) len) :
    A.Local rest A.Active (paddrWrite P pa len data mode va) := by
  refine .read (fun s _ => ?_) fun s _ => .ite (fun _ => raiseAccessFault_local keptBeside_active) fun _ =>
    .ite (fun _ => pmemWrite_local h ht data) fun _ => .ite (fun hn => ?_) fun _ =>
      .ite (fun _ => .ret _) fun _ => raiseAccessFault_local keptBeside_active
  · rw [isaPmpCheckPermission_beyond]
  · rw [hP] at hn
    cases hn

theorem checkPermission_local (hV : KeptBeside V) : A.Local rest V (checkPermission P pte b va type) := by
  refine .read (fun _ _ => rfl) fun s _ => .bind (assert_local _) fun _ => ?_
  dsimp only
  cases type with
  | ifetch =>
    dsimp only
    exact .ite (fun _ => .bind (assert_local _) fun _ => faultAt_local hV) fun _ => .ret _
  | read | write | ifetchRead | writeRead =>
    dsimp only
    exact .ite (fun _ => .bind (setAmo_local hV false) fun _ => faultAt_local hV) fun _ =>
      .ite (fun _ => dasicsFault_local hV) fun _ => .ret _

theorem entry_visible (h : EntriesIn P A.image A.tables va level base) :
    BytesIn A.visible (P.paddr (base + vpn va level * 8)) 8 :=
  fun _ hi => .inl (h.bytes hi)

theorem entry_read (hA : A.Active s) (he : EntriesIn P A.image A.tables va level base)
    (h : paddrRead P (base + vpn va level * 8) 8 type mode va s = .ok x t) :
    x = Bytes.readLE 64 A.image (P.paddr (base + vpn va level * 8)) 8 := by
  rw [(paddrRead_inMemory he.inMemory h).2]
  exact Bytes.readLE_congr fun i hi => hA.image _ (he.bytes hi)

theorem ptwLoop_local (he : EntriesIn P A.image A.tables va level base) :
    A.Local rest A.Active (ptwLoop P va type level base) := by
  induction level generalizing base with
  | zero =>
    unfold ptwLoop
    exact .bind (paddrRead_local keptBeside_active fun _ => entry_visible he) fun val =>
      .ite (fun _ => .ret _) fun _ => .ite (fun _ => .ret _) fun _ => .ret _
  | succ level ih =>
    unfold ptwLoop
    refine .bind_of (paddrRead_local keptBeside_active fun _ => entry_visible he)
      (fun s x u hs h => entry_read hs he h) ?_
    rintro _ rfl
    refine .ite (fun _ => .ret _) fun hbad => .ite (fun _ => .ret _) fun hleaf => ih ?_
    unfold EntriesIn at he
    exact he.2.2 (Bool.eq_false_iff.mpr hbad) (Bool.eq_false_iff.mpr hleaf)

theorem ptwWalk_local : A.Local rest A.Active (ptwWalk P va type) := by
  refine .read (fun _ _ => rfl) fun s hs => .ite (fun hc => ?_) fun _ => .ret _
  have hroot : pageBase ((s.csr .satp).extractLsb' 0 44) = tableRoot A.satp := hs.root
  rw [hroot]
  exact ptwLoop_local (A.entries va hc)

/-- The reference leaves the bits A and D to software. -/
theorem ptwUpdateAd_local (hP : P.share = true) : A.Local rest V (ptwUpdateAd P pPte pte va type) := by
  refine .read (fun _ _ => rfl) fun s _ => .ite (fun hn => ?_) fun _ => .ret _
  rw [hP] at hn
  cases hn

theorem ptw_local (hP : P.share = true) : A.Local rest A.Active (ptw P va type) := by
  have hcheck : ∀ pte b, A.Local rest A.Active (checkPermission P pte b va type) := fun _ _ =>
    checkPermission_local keptBeside_active
  refine .bind ptwWalk_local fun w => ?_
  cases w with
  | bad pte => exact .bind (hcheck _ _) fun _ => .ret _
  | leaf level pPte pte =>
    exact .bind (hcheck _ _) fun _ => .ite (fun _ => .bind (hcheck _ _) fun _ => .ret _) fun _ =>
      .bind (ptwUpdateAd_local hP) fun _ => .ret _

theorem forceRaisePf_local (hV : KeptBeside V) : A.Local rest V (forceRaisePf P va type) := by
  have hcount : A.Local rest V (forceRaisePfRecord va type) :=
    .read (fun _ _ => rfl) fun _ _ => .bind (.change hV (fun _ => rfl) (fun _ => rfl) fun _ => rfl) fun _ => .ret _
  have hcounted : ∀ {k : Exec Unit}, A.Local rest V k →
      A.Local rest V (forceRaisePfRecord va type >>= fun again => if again then pure () else k) := fun hk =>
    .bind hcount fun _ => .ite (fun _ => .ret _) fun _ => hk
  refine .read (fun _ _ => rfl) fun s _ => .ite (fun _ => ?_) fun _ => .ret _
  refine .ite (fun _ => hcounted (.ite (fun _ => ?_) fun _ => ?_)) fun _ =>
    .ite (fun _ => hcounted (faultAt_local hV)) fun _ =>
      .ite (fun _ => hcounted (faultAt_local hV)) fun _ => .ret _
  · exact .bind (setCsr_local hV _ _ (by decide) (by decide)) fun _ => .raise _
  · exact .bind (setCsr_local hV _ _ (by decide) (by decide)) fun _ => .raise _

theorem isaMmuTranslate_local (hP : P.share = true) : A.Local rest A.Active (isaMmuTranslate P va type) :=
  .bind (ptw_local hP) fun _ => .ite
    (fun _ => .bind (forceRaisePf_local keptBeside_active) fun _ => .ret _) fun _ => .ret _

theorem isaMmuCheck_local (hV : KeptBeside V) : A.Local rest V (isaMmuCheck P va len type) := by
  refine .read (fun _ _ => rfl) fun s _ => ?_
  dsimp only
  refine .ite (fun _ => ?_) fun _ => .ite (fun _ => .ret _) fun _ => .ite (fun _ => faultAt_local hV) fun _ => .ret _
  cases type with
  | ifetch =>
    refine .bind (setCsr_local hV _ _ (by decide) (by decide)) fun _ => .bind ?_ fun _ => .raise _
    rw [intrTvalReg_eq]
    exact setTval_local hV _ _
  | read | write | ifetchRead | writeRead => exact faultAt_local hV

theorem isaMisalignDataAddrCheck_local (hV : KeptBeside V) :
    A.Local rest V (isaMisalignDataAddrCheck P va len type) :=
  .read (fun _ _ => rfl) fun _ _ => .ite (fun _ => faultAt_local hV) fun _ => .ret _

theorem dasicsLdstHelper_local (hV : KeptBeside V) : A.Local rest V (dasicsLdstHelper P pc va len type) := by
  have hbytes : ∀ close cfg reason, A.Local rest V (dasicsCheckBytes P close cfg reason va len) := by
    intro close cfg reason
    refine .read (fun _ _ => rfl) fun s _ => ?_
    split
    · exact dasicsFault_local hV
    · exact .ret _
  refine .read (fun _ _ => rfl) fun s _ => .ite (fun _ => .ret _) fun _ => ?_
  cases type with
  | write => exact hbytes _ _ _
  | read => exact hbytes _ _ _
  | ifetch | ifetchRead | writeRead => exact .ret _

theorem vaddrCheck_local (hV : KeptBeside V) (pc : Option Word) : A.Local rest V (vaddrCheck P pc va len type) := by
  have hbounds : ∀ pc, A.Local rest V (if P.dasics then dasicsLdstHelper P pc va len type else pure ()) :=
    fun pc => .ite (fun _ => dasicsLdstHelper_local hV) fun _ => .ret _
  unfold vaddrCheck
  cases pc with
  | none =>
    exact .ite (fun _ => .bind (isaMisalignDataAddrCheck_local hV) fun _ => .ret _) fun _ => .ret _
  | some pc =>
    exact .ite (fun _ => .bind (isaMisalignDataAddrCheck_local hV) fun _ => hbounds pc) fun _ => hbounds pc

end Memory

section Page

/-- An aligned access stays in its page. -/
def PageAccess (va : Word) (len : Nat) : Prop := ∀ i < len, va.toNat % 4096 + i < 4096

theorem pageAccess_aligned (hl : HostLength len) (h : va &&& (BitVec.ofNat 64 len - 1) = 0) :
    PageAccess va len := by
  have hmod : ∀ k, (BitVec.ofNat 64 len - 1).toNat = 2 ^ k - 1 → va.toNat % 2 ^ k = 0 := by
    intro k hk
    have h1 := congrArg BitVec.toNat h
    rwa [BitVec.toNat_and, hk, Nat.and_two_pow_sub_one_eq_mod] at h1
  intro i hi
  rcases hl with rfl | rfl | rfl | rfl
  · omega
  · have h1 := hmod 1 (by decide)
    omega
  · have h1 := hmod 2 (by decide)
    omega
  · have h1 := hmod 3 (by decide)
    omega

theorem PageAccess.vpn (h : PageAccess va len) (hi : i < len) :
    hosttlbVpn (va + BitVec.ofNat 64 i) = hosttlbVpn va := by
  have hlt := h i hi
  apply BitVec.eq_of_toNat_eq
  simp only [hosttlbVpn, BitVec.toNat_ushiftRight, Nat.shiftRight_eq_div_pow, BitVec.toNat_add, BitVec.toNat_ofNat]
  have hva := va.isLt
  omega

theorem PageAccess.byte (h : PageAccess va len) (hf : f &&& pageMask = 0) (hi : i < len) :
    (f ||| (va &&& pageMask)) + BitVec.ofNat 64 i = f ||| ((va + BitVec.ofNat 64 i) &&& pageMask) := by
  have hlt := h i hi
  have hlow : (va + BitVec.ofNat 64 i) &&& pageMask = (va &&& pageMask) + BitVec.ofNat 64 i := by
    apply BitVec.eq_of_toNat_eq
    rw [toNat_low, BitVec.toNat_add, BitVec.toNat_add, toNat_low, BitVec.toNat_ofNat]
    omega
  rw [or_low hf, or_low hf, hlow, BitVec.add_assoc]

theorem AddressSpace.Lands.visible (h : A.Lands va type f) (hf : f &&& pageMask = 0) (ha : PageAccess va len) :
    BytesIn A.visible (f ||| (va &&& pageMask)) len := by
  intro i hi
  rw [ha.byte hf hi]
  exact .inr (h.page _ (ha.vpn hi))

theorem AddressSpace.Lands.harmless (h : A.Lands va .write f) (hf : f &&& pageMask = 0) (ha : PageAccess va len) :
    BytesIn (Set.compl A.tables) (f ||| (va &&& pageMask)) len := by
  intro i hi
  rw [ha.byte hf hi]
  exact h.writable rfl _ (ha.vpn hi)

end Page

section Access

variable {va : Word} {type : MemType} (hP : P.share = true)

include hP

theorem paddr_share (pa : Word) : P.paddr pa = pa := if_pos (P.pmem64_dep hP)

theorem vaddrMmuRead_local (ha : HostLength len → PageAccess va len) :
    A.Local rest A.Active (vaddrMmuRead P va len type) := by
  refine .bind_of (Q := fun r => A.Lands va type r ∧ r &&& pageMask = 0) (isaMmuTranslate_local hP)
    (fun s r u hs h => translate_lands hs h) ?_
  rintro r ⟨hr, hpage⟩
  rw [if_pos hpage]
  refine .read (fun _ _ => rfl) fun s _ => paddrRead_local keptBeside_active fun hl => ?_
  rw [paddr_share hP]
  exact hr.visible hpage (ha hl)

theorem vaddrMmuWrite_local (ha : HostLength len → PageAccess va len) :
    A.Local rest A.Active (vaddrMmuWrite P va len data) := by
  refine .bind_of (Q := fun r => A.Lands va .write r ∧ r &&& pageMask = 0) (isaMmuTranslate_local hP)
    (fun s r u hs h => translate_lands hs h) ?_
  rintro r ⟨hr, hpage⟩
  rw [if_pos hpage]
  refine .read (fun _ _ => rfl) fun s _ => paddrWrite_local hP (fun hl => ?_) fun hl => ?_
  · rw [paddr_share hP]
    exact hr.visible hpage (ha hl)
  · rw [paddr_share hP]
    exact hr.harmless hpage (ha hl)

omit hP in
theorem resolveMmuMode_local {m : MmuMode} (hm : m ≠ .direct) {k : MmuMode → Exec α}
    (hk : ∀ m, m ≠ .direct → A.Local rest A.Active (k m)) :
    A.Local rest A.Active (resolveMmuMode P va len type m >>= k) := by
  cases m with
  | direct => exact absurd rfl hm
  | translate => exact hk .translate hm
  | dynamic =>
    refine .bind_of (isaMmuCheck_local keptBeside_active) (fun s m u hs h => ?_) hk
    obtain ⟨-, rfl⟩ := isaMmuCheck_ok h
    unfold Machine.mmuCache
    rw [hs.ifetch, hs.data]
    split <;> decide

variable (hac : P.acSoft = true)

include hac

theorem vaddrCheck_aligned (ht : type ≠ .ifetch) (h : vaddrCheck P (some pc) va len type s = .ok () t)
    (hl : HostLength len) : PageAccess va len := by
  apply pageAccess_aligned hl
  by_contra hne
  rw [vaddrCheck_misaligned ⟨hP, hac, hne⟩ ht] at h
  cases h

theorem vaddrRead_local (hm : m ≠ .direct) : A.Local rest A.Active (vaddrRead P pc va len m) := by
  refine .bind_of (Q := fun _ => HostLength len → PageAccess va len) (vaddrCheck_local keptBeside_active _)
    (fun s _ u _ h hl => vaddrCheck_aligned hP hac (by decide) h hl) fun _ ha =>
      resolveMmuMode_local hm fun m hm => ?_
  rw [if_neg hm]
  exact vaddrMmuRead_local hP ha

theorem vaddrWrite_local (hm : m ≠ .direct) : A.Local rest A.Active (vaddrWrite P pc va len data m) := by
  refine .bind_of (Q := fun _ => HostLength len → PageAccess va len) (vaddrCheck_local keptBeside_active _)
    (fun s _ u _ h hl => vaddrCheck_aligned hP hac (by decide) h hl) fun _ ha =>
      resolveMmuMode_local hm fun m hm => ?_
  rw [if_neg hm]
  exact vaddrMmuWrite_local hP ha

omit hac in
/-- The halves of an instruction do not cross a page. -/
theorem vaddrIfetch_local (ha : PageAccess va len) : A.Local rest A.Active (vaddrIfetch P va len) := by
  refine .bind (vaddrCheck_local keptBeside_active _) fun _ => resolveMmuMode_local (by decide) fun m hm => ?_
  rw [if_neg hm]
  exact vaddrMmuRead_local hP fun _ => ha

end Access

section Executors

variable {d : Decode}

section Any

variable (hV : KeptBeside V)

theorem readReg_local : A.Local rest V (readReg l) := by
  refine .read (fun s _ => ?_) fun _ _ => .ret _
  cases l <;> rfl

include hV

theorem writeReg_local (l : Loc) (v : Word) : A.Local rest V (writeReg l v) := by
  cases l with
  | gpr r => exact .change hV (fun _ => rfl) (fun _ => rfl) fun _ => rfl
  | fpr r => exact .change hV (fun _ => rfl) (fun _ => rfl) fun _ => rfl
  | zeroNull => exact .change hV (fun _ => rfl) (fun _ => rfl) fun _ => rfl

theorem rtlJ_local (a : Word) : A.Local rest V (rtlJ P a) := by
  refine .change hV (fun s => ?_) (fun s => ?_) fun s => ?_
  · unfold Machine.beyond
    dsimp only
    split <;> rfl
  · split <;> rfl
  · split <;> rfl

theorem recordMemEvent_local : A.Local rest V (recordMemEvent P isLoad va) := by
  refine .change hV (fun s => ?_) (fun s => ?_) fun s => ?_
  · cases P.queryRef <;> rfl
  · split <;> rfl
  · split <;> rfl

theorem compute_local (l l' : Loc) (f : Word → Word) : A.Local rest V (do
    let x ← readReg l
    writeReg l' (f x)) :=
  .bind readReg_local fun _ => writeReg_local hV _ _

theorem compute₂_local (l₁ l₂ l : Loc) (f : Word → Word → Word) : A.Local rest V (do
    let x ← readReg l₁
    let y ← readReg l₂
    writeReg l (f x y)) :=
  .bind readReg_local fun _ => .bind readReg_local fun _ => writeReg_local hV _ _

theorem rtlJrelop_local (o : RelOp) (x y : Word) : A.Local rest V (rtlJrelop P d o x y) :=
  rtlJ_local hV _

theorem fpSetDirty_local : A.Local rest V (fpSetDirty P) := by
  refine modifyMstatus_local hV fun x => ?_
  unfold fpSetDirtyVal
  rw [BitField.getLsbD_insert_disjoint _ _ _ _ (by decide)]
  split
  · exact BitField.getLsbD_insert_disjoint _ _ _ _ (by decide)
  · rfl

theorem rtlFsr_local (l : Loc) (v : Word) (w : FpWidth) : A.Local rest V (rtlFsr P l v w) :=
  .bind (writeReg_local hV _ _) fun _ => fpSetDirty_local hV

theorem isaFpSetEx_local (ex : BitVec 32) : A.Local rest V (isaFpSetEx P ex) := by
  refine .bind (.change hV (fun _ => rfl) (fun s => ?_) fun _ => rfl) fun _ => fpSetDirty_local hV
  exact (userView_setCsr _ _ (by decide) (by decide)).trans (userView_setCsr _ _ (by decide) (by decide))

theorem rtlFpcall_local : A.Local rest V (rtlFpcall P d o w x y z) := by
  have hrm : A.Local rest V (isaFpGetRm d) :=
    .read (fun _ _ => rfl) fun _ _ => .ite (fun _ => .ret _) fun _ => .ite (fun _ => .ret _) fun _ => .raise _
  have hcall : A.Local rest V (fpcallRm d o) := .ite (fun _ => .bind hrm fun _ => .ret _) fun _ => .ret _
  have hfs : A.Local rest V fpCheckFs :=
    .read (fun _ _ => rfl) fun _ _ => .ite (fun _ => .raise _) fun _ => .ret _
  exact .bind hfs fun _ => .bind hcall fun _ => .ite (fun _ => .bind (isaFpSetEx_local hV _) fun _ => .ret _)
    fun _ => .ret _

theorem rtlSetDretpc_local (v : Word) : A.Local rest V (rtlSetDretpc d v) :=
  .bind (.read (fun _ _ => rfl) fun _ _ => .ite (fun _ => .ret _) fun _ => .raise _) fun _ =>
    setCsr_local hV _ _ (by decide) (by decide)

end Any

theorem illegalIf_local (p : Prop) [Decidable p] : A.Local rest V (illegalIf p) :=
  .ite (fun _ => .raise _) fun _ => .ret _

theorem privFence_local : A.Local rest V (privFence P op) := by
  have hw : ∀ (p : Prop) [Decidable p], A.Local rest V (illegalWhen p) := fun p _ =>
    .bind (illegalIf_local p) fun _ => .ret _
  exact .read (fun _ _ => rfl) fun s _ => .ite (fun _ => hw _) fun _ => .ite (fun _ => hw _) fun _ =>
    .ite (fun _ => .ret _) fun _ => .ite (fun _ => hw _) fun _ => .ite (fun _ => hw _) fun _ =>
      .ite (fun _ => .raise _) fun _ => .raise _

variable (hP : P.share = true) (hac : P.acSoft = true)

include hP hac

section Data

variable {m : MmuMode} (hm : m ≠ .direct)

include hm

theorem rtlLm_local : A.Local rest A.Active (rtlLm P d dest addr off len m) :=
  .bind readReg_local fun _ => .bind (vaddrRead_local hP hac hm) fun _ =>
    .bind (writeReg_local keptBeside_active _ _) fun _ => .bind readReg_local fun _ =>
      recordMemEvent_local keptBeside_active

theorem rtlSm_local : A.Local rest A.Active (rtlSm P d data addr off len m) :=
  .bind readReg_local fun _ => .bind (vaddrWrite_local hP hac hm) fun _ =>
    recordMemEvent_local keptBeside_active

theorem rtlLms_local : A.Local rest A.Active (rtlLms P d addr off len m) :=
  .bind readReg_local fun _ => .bind (vaddrRead_local hP hac hm) fun _ => .bind (assert_local _) fun _ => .ret _

theorem execFload_local : A.Local rest A.Active (execFload P d w m) :=
  .bind (rtlLm_local hP hac hm) fun _ => .bind readReg_local fun _ => rtlFsr_local keptBeside_active _ _ _

theorem execFstore_local : A.Local rest A.Active (execFstore P d w m) :=
  .bind readReg_local fun _ => rtlSm_local hP hac hm

end Data

omit hac in
theorem execInv_local : A.Local rest V (execInv P d) := by
  unfold execInv
  rw [hP, Bool.not_true, Bool.and_false]
  exact .raise _

theorem lrStep_local : A.Local rest A.Active (lrStep P d width) :=
  .read (fun _ _ => rfl) fun _ _ => .bind (assert_local _) fun _ =>
    .bind (rtlLms_local hP hac (by decide)) fun _ => .bind (writeReg_local keptBeside_active _ _) fun _ =>
      .bind readReg_local fun _ => .change keptBeside_active (fun _ => rfl) (fun _ => rfl) fun _ => rfl

omit hac in
theorem scFailCheck_local : A.Local rest A.Active (scFailCheck P d width) := by
  refine .bind readReg_local fun a => .bind (isaMmuCheck_local keptBeside_active) fun m => .bind ?_ fun pa =>
    .read (fun s _ => ?_) fun s _ => .ite (fun _ => faultAt_local keptBeside_active) fun _ => .ret _
  · cases m with
    | direct | dynamic => exact .ret _
    | translate => exact isaMmuTranslate_local hP
  · rw [isaPmpCheckPermission_beyond]
    rfl

theorem scStep_local : A.Local rest A.Active (scStep P d width) := by
  have hset : ∀ b, A.Local rest A.Active (setScAmo P b) := fun b =>
    .ite (fun _ => setAmo_local keptBeside_active b) fun _ => .ret _
  have hstore : A.Local rest A.Active (scStore P d width) :=
    .bind readReg_local fun _ => .bind (rtlSm_local hP hac (by decide)) fun _ =>
      .change keptBeside_active (fun _ => rfl) (fun _ => rfl) fun _ => rfl
  have hend : ∀ v, A.Local rest A.Active (writeReg d.dest.preg v >>= fun _ => setScAmo P false) := fun v =>
    .bind (writeReg_local keptBeside_active _ _) fun _ => hset false
  refine .bind (hset true) fun _ => .read (fun s _ => ?_) fun s _ =>
    .ite (fun _ => .bind hstore fun _ => hend 0) fun _ => .bind (scFailCheck_local hP) fun _ => hend 1
  have hs : (s.beyond A.visible rest).scSuccess d = s.scSuccess d := by
    unfold Machine.scSuccess
    cases d.src1.preg <;> rfl
  rw [hs]

theorem amoStep_local : A.Local rest A.Active (amoStep P d f w) := by
  refine .bind (setAmo_local keptBeside_active _) fun _ => .bind (rtlLms_local hP hac (by decide)) fun x =>
    .bind readReg_local fun y => ?_
  split
  · exact .raise _
  · exact .bind (rtlSm_local hP hac (by decide)) fun _ => .bind (writeReg_local keptBeside_active _ _) fun _ =>
      setAmo_local keptBeside_active _

theorem rtlAmoSlowPath_local : A.Local rest A.Active (rtlAmoSlowPath P d) :=
  .ite (fun _ => lrStep_local hP hac) fun _ => .ite (fun _ => scStep_local hP hac) fun _ => amoStep_local hP hac

theorem runVector_local (hm : m ≠ .direct) (v : VProg) (hv : v.MemoryBlind) :
    A.Local rest A.Active (runVector P d m v) := by
  induction v with
  | done => exact .ret _
  | inv => exact execInv_local hP
  | stuck => exact .raise _
  | get k ih =>
    unfold runVector
    refine .read (fun s _ => ?_) fun s _ => ih s (hv.2 s)
    exact congrArg (runVector P d m) (hv.1 s _)
  | setVr r v k ih =>
    unfold runVector
    exact .bind (.change keptBeside_active (fun _ => rfl) (fun _ => rfl) fun _ => rfl) fun _ => ih hv
  | setGpr r v k ih =>
    unfold runVector
    refine .bind (.change keptBeside_active (fun s => ?_) (fun s => ?_) fun s => ?_) fun _ => ih hv
    · split <;> rfl
    · split <;> rfl
    · split <;> rfl
  | setCsr c v k ih =>
    unfold runVector
    exact .bind (setCsr_local keptBeside_active _ _ (by cases c <;> decide) (by cases c <;> decide)) fun _ => ih hv
  | load addr len k ih =>
    unfold runVector
    exact .bind (vaddrRead_local hP hac hm) fun v => .bind (recordMemEvent_local keptBeside_active) fun _ =>
      ih v (hv v)
  | store addr len data k ih =>
    unfold runVector
    exact .bind (vaddrWrite_local hP hac hm) fun v => .bind (recordMemEvent_local keptBeside_active) fun _ => ih hv

theorem exec_local (hv : ∀ d, (P.vector d).MemoryBlind) (hu : d.id.Uses .translate) (hs : d.id ≠ .system) :
    A.Local rest A.Active (exec P d) := by
  have hmode : ∀ {m}, d.id.mmuMode = some m → m ≠ .direct := by
    rintro m h rfl
    obtain hn | hn := hu
    · cases h.symm.trans hn
    · cases h.symm.trans hn
  have hV := keptBeside_active (A := A)
  unfold exec
  cases hid : d.id with
  | system => exact absurd hid hs
  | inv => exact execInv_local hP
  | rt_inv => exact .raise _
  | nemu_trap =>
    exact .read (fun _ _ => rfl) fun s _ => .ite (fun _ => setCsr_local hV _ _ (by decide) (by decide)) fun _ =>
      .ite (fun _ => .ret _) fun _ => .raise _
  | fence_i =>
    dsimp only
    rw [privInstr_fence_i]
    exact .bind privFence_local fun _ => .ret _
  | fence => exact .ret _
  | lui | auipc | c_li | p_li_0 | p_li_1 => exact writeReg_local hV _ _
  | computeReg o | compressedReg o | rvbReg o | rvkReg o => exact compute₂_local hV _ _ _ _
  | computeImm o | compressedImm o | rvbImm o | rvkImm o => exact compute_local hV _ _ _
  | c_mv | p_inc | p_dec | p_sext_w | fmv_x_w | fmv_x_d => exact compute_local hV _ _ _
  | fclass w => exact compute_local hV _ _ _
  | load signed len m =>
    have hm := hmode (m := m) (by rw [hid]; rfl)
    cases signed with
    | true => exact .bind (rtlLms_local hP hac hm) fun _ => writeReg_local hV _ _
    | false => exact rtlLm_local hP hac hm
  | store len m => exact .bind readReg_local fun _ => rtlSm_local hP hac (hmode (by rw [hid]; rfl))
  | atomic => exact rtlAmoSlowPath_local hP hac
  | fload w m => exact execFload_local hP hac (hmode (by rw [hid]; rfl))
  | fstore w m => exact execFstore_local hP hac (hmode (by rw [hid]; rfl))
  | fop o w =>
    exact .bind readReg_local fun _ => .bind readReg_local fun _ => .bind (rtlFpcall_local hV) fun _ =>
      rtlFsr_local hV _ _ _
  | funary o w w' =>
    exact .bind readReg_local fun _ => .bind (rtlFpcall_local hV) fun _ => rtlFsr_local hV _ _ _
  | fcvtToI o w =>
    exact .bind readReg_local fun _ => .bind (rtlFpcall_local hV) fun _ => writeReg_local hV _ _
  | fcmp o w =>
    refine .bind readReg_local fun x => .bind readReg_local fun y => .bind ?_ fun _ =>
      .bind (rtlFpcall_local hV) fun _ => writeReg_local hV _ _
    cases fcmpCopies o w with
    | true => exact writeReg_local hV _ _
    | false => exact .change hV (fun _ => rfl) (fun _ => rfl) fun _ => rfl
  | fmadd b b' w =>
    exact .bind readReg_local fun _ => .bind readReg_local fun _ => .bind readReg_local fun _ =>
      .bind (rtlFpcall_local hV) fun _ => rtlFsr_local hV _ _ _
  | fsgnj w | fsgnjn w | fsgnjx w =>
    exact .bind readReg_local fun _ => .bind readReg_local fun _ => rtlFsr_local hV _ _ _
  | fmv_w_x | fmv_d_x => exact .bind readReg_local fun _ => rtlFsr_local hV _ _ _
  | vector m => exact runVector_local hP hac (hmode (by rw [hid]; rfl)) _ (hv d)
  | jal | p_jal => exact .bind (writeReg_local hV _ _) fun _ => rtlJ_local hV _
  | c_j => exact rtlJ_local hV _
  | dasicscall_j =>
    exact .bind (rtlSetDretpc_local hV _) fun _ => .bind (writeReg_local hV _ _) fun _ => rtlJ_local hV _
  | jalr =>
    exact .bind readReg_local fun _ => .read (fun _ _ => rfl) fun _ _ =>
      .bind (writeReg_local hV _ _) fun _ => rtlJ_local hV _
  | dasicscall_jr =>
    exact .bind readReg_local fun _ => .read (fun _ _ => rfl) fun _ _ => .bind (rtlSetDretpc_local hV _) fun _ =>
      .bind (writeReg_local hV _ _) fun _ => rtlJ_local hV _
  | p_ret | c_jr => exact .bind readReg_local fun _ => rtlJ_local hV _
  | c_jalr =>
    exact .bind readReg_local fun _ => .bind (writeReg_local hV _ _) fun _ => .bind readReg_local fun _ =>
      rtlJ_local hV _
  | branch o => exact .bind readReg_local fun _ => .bind readReg_local fun _ => rtlJrelop_local hV _ _ _
  | c_beqz | c_bnez | p_blez | p_bgez | p_bltz | p_bgtz =>
    exact .bind readReg_local fun _ => rtlJrelop_local hV _ _ _

end Executors

section System

variable {d : Decode}

theorem AddressSpace.Local.system {f : Machine → Machine}
    (hf : ∀ s, f (s.beyond A.visible rest) = (f s).beyond A.visible rest) (hm : ∀ s, (f s).pmem = s.pmem) :
    A.Local rest A.Loaded (modify f : Exec PUnit) := by
  refine .change_of (fun s _ => hf s) fun s hs a ha => ?_
  rw [hm]
  exact hs a ha

theorem system_setCsr (c : Csr) (v : Word) : A.Local rest A.Loaded (setCsr c v) :=
  .system (fun _ => rfl) fun _ => rfl

theorem system_modifyMstatus (f : Word → Word) : A.Local rest A.Loaded (modifyMstatus f) :=
  .system (fun _ => rfl) fun _ => rfl

theorem updateMmuState_local : A.Local rest A.Loaded updateMmuState := by
  have hint : ∀ b, A.Local rest A.Loaded (updateMmuStateInternal b) := fun b =>
    .read (fun _ _ => rfl) fun _ _ => .ite (fun _ => .bind (assert_local _) fun _ =>
      .ite (fun _ => .ret _) fun _ => .ret _) fun _ => .ret _
  exact .bind (hint true) fun _ => .bind (.system (fun _ => rfl) fun _ => rfl) fun _ =>
    .bind (hint false) fun _ => .system (fun _ => rfl) fun _ => rfl

theorem raiseIntr_local : A.Local rest A.Loaded (raiseIntr P no epc) := by
  have htail : ∀ l : Level, A.Local rest A.Loaded (do
      modify fun s => { s with mode := l.mode }
      updateMmuState
      let s ← get
      pure (getTrapPc (s.csr l.tvec) (s.csr l.cause))) := fun l =>
    .bind (.system (fun _ => rfl) fun _ => rfl) fun _ => .bind updateMmuState_local fun _ =>
      .read (fun _ _ => rfl) fun _ _ => .ret _
  exact .read (fun _ _ => rfl) fun s _ => .bind (system_setCsr _ _) fun _ => .bind (system_setCsr _ _) fun _ =>
    .bind (system_modifyMstatus _) fun _ => .ite (fun _ => htail _) fun _ =>
      .bind (system_setCsr _ _) fun _ => htail _

theorem retTail_local (epc : Csr) : A.Local rest A.Loaded (retTail epc) :=
  .bind updateMmuState_local fun _ => .read (fun _ _ => rfl) fun _ _ => .ret _

theorem privInstr_local : A.Local rest A.Loaded (privInstr P op) := by
  have hmode : ∀ g : Machine → Mode, (∀ s : Machine, g (s.beyond A.visible rest) = g s) →
      A.Local rest A.Loaded (modify fun s => { s with mode := g s } : Exec PUnit) := fun g hg =>
    .system (fun s => congrArg (fun m => ({ s.beyond A.visible rest with mode := m } : Machine)) (hg s)) fun _ => rfl
  have huret : A.Local rest A.Loaded (uret P) :=
    .bind (system_modifyMstatus _) fun _ => .bind (hmode (fun _ => .U) fun _ => rfl) fun _ =>
      .bind (system_modifyMstatus _) fun _ => retTail_local _
  have hsret : A.Local rest A.Loaded (sret P) :=
    .read (fun _ _ => rfl) fun _ _ => .bind (illegalIf_local _) fun _ => .bind (system_modifyMstatus _) fun _ =>
      .bind (hmode _ fun _ => rfl) fun _ => .read (fun _ _ => rfl) fun _ _ => .bind (system_modifyMstatus _) fun _ =>
        .bind (system_modifyMstatus _) fun _ => retTail_local _
  have hmret : A.Local rest A.Loaded (mret P) :=
    .read (fun _ _ => rfl) fun _ _ => .bind (illegalIf_local _) fun _ => .bind (system_modifyMstatus _) fun _ =>
      .bind (hmode _ fun _ => rfl) fun _ => .read (fun _ _ => rfl) fun _ _ => .bind (system_modifyMstatus _) fun _ =>
        .bind (system_modifyMstatus _) fun _ => retTail_local _
  exact .ite (fun _ => huret) fun _ => .ite (fun _ => hsret) fun _ => .ite (fun _ => hmret) fun _ => privFence_local

theorem rtlTrap_local : A.Local rest A.Loaded (rtlTrap P d no) := by
  have hcall : A.Local rest A.Loaded (hostcallTrap P d.pc no d.pc) :=
    .read (fun _ _ => rfl) fun _ _ => .ite (fun _ => .bind (system_setCsr _ _) fun _ => raiseIntr_local) fun _ =>
      .ite (fun _ => .bind (system_setCsr _ _) fun _ => raiseIntr_local) fun _ => raiseIntr_local
  exact .bind hcall fun _ => .bind (rtlJ_local keptBeside_loaded _) fun _ => .ret _

theorem sysPriv_local : A.Local rest A.Loaded (sysPriv P d) :=
  .bind (.read (fun _ _ => rfl) fun _ _ => .ite (fun _ => rtlTrap_local) fun _ =>
      .ite (fun _ => rtlTrap_local) fun _ => privInstr_local) fun _ =>
    .ite (fun _ => rtlJ_local keptBeside_loaded _) fun _ => .ret _

theorem csrIsLegal_local : A.Local rest A.Loaded (csrIsLegal P addr w pc) := by
  refine .read (fun _ _ => rfl) fun s _ => ?_
  split
  · exact .bind (assert_local _) fun _ => .ret _
  · exact .bind (assert_local _) fun _ => .ite (fun _ => .ret _) fun _ => .ret _

theorem csrRead_local (c : Csr) : A.Local rest A.Loaded (csrRead P c) := by
  refine .bind (.ite (fun _ => system_modifyMstatus _) fun _ => .ret _) fun _ => .read (fun _ _ => rfl) fun s _ => ?_
  cases c with
  | pmpaddr i => exact .ite (fun _ => .raise _) fun _ => .ite (fun _ => .ret _) fun _ => .ret _
  | fcsr | fflags | frm | satp => exact .ite (fun _ => .raise _) fun _ => .ret _
  | mtime => exact .bind (.system (fun _ => rfl) fun _ => pmem_setMtip _ _) fun _ => .ret _
  | _ => exact .ret _

theorem csrStore_beyond (s : Machine) (vis : Set Word) (c : Csr) (x : Word) :
    csrStore P (s.beyond vis rest) c x = (csrStore P s c x).beyond vis rest := by
  cases c with
  | misa | pmpcfg _ | satp =>
    unfold csrStore
    dsimp only
    split <;> rfl
  | pmpaddr i =>
    have hl : pmpaddrLocked P (s.beyond vis rest) i = pmpaddrLocked P s i := rfl
    unfold csrStore
    dsimp only
    rw [hl]
    split <;> rfl
  | _ => rfl

theorem csrWrite_local (c : Csr) (x : Word) : A.Local rest A.Loaded (csrWrite P c x) := by
  have hfp : A.Local rest A.Loaded (csrWriteFp P c) :=
    .ite (fun _ => .bind (system_modifyMstatus _) fun _ => .read (fun _ _ => rfl) fun _ _ =>
      .bind (assert_local _) fun _ => .system (fun _ => rfl) fun _ => rfl) fun _ => .ret _
  refine .read (fun _ _ => rfl) fun _ _ => .bind (illegalIf_local _) fun _ =>
    .bind (.system (fun s => csrStore_beyond s _ c x) fun s => ?_) fun _ => .bind hfp fun _ =>
      .bind (.ite (fun _ => system_modifyMstatus _) fun _ => .ret _) fun _ =>
        .ite (fun _ => updateMmuState_local) fun _ => .ret _
  rw [csrStore_only]

theorem csrrw_local (r : Bool) (src : Option Word) : A.Local rest A.Loaded (csrrw P r src csrid pc) := by
  refine .bind csrIsLegal_local fun c => ?_
  cases c with
  | none => exact .raise _
  | some c =>
    cases r with
    | true =>
      cases src with
      | none => exact csrRead_local c
      | some x => exact .bind (csrRead_local c) fun _ => .bind (csrWrite_local c x) fun _ => .ret _
    | false =>
      cases src with
      | none => exact .ret _
      | some x => exact .bind (csrWrite_local c x) fun _ => .ret _

theorem sysCsr_local : A.Local rest A.Loaded (sysCsr P d) := by
  have hreg : ∀ v, A.Local rest A.Loaded (writeReg d.dest.preg v) := writeReg_local keptBeside_loaded _
  exact .bind (csrrw_local _ _) fun _ => .ite (fun _ => .bind readReg_local fun _ =>
    .bind (csrrw_local _ _) fun _ => hreg _) fun _ => hreg _

theorem rtlSysSlowPath_local : A.Local rest A.Loaded (rtlSysSlowPath P d) :=
  .ite (fun _ => sysPriv_local) fun _ => sysCsr_local

theorem handleException_local (f : Fault) : A.Local rest A.Loaded (handleException P f) := by
  refine .read (fun _ _ => rfl) fun s _ => .bind (.system (fun s => ?_) fun s => ?_) fun _ =>
    .bind raiseIntr_local fun _ => .system (fun _ => rfl) fun _ => rfl
  · have hj : isJumpFault P (s.beyond A.visible rest) f = isJumpFault P s f := rfl
    rw [hj]
    split <;> rfl
  · split <;> rfl

end System

section Fetch

theorem halfword_page (h : IsEven pc) : PageAccess pc 2 := by
  have he := (isEven_iff pc).mp h
  intro i hi
  omega

theorem halfword_next (h : IsEven pc) : IsEven (pc + 2) := h.add (by decide)

theorem liftDecode_local (r : Except Stop Decode) : A.Local rest V (liftDecode r) := by
  cases r with
  | ok d => exact .ret _
  | error e => exact .raise _

theorem decodeRest_local (hP : P.share = true) (h : IsEven pc) (lo : Word) :
    A.Local rest A.Active (decodeRest P pc lo) :=
  .ite (fun _ => .read (fun _ _ => rfl) fun _ _ => liftDecode_local _) fun _ =>
    .bind (vaddrIfetch_local hP (halfword_page (halfword_next h))) fun _ => .read (fun _ _ => rfl) fun _ _ => .ret _

theorem fetchDecode_local (hP : P.share = true) {s : Machine} (hs : A.Active s) (h : IsEven s.pc) :
    Match (fun s t => A.Active s ∧ t = s.beyond A.visible rest) (fetchDecode P s)
      (fetchDecode P (s.beyond A.visible rest)) := by
  have hV := keptBeside_active (A := A)
  have hpending : A.Local rest A.Active (checkPending P s.pc) :=
    .read (fun _ _ => rfl) fun s _ => .ite (fun _ => .read (fun _ _ => rfl) fun s _ =>
      .ite (fun _ => dasicsFault_local hV) fun _ => .ret _) fun _ => .ret _
  have hall : A.Local rest A.Active (do
      modify fun t => { t with decPc := s.pc }
      checkPending P s.pc
      let lo ← vaddrIfetch P s.pc 2
      let d ← decodeRest P s.pc lo
      modify fun s => { s with
        prevType := d.id.cfiType
        prevIsCfi := d.id.cfiType ≠ .none }
      pure d) :=
    .bind (.change hV (fun _ => rfl) (fun _ => rfl) fun _ => rfl) fun _ => .bind hpending fun _ =>
      .bind (vaddrIfetch_local hP (halfword_page h)) fun lo => .bind (decodeRest_local hP h lo) fun d =>
        .bind (.change hV (fun _ => rfl) (fun _ => rfl) fun _ => rfl) fun _ => .ret d
  exact hall s _ ⟨hs, rfl⟩

end Fetch

section Step

theorem active_loaded {s t : Machine} (h : A.Active s ∧ t = s.beyond A.visible rest) :
    A.Loaded s ∧ t = s.beyond A.visible rest :=
  ⟨h.1.image, h.2⟩

theorem ticked_local : A.Local rest A.Loaded (modify fun s => if P.rvn then utimerTick s else s : Exec PUnit) := by
  have hmem : ∀ s, (utimerTick s).pmem = s.pmem := by
    intro s
    unfold utimerTick
    split
    · rfl
    · split <;> rfl
  have hcomm : ∀ s, utimerTick (s.beyond A.visible rest) = (utimerTick s).beyond A.visible rest := by
    intro s
    have h1 : (s.beyond A.visible rest).csr = s.csr := rfl
    have h2 : (s.beyond A.visible rest).mode = s.mode := rfl
    unfold utimerTick
    rw [h1, h2]
    split
    · rfl
    · split <;> rfl
  refine .system (fun s => ?_) fun s => ?_
  · split
    · exact hcomm s
    · rfl
  · split
    · exact hmem s
    · rfl

theorem exec_match (hP : P.share = true) (hac : P.acSoft = true) (hv : ∀ d, (P.vector d).MemoryBlind)
    (hu : d.id.Uses .translate) {s : Machine} (hs : A.Active s) :
    Match (fun s t => A.Loaded s ∧ t = s.beyond A.visible rest) (exec P d s)
      (exec P d (s.beyond A.visible rest)) := by
  by_cases hid : d.id = .system
  · have hexec : exec P d = rtlSysSlowPath P d := by
      unfold exec
      rw [hid]
    rw [hexec]
    exact rtlSysSlowPath_local s _ ⟨hs.image, rfl⟩
  · exact (exec_local hP hac hv hu hid s _ ⟨hs, rfl⟩).mono fun _ _ => active_loaded

/-- One step in user mode is the same whatever the memory outside the address space holds. -/
theorem executeStep_local (hP : P.share = true) (hac : P.acSoft = true) (hv : ∀ d, (P.vector d).MemoryBlind)
    {s : Machine} (hs : A.Active s) (h : IsEven s.pc) :
    Match (fun s t => A.Loaded s ∧ t = s.beyond A.visible rest) (executeStep P s)
      (executeStep P (s.beyond A.visible rest)) := by
  have hfetch : Match (fun s t => A.Active s ∧ t = s.beyond A.visible rest) (fetchDecode P s)
      (fetchDecode P (s.beyond A.visible rest)) := fetchDecode_local hP hs h
  unfold executeStep
  cases hf : fetchDecode P s with
  | error e u =>
    rw [hf] at hfetch
    obtain ⟨u', hu', hr⟩ := hfetch.of_error
    rw [bind_error hf, bind_error hu']
    exact .error e (active_loaded hr)
  | ok d u =>
    rw [hf] at hfetch
    obtain ⟨u', hu', hr, rfl⟩ := hfetch.of_ok
    rw [bind_ok hf, bind_ok hu']
    have huses : d.id.Uses .translate := by
      have hd := (fetchDecode_ok hf).at_pc.uses
      have hm : s.decodeMode = .translate := by
        unfold Machine.decodeMode
        rw [hs.data]
        rfl
      rwa [hm] at hd
    have hstart : A.Active (u.started d) := ⟨hr.view, hr.image⟩
    have hexec : Match (fun s t => A.Loaded s ∧ t = s.beyond A.visible rest) (exec P d (u.started d))
        (exec P d ((u.started d).beyond A.visible rest)) := exec_match hP hac hv huses hstart
    have htail : A.Local rest A.Loaded (do
        modify fun s => if P.rvn then utimerTick s else s
        pure d) := .bind ticked_local fun _ => .ret d
    change Match _
      ((exec P d >>= fun _ => do
        modify fun s => if P.rvn then utimerTick s else s
        pure d) (u.started d))
      ((exec P d >>= fun _ => do
        modify fun s => if P.rvn then utimerTick s else s
        pure d) ((u.started d).beyond A.visible rest))
    cases he : exec P d (u.started d) with
    | error e v =>
      rw [he] at hexec
      obtain ⟨v', hv', hr'⟩ := hexec.of_error
      rw [bind_error he, bind_error hv']
      exact .error e hr'
    | ok _ v =>
      rw [he] at hexec
      obtain ⟨v', hv', hr'⟩ := hexec.of_ok
      rw [bind_ok he, bind_ok hv']
      exact htail v v' hr'

end Step

end Nemu
