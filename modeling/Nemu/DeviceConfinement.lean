import Nemu.Devices

namespace Nemu

open Effect

set_option autoImplicit true

variable {δ : Type} {R : Set Word} {base addr : Word} {cfg : DevConfig} {host : DevHost} {offset : BitVec 32}
  {len n : Nat} {w : Bool}

section Primitive

/-- The `n` bytes from `base` on. -/
def Span (base : Word) (n : Nat) (R : Set Word) : Prop := ∀ j < n, base + BitVec.ofNat 64 j ∈ R

theorem Span.part (h : Span base n R) (k : Nat) (hk : k + len ≤ n) : Span (base + BitVec.ofNat 64 k) len R := by
  intro j hj
  rw [BitVec.add_assoc, ← BitVec.ofNat_add]
  exact h (k + j) (by omega)

theorem Span.take (h : Span base n R) (hk : len ≤ n) : Span base len R := fun j hj => h j (Nat.lt_of_lt_of_le hj hk)

theorem Span.word (h : Span base n R) (k : Nat) (hk : 4 * k + len ≤ n) : Span (wordAt base k) len R := by
  have h1 := h.part (4 * k) hk
  rwa [BitVec.ofNat_mul] at h1

theorem load_confined (h : Span addr len R) : ConfinedTo R (load v addr len : DevM δ (BitVec v)) :=
  .load fun _ _ hk => Bytes.readLE_congr fun j hj => hk (h j hj)

theorem store_confined (h : Span addr len R) (d : BitVec v) : ConfinedTo R (store addr len d : DevM δ Unit) :=
  .store (fun _ _ hk => writeLE_eqOn hk d) fun _ _ hx => (writeLE_notMem h d hx).symm

theorem getOwn_confined : ConfinedTo R (getOwn : DevM δ δ) := .beside fun d => .ok (d, d)

theorem setOwn_confined (d : δ) : ConfinedTo R (setOwn d : DevM δ Unit) := .beside fun _ => .ok ((), d)

theorem devAssert_confined (p : Prop) [Decidable p] : ConfinedTo R (devAssert p : DevM δ Unit) :=
  .ite (fun _ => .pure _) fun _ => .throw _

/-- What a device does at the end without effect on the machine. -/
theorem quiet_confined {m : DevM δ Unit} (hm : ConfinedTo R m) : ConfinedTo R (do m; pure Outward.none) :=
  .bind hm fun _ => .pure _

end Primitive

section Handlers

/-- A callback that is confined, whatever the access is. -/
def CallbackConfined (R : Set Word) (cb : Callback δ) : Prop := ∀ host offset len w, ConfinedTo R (cb host offset len w)

theorem updateClint_confined (h : Span base 0x10000 R) : ConfinedTo R (updateClint cfg base host) :=
  .bind (load_confined (h.part 0xbff8 (by decide))) fun _ =>
    .bind (store_confined (h.part 0xbff8 (by decide)) _) fun _ =>
      .bind (load_confined (h.part 0x4000 (by decide))) fun _ => .pure _

theorem serialRxReadyFlag_confined : ConfinedTo R (serialRxReadyFlag host) := by
  have hflag : ∀ f : Serial → BitVec 8, ConfinedTo R (do let s ← getOwn; pure (f s)) := fun _ =>
    .bind getOwn_confined fun _ => .pure _
  exact .bind getOwn_confined fun _ => .ite (fun _ => .bind (devAssert_confined _) fun _ =>
    .bind (setOwn_confined _) fun _ => hflag _) fun _ => hflag _

theorem serialIoHandler_confined (h : Span base 8 R) : CallbackConfined R (serialIoHandler cfg base) := by
  intro host offset len w
  have h0 : Span base 1 R := h.take (by decide)
  have h5 : Span (base + 5) 1 R := h.part 5 (by decide)
  refine .bind (devAssert_confined _) fun _ => .ite (fun _ => ?_) fun _ => .ite (fun _ => ?_) fun _ => .pure _
  · refine .bind getOwn_confined fun _ => .ite (fun _ => ?_) fun _ => .ite (fun _ => ?_) fun _ => ?_
    · exact .bind (load_confined h0) fun _ => quiet_confined (setOwn_confined _)
    · exact .bind (setOwn_confined _) fun _ => quiet_confined (store_confined h0 _)
    · exact quiet_confined (store_confined h0 _)
  · refine .ite (fun _ => ?_) fun _ => quiet_confined (store_confined h5 _)
    exact .bind serialRxReadyFlag_confined fun _ => quiet_confined (store_confined h5 _)

theorem uartliteIoHandler_confined (h : Span base 0xd R) :
    CallbackConfined R (uartliteIoHandler cfg base) := by
  intro host offset len w
  refine .bind (devAssert_confined _) fun _ => .ite (fun _ => .ite (fun _ => ?_) fun _ => .throw _) fun _ =>
    .ite (fun _ => quiet_confined (store_confined (h.part 8 (by decide)) _)) fun _ => .pure _
  exact .bind (load_confined (h.part 4 (by decide))) fun _ => .bind getOwn_confined fun _ =>
    quiet_confined (setOwn_confined _)

theorem uartSnpsIoHandler_confined (h : Span base 0x100 R) :
    CallbackConfined R (uartSnpsIoHandler base) := by
  intro host offset len w
  refine .ite (fun _ => .ite (fun _ => ?_) fun _ => .throw _) fun _ => .pure _
  exact .bind getOwn_confined fun _ => .bind (load_confined (h.take (by decide))) fun _ =>
    .ite (fun _ => quiet_confined (setOwn_confined _)) fun _ => quiet_confined (setOwn_confined _)

theorem rtcIoHandler_confined (h : Span base 8 R) : CallbackConfined R (rtcIoHandler base) :=
  fun _ _ _ _ => .bind (devAssert_confined _) fun _ => .ite (fun _ => .bind (store_confined (h.take (by decide)) _) fun _ =>
    quiet_confined (store_confined (h.part 4 (by decide)) _)) fun _ => .pure _

theorem vgaUpdateScreen_confined (h : Span base 8 R) : ConfinedTo R (vgaUpdateScreen base) :=
  .bind (load_confined (h.part 4 (by decide))) fun _ =>
    .ite (fun _ => store_confined (h.part 4 (by decide)) _) fun _ => .pure _

theorem sendKey_confined (running : Bool) (scancode : BitVec 8) (isKeydown : Bool) :
    ConfinedTo R (sendKey cfg running scancode isKeydown) :=
  .ite (fun _ => .bind getOwn_confined fun _ => .bind (setOwn_confined _) fun _ =>
    .ite (fun _ => .throw _) fun _ => .pure _) fun _ => .pure _

theorem i8042DataIoHandler_confined (h : Span base 4 R) : CallbackConfined R (i8042DataIoHandler base) :=
  fun _ _ _ _ => .bind (devAssert_confined _) fun _ => .bind (devAssert_confined _) fun _ => .bind getOwn_confined fun _ =>
    .ite (fun _ => .bind (store_confined h _) fun _ => quiet_confined (setOwn_confined _)) fun _ =>
      quiet_confined (store_confined h _)

theorem audioIoHandler_confined (h : Span base 24 R) : CallbackConfined R (audioIoHandler base) :=
  fun _ _ _ _ => .ite (fun _ => quiet_confined (store_confined (h.part 20 (by decide)) _)) fun _ => .pure _

theorem diskIoHandler_confined (h : Span base 20 R) : CallbackConfined R (diskIoHandler base) := by
  intro host offset len w
  refine .ite (fun _ => ?_) fun _ => .pure _
  refine .bind (load_confined (h.word 1 (by decide))) fun _ => .bind (devAssert_confined _) fun _ =>
    .bind getOwn_confined fun fp => ?_
  cases fp with
  | none => exact .throw _
  | some bytes =>
    exact .bind (load_confined (h.word 3 (by decide))) fun _ => .bind (load_confined (h.word 2 (by decide))) fun _ =>
      .bind (load_confined (h.word 4 (by decide))) fun _ => .bind (devAssert_confined _) fun _ => .pure _

theorem sdcardHandleCmd_confined (h : Span base 0x80 R) (cmd : Nat) : ConfinedTo R (sdcardHandleCmd base cmd) := by
  have hrsp : ∀ r0 r1 r2 r3, ConfinedTo R (storeRsp base r0 r1 r2 r3) := fun _ _ _ _ =>
    .bind (store_confined (h.word 4 (by decide)) _) fun _ => .bind (store_confined (h.word 5 (by decide)) _) fun _ =>
      .bind (store_confined (h.word 6 (by decide)) _) fun _ => store_confined (h.word 7 (by decide)) _
  have hrw : ∀ b, ConfinedTo R (prepareRw base b) := fun _ =>
    .bind (load_confined (h.word 1 (by decide))) fun _ => .bind getOwn_confined fun _ => setOwn_confined _
  refine .ite (fun _ => .pure _) fun _ => .ite (fun _ => store_confined (h.word 4 (by decide)) _) fun _ =>
    .ite (fun _ => hrsp _ _ _ _) fun _ => .ite (fun _ => .pure _) fun _ => .ite (fun _ => hrsp _ _ _ _) fun _ =>
      .ite (fun _ => .bind getOwn_confined fun _ => setOwn_confined _) fun _ => .ite (fun _ => .pure _) fun _ =>
        .ite (fun _ => .pure _) fun _ => .ite (fun _ => .pure _) fun _ => .ite (fun _ => .pure _) fun _ =>
          .ite (fun _ => ?_) fun _ => .ite (fun _ => hrw _) fun _ => .ite (fun _ => hrw _) fun _ =>
            .ite (fun _ => hrsp _ _ _ _) fun _ => .ite (fun _ => .pure _) fun _ => .throw _
  exact .bind (load_confined (h.word 1 (by decide))) fun _ => .bind getOwn_confined fun _ => setOwn_confined _

theorem sdcardData_confined (h : Span base 0x80 R) : ConfinedTo R (sdcardData base) := by
  refine .bind getOwn_confined fun s => .ite (fun _ => ?_) fun _ => ?_
  · exact .bind (store_confined (h.word 16 (by decide)) _) fun _ => setOwn_confined _
  · cases s.fp with
    | none => exact setOwn_confined _
    | some f =>
      refine .ite (fun _ => .bind (load_confined (h.word 16 (by decide))) fun _ => setOwn_confined _) fun _ => ?_
      have hgot : 4 * 16 + ((f.bytes.drop f.pos).take 4).length ≤ 0x80 := by
        have hle := List.length_take_le 4 (f.bytes.drop f.pos)
        omega
      exact .bind (store_confined (h.word 16 hgot) _) fun _ => setOwn_confined _

theorem sdcardIoHandler_confined (h : Span base 0x80 R) : CallbackConfined R (sdcardIoHandler base) := by
  intro host offset len w
  refine .ite (fun _ => ?_) fun _ => .ite (fun _ => .pure _) fun _ => .ite (fun _ => ?_) fun _ => .throw _
  · exact .bind (load_confined (h.word 0 (by decide))) fun _ => quiet_confined (sdcardHandleCmd_confined h _)
  · exact quiet_confined (sdcardData_confined h)

def Dev.size (cfg : DevConfig) : Dev → Nat
  | clint => 0x10000
  | serial => 8
  | uartlite => 0xd
  | uartSnps => 0x100
  | plic => 0x4000000
  | rtc => 8
  | screen => 8
  | vmem => cfg.screenSize
  | keyboard => 4
  | audio => 24
  | sbuf => cfg.sbSize
  | disk => 20
  | sdcard => 0x80

theorem callbacks_confined {base : Dev → Word} {d : Dev} (h : Span (base d) (d.size cfg) R) :
    CallbackConfined R (callbacks cfg base d) := by
  cases d with
  | clint => exact fun _ _ _ _ => updateClint_confined h
  | serial => exact serialIoHandler_confined h
  | uartlite => exact uartliteIoHandler_confined h
  | uartSnps => exact uartSnpsIoHandler_confined h
  | plic | screen | vmem | sbuf => exact fun _ _ _ _ => .pure _
  | rtc => exact rtcIoHandler_confined h
  | keyboard => exact i8042DataIoHandler_confined h
  | audio => exact audioIoHandler_confined h
  | disk => exact diskIoHandler_confined h
  | sdcard => exact sdcardIoHandler_confined h

theorem hostEvent_confined {base : Dev → Word} {d : Dev} (h : Span (base d) (d.size cfg) R) (e : d.Event) :
    ConfinedTo R (hostEvent cfg base d e) := by
  cases d with
  | clint => exact updateClint_confined h
  | keyboard => exact quiet_confined (sendKey_confined _ _ _)
  | screen => exact quiet_confined (vgaUpdateScreen_confined h)
  | _ => exact e.elim

end Handlers

section Init

/-- Registers at addresses that are multiples of 8, and buffers that are not empty. -/
structure DevConfig.Valid (cfg : DevConfig) : Prop where
  mmio : ∀ d, (cfg.mmio d).toNat % 8 = 0
  screen : 0 < cfg.screenSize
  screenMax : cfg.screenSize < 2 ^ 31
  sbuf : 0 < cfg.sbSize
  sbufMax : cfg.sbSize < 2 ^ 31

def Dev.hasCallback : Dev → Bool
  | screen | vmem | sbuf => false
  | _ => true

theorem callbacks_silent {base : Dev → Word} {d : Dev} (h : d.hasCallback = false) :
    callbacks cfg base d host offset len w = pure .none := by
  cases d with
  | screen | vmem | sbuf => rfl
  | _ => cases h

/-- A bus while devices are added: each has its pages, and the pointer to them. -/
structure Registered (cfg : DevConfig) (b : IoBus Dev.State) : Prop where
  laid : Laid b.maps b.pSpace
  base : ∀ m ∈ b.maps, m.space = b.base m.dev
  low : ∀ m ∈ b.maps, m.low = cfg.mmio m.dev
  size : ∀ m ∈ b.maps, m.size = m.dev.size cfg
  callback : ∀ m ∈ b.maps, m.callback = m.dev.hasCallback
  start : b.dev = Dev.start cfg

def Fresh (d : Dev) (b : IoBus Dev.State) : Prop := ∀ m ∈ b.maps, m.dev ≠ d

/-- An initialisation that adds devices of `ds`. -/
def Adds (cfg : DevConfig) (ds : List Dev) (m : IoM Dev.State Unit) : Prop :=
  ∀ b b', m b = .ok () b' → Registered cfg b → (∀ d ∈ ds, Fresh d b) →
    Registered cfg b' ∧ (∀ d, d ∉ ds → Fresh d b → Fresh d b') ∧ b.maps ⊆ b'.maps

theorem newSpace_ok {b : IoBus Dev.State} (h : newSpace n b = .ok p b') :
    p = b.pSpace ∧ b' = { b with pSpace := b.pSpace + BitVec.ofNat 64 (pageAlign n) } ∧
      (b.pSpace + BitVec.ofNat 64 (pageAlign n)).toNat < ioSpaceMax := by
  obtain ⟨_, _, hget, h1⟩ := ok_of_bind h
  cases hget
  obtain ⟨_, _, hset, h2⟩ := ok_of_bind h1
  cases hset
  split at h2
  · cases h2
    exact ⟨rfl, rfl, ‹_›⟩
  · cases h2

theorem storeWords_ok {b : IoBus Dev.State} (ws : List (Word × BitVec 32)) (h : storeWords base ws b = .ok () b') :
    ∃ space, b' = { b with space := space } := by
  induction ws generalizing b with
  | nil =>
    cases h
    exact ⟨_, rfl⟩
  | cons w ws ih =>
    obtain ⟨_, _, hset, h1⟩ := ok_of_bind h
    cases hset
    obtain ⟨space, rfl⟩ := ih h1
    exact ⟨space, rfl⟩

theorem addDevice_adds {d : Dev} (hv : (cfg.mmio d).toNat % 8 = 0) (hn : 0 < n) (hmax : n < 2 ^ 31)
    (hd : d.size cfg = n) (hcb : callback = d.hasCallback) : Adds cfg [d] (addDevice cfg d name n callback ws) := by
  intro b b' h hb hfresh
  obtain ⟨p, b1, h1, h2⟩ := ok_of_bind h
  obtain ⟨rfl, rfl, hlt⟩ := newSpace_ok h1
  obtain ⟨_, _, hset, h3⟩ := ok_of_bind h2
  cases hset
  obtain ⟨_, _, hstore, h4⟩ := ok_of_bind h3
  obtain ⟨space, rfl⟩ := storeWords_ok ws hstore
  obtain ⟨_, _, hget, h5⟩ := ok_of_bind h4
  cases hget
  split at h5
  · cases h5
    have hmaps : ∀ m ∈ b.maps ++ [⟨⟨cfg.mmio d, cfg.mmio d + BitVec.ofNat 64 n - 1⟩, name, b.pSpace, d, callback⟩],
        m ∈ b.maps ∨ m = ⟨⟨cfg.mmio d, cfg.mmio d + BitVec.ofNat 64 n - 1⟩, name, b.pSpace, d, callback⟩ := by
      intro m hm
      exact (List.mem_append.mp hm).imp id List.mem_singleton.mp
    refine ⟨⟨hb.laid.register hv hn hmax hlt, fun m hm => ?_, fun m hm => ?_, fun m hm => ?_, fun m hm => ?_, hb.start⟩,
      fun d' hd' hf m hm => ?_, List.subset_append_left _ _⟩
    · obtain hm | rfl := hmaps m hm
      · exact (hb.base m hm).trans (Function.update_of_ne (hfresh d List.mem_cons_self m hm) _ _).symm
      · change b.pSpace = Function.update b.base d b.pSpace d
        rw [Function.update_self]
    · obtain hm | rfl := hmaps m hm
      · exact hb.low m hm
      · rfl
    · obtain hm | rfl := hmaps m hm
      · exact hb.size m hm
      · exact (added_size _ _ _ _ _ hn hmax).trans hd.symm
    · obtain hm | rfl := hmaps m hm
      · exact hb.callback m hm
      · exact hcb
    · obtain hm | rfl := hmaps m hm
      · exact hf m hm
      · exact fun h => hd' (List.mem_singleton.mpr h.symm)
  · cases h5

theorem Adds.bind {m n : IoM Dev.State Unit} (hm : Adds cfg ds m) (hn : Adds cfg ds' n) (hd : ∀ d ∈ ds', d ∉ ds) :
    Adds cfg (ds ++ ds') (do m; n) := by
  intro b b' h hb hfresh
  obtain ⟨_, b1, h1, h2⟩ := ok_of_bind h
  obtain ⟨hb1, hf1, hs1⟩ := hm b b1 h1 hb fun d hmem => hfresh d (List.mem_append_left _ hmem)
  obtain ⟨hb', hf', hs'⟩ := hn b1 b' h2 hb1 fun d hmem => hf1 d (hd d hmem) (hfresh d (List.mem_append_right _ hmem))
  refine ⟨hb', fun d hmem hf => ?_, List.Subset.trans hs1 hs'⟩
  exact hf' d (fun h => hmem (List.mem_append_right _ h)) (hf1 d (fun h => hmem (List.mem_append_left _ h)) hf)

theorem Adds.initIf {m : IoM Dev.State Unit} (hm : Adds cfg ds m) (d : Dev) : Adds cfg ds (initIf cfg d m) := by
  unfold Nemu.initIf
  split
  · exact hm
  · intro b b' h hb _
    cases h
    exact ⟨hb, fun _ _ h => h, List.Subset.refl _⟩

theorem DevConfig.Valid.size_bounds (hv : cfg.Valid) (d : Dev) : 0 < d.size cfg ∧ d.size cfg < 2 ^ 31 := by
  cases d with
  | vmem => exact ⟨hv.screen, hv.screenMax⟩
  | sbuf => exact ⟨hv.sbuf, hv.sbufMax⟩
  | _ => exact ⟨Nat.succ_pos _, by dsimp only [Dev.size]; omega⟩

theorem addDevice_mem {d : Dev} {b b' : IoBus Dev.State} (h : addDevice cfg d name n callback ws b = .ok () b') :
    ∃ m ∈ b'.maps, m.dev = d := by
  obtain ⟨p, b1, _, h2⟩ := ok_of_bind h
  obtain ⟨_, _, _, h3⟩ := ok_of_bind h2
  obtain ⟨_, _, _, h4⟩ := ok_of_bind h3
  obtain ⟨_, _, hget, h5⟩ := ok_of_bind h4
  cases hget
  split at h5
  · cases h5
    exact ⟨_, List.mem_append_right _ (List.mem_singleton_self _), rfl⟩
  · cases h5

/-- The start of the emulator leaves each device with pages of its own, and the timer is there. -/
theorem initBus_registered (hv : cfg.Valid) (h : initBus cfg (IoBus.start cfg) = .ok () b) :
    Registered cfg b ∧ ∃ m ∈ b.maps, m.dev = .clint := by
  have hone : ∀ (d : Dev) {name ws}, Adds cfg [d] (addDevice cfg d name (d.size cfg) d.hasCallback ws) :=
    fun d => addDevice_adds (hv.mmio _) (hv.size_bounds d).1 (hv.size_bounds d).2 rfl rfl
  have hvga : Adds cfg [.screen, .vmem] (initVga cfg) := .bind (hone .screen) (hone .vmem) (by decide)
  have haudio : Adds cfg [.audio, .sbuf] (initAudio cfg) := .bind (hone .audio) (hone .sbuf) (by decide)
  obtain ⟨_, b1, h1, h2⟩ := ok_of_bind h
  have hrest : Adds cfg _ (initDevice cfg) := .bind (.initIf (hone .serial) _) (.bind (.initIf (hone .uartlite) _)
    (.bind (.initIf (hone .uartSnps) _) (.bind (.initIf (hone .plic) _) (.bind (.initIf (hone .rtc) _)
      (.bind (.initIf hvga _) (.bind (.initIf (hone .keyboard) _) (.bind (.initIf haudio _)
        (.bind (.initIf (hone .disk) _) (.initIf (hone .sdcard) _)
          (by decide)) (by decide)) (by decide)) (by decide)) (by decide)) (by decide)) (by decide)) (by decide)) (by decide)
  have hempty : (0 : Word).toNat < ioSpaceMax := by decide
  have hstart : Registered cfg (IoBus.start cfg) := by
    refine ⟨⟨?_, ?_, .nil, ?_, rfl, hempty⟩, ?_, ?_, ?_, ?_, rfl⟩ <;> exact fun m hm => absurd hm List.not_mem_nil
  have hfresh : ∀ d, Fresh d (IoBus.start cfg) := fun _ m hm => absurd hm List.not_mem_nil
  obtain ⟨hb1, hf1, _⟩ := hone .clint _ _ h1 hstart fun d _ => hfresh d
  obtain ⟨hb, _, hsub⟩ := hrest _ _ h2 hb1 fun d hd => hf1 d (fun hc => by
    cases List.mem_singleton.mp hc
    exact absurd hd (by decide)) (hfresh d)
  obtain ⟨m, hm, hdev⟩ := addDevice_mem h1
  exact ⟨hb, m, hsub hm, hdev⟩

theorem Registered.span {b : IoBus Dev.State} (h : Registered cfg b) (hm : m ∈ b.maps) :
    Span (b.base m.dev) (m.dev.size cfg) (region b.maps m.dev) := by
  intro j hj
  have hbelow := h.laid.below m hm
  have hfits := h.laid.fits
  have hmax : ioSpaceMax = 134217728 := rfl
  have hle := size_le_pageAlign m.size
  rw [← h.size m hm] at hj
  rw [← h.base m hm]
  have hsum : (m.space + BitVec.ofNat 64 j).toNat = m.space.toNat + j := by
    rw [BitVec.toNat_add, BitVec.toNat_ofNat]
    omega
  refine ⟨m, hm, rfl, ?_, ?_⟩ <;> rw [hsum] <;> omega

theorem Registered.separate {b : IoBus Dev.State} (h : Registered cfg b) : Separate b.maps (callbacks cfg b.base) :=
  fun _ hm _ _ _ _ _ => callbacks_confined (h.span hm) _ _ _ _

end Init

end Nemu
