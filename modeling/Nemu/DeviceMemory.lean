import Nemu.DeviceRun

namespace Nemu

open Effect

set_option autoImplicit true

variable {cfg : DevConfig} {b a c : IoBus Dev.State} {e : IoEvent Dev Dev.Event} {d : Dev} {base : Dev → Word}
  {tr : List (Transition (IoBus Dev.State) (IoEvent Dev Dev.Event))} {K : Set Word}

section Outward

/-- A computation whose result has a property. -/
def Outputs {δ : Type} (q : Outward → Prop) (m : DevM δ Outward) : Prop := ∀ x out y, m x = .ok out y → q out

variable {δ : Type} {q : Outward → Prop}

theorem Outputs.pure {out : Outward} (h : q out) : Outputs q (pure out : DevM δ Outward) := by
  intro x out y hx
  cases hx
  exact h

theorem Outputs.throw (e : IoStop) : Outputs q (throw e : DevM δ Outward) := nofun

theorem Outputs.bind {m : DevM δ α} {f : α → DevM δ Outward} (hf : ∀ a, Outputs q (f a)) : Outputs q (m >>= f) := by
  intro x out y h
  obtain ⟨a, z, _, hz⟩ := ok_of_bind h
  exact hf a z out y hz

theorem Outputs.ite {p : Prop} [Decidable p] {m n : DevM δ Outward} (hm : Outputs q m) (hn : Outputs q n) :
    Outputs q (if p then m else n) := by
  split
  · exact hm
  · exact hn

theorem outputs_none {m : DevM δ Unit} : Outputs (· = .none) (do m; pure .none) := .bind fun _ => .pure rfl

/-- Only the timer and the disk reach out of their registers. -/
theorem callbacks_idle (hclint : d ≠ .clint) (hdisk : d ≠ .disk) (host : DevHost) (offset : BitVec 32) (len : Nat)
    (w : Bool) : Outputs (· = .none) (callbacks cfg base d host offset len w) := by
  cases d with
  | clint => exact absurd rfl hclint
  | disk => exact absurd rfl hdisk
  | serial =>
    refine .bind fun _ => .ite ?_ (.ite (.ite (.bind fun _ => outputs_none) (.bind fun _ => outputs_none)) (.pure rfl))
    exact .bind fun _ => .ite (.bind fun _ => outputs_none) (.ite (.bind fun _ => outputs_none) outputs_none)
  | uartlite =>
    exact .bind fun _ => .ite (.ite (.bind fun _ => .bind fun _ => outputs_none) (.throw _)) (.ite outputs_none (.pure rfl))
  | uartSnps =>
    exact .ite (.ite (.bind fun _ => .bind fun _ => .ite outputs_none outputs_none) (.throw _)) (.pure rfl)
  | plic | screen | vmem | sbuf => exact .pure rfl
  | rtc => exact .bind fun _ => .ite (.bind fun _ => outputs_none) (.pure rfl)
  | keyboard => exact .bind fun _ => .bind fun _ => .bind fun _ => .ite (.bind fun _ => outputs_none) outputs_none
  | audio => exact .ite outputs_none (.pure rfl)
  | sdcard => exact .ite (.bind fun _ => outputs_none) (.ite (.pure rfl) (.ite outputs_none (.throw _)))

/-- What a step gives to the machine. -/
def IoEvent.outward : IoEvent Dev Dev.Event → Outward
  | access _ _ _ reply => reply.2
  | event _ _ out => out

theorem Registered.idle (hb : Registered cfg b) (h : DevStep cfg b.base a e c) (ha : a.maps = b.maps)
    (hclint : e.dev ≠ .clint)
    (hdisk : e.dev ≠ .disk) : e.outward = .none := by
  cases e with
  | access d host req reply =>
    obtain ⟨space, x, hx, _⟩ := hb.access h ha
    exact callbacks_idle hclint hdisk _ _ _ _ _ _ _ hx
  | event d e out =>
    cases h with
    | event hev =>
      obtain ⟨x, hx, _⟩ := atDevice_ok hev
      cases d with
      | clint => exact absurd rfl hclint
      | keyboard => exact outputs_none _ _ _ hx
      | screen => exact outputs_none _ _ _ hx
      | _ => exact e.elim

end Outward

section Image

/-- The registers of a device as the guest wrote them, by offset. -/
def guestWrite (cfg : DevConfig) (d : Dev) (img : IoSpace) : IoEvent Dev Dev.Event → IoSpace
  | .access d' _ req _ =>
    if d' = d then req.write.elim img fun data => Bytes.writeLE img (req.addr - cfg.mmio d) req.len data else img
  | .event .. => img

theorem guestWrite_other (img : IoSpace) (he : e.dev ≠ d) : guestWrite cfg d img e = img := by
  cases e with
  | access => exact if_neg he
  | event => rfl

theorem guestWrite_own (img : IoSpace) (host : DevHost) (req : MmioReq) (reply : Word × Outward) :
    guestWrite cfg d img (.access d host req reply) =
      req.write.elim img fun data => Bytes.writeLE img (req.addr - cfg.mmio d) req.len data := if_pos rfl

/-- The registers of a device after accesses by the guest. -/
def guestImage (cfg : DevConfig) (b : IoBus Dev.State) (d : Dev) (es : List (IoEvent Dev Dev.Event)) : IoSpace :=
  es.foldl (guestWrite cfg d) fun o => b.space (b.base d + o)

theorem guestImage_append (es : List (IoEvent Dev Dev.Event)) :
    guestImage cfg b d (es ++ [e]) = guestWrite cfg d (guestImage cfg b d es) e := List.foldl_append

/-- A device that does not write some of its registers itself. -/
structure Dev.Leaves (cfg : DevConfig) (base : Dev → Word) (d : Dev) (K : Set Word) : Prop where
  access : ∀ host offset len w x out y, callbacks cfg base d host offset len w x = .ok out y →
    ∀ o ∈ K, y.1 (base d + o) = x.1 (base d + o)
  event : ∀ e x out y, hostEvent cfg base d e x = .ok out y → ∀ o ∈ K, y.1 (base d + o) = x.1 (base d + o)

theorem writeLE_base (m : IoSpace) (base a o : Word) (n : Nat) (data : BitVec v) :
    Bytes.writeLE m (base + a) n data (base + o) = Bytes.writeLE (fun o => m (base + o)) a n data o := by
  unfold Bytes.writeLE
  rw [add_sub_add_left_eq_sub]

theorem readLE_narrow (m : IoSpace) (a : Word) : (Bytes.readLE 64 m a 4).setWidth 32 = Bytes.readLE 32 m a 4 := by
  apply BitVec.eq_of_getLsbD_eq
  intro i hi
  rw [BitVec.getLsbD_setWidth, Bytes.getLsbD_readLE _ _ (by decide), Bytes.getLsbD_readLE _ _ (by decide),
    decide_eq_true hi, Bool.true_and]

theorem Registered.guestWrite_step (hb : Registered cfg b) (hl : d.Leaves cfg b.base K) (h : DevStep cfg b.base a e c)
    (ha : a.maps = b.maps) (hd : e.dev = d) {img : IoSpace} (himg : ∀ o ∈ K, a.space (b.base d + o) = img o) :
    ∀ o ∈ K, c.space (b.base d + o) = guestWrite cfg d img e o := by
  intro o ho
  cases e with
  | access d' host req reply =>
    have hdev : d' = d := hd
    subst hdev
    obtain ⟨space, x, hx, hspace, _, _, hread, hwrite⟩ := hb.access h ha
    rw [hspace, hl.access _ _ _ _ _ _ _ hx o ho, guestWrite_own]
    cases hreq : req.write with
    | none =>
      rw [(hread hreq).1]
      exact himg o ho
    | some data =>
      rw [(hwrite data hreq).1]
      refine (writeLE_base _ _ _ _ _ _).trans ?_
      change Bytes.writeLE _ _ _ _ o = Bytes.writeLE img _ _ _ o
      unfold Bytes.writeLE
      split
      · rfl
      · exact himg o ho
  | event d' e out =>
    have hdev : d' = d := hd
    subst hdev
    cases h with
    | event hev =>
      obtain ⟨x, hx, rfl⟩ := atDevice_ok hev
      exact (hl.event _ _ _ _ hx o ho).trans (himg o ho)

/-- Registers that a device leaves to the guest hold what the guest wrote, whatever other devices do in between. -/
theorem Registered.image (hb : Registered cfg b) (hl : d.Leaves cfg b.base K)
    (hK : ∀ o ∈ K, b.base d + o ∈ region b.maps d) (h : Run (DevStep cfg b.base) b tr c)
    (hgood : ∀ x ∈ tr, x.label.Orderly b.maps) :
    c.maps = b.maps ∧ ∀ o ∈ K, c.space (b.base d + o) = guestImage cfg b d (labels tr) o := by
  refine hb.history (d := d) (I := fun es space _ => ∀ o ∈ K, space (b.base d + o) = guestImage cfg b d es o)
    (fun _ he => he) (fun _ _ => rfl) ?_ ?_ h hgood
  · intro es e a c _ _ _ he hspace hI o ho
    rw [guestImage_append, guestWrite_other _ he, hspace (hK o ho)]
    exact hI o ho
  · intro es e a c hs ha _ hd hI
    rw [guestImage_append]
    exact hb.guestWrite_step hl hs ha hd hI

end Image

section Buffer

/-- The devices whose registers only the guest writes. -/
def Dev.isBuffer : Dev → Bool
  | plic | vmem | sbuf | disk => true
  | _ => false

theorem diskIoHandler_ok (host : DevHost) {base : Word} {fp : Option (List (BitVec 8))}
    (h : diskIoHandler base host offset len w (space, fp) = .ok out y) :
    y = (space, fp) ∧ out.mtip = none ∧ (offset = 4 ∧ len = 4 ∧ w = true → ∃ bytes, fp = some bytes ∧
      Bytes.readLE 32 space (wordAt base diskCmd) 4 = 0 ∧
      0 < (Bytes.readLE 32 space (wordAt base diskCount) 4).toNat ∧
      ((bytes.drop (Bytes.readLE 32 space (wordAt base diskStart) 4 * 512).toNat).take
        ((Bytes.readLE 32 space (wordAt base diskCount) 4).toNat * 512)).length =
          (Bytes.readLE 32 space (wordAt base diskCount) 4).toNat * 512 ∧
      out.dma = dmaWrite ((Bytes.readLE 32 space (wordAt base diskBuf) 4).setWidth 64)
        ((bytes.drop (Bytes.readLE 32 space (wordAt base diskStart) 4 * 512).toNat).take
          ((Bytes.readLE 32 space (wordAt base diskCount) 4).toNat * 512))) := by
  unfold diskIoHandler at h
  split at h
  · obtain ⟨_, _, hload, h1⟩ := ok_of_bind h
    cases hload
    obtain ⟨_, _, hassert, h2⟩ := ok_of_bind h1
    obtain ⟨hcmd, rfl⟩ := devAssert_ok hassert
    obtain ⟨_, _, hown, h3⟩ := ok_of_bind h2
    cases hown
    cases fp with
    | none => cases h3
    | some bytes =>
      obtain ⟨_, _, hstart, h4⟩ := ok_of_bind h3
      cases hstart
      obtain ⟨_, _, hbuf, h5⟩ := ok_of_bind h4
      cases hbuf
      obtain ⟨_, _, hcount, h6⟩ := ok_of_bind h5
      cases hcount
      obtain ⟨_, _, hread, h7⟩ := ok_of_bind h6
      obtain ⟨⟨hpos, hlen⟩, rfl⟩ := devAssert_ok hread
      cases h7
      exact ⟨rfl, rfl, fun _ => ⟨bytes, rfl, hcmd, hpos, hlen, rfl⟩⟩
  · cases h
    exact ⟨rfl, rfl, fun hc => absurd hc ‹_›⟩

theorem buffer_leaves (hd : d.isBuffer = true) (base : Dev → Word) (K : Set Word) : d.Leaves cfg base K := by
  constructor
  · intro host offset len w x out y h o _
    cases d with
    | plic | vmem | sbuf =>
      cases h
      rfl
    | disk => rw [(diskIoHandler_ok host h).1]
    | _ => cases hd
  · intro e
    cases d with
    | plic | vmem | sbuf | disk => exact e.elim
    | _ => cases hd

theorem Registered.access_region (hb : Registered cfg b) (h : DevStep cfg b.base a (.access d host req reply) c)
    (ha : a.maps = b.maps) (hal : req.addr.toNat % req.len = 0) (hj : j < req.len) :
    b.base d + (req.addr - cfg.mmio d + BitVec.ofNat 64 j) ∈ region b.maps d := by
  have hlen : HostLength req.len := by
    obtain ⟨_, _, _, _, _, hlen, _⟩ := hb.access h ha
    exact hlen.2
  cases h with
  | access hf hacc =>
    obtain ⟨hm, hin⟩ := fetchMmioMap_some hf
    rw [ha] at hm
    have hr := hb.laid.access_region hm hin hal hlen j hj
    rw [hb.base _ hm, hb.low _ hm, BitVec.add_assoc] at hr
    exact hr

/-- The video memory, the sound buffer and the registers of the interrupt controller and of the disk are memory: a read
gives the bytes that the guest wrote last, whatever the devices do in between. -/
theorem buffer_is_memory (hv : cfg.Valid) (hinit : initBus cfg (.start cfg) = .ok () b)
    (h : Run (DevStep cfg b.base) b tr c) (hgood : ∀ x ∈ tr, x.label.Orderly b.maps) (hd : d.isBuffer = true) :
    ∀ pre x post, tr = pre ++ x :: post → ∀ host req reply, x.label = .access d host req reply → req.write = none →
      reply.1 = Bytes.readLE 64 (guestImage cfg b d (labels pre)) (req.addr - cfg.mmio d) req.len := by
  have hb := (initBus_registered hv hinit).1
  rintro pre x post rfl host req reply hlabel hnone
  obtain ⟨hpre, hs, _⟩ := h.split
  obtain ⟨hmaps, himg⟩ := hb.image (buffer_leaves hd b.base {o | b.base d + o ∈ region b.maps d}) (fun _ ho => ho) hpre
    fun y hy => hgood y (List.mem_append_left _ hy)
  have hal := hgood x (List.mem_append_right _ List.mem_cons_self)
  rw [hlabel] at hs hal
  obtain ⟨space, y, hy, _, _, _, hread, _⟩ := hb.access hs hmaps
  obtain ⟨hspace, hreply⟩ := hread hnone
  rw [hreply]
  apply Bytes.readLE_congr
  intro j hj
  have hmem := hb.access_region hs hmaps hal hj
  rw [BitVec.add_assoc, (buffer_leaves hd b.base {o | b.base d + o ∈ region b.maps d}).access _ _ _ _ _ _ _ hy _ hmem]
  rw [hspace]
  exact himg _ hmem

/-- A register of the disk, and a key in between. -/
theorem buffer_is_memory_disk : ∃ x y z c, Run (DevStep smallBoard smallBus.base) smallBus [x, y, z] c ∧
    z.label.answer = (.disk, 0x80000000) ∧
    (0x80000000 : Word) = Bytes.readLE 64 (guestImage smallBoard smallBus .disk [x.label, y.label]) 8 4 := by
  have hrs : smallBoardAnswers [.access ⟨0, []⟩ ⟨0xa1000308, 4, some 0x80000000⟩, .event .keyboard (true, 0x1e, true),
      .access ⟨0, []⟩ ⟨0xa1000308, 4, none⟩] = some [(.disk, 0), (.keyboard, 0), (.disk, 0x80000000)] := by decide +kernel
  obtain ⟨tr, c, hrun, hgood, hall⟩ := smallBoard_runs hrs
  obtain ⟨x, _, rfl, _, y, _, rfl, _, z, _, rfl, ⟨_, hz⟩, rfl⟩ := hall
  refine ⟨x, y, z, c, hrun, ?_,
    buffer_is_memory smallBoard_valid smallBoard_starts hrun hgood rfl [x, y] z [] rfl _ _ _ hz rfl⟩
  rw [hz]
  rfl

theorem Registered.registers (hb : Registered cfg b) (h : DevStep cfg b.base a (.access d host req reply) c)
    (ha : a.maps = b.maps) : Span (b.base d) (d.size cfg) (region b.maps d) := by
  cases h with
  | access hf =>
    have hm := (fetchMmioMap_some hf).1
    rw [ha] at hm
    exact hb.span hm

theorem Registered.disk_mtip (hb : Registered cfg b) (h : DevStep cfg b.base a e c) (ha : a.maps = b.maps)
    (hd : e.dev = .disk) : e.outward.mtip = none := by
  cases e with
  | access d host req reply =>
    cases hd
    obtain ⟨space, x, hx, _⟩ := hb.access h ha
    exact (diskIoHandler_ok host hx).2.1
  | event d e =>
    cases hd
    exact e.elim

/-- The image that the disk was opened with stays. -/
theorem disk_image (hb : Registered cfg b) (h : Run (DevStep cfg b.base) b tr c)
    (hgood : ∀ x ∈ tr, x.label.Orderly b.maps) : c.maps = b.maps ∧ c.dev .disk = cfg.diskImage := by
  refine hb.history (d := .disk) (I := fun _ _ s => s = cfg.diskImage) (fun _ he => he) rfl
    (fun _ _ _ _ _ _ _ _ _ hI => hI) ?_ h hgood
  intro es e a c hs ha _ hd hI
  cases e with
  | event d e =>
    cases hd
    exact e.elim
  | access d host req reply =>
    cases hd
    obtain ⟨space, x, hx, _, hdev, _⟩ := hb.access hs ha
    rw [hdev, (diskIoHandler_ok host hx).1]
    exact hI

theorem dmaWrite_apply (buf : Word) (bytes : List (BitVec 8)) {start size : Nat}
    (hlen : ((bytes.drop start).take size).length = size) (pmem : Word → BitVec 8) (p : Word) :
    dmaWrite buf ((bytes.drop start).take size) pmem p =
      if (p - buf).toNat < size then bytes.getD (start + (p - buf).toNat) 0 else pmem p := by
  unfold dmaWrite
  have hle : start + size ≤ bytes.length ∨ size = 0 := by
    rw [List.length_take, List.length_drop] at hlen
    omega
  split
  · have hlt : start + (p - buf).toNat < bytes.length := by omega
    rw [List.getD_eq_getElem?_getD, List.getD_eq_getElem?_getD, List.getElem?_take_of_lt ‹_›, List.getElem?_drop,
      List.getElem?_eq_getElem hlt]
    rfl
  · rw [List.getD_eq_getElem?_getD, List.getElem?_eq_none (by omega)]
    rfl

/-- A command of the disk copies blocks of its image to the address that the guest named, as many as it asked for. They
begin at the block that it named when this has less than 24 bits: the place in the image is computed in 32 bits. Memory
beside them is left alone. -/
theorem disk_copies (hv : cfg.Valid) (hinit : initBus cfg (.start cfg) = .ok () b)
    (h : Run (DevStep cfg b.base) b tr c) (hgood : ∀ x ∈ tr, x.label.Orderly b.maps) :
    ∀ pre x post, tr = pre ++ x :: post → ∀ host req reply data, x.label = .access .disk host req reply →
      req.addr = cfg.mmio .disk + 4 → req.len = 4 → req.write = some data →
      let img := guestImage cfg b .disk (labels (pre ++ [x]))
      let start := (Bytes.readLE 32 img 12 4).toNat * 512 % 2 ^ 32
      let size := (Bytes.readLE 32 img 16 4).toNat * 512
      let buf : Word := (Bytes.readLE 32 img 8 4).setWidth 64
      ∃ bytes, cfg.diskImage = some bytes ∧ data.setWidth 32 = 0#32 ∧ 0 < size ∧ start + size ≤ bytes.length ∧
        ∀ pmem p, reply.2.dma pmem p =
          if (p - buf).toNat < size then bytes.getD (start + (p - buf).toNat) 0 else pmem p := by
  have hb := (initBus_registered hv hinit).1
  rintro pre x post rfl host req reply data hlabel haddr hlen hdata img start size buf
  have hgood' : ∀ y ∈ pre ++ [x], y.label.Orderly b.maps := fun y hy =>
    hgood y (by rw [List.append_cons]; exact List.mem_append_left _ hy)
  obtain ⟨hpre, hs, _⟩ := h.split
  obtain ⟨hmaps, hfp⟩ := disk_image hb hpre fun y hy => hgood' y (List.mem_append_left _ hy)
  have hrun : Run (DevStep cfg b.base) b (pre ++ [x]) x.target := hpre.append (.cons hs .nil)
  obtain ⟨_, himg⟩ := hb.image (buffer_leaves (d := .disk) rfl b.base {o | b.base .disk + o ∈ region b.maps .disk})
    (fun _ ho => ho) hrun hgood'
  rw [hlabel] at hs
  obtain ⟨space, y, hy, hspace, _, _, _, hwrite⟩ := hb.access hs hmaps
  have hoff : req.addr - cfg.mmio .disk = 4 := by
    rw [haddr]
    exact add_sub_cancel_left _ _
  have hsome : req.write.isSome = true := by
    rw [hdata]
    rfl
  obtain ⟨rfl, _, hcopy⟩ := diskIoHandler_ok host hy
  rw [hoff] at hcopy
  obtain ⟨bytes, hbytes, hcmd, hpos, hread, hdma⟩ := hcopy ⟨rfl, hlen, hsome⟩
  have hword : ∀ k, 4 * k + 4 ≤ 20 →
      Bytes.readLE 32 space (wordAt (b.base .disk) k) 4 = Bytes.readLE 32 img (4 * BitVec.ofNat 64 k) 4 := by
    intro k hk
    apply Bytes.readLE_congr
    intro j hj
    have hmem := (hb.registers hs hmaps).word k hk j hj
    unfold wordAt at hmem ⊢
    rw [BitVec.add_assoc] at hmem ⊢
    have h1 := himg _ hmem
    rw [hspace] at h1
    exact h1
  have hstart : (Bytes.readLE 32 img (4 * BitVec.ofNat 64 diskStart) 4 * 512).toNat = start := BitVec.toNat_mul _ _
  rw [hword diskCount (by decide), hword diskStart (by decide), hstart] at hread hdma
  rw [hword diskBuf (by decide)] at hdma
  rw [hword diskCount (by decide)] at hpos
  have hlength : start + size ≤ bytes.length := by
    have h1 : ((bytes.drop start).take size).length = size := hread
    have h2 : 0 < size := Nat.mul_pos hpos (by decide)
    rw [List.length_take, List.length_drop] at h1
    omega
  refine ⟨bytes, hfp.symm.trans hbytes, ?_, Nat.mul_pos hpos (by decide), hlength, fun pmem p => ?_⟩
  · have hplace : b.base .disk + (req.addr - cfg.mmio .disk) = wordAt (b.base .disk) diskCmd := by
      rw [hoff]
      rfl
    rw [(hwrite data hdata).1, hplace, hlen, Bytes.readLE_writeLE _ _ _ (by decide) (by decide),
      BitVec.setWidth_eq] at hcmd
    exact hcmd
  · rw [hdma]
    exact dmaWrite_apply buf bytes hread pmem p

/-- One block, to the start of memory. -/
theorem disk_copies_block : ∃ x y z c reply, Run (DevStep smallBoard smallBus.base) smallBus [x, y, z] c ∧
    (∃ host req, z.label = .access .disk host req reply) ∧
    let img := guestImage smallBoard smallBus .disk [x.label, y.label, z.label]
    ∃ bytes, smallBoard.diskImage = some bytes ∧ 0 < (Bytes.readLE 32 img 16 4).toNat * 512 ∧ ∀ pmem p,
      reply.2.dma pmem p = if (p - (Bytes.readLE 32 img 8 4).setWidth 64).toNat < (Bytes.readLE 32 img 16 4).toNat * 512 then
        bytes.getD ((Bytes.readLE 32 img 12 4).toNat * 512 % 2 ^ 32 + (p - (Bytes.readLE 32 img 8 4).setWidth 64).toNat) 0
      else pmem p := by
  have hrs : smallBoardAnswers [.access ⟨0, []⟩ ⟨0xa1000308, 4, some 0x80000000⟩, .access ⟨0, []⟩ ⟨0xa1000310, 4, some 1⟩,
      .access ⟨0, []⟩ ⟨0xa1000304, 4, some 0⟩] = some [(.disk, 0), (.disk, 0), (.disk, 0)] := by decide +kernel
  obtain ⟨tr, c, hrun, hgood, hall⟩ := smallBoard_runs hrs
  obtain ⟨x, _, rfl, _, y, _, rfl, _, z, _, rfl, ⟨out, hz⟩, rfl⟩ := hall
  obtain ⟨bytes, hbytes, _, hsize, _, hdma⟩ :=
    disk_copies smallBoard_valid smallBoard_starts hrun hgood [x, y] z [] rfl _ _ _ _ hz rfl rfl rfl
  exact ⟨x, y, z, c, _, hrun, ⟨_, _, hz⟩, bytes, hbytes, hsize, hdma⟩

end Buffer

end Nemu
