import Nemu.DeviceMemory

namespace Nemu

open Effect

set_option autoImplicit true

variable {cfg : DevConfig} {b a c : IoBus Dev.State} {e : IoEvent Dev Dev.Event}
  {tr : List (Transition (IoBus Dev.State) (IoEvent Dev Dev.Event))} {s : Sdcard} {f : CardFile} {space : IoSpace}

section File

theorem wordBytes_length (w : BitVec 32) : (wordBytes w).length = 4 := rfl

theorem wordBytes_getElem? (w : BitVec 32) (hi : i < 4) : (wordBytes w)[i]? = some (w.extractLsb' (8 * i) 8) := by
  unfold wordBytes
  rw [List.getElem?_map, List.getElem?_range hi]
  rfl

theorem wordBytes_readLE {got : List (BitVec 8)} (h : got.length = 4) :
    wordBytes (Bytes.readLE 32 (fun i : BitVec 32 => got.getD i.toNat 0) 0 4) = got := by
  apply List.ext_getElem?
  intro i
  by_cases hi : i < 4
  · have hzero : ((0 : BitVec 32) + BitVec.ofNat 32 i).toNat = i := by
      rw [zero_add, BitVec.toNat_ofNat]
      omega
    rw [wordBytes_getElem? _ hi, Bytes.extract_readLE _ _ _ _ hi (by decide), hzero, List.getD_eq_getElem?_getD,
      List.getElem?_eq_getElem (by omega)]
    rfl
  · rw [List.getElem?_eq_none (by rw [wordBytes_length]; omega), List.getElem?_eq_none (by omega)]

theorem CardFile.write_length (f : CardFile) (data : List (BitVec 8)) :
    f.pos + data.length ≤ (f.write data).bytes.length := by
  unfold CardFile.write
  dsimp only
  rw [List.length_append, List.length_append, List.length_take, List.length_append, List.length_replicate]
  omega

/-- A write replaces the bytes at the position; a gap before it is filled with zeros. -/
theorem CardFile.write_getElem? (f : CardFile) (data : List (BitVec 8)) (hgap : i < f.bytes.length ∨ f.pos ≤ i) :
    (f.write data).bytes[i]? = if f.pos ≤ i ∧ i < f.pos + data.length then data[i - f.pos]? else f.bytes[i]? := by
  have hhead : ((f.bytes ++ List.replicate (f.pos - f.bytes.length) 0).take f.pos).length = f.pos := by
    rw [List.length_take, List.length_append, List.length_replicate]
    omega
  unfold CardFile.write
  dsimp only
  by_cases hlow : i < f.pos
  · rw [if_neg (by omega), List.append_assoc, List.getElem?_append_left (by omega), List.getElem?_take_of_lt hlow,
      List.getElem?_append_left (by omega)]
  · by_cases hhigh : i < f.pos + data.length
    · rw [if_pos ⟨by omega, hhigh⟩, List.append_assoc, List.getElem?_append_right (by omega), hhead,
        List.getElem?_append_left (by omega)]
    · rw [if_neg (by omega), List.getElem?_append_right (by rw [List.length_append]; omega), List.length_append, hhead,
        List.getElem?_drop]
      congr 1
      omega

theorem flatMap_wordBytes_length (ws : List (BitVec 32)) : (ws.flatMap wordBytes).length = 4 * ws.length := by
  induction ws with
  | nil => rfl
  | cons w ws ih =>
    rw [List.flatMap_cons, List.length_append, wordBytes_length, ih, List.length_cons]
    omega

/-- Words written one after the other. -/
def CardFile.writeAll (f : CardFile) (ws : List (BitVec 32)) : CardFile := ws.foldl (fun f w => f.write (wordBytes w)) f

theorem CardFile.writeAll_getElem? (f : CardFile) (ws : List (BitVec 32)) (hgap : i < f.bytes.length ∨ f.pos ≤ i) :
    (f.writeAll ws).bytes[i]? =
      if f.pos ≤ i ∧ i < f.pos + 4 * ws.length then (ws.flatMap wordBytes)[i - f.pos]? else f.bytes[i]? := by
  induction ws generalizing f with
  | nil => exact (if_neg fun h => absurd h.2 (by have := h.1; simp; omega)).symm
  | cons w ws ih =>
    have hlen := f.write_length (wordBytes w)
    have hstep := f.write_getElem? (wordBytes w) hgap
    have hpos : (f.write (wordBytes w)).pos = f.pos + 4 := rfl
    rw [wordBytes_length] at hlen hstep
    change ((f.write (wordBytes w)).writeAll ws).bytes[i]? = _
    rw [ih _ (by rw [hpos]; omega), hpos, hstep, List.flatMap_cons, List.length_cons]
    by_cases hlow : f.pos ≤ i
    · by_cases hfirst : i < f.pos + 4
      · rw [if_neg (by omega), if_pos ⟨hlow, hfirst⟩, if_pos ⟨hlow, by omega⟩,
          List.getElem?_append_left (by rw [wordBytes_length]; omega)]
      · by_cases hlast : i < f.pos + 4 + 4 * ws.length
        · rw [if_pos ⟨by omega, hlast⟩, if_pos ⟨hlow, by omega⟩,
            List.getElem?_append_right (by rw [wordBytes_length]; omega), wordBytes_length]
          congr 1
        · rw [if_neg (by omega), if_neg (by omega), if_neg (by omega)]
    · rw [if_neg (by omega), if_neg (by omega), if_neg (by omega)]

end File

section Card

/-- A store of the guest to word `k` of the registers of the card. -/
def IoEvent.Stores (cfg : DevConfig) (k : Nat) (e : IoEvent Dev Dev.Event) (w : BitVec 32) : Prop :=
  ∃ host req reply data, e = .access .sdcard host req reply ∧ req.addr = cfg.mmio .sdcard + 4 * BitVec.ofNat 64 k ∧
    req.len = 4 ∧ req.write = some data ∧ data.setWidth 32 = w

/-- A load of the guest from word `k` of them. -/
def IoEvent.Loads (cfg : DevConfig) (k : Nat) (e : IoEvent Dev Dev.Event) (w : BitVec 32) : Prop :=
  ∃ host req reply, e = .access .sdcard host req reply ∧ req.addr = cfg.mmio .sdcard + 4 * BitVec.ofNat 64 k ∧
    req.len = 4 ∧ req.write = none ∧ reply.1 = w.setWidth 64

/-- A transfer of blocks: their place, the command, and the words. -/
def Transfer (cfg : DevConfig) (cmd : Nat) (block : BitVec 32) (moves es : List (IoEvent Dev Dev.Event)) : Prop :=
  ∃ arg command w, es = [arg, command] ++ moves ∧ arg.Stores cfg sdarg block ∧ command.Stores cfg sdcmd w ∧
    (w &&& 0x3f).toNat = cmd

/-- A card that moves words of a file. -/
structure Sdcard.Moves (s : Sdcard) (isWrite : Bool) (f : CardFile) : Prop where
  fp : s.fp = some f
  writeCmd : s.writeCmd = isWrite
  readExtCsd : s.readExtCsd = false

theorem wordOffset (k : Nat) : (4 * BitVec.ofNat 64 k : Word).setWidth 32 = 4 * BitVec.ofNat 32 k := by
  apply BitVec.eq_of_toNat_eq
  rw [BitVec.toNat_setWidth, BitVec.toNat_mul, BitVec.toNat_mul, BitVec.toNat_ofNat, BitVec.toNat_ofNat]
  change 4 * (k % 2 ^ 64) % 2 ^ 64 % 2 ^ 32 = 4 * (k % 2 ^ 32) % 2 ^ 32
  omega

theorem readLE_word_of_ne (space : IoSpace) (base : Word) (w : BitVec 32) :
    Bytes.readLE 32 (Bytes.writeLE space (wordAt base sdcmd) 4 w) (wordAt base sdarg) 4 =
      Bytes.readLE 32 space (wordAt base sdarg) 4 := by
  have hall : ∀ j < 4, 4 ≤ (4 * BitVec.ofNat 64 sdarg + BitVec.ofNat 64 j - 4 * BitVec.ofNat 64 sdcmd : Word).toNat := by
    decide
  apply Bytes.readLE_congr
  intro j hj
  unfold wordAt
  rw [BitVec.add_assoc, writeLE_base]
  exact if_neg (Nat.not_lt.mpr (hall j hj))

variable (hb : Registered cfg b)

include hb

theorem card_store (h : DevStep cfg b.base a e c) (ha : a.maps = b.maps) (he : e.Stores cfg k w) :
    ∃ host out, sdcardIoHandler (b.base .sdcard) host (4 * BitVec.ofNat 32 k) 4 true
        (Bytes.writeLE a.space (wordAt (b.base .sdcard) k) 4 w, a.dev .sdcard) = .ok out (c.space, c.dev .sdcard) := by
  obtain ⟨host, req, reply, data, rfl, haddr, hlen, hwrite, rfl⟩ := he
  obtain ⟨space, y, hy, hspace, hdev, _, _, hw⟩ := hb.access h ha
  have hoff : req.addr - cfg.mmio .sdcard = 4 * BitVec.ofNat 64 k := by
    rw [haddr]
    exact add_sub_cancel_left _ _
  have hsome : req.write.isSome = true := by
    rw [hwrite]
    rfl
  rw [(hw data hwrite).1, hoff, wordOffset, hlen, hsome] at hy
  refine ⟨host, reply.2, ?_⟩
  rw [hspace, hdev]
  change sdcardIoHandler _ _ _ _ _ (Bytes.writeLE _ _ 4 (data.setWidth (8 * 4)), _) = _
  rw [Bytes.writeLE_setWidth]
  exact hy

theorem card_load (h : DevStep cfg b.base a e c) (ha : a.maps = b.maps) (he : e.Loads cfg k w) :
    ∃ host out, sdcardIoHandler (b.base .sdcard) host (4 * BitVec.ofNat 32 k) 4 false (a.space, a.dev .sdcard) =
        .ok out (c.space, c.dev .sdcard) ∧
      w = Bytes.readLE 32 c.space (wordAt (b.base .sdcard) k) 4 := by
  obtain ⟨host, req, reply, rfl, haddr, hlen, hwrite, hreply⟩ := he
  obtain ⟨space, y, hy, hspace, hdev, _, hr, _⟩ := hb.access h ha
  obtain ⟨rfl, hdata⟩ := hr hwrite
  have hoff : req.addr - cfg.mmio .sdcard = 4 * BitVec.ofNat 64 k := by
    rw [haddr]
    exact add_sub_cancel_left _ _
  have hnone : req.write.isSome = false := by
    rw [hwrite]
    rfl
  rw [hoff, wordOffset, hlen, hnone] at hy
  refine ⟨host, reply.2, ?_, ?_⟩
  · rw [hspace, hdev]
    exact hy
  · have hw : w = (w.setWidth 64).setWidth 32 := by
      rw [BitVec.setWidth_setWidth_of_le _ (by decide), BitVec.setWidth_eq]
    rw [hw, ← hreply, hdata, hoff, hlen, readLE_narrow, hspace]
    rfl

theorem card_arg (h : DevStep cfg b.base a e c) (ha : a.maps = b.maps) (he : e.Stores cfg sdarg w) :
    c.dev .sdcard = a.dev .sdcard ∧ Bytes.readLE 32 c.space (wordAt (b.base .sdcard) sdarg) 4 = w := by
  obtain ⟨host, out, hrun⟩ := card_store hb h ha he
  obtain ⟨_, hstate⟩ := EStateM.Result.ok.inj hrun
  obtain ⟨hspace, hdev⟩ := Prod.mk.inj hstate
  refine ⟨hdev.symm, ?_⟩
  rw [← hspace, Bytes.readLE_writeLE _ _ _ (by decide) (by decide), BitVec.setWidth_eq, BitVec.setWidth_eq]

theorem card_command (h : DevStep cfg b.base a e c) (ha : a.maps = b.maps) (he : e.Stores cfg sdcmd w)
    (hcmd : (w &&& 0x3f).toNat = if isWrite = true then 25 else 18) (hfp : Sdcard.fp (a.dev .sdcard) = some f)
    (hext : Sdcard.readExtCsd (a.dev .sdcard) = false) :
    (c.dev .sdcard : Sdcard).Moves isWrite
      (f.seek ((Bytes.readLE 32 a.space (wordAt (b.base .sdcard) sdarg) 4).toNat * 512)) := by
  obtain ⟨host, out, hrun⟩ := card_store hb h ha he
  obtain ⟨_, _, hload, h1⟩ := ok_of_bind hrun
  cases hload
  obtain ⟨_, _, hhandle, h2⟩ := ok_of_bind h1
  cases h2
  rw [Bytes.readLE_writeLE _ _ _ (by decide) (by decide), BitVec.setWidth_eq, BitVec.setWidth_eq, hcmd] at hhandle
  have hprep : prepareRw (b.base .sdcard) isWrite
      (Bytes.writeLE a.space (wordAt (b.base .sdcard) sdcmd) 4 w, a.dev .sdcard) = .ok () (c.space, c.dev .sdcard) := by
    cases isWrite <;> exact hhandle
  obtain ⟨_, _, harg, h3⟩ := ok_of_bind hprep
  cases harg
  obtain ⟨_, _, hown, h4⟩ := ok_of_bind h3
  cases hown
  obtain ⟨_, hstate⟩ := EStateM.Result.ok.inj h4
  obtain ⟨_, hdev⟩ := Prod.mk.inj hstate
  rw [readLE_word_of_ne] at hdev
  rw [← hdev]
  refine ⟨?_, rfl, hext⟩
  change Option.map _ (Sdcard.fp (a.dev .sdcard)) = _
  rw [hfp]
  rfl

theorem card_write (h : DevStep cfg b.base a e c) (ha : a.maps = b.maps) (he : e.Stores cfg sddata w)
    (hs : (a.dev .sdcard : Sdcard).Moves true f) : (c.dev .sdcard : Sdcard).Moves true (f.write (wordBytes w)) := by
  obtain ⟨host, out, hrun⟩ := card_store hb h ha he
  obtain ⟨_, _, hdata, h1⟩ := ok_of_bind hrun
  cases h1
  obtain ⟨_, _, hown, h2⟩ := ok_of_bind hdata
  cases hown
  dsimp only at h2
  rw [hs.readExtCsd, if_neg Bool.false_ne_true, hs.fp] at h2
  dsimp only at h2
  rw [hs.writeCmd, if_pos rfl] at h2
  obtain ⟨_, _, hload, h3⟩ := ok_of_bind h2
  cases hload
  obtain ⟨_, hstate⟩ := EStateM.Result.ok.inj h3
  obtain ⟨_, hdev⟩ := Prod.mk.inj hstate
  rw [Bytes.readLE_writeLE _ _ _ (by decide) (by decide), BitVec.setWidth_eq, BitVec.setWidth_eq] at hdev
  rw [← hdev]
  exact ⟨rfl, rfl, rfl⟩

theorem card_read (h : DevStep cfg b.base a e c) (ha : a.maps = b.maps) (he : e.Loads cfg sddata w)
    (hs : (a.dev .sdcard : Sdcard).Moves false f) (hlen : f.pos + 4 ≤ f.bytes.length) :
    wordBytes w = (f.bytes.drop f.pos).take 4 ∧ (c.dev .sdcard : Sdcard).Moves false (f.seek (f.pos + 4)) := by
  obtain ⟨host, out, hrun, hw⟩ := card_load hb h ha he
  obtain ⟨_, _, hdata, h1⟩ := ok_of_bind hrun
  cases h1
  obtain ⟨_, _, hown, h2⟩ := ok_of_bind hdata
  cases hown
  dsimp only at h2
  rw [hs.readExtCsd, if_neg Bool.false_ne_true, hs.fp] at h2
  dsimp only at h2
  rw [hs.writeCmd, if_neg Bool.false_ne_true] at h2
  obtain ⟨_, _, hstore, h3⟩ := ok_of_bind h2
  cases hstore
  obtain ⟨_, hstate⟩ := EStateM.Result.ok.inj h3
  obtain ⟨hspace, hdev⟩ := Prod.mk.inj hstate
  have hgot : f.read.1.length = 4 := by
    change ((f.bytes.drop f.pos).take 4).length = 4
    rw [List.length_take, List.length_drop]
    omega
  refine ⟨?_, ?_⟩
  · rw [hw, ← hspace, hgot, Bytes.readLE_writeLE _ _ _ (by decide) (by decide), BitVec.setWidth_eq, BitVec.setWidth_eq]
    exact wordBytes_readLE hgot
  · rw [← hdev]
    exact ⟨congrArg some (congrArg (CardFile.mk f.bytes) (congrArg (f.pos + ·) hgot)), rfl, rfl⟩

end Card

section Transfer

variable (hb : Registered cfg b) {es : List (IoEvent Dev Dev.Event)} {ws : List (BitVec 32)}

include hb

theorem card_writes (h : Run (DevStep cfg b.base) a tr c) (hgood : ∀ x ∈ tr, x.label.Orderly b.maps)
    (ha : a.maps = b.maps) (hs : (a.dev .sdcard : Sdcard).Moves true f)
    (hws : List.Forall₂ (IoEvent.Stores cfg sddata) (labels tr) ws) :
    c.maps = b.maps ∧ (c.dev .sdcard : Sdcard).Moves true (f.writeAll ws) := by
  induction h generalizing f ws with
  | nil =>
    cases hws
    exact ⟨ha, hs⟩
  | @cons a e d tr c hstep _ ih =>
    obtain ⟨w, ws, he, hrest, rfl⟩ := List.forall₂_cons_left_iff.mp hws
    have hd := (hb.step (hgood _ List.mem_cons_self) hstep ha).1
    have hall := ih (fun x hx => hgood x (List.mem_cons_of_mem _ hx)) hd (card_write hb hstep ha he hs) hrest
    exact hall

theorem card_reads (h : Run (DevStep cfg b.base) a tr c) (hgood : ∀ x ∈ tr, x.label.Orderly b.maps)
    (ha : a.maps = b.maps) (hs : (a.dev .sdcard : Sdcard).Moves false f)
    (hws : List.Forall₂ (IoEvent.Loads cfg sddata) (labels tr) ws)
    (hthere : ∀ i < 4 * ws.length, f.pos + i < f.bytes.length) :
    ws.flatMap wordBytes = (f.bytes.drop f.pos).take (4 * ws.length) := by
  induction h generalizing f ws with
  | nil =>
    cases hws
    rw [List.flatMap_nil, List.length_nil, Nat.mul_zero, List.take_zero]
  | @cons a e d tr c hstep _ ih =>
    obtain ⟨w, ws, he, hrest, rfl⟩ := List.forall₂_cons_left_iff.mp hws
    rw [List.length_cons] at hthere ⊢
    have hd := (hb.step (hgood _ List.mem_cons_self) hstep ha).1
    have hfirst := hthere 3 (by omega)
    obtain ⟨hw, hs'⟩ := card_read hb hstep ha he hs (by omega)
    have htail := ih (fun x hx => hgood x (List.mem_cons_of_mem _ hx)) hd hs' hrest fun i hi => by
      have hnext := hthere (4 + i) (by omega)
      rwa [← Nat.add_assoc] at hnext
    have hsum : 4 * (ws.length + 1) = 4 + 4 * ws.length := by omega
    rw [List.flatMap_cons, hw, htail, hsum, List.take_add, List.drop_drop]
    rfl

theorem card_start (h : Run (DevStep cfg b.base) a tr c) (hgood : ∀ x ∈ tr, x.label.Orderly b.maps)
    (ha : a.maps = b.maps) (hfp : Sdcard.fp (a.dev .sdcard) = some f) (hext : Sdcard.readExtCsd (a.dev .sdcard) = false)
    (htr : Transfer cfg (if isWrite = true then 25 else 18) block moves (labels tr)) :
    ∃ d tr', Run (DevStep cfg b.base) d tr' c ∧ labels tr' = moves ∧ (∀ x ∈ tr', x.label.Orderly b.maps) ∧
      d.maps = b.maps ∧ (d.dev .sdcard : Sdcard).Moves isWrite (f.seek (block.toNat * 512)) := by
  obtain ⟨arg, command, w, hlabels, harg, hcommand, hcmd⟩ := htr
  cases h with
  | nil => cases hlabels
  | @cons _ e1 d tr _ h1 hrun =>
    cases hrun with
    | nil => cases hlabels
    | @cons _ e2 d' tr _ h2 hrun =>
      cases hlabels
      have hd := (hb.step (hgood _ List.mem_cons_self) h1 ha).1
      obtain ⟨hdev, hreg⟩ := card_arg hb h1 ha harg
      rw [← hdev] at hfp hext
      have hmoves := card_command hb h2 hd hcommand hcmd hfp hext
      rw [hreg] at hmoves
      exact ⟨d', tr, hrun, rfl, fun x hx => hgood x (List.mem_cons_of_mem _ (List.mem_cons_of_mem _ hx)),
        (hb.step (hgood _ (List.mem_cons_of_mem _ List.mem_cons_self)) h2 hd).1, hmoves⟩

/-- A run of all devices, as one of them sees it, from a state that is reached. -/
theorem Registered.alone_from (ha : a.maps = b.maps) (h : Run (DevStep cfg b.base) a tr c)
    (hgood : ∀ x ∈ tr, x.label.Orderly b.maps) (d : Dev) :
    ∃ tr' c', Run (DevStep cfg b.base) a tr' c' ∧ labels tr' = (labels tr).filter (fun e => e.dev = d) ∧
      ∀ x ∈ tr', x.label.Orderly b.maps := by
  have hl := hb.laid
  have hs := hb.separate
  rw [← ha] at hl hs
  obtain ⟨tr', c', hr, hlabels, _⟩ := device_runs_alone hl hs h (fun x hx => by
    rw [ha]
    exact hb.proper (hgood x hx)) d
  refine ⟨tr', c', hr, hlabels, fun x hx => ?_⟩
  have hmem : x.label ∈ (tr.map Transition.label).filter fun e => e.dev = d := hlabels ▸ List.mem_map_of_mem hx
  obtain ⟨y, hy, he⟩ := List.mem_map.mp (List.mem_of_mem_filter hmem)
  rw [← he]
  exact hgood y hy

end Transfer

/-- Words written to a block of the card and then read from a block come back, whatever other devices do in between: a
byte that was written is read as it was written, and the others as they were. -/
theorem sdcard_round_trip (hv : cfg.Valid) (hinit : initBus cfg (.start cfg) = .ok () b)
    (hpre : Run (DevStep cfg b.base) b pre a) (h : Run (DevStep cfg b.base) a tr c)
    (hgood : ∀ x ∈ pre ++ tr, x.label.Orderly b.maps) (hfp : Sdcard.fp (a.dev .sdcard) = some f)
    (hext : Sdcard.readExtCsd (a.dev .sdcard) = false)
    (hes : (labels tr).filter (fun e => e.dev = .sdcard) = wr ++ rd) (hwr : Transfer cfg 25 block moves wr)
    (hws : List.Forall₂ (IoEvent.Stores cfg sddata) moves ws) (hrd : Transfer cfg 18 block' moves' rd)
    (hrs : List.Forall₂ (IoEvent.Loads cfg sddata) moves' rs)
    (hin : ∀ i < 4 * rs.length, block'.toNat * 512 + i < f.bytes.length ∨
      (block.toNat * 512 ≤ block'.toNat * 512 + i ∧ block'.toNat * 512 + i < block.toNat * 512 + 4 * ws.length)) :
    ∀ i < 4 * rs.length, (rs.flatMap wordBytes)[i]? =
      if block.toNat * 512 ≤ block'.toNat * 512 + i ∧ block'.toNat * 512 + i < block.toNat * 512 + 4 * ws.length then
        (ws.flatMap wordBytes)[block'.toNat * 512 + i - block.toNat * 512]?
      else f.bytes[block'.toNat * 512 + i]? := by
  have hb := (initBus_registered hv hinit).1
  have ha := hb.maps_run hpre fun x hx => hgood x (List.mem_append_left _ hx)
  obtain ⟨tr', c', hrun, hlabels, hgood'⟩ := hb.alone_from ha h (fun x hx => hgood x (List.mem_append_right _ hx)) .sdcard
  rw [hes] at hlabels
  obtain ⟨tr1, tr2, rfl, hl1, hl2⟩ := List.map_eq_append_iff.mp hlabels
  obtain ⟨d, hrun1, hrun2⟩ := hrun.append_inv
  have hgood1 : ∀ x ∈ tr1, x.label.Orderly b.maps := fun x hx => hgood' x (List.mem_append_left _ hx)
  have hgood2 : ∀ x ∈ tr2, x.label.Orderly b.maps := fun x hx => hgood' x (List.mem_append_right _ hx)
  -- the blocks are written
  have hwr' : Transfer cfg (if true = true then 25 else 18) block moves (labels tr1) := by
    have hl : labels tr1 = wr := hl1
    rw [hl, if_pos rfl]
    exact hwr
  obtain ⟨a1, tw, hw, hwl, hwgood, hwmaps, hwmoves⟩ := card_start hb hrun1 hgood1 ha hfp hext hwr'
  rw [← hwl] at hws
  obtain ⟨hdmaps, hd⟩ := card_writes hb hw hwgood hwmaps hwmoves hws
  -- and then read
  have hrd' : Transfer cfg (if false = true then 25 else 18) block' moves' (labels tr2) := by
    have hl : labels tr2 = rd := hl2
    rw [hl, if_neg Bool.false_ne_true]
    exact hrd
  obtain ⟨a2, tr', hr, hrl, hrgood, hrmaps, hrmoves⟩ := card_start hb hrun2 hgood2 hdmaps hd.fp hd.readExtCsd hrd'
  rw [← hrl] at hrs
  have hbyte : ∀ i, i < f.bytes.length ∨ block.toNat * 512 ≤ i → (((f.seek (block.toNat * 512)).writeAll ws).bytes)[i]? =
      if block.toNat * 512 ≤ i ∧ i < block.toNat * 512 + 4 * ws.length then
        (ws.flatMap wordBytes)[i - block.toNat * 512]? else f.bytes[i]? :=
    fun i hi => (f.seek (block.toNat * 512)).writeAll_getElem? ws hi
  have hthere : ∀ i < 4 * rs.length,
      block'.toNat * 512 + i < ((f.seek (block.toNat * 512)).writeAll ws).bytes.length := by
    intro i hi
    by_contra hout
    have hnone := hbyte (block'.toNat * 512 + i) ((hin i hi).imp id And.left)
    rw [List.getElem?_eq_none (by omega)] at hnone
    split at hnone
    · have hlt := List.getElem?_eq_none_iff.mp hnone.symm
      rw [flatMap_wordBytes_length] at hlt
      omega
    · have hlt := List.getElem?_eq_none_iff.mp hnone.symm
      have hcase := hin i hi
      omega
  have hread := card_reads hb hr hrgood hrmaps hrmoves hrs hthere
  intro i hi
  rw [hread, List.getElem?_take_of_lt hi, List.getElem?_drop]
  exact hbyte _ ((hin i hi).imp id And.left)

/-- A word to the first block and back, and a key in between. -/
theorem sdcard_round_trip_word : ∃ tr c, Run (DevStep smallBoard smallBus.base) smallBus tr c ∧
    (labels tr).map IoEvent.answer = [(.sdcard, 0), (.sdcard, 0), (.sdcard, 0), (.keyboard, 0), (.sdcard, 0), (.sdcard, 0),
      (.sdcard, 0xdeadbeef)] ∧
    ∀ i < 4, ([0xdeadbeef#32].flatMap wordBytes)[i]? = if (0#32).toNat * 512 ≤ (0#32).toNat * 512 + i ∧
        (0#32).toNat * 512 + i < (0#32).toNat * 512 + 4 * [0xdeadbeef#32].length then
      ([0xdeadbeef#32].flatMap wordBytes)[(0#32).toNat * 512 + i - (0#32).toNat * 512]?
      else ([] : List (BitVec 8))[(0#32).toNat * 512 + i]? := by
  have hrs : smallBoardAnswers [.access ⟨0, []⟩ ⟨0xa3000004, 4, some 0⟩, .access ⟨0, []⟩ ⟨0xa3000000, 4, some 25⟩,
      .access ⟨0, []⟩ ⟨0xa3000040, 4, some 0xdeadbeef⟩, .event .keyboard (true, 0x1e, true),
      .access ⟨0, []⟩ ⟨0xa3000004, 4, some 0⟩, .access ⟨0, []⟩ ⟨0xa3000000, 4, some 18⟩,
      .access ⟨0, []⟩ ⟨0xa3000040, 4, none⟩] = some [(.sdcard, 0), (.sdcard, 0), (.sdcard, 0), (.keyboard, 0), (.sdcard, 0),
        (.sdcard, 0), (.sdcard, 0xdeadbeef)] := by decide +kernel
  obtain ⟨tr, c, hrun, hgood, hall⟩ := smallBoard_runs hrs
  obtain ⟨x1, _, rfl, ⟨_, h1⟩, x2, _, rfl, ⟨_, h2⟩, x3, _, rfl, ⟨_, h3⟩, x4, _, rfl, ⟨_, h4⟩, x5, _, rfl, ⟨_, h5⟩,
    x6, _, rfl, ⟨_, h6⟩, x7, _, rfl, ⟨_, h7⟩, rfl⟩ := hall
  have hstart := (initBus_registered smallBoard_valid smallBoard_starts).1.start
  have hcard : smallBus.dev .sdcard = (⟨some ⟨[], 0⟩, 0, 0, 0, false, false⟩ : Sdcard) := congrFun hstart .sdcard
  have hes : (labels [x1, x2, x3, x4, x5, x6, x7]).filter (fun e => e.dev = .sdcard) =
      [x1.label, x2.label, x3.label] ++ [x5.label, x6.label, x7.label] := by
    change [x1.label, x2.label, x3.label, x4.label, x5.label, x6.label, x7.label].filter _ = _
    rw [h1, h2, h3, h4, h5, h6, h7]
    rfl
  have hws : List.Forall₂ (IoEvent.Stores smallBoard sddata) [x3.label] [0xdeadbeef#32] :=
    .cons ⟨_, _, _, _, h3, rfl, rfl, rfl, rfl⟩ .nil
  have hwords : List.Forall₂ (IoEvent.Loads smallBoard sddata) [x7.label] [0xdeadbeef#32] :=
    .cons ⟨_, _, _, h7, rfl, rfl, rfl, rfl⟩ .nil
  have hround := sdcard_round_trip smallBoard_valid smallBoard_starts .nil hrun hgood
    (congrArg Sdcard.fp hcard) (congrArg Sdcard.readExtCsd hcard) hes
    ⟨x1.label, x2.label, 25, rfl, ⟨_, _, _, _, h1, rfl, rfl, rfl, rfl⟩, ⟨_, _, _, _, h2, rfl, rfl, rfl, rfl⟩, rfl⟩
    hws
    ⟨x5.label, x6.label, 18, rfl, ⟨_, _, _, _, h5, rfl, rfl, rfl, rfl⟩, ⟨_, _, _, _, h6, rfl, rfl, rfl, rfl⟩, rfl⟩
    hwords (fun i hi => .inr ⟨by omega, by simpa using hi⟩)
  refine ⟨_, c, hrun, ?_, hround⟩
  change [x1.label, x2.label, x3.label, x4.label, x5.label, x6.label, x7.label].map _ = _
  rw [h1, h2, h3, h4, h5, h6, h7]
  rfl

end Nemu
