import Nemu.Lib.Component
import Nemu.Regions
import Mathlib.Data.List.Pairwise

namespace Nemu

open Effect

set_option autoImplicit true

/-- The contents of `io_space`, by offset. -/
abbrev IoSpace := Word → BitVec 8

def ioSpaceMax : Nat := 128 * 1024 * 1024

/-- Why a device stops the emulator: an assertion, one with a message, an access outside all regions, or a null
pointer. -/
inductive IoStop where
  | assertion
  | message (text : String)
  | outOfBound (addr : Word)
  | crash

/-- The other fields of an entry of `maps`, with the device that added it. -/
structure DeviceMap (ι : Type) extends IOMap where
  name : String
  space : Word
  dev : ι
  callback : Bool

/-- What the host gives to a device during an access: the time, and what is in the pipe of the serial port. -/
structure DevHost where
  time : Word
  pipe : List (BitVec 8)

/-- What a device does to the machine: the timer interrupt, and writes to memory. -/
structure Outward where
  mtip : Option Bool
  dma : (Word → BitVec 8) → Word → BitVec 8

def Outward.none : Outward := ⟨.none, id⟩

/-- A device works on `io_space` and on static variables of its own. -/
abbrev DevM (δ : Type) := EStateM IoStop (IoSpace × δ)

abbrev Callback (δ : Type) := DevHost → BitVec 32 → Nat → Bool → DevM δ Outward

/-- The static variables of the bus and of the devices, among them each device's pointer to its region. -/
structure IoBus {ι : Type} (δ : ι → Type) where
  space : IoSpace
  pSpace : Word
  maps : List (DeviceMap ι)
  base : ι → Word
  dev : (i : ι) → δ i

abbrev IoM {ι : Type} (δ : ι → Type) := EStateM IoStop (IoBus δ)

variable {ι : Type} {δ : ι → Type}

section Init

/-- A size, to the next multiple of a page. -/
def pageAlign (size : Nat) : Nat := (size + 4095) / 4096 * 4096

def newSpace (size : Nat) : IoM δ Word := do
  let b ← get
  let p := b.pSpace
  let next := p + BitVec.ofNat 64 (pageAlign size)
  set { b with pSpace := next }
  if next.toNat < ioSpaceMax then pure p else throw .assertion

def nrMap : Nat := 16

def addMmioMap (name : String) (addr space : Word) (len : Nat) (dev : ι) (callback : Bool) : IoM δ Unit := do
  let b ← get
  if b.maps.length < nrMap then
    let m : DeviceMap ι := ⟨⟨addr, addr + BitVec.ofNat 64 len - 1⟩, name, space, dev, callback⟩
    set { b with maps := b.maps ++ [m] }
  else throw .assertion

end Init

section Access

def IoBus.fetchMmioMap (b : IoBus δ) (addr : Word) : Option (DeviceMap ι) :=
  b.maps.find? fun m => mapInside m.toIOMap addr

def checkBound (m : Option (DeviceMap ι)) (addr : Word) : IoM δ (DeviceMap ι) :=
  match m with
  | some m => if addr ≤ m.high ∧ m.low ≤ addr then pure m else throw (.outOfBound addr)
  | none => throw (.outOfBound addr)

variable [DecidableEq ι] (cb : (i : ι) → Callback (δ i))

/-- A device at work. -/
def atDevice (i : ι) (m : DevM (δ i) α) : IoM δ α := fun b =>
  match m (b.space, b.dev i) with
  | .ok a (space, d) => .ok a { b with space := space, dev := Function.update b.dev i d }
  | .error e (space, d) => .error e { b with space := space, dev := Function.update b.dev i d }

def invokeCallback (m : DeviceMap ι) (host : DevHost) (offset : Word) (len : Nat) (isWrite : Bool) : IoM δ Outward :=
  if m.callback then atDevice m.dev (cb m.dev host (offset.setWidth 32) len isWrite) else pure .none

def spaceRead (addr : Word) (len : Nat) : IoM δ Word := do
  let b ← get
  if HostLength len then pure (Bytes.readLE 64 b.space addr len) else throw .assertion

def spaceWrite (addr : Word) (len : Nat) (data : Word) : IoM δ Unit :=
  if HostLength len then modify fun b => { b with space := Bytes.writeLE b.space addr len data } else throw .assertion

def mapRead (host : DevHost) (addr : Word) (len : Nat) (m : Option (DeviceMap ι)) : IoM δ (Word × Outward) := do
  if 1 ≤ len ∧ len ≤ 8 then
    let m ← checkBound m addr
    let offset := addr - m.low
    let out ← invokeCallback cb m host offset len false
    let data ← spaceRead (m.space + offset) len
    pure (data, out)
  else throw .assertion

def mapWrite (host : DevHost) (addr : Word) (len : Nat) (data : Word) (m : Option (DeviceMap ι)) : IoM δ Outward := do
  if 1 ≤ len ∧ len ≤ 8 then
    let m ← checkBound m addr
    let offset := addr - m.low
    spaceWrite (m.space + offset) len data
    invokeCallback cb m host offset len true
  else throw .assertion

/-- `mmio_read` or `mmio_write`, as the request says. -/
def mmioAccess (host : DevHost) (r : MmioReq) : IoM δ (Word × Outward) := do
  let b ← get
  match r.write with
  | none => mapRead cb host r.addr r.len (b.fetchMmioMap r.addr)
  | some data =>
    let out ← mapWrite cb host r.addr r.len data (b.fetchMmioMap r.addr)
    pure (0, out)

end Access

/-- An access by the guest with the reply it gets, or what the host does to a device. -/
inductive IoEvent (ι : Type) (ε : ι → Type) where
  | access (dev : ι) (host : DevHost) (req : MmioReq) (reply : Word × Outward)
  | event (dev : ι) (e : ε dev) (out : Outward)

def IoEvent.dev {ε : ι → Type} : IoEvent ι ε → ι
  | access dev _ _ _ => dev
  | event dev _ _ => dev

/-- A step of the bus, with the device that it concerns. -/
inductive IoStep [DecidableEq ι] {ε : ι → Type} (cb : (i : ι) → Callback (δ i))
    (ev : (i : ι) → ε i → DevM (δ i) Outward) :
    IoBus δ → IoEvent ι ε → IoBus δ → Prop where
  | access : b.fetchMmioMap req.addr = some m → mmioAccess cb host req b = .ok reply b' →
      IoStep cb ev b (.access m.dev host req reply) b'
  | event : atDevice i (ev i e) b = .ok out b' → IoStep cb ev b (.event i e out) b'

section Layout

def DeviceMap.size (m : DeviceMap ι) : Nat := (m.high - m.low).toNat + 1

/-- The pages that are set aside for it. -/
def DeviceMap.block (m : DeviceMap ι) : Set Word :=
  {x | m.space.toNat ≤ x.toNat ∧ x.toNat < m.space.toNat + pageAlign m.size}

def region (maps : List (DeviceMap ι)) (i : ι) : Set Word := {x | ∃ m ∈ maps, m.dev = i ∧ x ∈ m.block}

/-- The pages of a bus: whole ones, in turn, below `p_space`, for regions at aligned addresses. -/
structure Laid (maps : List (DeviceMap ι)) (pSpace : Word) : Prop where
  low : ∀ m ∈ maps, m.low.toNat % 8 = 0
  page : ∀ m ∈ maps, m.space.toNat % 4096 = 0
  apart : maps.Pairwise fun m m' => m.space.toNat + pageAlign m.size ≤ m'.space.toNat
  below : ∀ m ∈ maps, m.space.toNat + pageAlign m.size ≤ pSpace.toNat
  next : pSpace.toNat % 4096 = 0
  fits : pSpace.toNat < ioSpaceMax

theorem size_le_pageAlign (n : Nat) : n ≤ pageAlign n := by
  unfold pageAlign
  omega

theorem pageAlign_dvd (n : Nat) : pageAlign n % 4096 = 0 := by
  unfold pageAlign
  omega

theorem offset_lt {m : DeviceMap ι} (hin : mapInside m.toIOMap addr = true) : (addr - m.low).toNat < m.size := by
  unfold mapInside at hin
  rw [Bool.and_eq_true, decide_eq_true_iff, decide_eq_true_iff] at hin
  obtain ⟨hlo, hhi⟩ := hin
  have hlo' : m.low.toNat ≤ addr.toNat := hlo
  have hhi' : addr.toNat ≤ m.high.toNat := hhi
  unfold DeviceMap.size
  rw [BitVec.toNat_sub_of_le hlo, BitVec.toNat_sub_of_le (BitVec.le_trans hlo hhi)]
  omega

theorem Laid.blocks_disjoint {maps : List (DeviceMap ι)} (h : Laid maps p) (hm : m ∈ maps) (hm' : m' ∈ maps)
    (hx : x ∈ m.block) (hx' : x ∈ m'.block) : m = m' := by
  by_contra hne
  let beside (a b : DeviceMap ι) : Prop := a.space.toNat + pageAlign a.size ≤ b.space.toNat ∨
    b.space.toNat + pageAlign b.size ≤ a.space.toNat
  have hsymm : Std.Symm beside := ⟨fun _ _ => Or.symm⟩
  have hbeside : maps.Pairwise beside := h.apart.imp .inl
  obtain ⟨h1, h2⟩ := hx
  obtain ⟨h3, h4⟩ := hx'
  rcases hbeside.forall hm hm' hne with hlt | hlt <;> omega

theorem Laid.regions_disjoint {maps : List (DeviceMap ι)} (h : Laid maps p) (hij : i ≠ j) (hx : x ∈ region maps i) :
    x ∉ region maps j := by
  rintro ⟨m', hm', hj, hx'⟩
  obtain ⟨m, hm, hi, hx⟩ := hx
  cases h.blocks_disjoint hm hm' hx hx'
  exact hij (hi.symm.trans hj)

theorem Laid.access_block {maps : List (DeviceMap ι)} (h : Laid maps p) (hm : m ∈ maps)
    (hin : mapInside m.toIOMap addr = true)
    (hlen : HostLength len) (hal : addr.toNat % len = 0) (hj : j < len) :
    m.space + (addr - m.low) + BitVec.ofNat 64 j ∈ m.block := by
  unfold mapInside at hin
  rw [Bool.and_eq_true, decide_eq_true_iff, decide_eq_true_iff] at hin
  obtain ⟨hlo, hhi⟩ := hin
  have hlow := h.low m hm
  have hpage := h.page m hm
  have hbelow := h.below m hm
  have hfits := h.fits
  have hmax : ioSpaceMax = 134217728 := rfl
  have hoff : (addr - m.low).toNat = addr.toNat - m.low.toNat := BitVec.toNat_sub_of_le hlo
  have hsize : m.size = m.high.toNat - m.low.toNat + 1 := by
    unfold DeviceMap.size
    rw [BitVec.toNat_sub_of_le (BitVec.le_trans hlo hhi)]
  have hlo' : m.low.toNat ≤ addr.toNat := hlo
  have hhi' : addr.toNat ≤ m.high.toNat := hhi
  have hspan : addr.toNat - m.low.toNat + j < pageAlign m.size := by
    have hle := size_le_pageAlign m.size
    have hdvd := pageAlign_dvd m.size
    rcases hlen with rfl | rfl | rfl | rfl <;> omega
  have hsum : (m.space + (addr - m.low) + BitVec.ofNat 64 j).toNat =
      m.space.toNat + (addr.toNat - m.low.toNat) + j := by
    rw [BitVec.toNat_add, BitVec.toNat_add, hoff, BitVec.toNat_ofNat]
    omega
  refine ⟨?_, ?_⟩ <;> rw [hsum] <;> omega

theorem added_size (addr p : Word) (name : String) (dev : ι) (callback : Bool) (hn : 0 < n) (hmax : n < 2 ^ 31) :
    DeviceMap.size ⟨⟨addr, addr + BitVec.ofNat 64 n - 1⟩, name, p, dev, callback⟩ = n := by
  unfold DeviceMap.size
  have hsub : addr + BitVec.ofNat 64 n - 1 - addr = BitVec.ofNat 64 n - 1 := by
    rw [BitVec.sub_sub, BitVec.add_comm 1, ← BitVec.sub_sub, BitVec.add_comm, BitVec.add_sub_cancel]
  rw [hsub, BitVec.toNat_sub_of_le, BitVec.toNat_ofNat]
  · change n % 2 ^ 64 - 1 + 1 = n
    omega
  · rw [BitVec.le_def, BitVec.toNat_ofNat]
    change 1 ≤ n % 2 ^ 64
    omega

theorem Laid.register {maps : List (DeviceMap ι)} (h : Laid maps p) (haddr : addr.toNat % 8 = 0) (hn : 0 < n)
    (hmax : n < 2 ^ 31) (hnext : (p + BitVec.ofNat 64 (pageAlign n)).toNat < ioSpaceMax) :
    Laid (maps ++ [⟨⟨addr, addr + BitVec.ofNat 64 n - 1⟩, name, p, dev, callback⟩])
      (p + BitVec.ofNat 64 (pageAlign n)) := by
  have hsize := added_size addr p name dev callback hn hmax
  have hfits := h.fits
  have hpages : pageAlign n < 2 ^ 32 := by
    unfold pageAlign
    omega
  have hsum : (p + BitVec.ofNat 64 (pageAlign n)).toNat = p.toNat + pageAlign n := by
    rw [BitVec.toNat_add, BitVec.toNat_ofNat]
    have hmax : ioSpaceMax = 134217728 := rfl
    omega
  have hdvd := pageAlign_dvd n
  have hnextpage := h.next
  constructor
  · intro m hm
    obtain hm | hm := List.mem_append.mp hm
    · exact h.low m hm
    · rw [List.mem_singleton.mp hm]
      exact haddr
  · intro m hm
    obtain hm | hm := List.mem_append.mp hm
    · exact h.page m hm
    · rw [List.mem_singleton.mp hm]
      exact h.next
  · refine List.pairwise_append.mpr ⟨h.apart, List.pairwise_singleton _ _, fun m hm m' hm' => ?_⟩
    rw [List.mem_singleton.mp hm']
    exact h.below m hm
  · intro m hm
    rw [hsum]
    obtain hm | hm := List.mem_append.mp hm
    · exact Nat.le_trans (h.below m hm) (Nat.le_add_right _ _)
    · rw [List.mem_singleton.mp hm, hsize]
  · rw [hsum]
    omega
  · exact hnext

end Layout

section Isolation

variable {maps : List (DeviceMap ι)} {b b' c : IoBus δ} {i j : ι}

/-- What a device sees of a bus is the same. -/
structure SameFor (maps : List (DeviceMap ι)) (i : ι) (b b' : IoBus δ) : Prop where
  left : b.maps = maps
  right : b'.maps = maps
  dev : b'.dev i = b.dev i
  space : Set.EqOn b.space b'.space (region maps i)

theorem SameFor.symm (h : SameFor maps i b b') : SameFor maps i b' b :=
  ⟨h.right, h.left, h.dev.symm, fun _ hx => (h.space hx).symm⟩

/-- A computation on the bus that takes place at one device. -/
structure Concerns (maps : List (DeviceMap ι)) (i : ι) (m : IoM δ α) : Prop where
  own : ∀ b a c b', m b = .ok a c → SameFor maps i b b' → ∃ c', m b' = .ok a c' ∧ SameFor maps i c c'
  other : ∀ b a c, m b = .ok a c → b.maps = maps → c.maps = maps ∧ (∀ j, j ≠ i → c.dev j = b.dev j) ∧
    ∀ x ∉ region maps i, c.space x = b.space x

theorem Concerns.pure (a : α) : Concerns maps i (pure a : IoM δ α) where
  own := by
    intro b a c b' h hb
    cases h
    exact ⟨b', rfl, hb⟩
  other := by
    intro b a c h hb
    cases h
    exact ⟨hb, fun _ _ => rfl, fun _ _ => rfl⟩

theorem Concerns.throw (e : IoStop) : Concerns maps i (throw e : IoM δ α) where
  own := by
    intro b a c b' h
    cases h
  other := by
    intro b a c h
    cases h

theorem Concerns.bind {m : IoM δ α} {f : α → IoM δ β} (hm : Concerns maps i m) (hf : ∀ a, Concerns maps i (f a)) :
    Concerns maps i (m >>= f) where
  own := by
    intro b r c b' h hb
    obtain ⟨a, d, hmd, hfd⟩ := ok_of_bind h
    obtain ⟨d', hmd', hd⟩ := hm.own b a d b' hmd hb
    obtain ⟨c', hfc', hc⟩ := (hf a).own d r c d' hfd hd
    exact ⟨c', (bind_ok hmd').trans hfc', hc⟩
  other := by
    intro b r c h hb
    obtain ⟨a, d, hmd, hfd⟩ := ok_of_bind h
    obtain ⟨hd, hdev, hspace⟩ := hm.other b a d hmd hb
    obtain ⟨hc, hdev', hspace'⟩ := (hf a).other d r c hfd hd
    exact ⟨hc, fun j hj => (hdev' j hj).trans (hdev j hj), fun x hx => (hspace' x hx).trans (hspace x hx)⟩

theorem Concerns.ite {p : Prop} [Decidable p] {m n : IoM δ α} (hm : p → Concerns maps i m)
    (hn : ¬ p → Concerns maps i n) :
    Concerns maps i (if p then m else n) := by
  split
  · exact hm ‹_›
  · exact hn ‹_›

theorem Concerns.atDevice [DecidableEq ι] {m : DevM (δ i) α} (hm : ConfinedTo (region maps i) m) :
    Concerns maps i (atDevice i m) where
  own := by
    intro b a c b' h hb
    unfold Nemu.atDevice at h ⊢
    cases hrun : m (b.space, b.dev i) with
    | error e s =>
      rw [hrun] at h
      cases h
    | ok a s =>
      rw [hrun] at h
      cases h
      obtain ⟨k, hk, hin, _⟩ := hm _ _ _ _ _ hrun b'.space hb.space
      rw [hb.dev, hk]
      refine ⟨_, rfl, hb.left, hb.right, ?_, hin⟩
      change Function.update b'.dev i _ i = Function.update b.dev i _ i
      rw [Function.update_self, Function.update_self]
  other := by
    intro b a c h hb
    unfold Nemu.atDevice at h
    cases hrun : m (b.space, b.dev i) with
    | error e s =>
      rw [hrun] at h
      cases h
    | ok a s =>
      rw [hrun] at h
      cases h
      exact ⟨hb, fun j hj => Function.update_of_ne hj _ _, fun x hx => hm.outside hrun hx⟩

theorem writeLE_eqOn {h k : IoSpace} {R : Set Word} (hk : Set.EqOn h k R) (d : BitVec v) :
    Set.EqOn (Bytes.writeLE h addr len d) (Bytes.writeLE k addr len d) R := by
  intro x hx
  unfold Bytes.writeLE
  split
  · rfl
  · exact hk hx

theorem writeLE_notMem {h : IoSpace} {R : Set Word} (hin : ∀ j < len, addr + BitVec.ofNat 64 j ∈ R) (d : BitVec v)
    (hx : x ∉ R) : Bytes.writeLE h addr len d x = h x :=
  Bytes.writeLE_off _ _ fun j hj he => hx (he ▸ hin j hj)

theorem Concerns.spaceRead (hin : HostLength len → ∀ j < len, addr + BitVec.ofNat 64 j ∈ region maps i) :
    Concerns maps i (spaceRead addr len : IoM δ Word) where
  own := by
    intro b a c b' h hb
    obtain ⟨_, _, hget, h1⟩ := ok_of_bind h
    cases hget
    split at h1
    · cases h1
      refine ⟨b', ?_, hb⟩
      have hread : Bytes.readLE 64 b.space addr len = Bytes.readLE 64 b'.space addr len :=
        Bytes.readLE_congr fun j hj => hb.space (hin ‹_› j hj)
      unfold Nemu.spaceRead
      rw [get_bind, if_pos ‹_›, hread]
      rfl
    · cases h1
  other := by
    intro b a c h hb
    obtain ⟨_, _, hget, h1⟩ := ok_of_bind h
    cases hget
    split at h1
    · cases h1
      exact ⟨hb, fun _ _ => rfl, fun _ _ => rfl⟩
    · cases h1

theorem Concerns.spaceWrite (data : Word)
    (hin : HostLength len → ∀ j < len, addr + BitVec.ofNat 64 j ∈ region maps i) :
    Concerns maps i (spaceWrite addr len data : IoM δ Unit) := by
  refine .ite (fun hl => ⟨?_, ?_⟩) fun _ => .throw _
  · intro b a c b' h hb
    cases h
    exact ⟨_, rfl, hb.left, hb.right, hb.dev, writeLE_eqOn hb.space data⟩
  · intro b a c h hb
    cases h
    exact ⟨hb, fun _ _ => rfl, fun x hx => writeLE_notMem (hin hl) data hx⟩

theorem checkBound_inside {m : DeviceMap ι} (h : mapInside m.toIOMap addr = true) :
    checkBound (some m) addr = (pure m : IoM δ (DeviceMap ι)) := by
  unfold mapInside at h
  rw [Bool.and_eq_true, decide_eq_true_iff, decide_eq_true_iff] at h
  exact if_pos h.symm

theorem fetchMmioMap_some (h : b.fetchMmioMap addr = some m) : m ∈ b.maps ∧ mapInside m.toIOMap addr = true := by
  unfold IoBus.fetchMmioMap at h
  refine ⟨List.mem_of_find?_eq_some h, ?_⟩
  have hin := List.find?_some h
  exact hin

theorem Laid.access_region (hl : Laid maps p) (hm : m ∈ maps) (hin : mapInside m.toIOMap addr = true)
    (hal : addr.toNat % len = 0) :
    HostLength len → ∀ j < len, m.space + (addr - m.low) + BitVec.ofNat 64 j ∈ region maps m.dev :=
  fun hlen _ hj => ⟨m, hm, rfl, hl.access_block hm hin hlen hal hj⟩

variable [DecidableEq ι] {cb : (i : ι) → Callback (δ i)} {ε : ι → Type} {ev : (i : ι) → ε i → DevM (δ i) Outward}

/-- The devices of a bus work on their own pages. -/
def Separate (maps : List (DeviceMap ι)) (cb : (i : ι) → Callback (δ i)) : Prop :=
  ∀ m ∈ maps, m.callback = true → ∀ host offset len isWrite,
    ConfinedTo (region maps m.dev) (cb m.dev host offset len isWrite)

theorem Concerns.invokeCallback (hcb : Separate maps cb) (hm : m ∈ maps) (host : DevHost) (offset : Word) (len : Nat)
    (isWrite : Bool) : Concerns maps m.dev (invokeCallback cb m host offset len isWrite) :=
  .ite (fun hc => .atDevice (hcb m hm hc _ _ _ _)) fun _ => .pure _

theorem Concerns.mapRead (hl : Laid maps p) (hcb : Separate maps cb) (hm : m ∈ maps) (host : DevHost)
    (hin : mapInside m.toIOMap addr = true) (hal : addr.toNat % len = 0) :
    Concerns maps m.dev (mapRead cb host addr len (some m)) := by
  refine .ite (fun _ => ?_) fun _ => .throw _
  rw [checkBound_inside hin, pure_bind]
  exact .bind (.invokeCallback hcb hm _ _ _ _) fun _ => .bind (.spaceRead (hl.access_region hm hin hal)) fun _ => .pure _

theorem Concerns.mapWrite (hl : Laid maps p) (hcb : Separate maps cb) (hm : m ∈ maps) (host : DevHost) (data : Word)
    (hin : mapInside m.toIOMap addr = true) (hal : addr.toNat % len = 0) :
    Concerns maps m.dev (mapWrite cb host addr len data (some m)) := by
  refine .ite (fun _ => ?_) fun _ => .throw _
  rw [checkBound_inside hin, pure_bind]
  exact .bind (.spaceWrite _ (hl.access_region hm hin hal)) fun _ => .invokeCallback hcb hm _ _ _ _

/-- An access, once its region is found. -/
def regionAccess (cb : (i : ι) → Callback (δ i)) (host : DevHost) (r : MmioReq) (m : DeviceMap ι) :
    IoM δ (Word × Outward) :=
  match r.write with
  | none => mapRead cb host r.addr r.len (some m)
  | some data => do
    let out ← mapWrite cb host r.addr r.len data (some m)
    pure (0, out)

theorem mmioAccess_eq (h : b.fetchMmioMap r.addr = some m) : mmioAccess cb host r b = regionAccess cb host r m b := by
  unfold mmioAccess regionAccess
  rw [get_bind, h]

theorem Concerns.regionAccess (hl : Laid maps p) (hcb : Separate maps cb) (hm : m ∈ maps) (host : DevHost) (r : MmioReq)
    (hin : mapInside m.toIOMap r.addr = true) (hal : r.addr.toNat % r.len = 0) :
    Concerns maps m.dev (regionAccess cb host r m) := by
  unfold Nemu.regionAccess
  split
  · exact .mapRead hl hcb hm host hin hal
  · exact .bind (.mapWrite hl hcb hm host _ hin hal) fun _ => .pure _

/-- Aligned accesses, and what the host does to the pages of a device. -/
def IoEvent.Proper (maps : List (DeviceMap ι)) (ev : (i : ι) → ε i → DevM (δ i) Outward) : IoEvent ι ε → Prop
  | access _ _ req _ => req.addr.toNat % req.len = 0
  | event i e _ => ConfinedTo (region maps i) (ev i e)

theorem IoStep.own (hl : Laid maps p) (hcb : Separate maps cb) (he : e.Proper maps ev) (h : IoStep cb ev b e c)
    (hb : SameFor maps e.dev b b') : ∃ c', IoStep cb ev b' e c' ∧ SameFor maps e.dev c c' := by
  cases h with
  | access hf hacc =>
    obtain ⟨hm, hin⟩ := fetchMmioMap_some hf
    rw [hb.left] at hm
    rw [mmioAccess_eq hf] at hacc
    obtain ⟨c', hc', hc⟩ := (Concerns.regionAccess hl hcb hm _ _ hin he).own _ _ _ _ hacc hb
    have hmaps : ∀ addr, b'.fetchMmioMap addr = b.fetchMmioMap addr := by
      intro addr
      unfold IoBus.fetchMmioMap
      rw [hb.right, hb.left]
    have hf' := (hmaps _).trans hf
    exact ⟨c', .access hf' ((mmioAccess_eq hf').trans hc'), hc⟩
  | event hev =>
    obtain ⟨c', hc', hc⟩ := (Concerns.atDevice he).own _ _ _ _ hev hb
    exact ⟨c', .event hc', hc⟩

theorem IoStep.concerns (hl : Laid maps p) (hcb : Separate maps cb) (he : e.Proper maps ev) (h : IoStep cb ev b e c)
    (hb : b.maps = maps) : c.maps = maps ∧ (∀ j, j ≠ e.dev → c.dev j = b.dev j) ∧
      ∀ x ∉ region maps e.dev, c.space x = b.space x := by
  cases h with
  | access hf hacc =>
    obtain ⟨hm, hin⟩ := fetchMmioMap_some hf
    rw [hb] at hm
    rw [mmioAccess_eq hf] at hacc
    exact (Concerns.regionAccess hl hcb hm _ _ hin he).other _ _ _ hacc hb
  | event hev => exact (Concerns.atDevice he).other _ _ _ hev hb

theorem IoStep.other (hl : Laid maps p) (hcb : Separate maps cb) (he : e.Proper maps ev) (h : IoStep cb ev b e c)
    (hi : i ≠ e.dev) (hb : SameFor maps i b b') : SameFor maps i c b' := by
  obtain ⟨hmaps, hdev, hspace⟩ := h.concerns hl hcb he hb.left
  exact ⟨hmaps, hb.right, hb.dev.trans (hdev i hi).symm, fun x hx =>
    (hspace x (hl.regions_disjoint hi hx)).trans (hb.space hx)⟩

/-- In a run of the bus each device does what it would do if the others were idle: it gives the same replies to the
same accesses, and ends in the same state. -/
theorem device_runs_alone (hl : Laid b.maps p) (hcb : Separate b.maps cb) (h : Run (IoStep cb ev) b tr c)
    (hgood : ∀ x ∈ tr, x.label.Proper b.maps ev) (i : ι) :
    ∃ tr' c', Run (IoStep cb ev) b tr' c' ∧
      tr'.map Transition.label = (tr.map Transition.label).filter (fun e => e.dev = i) ∧
      c'.dev i = c.dev i ∧ Set.EqOn c.space c'.space (region b.maps i) := by
  obtain ⟨tr', c', hr, hlabel, hc⟩ := h.alone (SameFor b.maps)
    (fun _ _ _ _ he hs ha => hs.own hl hcb he ha)
    (fun _ _ _ _ _ he hs hi ha => hs.other hl hcb he hi ha) hgood i ⟨rfl, rfl, rfl, fun _ _ => rfl⟩
  exact ⟨tr', c', hr, hlabel, hc.dev, hc.space⟩

/-- Runs of the devices, from one bus, can be interleaved in any order: each device gives the same replies, and ends in
the same state. -/
theorem device_runs_interleave (hl : Laid b.maps p) (hcb : Separate b.maps cb) (es : List (IoEvent ι ε))
    (hgood : ∀ e ∈ es, e.Proper b.maps ev) {c : ι → IoBus δ} {t : ι → List (Transition (IoBus δ) (IoEvent ι ε))}
    (hruns : ∀ i, Run (IoStep cb ev) b (t i) (c i))
    (hlabels : ∀ i, (t i).map Transition.label = es.filter fun e => e.dev = i) :
    ∃ tr d, Run (IoStep cb ev) b tr d ∧ tr.map Transition.label = es ∧ ∀ i, SameFor b.maps i (c i) d :=
  Run.interleave (SameFor b.maps) (fun _ _ _ h => h.symm)
    (fun _ _ _ _ he hs ha => hs.own hl hcb he ha)
    (fun _ _ _ _ _ he hs hi ha => hs.other hl hcb he hi ha) es hgood hruns hlabels fun _ => ⟨rfl, rfl, rfl, fun _ _ => rfl⟩

end Isolation

section Decompose

variable [DecidableEq ι] {cb : (i : ι) → Callback (δ i)} {b b' : IoBus δ} {m : DeviceMap ι} {r : MmioReq}

theorem atDevice_ok {i : ι} {p : DevM (δ i) α} (h : atDevice i p b = .ok a b') :
    ∃ x, p (b.space, b.dev i) = .ok a x ∧ b' = { b with space := x.1, dev := Function.update b.dev i x.2 } := by
  unfold atDevice at h
  cases hp : p (b.space, b.dev i) with
  | ok a x =>
    rw [hp] at h
    cases h
    exact ⟨x, rfl, rfl⟩
  | error e x =>
    rw [hp] at h
    cases h

/-- A read: the callback, and then the bytes. -/
theorem regionAccess_read (hin : mapInside m.toIOMap r.addr = true) (hr : r.write = none)
    (h : regionAccess cb host r m b = .ok reply b') :
    HostLength r.len ∧ invokeCallback cb m host (r.addr - m.low) r.len false b = .ok reply.2 b' ∧
      reply.1 = Bytes.readLE 64 b'.space (m.space + (r.addr - m.low)) r.len := by
  unfold regionAccess at h
  rw [hr] at h
  dsimp only at h
  unfold mapRead at h
  split at h
  · rw [checkBound_inside hin, pure_bind] at h
    obtain ⟨out, c, hout, h1⟩ := ok_of_bind h
    obtain ⟨data, c', hdata, h2⟩ := ok_of_bind h1
    obtain ⟨_, _, hget, h3⟩ := ok_of_bind hdata
    cases hget
    split at h3
    · cases h3
      cases h2
      exact ⟨‹_›, hout, rfl⟩
    · cases h3
  · cases h

/-- A write: the bytes, and then the callback. -/
theorem regionAccess_write (hin : mapInside m.toIOMap r.addr = true) (hr : r.write = some data)
    (h : regionAccess cb host r m b = .ok reply b') :
    HostLength r.len ∧ reply.1 = 0 ∧ invokeCallback cb m host (r.addr - m.low) r.len true
      { b with space := Bytes.writeLE b.space (m.space + (r.addr - m.low)) r.len data } = .ok reply.2 b' := by
  unfold regionAccess at h
  rw [hr] at h
  dsimp only at h
  obtain ⟨out, c, hw, h1⟩ := ok_of_bind h
  cases h1
  unfold mapWrite at hw
  split at hw
  · rw [checkBound_inside hin, pure_bind] at hw
    obtain ⟨_, c', hs, h2⟩ := ok_of_bind hw
    unfold spaceWrite at hs
    split at hs
    · cases hs
      exact ⟨‹_›, rfl, h2⟩
    · cases hs
  · cases hw

theorem invokeCallback_ok (h : invokeCallback cb m host offset len w b = .ok out b') :
    ∃ x, (if m.callback = true then cb m.dev host (offset.setWidth 32) len w else pure .none) (b.space, b.dev m.dev) =
      .ok out x ∧ b' = { b with space := x.1, dev := Function.update b.dev m.dev x.2 } := by
  unfold invokeCallback at h
  split at h
  · rw [if_pos ‹_›]
    exact atDevice_ok h
  · rw [if_neg ‹_›]
    cases h
    refine ⟨_, rfl, ?_⟩
    rw [Function.update_eq_self]

theorem regionAccess_ok (hin : mapInside m.toIOMap r.addr = true) (h : regionAccess cb host r m b = .ok reply b') :
    ∃ space x,
      (if m.callback = true then cb m.dev host ((r.addr - m.low).setWidth 32) r.len r.write.isSome else pure .none)
        (space, b.dev m.dev) = .ok reply.2 x ∧
      b' = { b with space := x.1, dev := Function.update b.dev m.dev x.2 } ∧ HostLength r.len ∧
      (r.write = none → space = b.space ∧
        reply.1 = Bytes.readLE 64 x.1 (m.space + (r.addr - m.low)) r.len) ∧
      ∀ data, r.write = some data →
        space = Bytes.writeLE b.space (m.space + (r.addr - m.low)) r.len data ∧ reply.1 = 0 := by
  cases hr : r.write with
  | none =>
    obtain ⟨hlen, hcall, hreply⟩ := regionAccess_read hin hr h
    obtain ⟨x, hx, rfl⟩ := invokeCallback_ok hcall
    exact ⟨b.space, x, hx, rfl, hlen, fun _ => ⟨rfl, hreply⟩, fun _ hd => by cases hd⟩
  | some data =>
    obtain ⟨hlen, hreply, hcall⟩ := regionAccess_write hin hr h
    obtain ⟨x, hx, rfl⟩ := invokeCallback_ok hcall
    refine ⟨_, x, hx, rfl, hlen, ⟨nofun, fun data' hd => ?_⟩⟩
    cases hd
    exact ⟨rfl, hreply⟩

variable {ε : ι → Type} {ev : (i : ι) → ε i → DevM (δ i) Outward} {c c' : IoBus δ} {e : IoEvent ι ε}
  {maps : List (DeviceMap ι)}

theorem IoStep.fixed (h : IoStep cb ev b e c) : c = { b with space := c.space, dev := c.dev } := by
  cases h with
  | access hf hacc =>
    rw [mmioAccess_eq hf] at hacc
    obtain ⟨_, x, _, rfl, _⟩ := regionAccess_ok (fetchMmioMap_some hf).2 hacc
    rfl
  | event hev =>
    obtain ⟨x, _, rfl⟩ := atDevice_ok hev
    rfl

theorem IoStep.unique (h : IoStep cb ev b e c) (h' : IoStep cb ev b e c') : c = c' := by
  cases h with
  | access hf hacc =>
    generalize he : IoEvent.access _ _ _ _ = e at h'
    cases h' with
    | access hf' hacc' =>
      injection he with _ hhost hreq hreply
      subst hhost hreq hreply
      cases hacc.symm.trans hacc'
      rfl
    | event => cases he
  | event hev =>
    cases h' with
    | event hev' =>
      cases hev.symm.trans hev'
      rfl

theorem ioRun_unique (h : Run (IoStep cb ev) b tr c) (h' : Run (IoStep cb ev) b tr' c')
    (hl : tr.map Transition.label = tr'.map Transition.label) : c = c' := by
  induction h generalizing tr' with
  | nil =>
    rw [List.map_eq_nil_iff.mp hl.symm] at h'
    exact h'.eq_of_nil.symm
  | @cons a e d tr c hs _ ih =>
    obtain ⟨x, tr'', rfl, hx, hrest⟩ := List.map_eq_cons_iff.mp hl.symm
    obtain ⟨rfl, hs', hr⟩ := h'.uncons
    rw [hx] at hs'
    rw [← hs.unique hs'] at hr
    exact ih hr hrest.symm

theorem ioRun_frame (hl : Laid b.maps p) (hcb : Separate b.maps cb) (h : Run (IoStep cb ev) b tr c)
    (hgood : ∀ x ∈ tr, x.label.Proper b.maps ev) :
    c = { b with space := c.space, dev := c.dev } ∧ ∀ x, (∀ i, x ∉ region b.maps i) → c.space x = b.space x := by
  refine h.history (I := fun _ c => c = { b with space := c.space, dev := c.dev } ∧
    ∀ x, (∀ i, x ∉ region b.maps i) → c.space x = b.space x) hgood ⟨rfl, fun _ _ => rfl⟩ ?_
  intro tr x hx hs hI
  have hmaps : x.source.maps = b.maps := (congrArg IoBus.maps hI.1 :)
  refine ⟨?_, fun y hy => ?_⟩
  · rw [hs.fixed, hI.1]
  · exact ((hs.concerns hl hcb hx hmaps).2.2 y (hy _)).trans (hI.2 y hy)

/-- Where two runs give each device the same steps, in the same order, they end in the same bus: how the steps of
different devices are interleaved makes no difference. -/
theorem device_runs_agree (hl : Laid b.maps p) (hcb : Separate b.maps cb) (h : Run (IoStep cb ev) b tr c)
    (h' : Run (IoStep cb ev) b tr' c') (hgood : ∀ x ∈ tr, x.label.Proper b.maps ev)
    (hgood' : ∀ x ∈ tr', x.label.Proper b.maps ev)
    (hsame : ∀ i, (tr.map Transition.label).filter (fun e => e.dev = i) =
      (tr'.map Transition.label).filter fun e => e.dev = i) : c = c' := by
  have hdev : ∀ i, c'.dev i = c.dev i ∧ Set.EqOn c.space c'.space (region b.maps i) := by
    intro i
    obtain ⟨t, d, hrun, hlabel, hd, hspace⟩ := device_runs_alone hl hcb h hgood i
    obtain ⟨t', d', hrun', hlabel', hd', hspace'⟩ := device_runs_alone hl hcb h' hgood' i
    have hend := ioRun_unique hrun hrun' (hlabel.trans ((hsame i).trans hlabel'.symm))
    subst hend
    exact ⟨hd'.symm.trans hd, hspace.trans hspace'.symm⟩
  obtain ⟨hc, hframe⟩ := ioRun_frame hl hcb h hgood
  obtain ⟨hc', hframe'⟩ := ioRun_frame hl hcb h' hgood'
  have hspaces : c.space = c'.space := by
    funext x
    by_cases hx : ∃ i, x ∈ region b.maps i
    · obtain ⟨i, hi⟩ := hx
      exact (hdev i).2 hi
    · have hout := not_exists.mp hx
      exact (hframe x hout).trans (hframe' x hout).symm
  have hdevs : c.dev = c'.dev := funext fun i => (hdev i).1.symm
  rw [hc, hc', hspaces, hdevs]

end Decompose

end Nemu
