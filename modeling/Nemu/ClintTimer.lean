import Nemu.DeviceMemory

namespace Nemu

open Effect

set_option autoImplicit true

variable {cfg : DevConfig} {b a c : IoBus Dev.State} {e : IoEvent Dev Dev.Event}
  {tr : List (Transition (IoBus Dev.State) (IoEvent Dev Dev.Event))}

def clintTick (cfg : DevConfig) (host : DevHost) (mtime : Word) : Word :=
  if cfg.deterministic then mtime + timebase / 10000 else timebase * (host.time - cfg.bootTime) / 1000000

/-- The time that the timer shows after a step of the devices. -/
def clintTime (cfg : DevConfig) (mtime : Word) : IoEvent Dev Dev.Event → Word
  | .access .clint host _ _ => clintTick cfg host mtime
  | .event .clint host _ => clintTick cfg host mtime
  | _ => mtime

/-- The state of the interrupt line, as the devices left it. -/
def timerLine (line : Option Bool) (e : IoEvent Dev Dev.Event) : Option Bool := e.outward.mtip.or line

/-- A step that does not write the `n` bytes at an offset of a device. -/
def IoEvent.Spares (cfg : DevConfig) (d : Dev) (o : Word) (n : Nat) : IoEvent Dev Dev.Event → Prop
  | access d' _ req _ => d' = d → req.write.isSome = true → ∀ j < n,
    req.len ≤ (o + BitVec.ofNat 64 j - (req.addr - cfg.mmio d)).toNat
  | event .. => True

theorem updateClint_ok {base : Word} {space : IoSpace} {u : Unit}
    (h : updateClint cfg base host (space, u) = .ok out y) :
    y.1 = Bytes.writeLE space (base + clintMtimeOffset) 8
        (clintTick cfg host (Bytes.readLE 64 space (base + clintMtimeOffset) 8)) ∧
      out = ⟨some (Bytes.readLE 64 y.1 (base + clintMtimecmp) 8 ≤
        clintTick cfg host (Bytes.readLE 64 space (base + clintMtimeOffset) 8)), id⟩ := by
  obtain ⟨_, _, hmtime, h1⟩ := ok_of_bind h
  cases hmtime
  obtain ⟨_, _, hstore, h2⟩ := ok_of_bind h1
  cases hstore
  obtain ⟨_, _, hcmp, h3⟩ := ok_of_bind h2
  cases hcmp
  cases h3
  exact ⟨rfl, rfl⟩

theorem readLE_offset (m : IoSpace) (base o : Word) (n : Nat) :
    Bytes.readLE v m (base + o) n = Bytes.readLE v (fun o => m (base + o)) o n := by
  apply Bytes.readLE_congr
  intro i _
  rw [BitVec.add_assoc]

/-- Offsets of the timer apart from its `mtime`. -/
def clintOther : Set Word := {o | o.toNat < 0x10000 ∧ 8 ≤ (o - clintMtimeOffset).toNat}

theorem mtimecmp_other (hj : j < 8) : clintMtimecmp + BitVec.ofNat 64 j ∈ clintOther := by
  have hall : ∀ j < 8, (clintMtimecmp + BitVec.ofNat 64 j).toNat < 0x10000 ∧
      8 ≤ (clintMtimecmp + BitVec.ofNat 64 j - clintMtimeOffset).toNat := by decide
  exact hall j hj

theorem clint_leaves (base : Dev → Word) : Dev.Leaves cfg base .clint clintOther := by
  have hoff : ∀ (space : IoSpace) (data : Word), ∀ o ∈ clintOther,
      Bytes.writeLE space (base .clint + clintMtimeOffset) 8 data (base .clint + o) = space (base .clint + o) := by
    intro space data o ho
    rw [writeLE_base]
    exact if_neg (Nat.not_lt.mpr ho.2)
  constructor
  · intro host offset len w x out y h o ho
    rw [(updateClint_ok h).1]
    exact hoff _ _ o ho
  · intro e x out y h o ho
    rw [(updateClint_ok h).1]
    exact hoff _ _ o ho

theorem mtime_spared {base : Word} {req : MmioReq} {reply : Word × Outward} {space : IoSpace} {data mmio : Word}
    (hmmio : mmio = cfg.mmio .clint) (hreq : req.write = some data)
    (hs : (IoEvent.access .clint host req reply).Spares cfg .clint clintMtimeOffset 8) :
    Bytes.readLE 64 (Bytes.writeLE space (base + (req.addr - mmio)) req.len data) (base + clintMtimeOffset) 8 =
      Bytes.readLE 64 space (base + clintMtimeOffset) 8 := by
  subst hmmio
  apply Bytes.readLE_congr
  intro j hj
  rw [BitVec.add_assoc, writeLE_base]
  exact if_neg (Nat.not_lt.mpr (hs rfl (by rw [hreq]; rfl) j hj))

theorem clint_step (hb : Registered cfg b) (h : DevStep cfg b.base a e c) (ha : a.maps = b.maps) (he : e.dev = .clint)
    (hspare : cfg.deterministic = true → e.Spares cfg .clint clintMtimeOffset 8) :
    Bytes.readLE 64 c.space (b.base .clint + clintMtimeOffset) 8 =
        clintTime cfg (Bytes.readLE 64 a.space (b.base .clint + clintMtimeOffset) 8) e ∧
      e.outward.mtip = some (Bytes.readLE 64 c.space (b.base .clint + clintMtimecmp) 8 ≤
        Bytes.readLE 64 c.space (b.base .clint + clintMtimeOffset) 8 : Bool) := by
  -- what an update at `space` leaves behind
  have hupdate : ∀ {host : DevHost} {space : IoSpace} {s : Unit} {out : Outward} {y : IoSpace × Unit},
      updateClint cfg (b.base .clint) host (space, s) = .ok out y → c.space = y.1 →
      Bytes.readLE 64 c.space (b.base .clint + clintMtimeOffset) 8 =
          clintTick cfg host (Bytes.readLE 64 space (b.base .clint + clintMtimeOffset) 8) ∧
        out.mtip = some (Bytes.readLE 64 c.space (b.base .clint + clintMtimecmp) 8 ≤
          Bytes.readLE 64 c.space (b.base .clint + clintMtimeOffset) 8 : Bool) := by
    intro host space s out y hy hc
    obtain ⟨hy1, hout⟩ := updateClint_ok hy
    have htime : Bytes.readLE 64 c.space (b.base .clint + clintMtimeOffset) 8 =
        clintTick cfg host (Bytes.readLE 64 space (b.base .clint + clintMtimeOffset) 8) := by
      rw [hc, hy1, Bytes.readLE_writeLE _ _ _ (by decide) (by decide), BitVec.setWidth_eq, BitVec.setWidth_eq]
    refine ⟨htime, ?_⟩
    rw [hout, htime, hc]
  cases e with
  | access d host req reply =>
    cases he
    obtain ⟨space, y, hy, hc, _, _, hread, hwrite⟩ := hb.access h ha
    obtain ⟨htime, hout⟩ := hupdate hy hc
    refine ⟨htime.trans ?_, hout⟩
    change clintTick cfg host _ = clintTick cfg host _
    cases hreq : req.write with
    | none => rw [(hread hreq).1]
    | some data =>
      cases hdet : cfg.deterministic with
      | false =>
        unfold clintTick
        rw [hdet, if_neg Bool.false_ne_true, if_neg Bool.false_ne_true]
      | true => rw [(hwrite data hreq).1, mtime_spared rfl hreq (hspare hdet)]
  | event d host out =>
    cases he
    cases h with
    | event hev =>
      obtain ⟨y, hy, rfl⟩ := atDevice_ok hev
      exact hupdate hy rfl

/-- The state of the timer after a run. -/
structure ClintState (cfg : DevConfig) (b : IoBus Dev.State) (es : List (IoEvent Dev Dev.Event)) (space : IoSpace) :
    Prop where
  mtime : Bytes.readLE 64 space (b.base .clint + clintMtimeOffset) 8 =
    es.foldl (clintTime cfg) (Bytes.readLE 64 b.space (b.base .clint + clintMtimeOffset) 8)
  line : es.foldl timerLine none = if ∃ e ∈ es, e.dev = .clint then
    some (Bytes.readLE 64 space (b.base .clint + clintMtimecmp) 8 ≤
      Bytes.readLE 64 space (b.base .clint + clintMtimeOffset) 8 : Bool) else none

/-- What a run of the timer keeps to: aligned accesses, which leave the time of a deterministic build alone. -/
def IoEvent.Timely (cfg : DevConfig) (maps : List (DeviceMap Dev)) (e : IoEvent Dev Dev.Event) : Prop :=
  e.Orderly maps ∧ (cfg.deterministic = true → e.Spares cfg .clint clintMtimeOffset 8)

theorem clintTime_other (t : Word) (he : e.dev ≠ .clint) : clintTime cfg t e = t := by
  cases e with
  | access d | event d =>
    cases d with
    | clint => exact absurd rfl he
    | _ => rfl

theorem clint_state (hb : Registered cfg b) (hspan : Span (b.base .clint) 0x10000 (region b.maps .clint))
    (h : Run (DevStep cfg b.base) b tr c) (hgood : ∀ x ∈ tr, x.label.Timely cfg b.maps) :
    c.maps = b.maps ∧ ClintState cfg b (labels tr) c.space := by
  refine hb.history (d := .clint) (I := fun es space _ => ClintState cfg b es space) (fun _ he => he.1)
    ⟨rfl, (if_neg nofun).symm⟩ ?_ ?_ h hgood
  · intro es e a c hs ha _ he hspace hI
    have hsame : ∀ o, o + 8 ≤ 0x10000 → Bytes.readLE 64 c.space (b.base .clint + BitVec.ofNat 64 o) 8 =
        Bytes.readLE 64 a.space (b.base .clint + BitVec.ofNat 64 o) 8 := by
      intro o ho
      exact Bytes.readLE_congr fun j hj => hspace (hspan.part o ho j hj)
    have hmtime := hsame 0xbff8 (by decide)
    have hcmp := hsame 0x4000 (by decide)
    refine ⟨?_, ?_⟩
    · rw [List.foldl_append, List.foldl_cons, List.foldl_nil, clintTime_other _ he, ← hI.mtime]
      exact hmtime
    · have hidle : e.outward.mtip = none := by
        by_cases hdisk : e.dev = .disk
        · exact hb.disk_mtip hs ha hdisk
        · rw [hb.idle hs ha he hdisk]
          rfl
      have hmem : (∃ x ∈ es ++ [e], x.dev = .clint) ↔ ∃ x ∈ es, x.dev = .clint := by
        simp only [List.mem_append, List.mem_singleton, or_and_right, exists_or, exists_eq_left, he, or_false]
      rw [List.foldl_append, List.foldl_cons, List.foldl_nil]
      unfold timerLine
      rw [hidle, Option.none_or]
      refine hI.line.trans ?_
      rw [if_congr hmem rfl rfl]
      have hmtime' : Bytes.readLE 64 c.space (b.base .clint + clintMtimeOffset) 8 = _ := hmtime
      have hcmp' : Bytes.readLE 64 c.space (b.base .clint + clintMtimecmp) 8 = _ := hcmp
      rw [hmtime', hcmp']
      rfl
  · intro es e a c hs ha he hd hI
    obtain ⟨htime, hline⟩ := clint_step hb hs ha hd he.2
    refine ⟨?_, ?_⟩
    · rw [List.foldl_append, List.foldl_cons, List.foldl_nil, ← hI.mtime]
      exact htime
    · rw [if_pos ⟨e, List.mem_append_right _ (List.mem_singleton_self _), hd⟩, List.foldl_append, List.foldl_cons,
        List.foldl_nil]
      unfold timerLine
      rw [hline, Option.some_or]

/-- The timer interrupt is on the line exactly when the time reached what the guest wrote to the compare register,
whatever the other devices do in between; nothing else touches the line. A read of the time gives the time: that of the
host, or the number of the updates so far on a deterministic build. -/
theorem clint_timer (hv : cfg.Valid) (hinit : initBus cfg (.start cfg) = .ok () b)
    (h : Run (DevStep cfg b.base) b tr c) (hgood : ∀ x ∈ tr, x.label.Timely cfg b.maps) :
    let time := (labels tr).foldl (clintTime cfg) (Bytes.readLE 64 b.space (b.base .clint + clintMtimeOffset) 8)
    let mtimecmp := Bytes.readLE 64 (guestImage cfg b .clint (labels tr)) clintMtimecmp 8
    (labels tr).foldl timerLine none =
        (if ∃ e ∈ labels tr, e.dev = .clint then some (mtimecmp ≤ time : Bool) else none) ∧
      ∀ pre x, tr = pre ++ [x] → ∀ host req reply, x.label = .access .clint host req reply → req.write = none →
        req.len = 8 → (req.addr = cfg.mmio .clint + clintMtimeOffset → reply.1 = time) ∧
          (req.addr = cfg.mmio .clint + clintMtimecmp → reply.1 = mtimecmp) := by
  intro time mtimecmp
  obtain ⟨hb, m, hm, hdev⟩ := initBus_registered hv hinit
  have hspan : Span (b.base .clint) 0x10000 (region b.maps .clint) := by
    have hs := hb.span hm
    rwa [hdev] at hs
  obtain ⟨_, hstate⟩ := clint_state hb hspan h hgood
  have hother : ∀ o ∈ clintOther, b.base .clint + o ∈ region b.maps .clint := by
    intro o ho
    have hin := hspan o.toNat ho.1
    rwa [BitVec.ofNat_toNat, BitVec.setWidth_eq] at hin
  obtain ⟨_, himg⟩ := hb.image (clint_leaves b.base) hother h fun x hx => (hgood x hx).1
  have hcmp : Bytes.readLE 64 c.space (b.base .clint + clintMtimecmp) 8 = mtimecmp := by
    rw [readLE_offset]
    exact Bytes.readLE_congr fun j hj => himg _ (mtimecmp_other hj)
  refine ⟨?_, ?_⟩
  · rw [hstate.line, hcmp, hstate.mtime]
  · rintro pre x rfl host req reply hlabel hnone hlen
    obtain ⟨hpre, hs, hnil⟩ := h.split
    cases hnil
    obtain ⟨hmaps, _⟩ := clint_state hb hspan hpre fun y hy => hgood y (List.mem_append_left _ hy)
    rw [hlabel] at hs
    obtain ⟨space, y, hy, hspace, _, _, hread, _⟩ := hb.access hs hmaps
    have hreply := (hread hnone).2
    rw [hlen, ← hspace] at hreply
    refine ⟨fun haddr => ?_, fun haddr => ?_⟩
    · rw [hreply, haddr, add_sub_cancel_left]
      exact hstate.mtime
    · rw [hreply, haddr, add_sub_cancel_left]
      exact hcmp

/-- A deadline, a key, and a read of the time one second later. -/
theorem clint_timer_deadline : ∃ x y z c, Run (DevStep smallBoard smallBus.base) smallBus [x, y, z] c ∧
    z.label.answer = (.clint, 10000000) ∧
    [x.label, y.label, z.label].foldl timerLine none =
      some (Bytes.readLE 64 (guestImage smallBoard smallBus .clint [x.label, y.label, z.label]) clintMtimecmp 8 ≤
        10000000 : Bool) := by
  have hrs : smallBoardAnswers [.access ⟨0, []⟩ ⟨0x38004000, 8, some 5000000⟩, .event .keyboard (true, 0x1e, true),
      .access ⟨1000000, []⟩ ⟨0x3800bff8, 8, none⟩] = some [(.clint, 0), (.keyboard, 0), (.clint, 10000000)] := by
    decide +kernel
  obtain ⟨tr, c, hrun, hgood, hall⟩ := smallBoard_runs hrs
  obtain ⟨x, _, rfl, _, y, _, rfl, _, z, _, rfl, ⟨_, hz⟩, rfl⟩ := hall
  obtain ⟨hline, hreads⟩ := clint_timer smallBoard_valid smallBoard_starts hrun fun t ht => ⟨hgood t ht, nofun⟩
  have htime := (hreads [x, y] z rfl _ _ _ hz rfl rfl).1 rfl
  have hclint : ∃ e ∈ labels [x, y, z], e.dev = .clint := by
    refine ⟨z.label, List.mem_of_mem_getLast? rfl, ?_⟩
    rw [hz]
    rfl
  rw [if_pos hclint, ← htime] at hline
  refine ⟨x, y, z, c, hrun, ?_, hline⟩
  rw [hz]
  rfl

section Rtc

/-- The registers of the clock hold a time of the host. -/
def RtcShows (base : Word) (us : Word) (space : IoSpace) : Prop :=
  Bytes.readLE 32 space base 4 = us.setWidth 32 ∧ Bytes.readLE 32 space (base + 4) 4 = (us >>> 32).setWidth 32

/-- A step that leaves the registers of the clock as they are: a read of the low half, or a step of another device. -/
def IoEvent.SparesRtc (cfg : DevConfig) : IoEvent Dev Dev.Event → Prop
  | access d _ req _ => d = .rtc → req.write = none ∧ req.addr = cfg.mmio .rtc
  | event .. => True

theorem rtcIoHandler_ok {base : Word} {space : IoSpace} {u : Unit} (len : Nat)
    (h : rtcIoHandler base host offset len w (space, u) = .ok out y) :
    if w = false ∧ offset = 4 then RtcShows base host.time y.1 else y.1 = space := by
  obtain ⟨_, _, hassert, h1⟩ := ok_of_bind h
  obtain ⟨_, rfl⟩ := devAssert_ok hassert
  split at h1
  · obtain ⟨_, _, hlow, h2⟩ := ok_of_bind h1
    cases hlow
    obtain ⟨_, _, hhigh, h3⟩ := ok_of_bind h2
    cases hhigh
    cases h3
    rw [if_pos ‹_›]
    refine ⟨?_, ?_⟩
    · have hbelow : ∀ j < 4, 4 ≤ (0 + BitVec.ofNat 64 j - 4 : Word).toNat := by decide
      have hsame : Bytes.readLE 32 (Bytes.writeLE (Bytes.writeLE space base 4 (host.time.setWidth 32)) (base + 4) 4
          ((host.time >>> 32).setWidth 32)) base 4 =
          Bytes.readLE 32 (Bytes.writeLE space base 4 (host.time.setWidth 32)) base 4 := by
        apply Bytes.readLE_congr
        intro j hj
        rw [writeLE_base]
        have hj' := hbelow j hj
        rw [zero_add] at hj'
        exact if_neg (Nat.not_lt.mpr hj')
      refine hsame.trans ?_
      rw [Bytes.readLE_writeLE _ _ _ (by decide) (by decide), BitVec.setWidth_eq, BitVec.setWidth_eq]
    · rw [Bytes.readLE_writeLE _ _ _ (by decide) (by decide), BitVec.setWidth_eq, BitVec.setWidth_eq]
  · cases h1
    rw [if_neg ‹_›]

theorem Registered.rtc_kept (hb : Registered cfg b) (hspan : Span (b.base .rtc) 8 (region b.maps .rtc))
    (h : DevStep cfg b.base a e c) (ha : a.maps = b.maps) (hord : e.Orderly b.maps) (he : e.SparesRtc cfg)
    (hshow : RtcShows (b.base .rtc) us a.space) : RtcShows (b.base .rtc) us c.space := by
  by_cases hd : e.dev = .rtc
  · cases e with
    | event d e =>
      cases hd
      exact e.elim
    | access d host req reply =>
      cases hd
      obtain ⟨hread, haddr⟩ := he rfl
      obtain ⟨space, y, hy, hspace, _, _, hr, _⟩ := hb.access h ha
      obtain ⟨rfl, _⟩ := hr hread
      rw [haddr, sub_self] at hy
      have hsame := rtcIoHandler_ok req.len hy
      rw [if_neg fun hc => absurd hc.2 (by decide)] at hsame
      rw [hspace, hsame]
      exact hshow
  · have hspace := (hb.step hord h ha).2.2
    have hsame : ∀ j < 8, c.space (b.base .rtc + BitVec.ofNat 64 j) = a.space (b.base .rtc + BitVec.ofNat 64 j) :=
      fun j hj => hspace _ (hb.laid.regions_disjoint (Ne.symm hd) (hspan j hj))
    refine ⟨(Bytes.readLE_congr fun j hj => hsame j (by omega)).trans hshow.1, ?_⟩
    refine (Bytes.readLE_congr fun j hj => ?_).trans hshow.2
    have hnext := hsame (4 + j) (by omega)
    rw [BitVec.ofNat_add, ← BitVec.add_assoc] at hnext
    exact hnext

theorem Registered.rtc_read (hb : Registered cfg b) (h : DevStep cfg b.base a (.access .rtc host req reply) c)
    (ha : a.maps = b.maps) (hread : req.write = none) (hlen : req.len = 4) :
    reply.1.setWidth 32 = Bytes.readLE 32 c.space (b.base .rtc + (req.addr - cfg.mmio .rtc)) 4 := by
  obtain ⟨space, y, _, hspace, _, _, hr, _⟩ := hb.access h ha
  rw [(hr hread).2, hspace, hlen, readLE_narrow]

theorem halves_append (us : Word) : (us >>> 32).setWidth 32 ++ us.setWidth 32 = us := by
  apply BitVec.eq_of_getLsbD_eq
  intro i hi
  rw [BitVec.getLsbD_append, BitVec.getLsbD_setWidth, BitVec.getLsbD_setWidth, BitVec.getLsbD_ushiftRight]
  by_cases hlow : i < 32
  · rw [if_pos hlow, decide_eq_true hlow, Bool.true_and]
  · have hhigh : i - 32 < 32 := by omega
    have hplace : 32 + (i - 32) = i := by omega
    rw [if_neg hlow, decide_eq_true hhigh, Bool.true_and, hplace]

/-- The clock is not torn: the high half that the guest reads and the low half that it reads later are those of one time,
the time of the first read, whatever the devices do in between, as long as the guest itself neither writes to the clock
nor reads its high half again. -/
theorem rtc_untorn (hv : cfg.Valid) (hinit : initBus cfg (.start cfg) = .ok () b)
    (h : Run (DevStep cfg b.base) b tr c) (hgood : ∀ x ∈ tr, x.label.Orderly b.maps) :
    ∀ pre x mid y post, tr = pre ++ x :: (mid ++ y :: post) → ∀ host req reply host' req' reply',
      x.label = .access .rtc host req reply → req.write = none → req.len = 4 → req.addr = cfg.mmio .rtc + 4 →
      y.label = .access .rtc host' req' reply' → req'.write = none → req'.len = 4 → req'.addr = cfg.mmio .rtc →
      (∀ z ∈ mid, z.label.SparesRtc cfg) → reply.1.setWidth 32 ++ reply'.1.setWidth 32 = host.time := by
  have hb := (initBus_registered hv hinit).1
  rintro pre x mid y post rfl host req reply host' req' reply' hx hxread hxlen hxaddr hy hyread hylen hyaddr hmid
  obtain ⟨hpre, hsx, hrest⟩ := h.split
  obtain ⟨hrun, hsy, _⟩ := hrest.split
  have hmaps : x.source.maps = b.maps := hb.maps_run hpre fun z hz => hgood z (List.mem_append_left _ hz)
  have hordx := hgood x (List.mem_append_right _ List.mem_cons_self)
  have hmaps' : x.target.maps = b.maps := (hb.step hordx hsx hmaps).1
  have hordy := hgood y (by simp)
  rw [hx] at hsx
  have hspan := hb.registers hsx hmaps
  -- the first read takes the time
  have hshow : RtcShows (b.base .rtc) host.time x.target.space := by
    obtain ⟨space, z, hz, hspace, _⟩ := hb.access hsx hmaps
    rw [hxaddr, add_sub_cancel_left, hxread] at hz
    have hset := rtcIoHandler_ok req.len hz
    rw [if_pos ⟨rfl, rfl⟩] at hset
    rw [hspace]
    exact hset
  -- it stays until the second
  obtain ⟨hymaps, hyshow⟩ : y.source.maps = b.maps ∧ RtcShows (b.base .rtc) host.time y.source.space := by
    have hquiet : ∀ z ∈ mid, z.label.Orderly b.maps ∧ z.label.SparesRtc cfg :=
      fun z hz => ⟨hgood z (by simp [hz]), hmid z hz⟩
    refine hrun.history (I := fun _ d => d.maps = b.maps ∧ RtcShows (b.base .rtc) host.time d.space) hquiet
      ⟨hmaps', hshow⟩ ?_
    intro _ z hz hs hI
    exact ⟨(hb.step hz.1 hs hI.1).1, hb.rtc_kept hspan hs hI.1 hz.1 hz.2 hI.2⟩
  have hspares : y.label.SparesRtc cfg := by
    rw [hy]
    exact fun _ => ⟨hyread, hyaddr⟩
  have hend := hb.rtc_kept hspan hsy hymaps hordy hspares hyshow
  rw [hy] at hsy
  rw [hb.rtc_read hsx hmaps hxread hxlen, hb.rtc_read hsy hymaps hyread hylen, hxaddr, hyaddr, add_sub_cancel_left,
    sub_self, hshow.2, add_zero, hend.1]
  exact halves_append host.time

/-- The high half, two keys, and the low half half an hour later. -/
theorem rtc_untorn_keys : ∃ x y z v c, Run (DevStep smallBoard smallBus.base) smallBus [x, y, z, v] c ∧
    x.label.answer = (.rtc, 1) ∧ v.label.answer = (.rtc, 705032704) ∧
    (BitVec.setWidth 32 (1 : Word) ++ BitVec.setWidth 32 (705032704 : Word) : Word) = 5000000000 := by
  have hrs : smallBoardAnswers [.access ⟨5000000000, []⟩ ⟨0xa100004c, 4, none⟩, .event .keyboard (true, 0x1e, true),
      .event .keyboard (true, 0x1e, false), .access ⟨6800000000, []⟩ ⟨0xa1000048, 4, none⟩] =
        some [(.rtc, 1), (.keyboard, 0), (.keyboard, 0), (.rtc, 705032704)] := by
    decide +kernel
  obtain ⟨tr, c, hrun, hgood, hall⟩ := smallBoard_runs hrs
  obtain ⟨x, _, rfl, ⟨_, hx⟩, y, _, rfl, ⟨_, hy⟩, z, _, rfl, ⟨_, hz⟩, v, _, rfl, ⟨_, hv⟩, rfl⟩ := hall
  have hspares : ∀ e ∈ [y, z], e.label.SparesRtc smallBoard := by
    intro e he
    obtain rfl | he := List.mem_cons.mp he
    · rw [hy]
      trivial
    · cases List.mem_singleton.mp he
      rw [hz]
      trivial
  have htime := rtc_untorn smallBoard_valid smallBoard_starts hrun hgood [] x [y, z] v [] rfl _ _ _ _ _ _ hx rfl rfl rfl
    hv rfl rfl rfl hspares
  refine ⟨x, y, z, v, c, hrun, ?_, ?_, htime⟩
  · rw [hx]
    rfl
  · rw [hv]
    rfl

end Rtc

end Nemu
