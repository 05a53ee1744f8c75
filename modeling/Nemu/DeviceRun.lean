import Nemu.DeviceConfinement

namespace Nemu

open Effect

set_option autoImplicit true

abbrev DevStep (cfg : DevConfig) (base : Dev → Word) :
    IoBus Dev.State → IoEvent Dev Dev.Event → IoBus Dev.State → Prop :=
  IoStep (callbacks cfg base) (hostEvent cfg base)

/-- Aligned accesses by the guest, and what the host does to devices that are there. -/
def IoEvent.Orderly (maps : List (DeviceMap Dev)) : IoEvent Dev Dev.Event → Prop
  | access _ _ req _ => req.addr.toNat % req.len = 0
  | event d _ _ => ∃ m ∈ maps, m.dev = d

def labels (tr : List (Transition (IoBus Dev.State) (IoEvent Dev Dev.Event))) : List (IoEvent Dev Dev.Event) :=
  tr.map Transition.label

variable {cfg : DevConfig} {b a c : IoBus Dev.State} {e : IoEvent Dev Dev.Event} {d : Dev}
  {tr : List (Transition (IoBus Dev.State) (IoEvent Dev Dev.Event))}

section Exec

variable {base : Dev → Word}

/-- What the guest or the host asks of the devices. -/
inductive DevCommand where
  | access (host : DevHost) (req : MmioReq)
  | event (d : Dev) (e : d.Event)

/-- The answer of the devices, or none when one stops the emulator. -/
def DevCommand.exec (cfg : DevConfig) (base : Dev → Word) (b : IoBus Dev.State) :
    DevCommand → Option (IoEvent Dev Dev.Event × IoBus Dev.State)
  | access host req =>
    match b.fetchMmioMap req.addr, mmioAccess (callbacks cfg base) host req b with
    | some m, .ok reply c => some (.access m.dev host req reply, c)
    | _, _ => none
  | event d e =>
    match atDevice d (hostEvent cfg base d e) b with
    | .ok out c => some (.event d e out, c)
    | .error .. => none

def DevCommand.execAll (cfg : DevConfig) (base : Dev → Word) :
    IoBus Dev.State → List DevCommand → Option (List (IoEvent Dev Dev.Event) × IoBus Dev.State)
  | b, [] => some ([], b)
  | b, cmd :: cmds => do
    let (e, c) ← cmd.exec cfg base b
    let (es, d) ← execAll cfg base c cmds
    pure (e :: es, d)

/-- A device and the data of its answer to a command. -/
def DevCommand.Answers (cmd : DevCommand) (r : Dev × Word) (e : IoEvent Dev Dev.Event) : Prop :=
  match cmd with
  | access host req => ∃ out, e = .access r.1 host req (r.2, out)
  | event d ev => ∃ out, e = .event d ev out

def DevCommand.AnswersAll :
    List DevCommand → List (Dev × Word) → List (Transition (IoBus Dev.State) (IoEvent Dev Dev.Event)) → Prop
  | [], [], tr => tr = []
  | cmd :: cmds, r :: rs, tr => ∃ x tr', tr = x :: tr' ∧ cmd.Answers r x.label ∧ AnswersAll cmds rs tr'
  | _, _, _ => False

def IoEvent.answer : IoEvent Dev Dev.Event → Dev × Word
  | access d _ _ reply => (d, reply.1)
  | event d _ _ => (d, 0)

theorem DevCommand.exec_step {cmd : DevCommand} (h : cmd.exec cfg base b = some (e, c)) :
    DevStep cfg base b e c ∧ cmd.Answers e.answer e := by
  cases cmd with
  | access host req =>
    unfold DevCommand.exec at h
    dsimp only at h
    split at h
    · cases h
      exact ⟨.access ‹_› ‹_›, _, rfl⟩
    · cases h
  | event d ev =>
    unfold DevCommand.exec at h
    dsimp only at h
    split at h
    · cases h
      exact ⟨.event ‹_›, _, rfl⟩
    · cases h

theorem DevCommand.execAll_run {cmds : List DevCommand} (h : DevCommand.execAll cfg base b cmds = some (es, c)) :
    ∃ tr, Run (DevStep cfg base) b tr c ∧ labels tr = es ∧
      DevCommand.AnswersAll cmds (es.map IoEvent.answer) tr := by
  induction cmds generalizing b es with
  | nil =>
    cases h
    exact ⟨[], .nil, rfl, rfl⟩
  | cons cmd cmds ih =>
    obtain ⟨⟨e, d⟩, he, h1⟩ := Option.bind_eq_some_iff.mp h
    obtain ⟨⟨es, d'⟩, hes, h2⟩ := Option.bind_eq_some_iff.mp h1
    cases h2
    obtain ⟨hs, hanswer⟩ := DevCommand.exec_step he
    obtain ⟨tr, hr, rfl, hanswers⟩ := ih hes
    exact ⟨⟨b, e, d⟩ :: tr, .cons hs hr, rfl, ⟨b, e, d⟩, tr, rfl, hanswer, hanswers⟩

instance (maps : List (DeviceMap Dev)) (e : IoEvent Dev Dev.Event) : Decidable (e.Orderly maps) :=
  match e with
  | .access _ _ req _ => inferInstanceAs (Decidable (req.addr.toNat % req.len = 0))
  | .event d _ _ => inferInstanceAs (Decidable (∃ m ∈ maps, m.dev = d))

/-- A board with a few devices, a disk with one block, and an empty card. -/
def smallBoard : DevConfig where
  has d := d matches .serial | .rtc | .keyboard | .disk | .sdcard
  mmio
    | .clint => 0x38000000
    | .serial => 0xa10003f8
    | .rtc => 0xa1000048
    | .keyboard => 0xa1000060
    | .disk => 0xa1000300
    | .sdcard => 0xa3000000
    | _ => 0xa2000000
  inputFifo := true
  deterministic := false
  assertFour := false
  screenW := 400
  screenH := 300
  sbSize := 65536
  keymap scancode := scancode.setWidth 32
  bootTime := 0
  diskImage := some (List.replicate 512 7)
  sdcardImage := some []

theorem smallBoard_valid : smallBoard.Valid where
  mmio d := by cases d <;> rfl
  screen := by decide
  screenMax := by decide
  sbuf := by decide
  sbufMax := by decide

def smallBus : IoBus Dev.State := final (initBus smallBoard) (.start smallBoard)

/-- The answers to commands, where no device stops the emulator. -/
def smallBoardAnswers (cmds : List DevCommand) : Option (List (Dev × Word)) := do
  let (es, _) ← DevCommand.execAll smallBoard smallBus.base smallBus cmds
  if ∀ e ∈ es, e.Orderly smallBus.maps then some (es.map IoEvent.answer) else none

def succeeds {ε σ α : Type} (m : EStateM ε σ α) (s : σ) : Bool := m s matches .ok _ _

theorem ok_of_succeeds {ε σ : Type} {m : EStateM ε σ Unit} {s : σ} (h : succeeds m s = true) :
    m s = .ok () (final m s) := by
  unfold succeeds at h
  unfold final
  cases hm : m s with
  | ok a t => rfl
  | error e t =>
    rw [hm] at h
    cases h

theorem smallBoard_starts : initBus smallBoard (.start smallBoard) = .ok () smallBus :=
  ok_of_succeeds (by decide +kernel)

theorem smallBoard_runs (h : smallBoardAnswers cmds = some rs) : ∃ tr c,
    Run (DevStep smallBoard smallBus.base) smallBus tr c ∧ (∀ x ∈ tr, x.label.Orderly smallBus.maps) ∧
      DevCommand.AnswersAll cmds rs tr := by
  obtain ⟨⟨es, c⟩, hes, h1⟩ := Option.bind_eq_some_iff.mp h
  dsimp only at h1
  split at h1
  · cases h1
    obtain ⟨tr, hr, rfl, hanswers⟩ := DevCommand.execAll_run hes
    exact ⟨tr, c, hr, fun x hx => ‹∀ e ∈ labels tr, _› _ (List.mem_map_of_mem hx), hanswers⟩
  · cases h1

end Exec

section Run

variable (hb : Registered cfg b)

include hb

theorem Registered.proper (he : e.Orderly b.maps) : e.Proper b.maps (hostEvent cfg b.base) := by
  cases e with
  | access => exact he
  | event d e out =>
    obtain ⟨m, hm, rfl⟩ := he
    exact hostEvent_confined (hb.span hm) e

theorem Registered.step (he : e.Orderly b.maps) (h : DevStep cfg b.base a e c) (ha : a.maps = b.maps) :
    c.maps = b.maps ∧ (∀ d, d ≠ e.dev → c.dev d = a.dev d) ∧ ∀ x ∉ region b.maps e.dev, c.space x = a.space x :=
  h.concerns hb.laid hb.separate (hb.proper he) ha

theorem Registered.maps_run (h : Run (DevStep cfg b.base) b tr c) (hgood : ∀ x ∈ tr, x.label.Orderly b.maps) :
    c.maps = b.maps :=
  h.history (I := fun _ c => c.maps = b.maps) hgood rfl fun _ _ hx hs ha => (hb.step hx hs ha).1

theorem Registered.history {I : List (IoEvent Dev Dev.Event) → IoSpace → d.State → Prop}
    {good : IoEvent Dev Dev.Event → Prop} (hord : ∀ e, good e → e.Orderly b.maps) (h0 : I [] b.space (d.start cfg))
    (hother : ∀ es e a c, DevStep cfg b.base a e c → a.maps = b.maps → good e → e.dev ≠ d →
      Set.EqOn c.space a.space (region b.maps d) → I es a.space (a.dev d) → I (es ++ [e]) c.space (a.dev d))
    (hown : ∀ es e a c, DevStep cfg b.base a e c → a.maps = b.maps → good e → e.dev = d →
      I es a.space (a.dev d) → I (es ++ [e]) c.space (c.dev d))
    (h : Run (DevStep cfg b.base) b tr c) (hgood : ∀ x ∈ tr, good x.label) :
    c.maps = b.maps ∧ I (labels tr) c.space (c.dev d) := by
  refine h.history (I := fun tr c => c.maps = b.maps ∧ I (labels tr) c.space (c.dev d)) hgood ⟨rfl, ?_⟩ ?_
  · rw [hb.start]
    exact h0
  · intro tr x hx hs hI
    obtain ⟨hmaps, hdev, hspace⟩ := hb.step (hord _ hx) hs hI.1
    have hlabels : labels (tr ++ [x]) = labels tr ++ [x.label] := List.map_append
    rw [hlabels]
    refine ⟨hmaps, ?_⟩
    by_cases hd : x.label.dev = d
    · exact hown _ _ _ _ hs hI.1 hx hd hI.2
    · rw [hdev d (Ne.symm hd)]
      exact hother _ _ _ _ hs hI.1 hx hd (fun y hy => hspace y (hb.laid.regions_disjoint (Ne.symm hd) hy)) hI.2

/-- In a run of all devices each gives the replies that it gives when the others are idle, and ends in the state in
which it ends then. -/
theorem Registered.alone (h : Run (DevStep cfg b.base) b tr c) (hgood : ∀ x ∈ tr, x.label.Orderly b.maps) (d : Dev) :
    ∃ tr' c', Run (DevStep cfg b.base) b tr' c' ∧ labels tr' = (labels tr).filter (fun e => e.dev = d) ∧
      c'.dev d = c.dev d ∧ Set.EqOn c.space c'.space (region b.maps d) :=
  device_runs_alone hb.laid hb.separate h (fun x hx => hb.proper (hgood x hx)) d

theorem Registered.access (h : DevStep cfg b.base a (.access d host req reply) c) (ha : a.maps = b.maps) :
    ∃ space x, callbacks cfg b.base d host ((req.addr - cfg.mmio d).setWidth 32) req.len req.write.isSome
        (space, a.dev d) = .ok reply.2 x ∧ c.space = x.1 ∧ c.dev d = x.2 ∧
      ((req.addr - cfg.mmio d).toNat < d.size cfg ∧ HostLength req.len) ∧
      (req.write = none → space = a.space ∧
        reply.1 = Bytes.readLE 64 x.1 (b.base d + (req.addr - cfg.mmio d)) req.len) ∧
      ∀ data, req.write = some data →
        space = Bytes.writeLE a.space (b.base d + (req.addr - cfg.mmio d)) req.len data ∧ reply.1 = 0 := by
  cases h with
  | access hf hacc =>
    obtain ⟨hm, hin⟩ := fetchMmioMap_some hf
    rw [ha] at hm
    rw [mmioAccess_eq hf] at hacc
    obtain ⟨space, x, hx, rfl, hlen, hread, hwrite⟩ := regionAccess_ok hin hacc
    have hoff := offset_lt hin
    rw [hb.size _ hm] at hoff
    rw [hb.low _ hm] at hx hread hwrite hoff
    rw [hb.base _ hm] at hread hwrite
    refine ⟨space, x, ?_, rfl, Function.update_self _ _ _, ⟨hoff, hlen⟩, hread, hwrite⟩
    split at hx
    · exact hx
    · next hno =>
      rw [hb.callback _ hm] at hno
      rw [callbacks_silent (Bool.eq_false_iff.mpr hno)]
      exact hx

end Run

/-- The steps of the devices are those of each device by itself, interleaved in any order: the devices go through a list
of steps, with its replies, if and only if each one alone goes through its own, and the order of steps of different
devices makes no difference to the end. -/
theorem devices_compose (hv : cfg.Valid) (hinit : initBus cfg (.start cfg) = .ok () b)
    (es : List (IoEvent Dev Dev.Event)) (hes : ∀ e ∈ es, e.Orderly b.maps) :
    ((∃ tr c, Run (DevStep cfg b.base) b tr c ∧ labels tr = es) ↔
      ∀ d, ∃ tr c, Run (DevStep cfg b.base) b tr c ∧ labels tr = es.filter fun e => e.dev = d) ∧
    ∀ tr c tr' c', Run (DevStep cfg b.base) b tr c → Run (DevStep cfg b.base) b tr' c' → labels tr = es →
      (∀ d, ((labels tr').filter fun e => e.dev = d) = es.filter fun e => e.dev = d) → c = c' := by
  have hb := (initBus_registered hv hinit).1
  refine ⟨⟨?_, fun hruns => ?_⟩, ?_⟩
  · rintro ⟨tr, c, hrun, rfl⟩ d
    obtain ⟨tr', c', hrun', hlabels, _⟩ := hb.alone hrun (fun x hx => hes _ (List.mem_map_of_mem hx)) d
    exact ⟨tr', c', hrun', hlabels⟩
  · choose t c hrun hlabels using hruns
    obtain ⟨tr, d, hr, hl, _⟩ :=
      device_runs_interleave hb.laid hb.separate es (fun e he => hb.proper (hes e he)) hrun hlabels
    exact ⟨tr, d, hr, hl⟩
  · rintro tr c tr' c' hrun hrun' rfl hsame
    have hes' : ∀ e ∈ labels tr', e.Orderly b.maps := by
      intro e he
      have hmem : e ∈ (labels tr').filter fun x => x.dev = e.dev := List.mem_filter.mpr ⟨he, by simp⟩
      rw [hsame] at hmem
      exact hes e (List.mem_of_mem_filter hmem)
    exact device_runs_agree hb.laid hb.separate hrun hrun' (fun x hx => hb.proper (hes _ (List.mem_map_of_mem hx)))
      (fun x hx => hb.proper (hes' _ (List.mem_map_of_mem hx))) fun d => (hsame d).symm

/-- A key and a read of the serial port, in either order. -/
theorem devices_compose_swap : ∃ tr c tr', Run (DevStep smallBoard smallBus.base) smallBus tr c ∧ tr.length = 2 ∧
    Run (DevStep smallBoard smallBus.base) smallBus tr' c ∧ labels tr' = (labels tr).reverse := by
  have hrs : smallBoardAnswers [.event .keyboard (true, 0x1e, true), .access ⟨0, []⟩ ⟨0xa10003f8, 1, none⟩] =
    some [(.keyboard, 0), (.serial, 0x72)] := by decide +kernel
  obtain ⟨tr, c, hrun, hgood, hall⟩ := smallBoard_runs hrs
  obtain ⟨x, _, rfl, ⟨_, hx⟩, y, _, rfl, ⟨_, hy⟩, rfl⟩ := hall
  have hsame : ∀ d, ([y.label, x.label].filter fun e => e.dev = d) = [x.label, y.label].filter fun e => e.dev = d := by
    intro d
    rw [hx, hy]
    cases d <;> rfl
  have hes : ∀ e ∈ [x.label, y.label], e.Orderly smallBus.maps := fun e he => by
    obtain rfl | he := List.mem_cons.mp he
    · exact hgood x List.mem_cons_self
    · cases List.mem_singleton.mp he
      exact hgood y (List.mem_cons_of_mem _ List.mem_cons_self)
  have h := devices_compose smallBoard_valid smallBoard_starts [x.label, y.label] hes
  have h' := devices_compose smallBoard_valid smallBoard_starts [y.label, x.label] fun e he =>
    hes e (by simpa [or_comm] using he)
  obtain ⟨tr', c', hrun', hlabels⟩ := h'.1.mpr fun d => by
    rw [hsame d]
    exact h.1.mp ⟨_, _, hrun, rfl⟩ d
  have hend := h.2 _ _ _ _ hrun hrun' rfl fun d => by rw [hlabels]; exact hsame d
  subst hend
  exact ⟨_, c, tr', hrun, rfl, hrun', hlabels⟩

section Keyboard

/-- What was typed, of which the guest has taken the first keys. -/
def keyFeed (cfg : DevConfig) (f : Feed (BitVec 32)) : IoEvent Dev Dev.Event → Feed (BitVec 32)
  | .event .keyboard (running, scancode, isKeydown) _ =>
    if running = true ∧ cfg.keymap scancode ≠ 0 then f.give [amScancode cfg scancode isKeydown] else f
  | .access .keyboard _ _ _ => f.take
  | _ => f

theorem keyFeed_other (f : Feed (BitVec 32)) (he : e.dev ≠ .keyboard) : keyFeed cfg f e = f := by
  cases e with
  | access d =>
    cases d with
    | keyboard => exact absurd rfl he
    | _ => rfl
  | event d =>
    cases d with
    | keyboard => exact absurd rfl he
    | _ => rfl

theorem i8042_ok (host : DevHost) (len : Nat) {q : RingBuffer 1024 (BitVec 32)} {l : List (BitVec 32)} (hq : q.Window l)
    (h : i8042DataIoHandler base host offset len w (space, q) = .ok out x) :
    w = false ∧ offset = 0 ∧ x.1 = Bytes.writeLE space base 4 (l.head?.getD 0) ∧ x.2.Window l.tail := by
  obtain ⟨_, _, h1, h2⟩ := ok_of_bind h
  obtain ⟨hw, rfl⟩ := devAssert_ok h1
  obtain ⟨_, _, h3, h4⟩ := ok_of_bind h2
  obtain ⟨hoff, rfl⟩ := devAssert_ok h3
  refine ⟨hw, hoff, ?_⟩
  obtain ⟨_, _, hown, h5⟩ := ok_of_bind h4
  cases hown
  cases l with
  | nil =>
    have hempty : ¬ q.head ≠ q.tail := not_not.mpr (hq.head_eq_tail.mpr rfl)
    rw [if_neg hempty] at h5
    cases h5
    exact ⟨rfl, hq⟩
  | cons y l =>
    have hfull : q.head ≠ q.tail := fun he => by cases hq.head_eq_tail.mp he
    rw [if_pos hfull] at h5
    cases h5
    exact ⟨congrArg (Bytes.writeLE space base 4) hq.head_cons, hq.drop⟩

theorem sendKey_ok {q : RingBuffer 1024 (BitVec 32)} {l : List (BitVec 32)} (hq : q.Window l)
    (h : sendKey cfg running scancode isKeydown (space, q) = .ok () x) :
    x.2.Window (if running = true ∧ cfg.keymap scancode ≠ 0 then l ++ [amScancode cfg scancode isKeydown] else l) := by
  unfold sendKey at h
  split at h
  · rw [if_pos ‹_›]
    obtain ⟨_, _, hown, h1⟩ := ok_of_bind h
    cases hown
    obtain ⟨_, _, hset, h2⟩ := ok_of_bind h1
    cases hset
    split at h2
    · cases h2
    · cases h2
      refine hq.put (Nat.lt_of_le_of_ne hq.room fun hfull => ?_)
      exact ‹¬ _› (hq.next_eq_head.mpr hfull)
  · rw [if_neg ‹_›]
    cases h
    exact hq

theorem keyboard_window (hb : Registered cfg b) (h : Run (DevStep cfg b.base) b tr c)
    (hgood : ∀ x ∈ tr, x.label.Orderly b.maps) :
    c.maps = b.maps ∧ RingBuffer.Window (c.dev .keyboard) ((labels tr).foldl (keyFeed cfg) ⟨[], 0, Nat.le_refl 0⟩).rest := by
  refine hb.history (d := .keyboard)
    (I := fun es _ s => RingBuffer.Window s (es.foldl (keyFeed cfg) ⟨[], 0, Nat.le_refl 0⟩).rest) (fun _ he => he) ?_ ?_ ?_
    h hgood
  · exact RingBuffer.Window.nil _ rfl
  · intro es e _ _ _ _ _ he _ hs
    rw [List.foldl_append, List.foldl_cons, List.foldl_nil, keyFeed_other _ he]
    exact hs
  · intro es e a c hs ha he hd hI
    rw [List.foldl_append, List.foldl_cons, List.foldl_nil]
    cases e with
    | access d host req reply =>
      cases hd
      obtain ⟨space, x, hx, _, hdev, _⟩ := hb.access hs ha
      rw [hdev]
      change RingBuffer.Window x.2 (Feed.take _).rest
      rw [Feed.rest_take]
      exact (i8042_ok host req.len hI hx).2.2.2
    | event d e out =>
      cases hd
      obtain ⟨running, scancode, isKeydown⟩ := e
      cases hs with
      | event hev =>
        obtain ⟨x, hx, rfl⟩ := atDevice_ok hev
        obtain ⟨_, x', hkey, hout⟩ := ok_of_bind hx
        cases hout
        have hwin := sendKey_ok hI hkey
        change RingBuffer.Window (Function.update a.dev .keyboard x.2 .keyboard)
          (if running = true ∧ cfg.keymap scancode ≠ 0 then Feed.give _ _ else _ : Feed _).rest
        rw [Function.update_self]
        split
        · rw [if_pos ‹_›] at hwin
          rw [Feed.rest_give]
          exact hwin
        · rw [if_neg ‹_›] at hwin
          exact hwin

/-- Keys arrive in the order in which they are typed, whatever other devices do in between: a read of the data port
gives the first key that was not read yet, or 0 when there is none, and at most 1023 keys wait. -/
theorem keyboard_fifo (hv : cfg.Valid) (hinit : initBus cfg (.start cfg) = .ok () b)
    (h : Run (DevStep cfg b.base) b tr c) (hgood : ∀ x ∈ tr, x.label.Orderly b.maps) :
    (∀ pre x post, tr = pre ++ x :: post → ∀ host req reply, x.label = .access .keyboard host req reply → req.len = 4 →
      reply.1 = ((((labels pre).foldl (keyFeed cfg) ⟨[], 0, Nat.le_refl 0⟩).next).getD 0).setWidth 64) ∧
      ((labels tr).foldl (keyFeed cfg) ⟨[], 0, Nat.le_refl 0⟩).rest.length < 1024 := by
  have hb := (initBus_registered hv hinit).1
  refine ⟨?_, (keyboard_window hb h hgood).2.room⟩
  rintro pre x post rfl host req reply hlabel hlen
  obtain ⟨hpre, hs, _⟩ := h.split
  obtain ⟨hmaps, hwin⟩ := keyboard_window hb hpre fun y hy => hgood y (List.mem_append_left _ hy)
  rw [hlabel] at hs
  obtain ⟨space, y, hy, _, _, ⟨hlt, _⟩, hread, _⟩ := hb.access hs hmaps
  obtain ⟨hw, hoff, hspace, _⟩ := i8042_ok host req.len hwin hy
  have hnone : req.write = none := by
    cases hreq : req.write with
    | none => rfl
    | some data =>
      rw [hreq] at hw
      cases hw
  have hzero : req.addr - cfg.mmio .keyboard = 0 := by
    have h4 : (req.addr - cfg.mmio .keyboard).toNat < 4 := hlt
    have h0 := congrArg BitVec.toNat hoff
    rw [BitVec.toNat_setWidth, Nat.mod_eq_of_lt (by omega)] at h0
    exact BitVec.eq_of_toNat_eq h0
  have hplace : b.base .keyboard + (req.addr - cfg.mmio .keyboard) = b.base .keyboard := by
    rw [hzero]
    exact BitVec.add_zero _
  rw [(hread hnone).2, hplace, hspace, hlen, Bytes.readLE_writeLE _ _ _ (by decide) (by decide),
    BitVec.setWidth_eq]
  rfl

/-- A key that is pressed, and a read of the port. -/
theorem keyboard_fifo_key : ∃ x y c, Run (DevStep smallBoard smallBus.base) smallBus [x, y] c ∧
    y.label.answer = (.keyboard, 0x801e) ∧
    (0x801e : Word) = (([x.label].foldl (keyFeed smallBoard) ⟨[], 0, Nat.le_refl 0⟩).next.getD 0).setWidth 64 := by
  have hrs : smallBoardAnswers [.event .keyboard (true, 0x1e, true), .access ⟨0, []⟩ ⟨0xa1000060, 4, none⟩] =
    some [(.keyboard, 0), (.keyboard, 0x801e)] := by decide +kernel
  obtain ⟨tr, c, hrun, hgood, hall⟩ := smallBoard_runs hrs
  obtain ⟨x, _, rfl, _, y, _, rfl, ⟨_, hy⟩, rfl⟩ := hall
  refine ⟨x, y, c, hrun, ?_, (keyboard_fifo smallBoard_valid smallBoard_starts hrun hgood).1 [x] y [] rfl _ _ _ hy rfl⟩
  rw [hy]
  rfl

end Keyboard

section Serial

theorem foldl_serialEnqueue {q : RingBuffer 1024 (BitVec 8)} {l : List (BitVec 8)} (xs : List (BitVec 8))
    (hq : q.Window l) (hroom : l.length + xs.length < 1024) : (xs.foldl serialEnqueue q).Window (l ++ xs) := by
  induction xs generalizing q l with
  | nil => rwa [List.append_nil]
  | cons x xs ih =>
    rw [List.length_cons] at hroom
    have hnext : q.tail + 1 ≠ q.head := fun he => by
      have hfull := hq.next_eq_head.mp he
      omega
    have hput : serialEnqueue q x = q.put x := if_pos hnext
    have h1 := ih (hq.put (x := x) (by omega)) (by rw [List.length_append, List.length_singleton]; omega)
    rw [List.append_assoc] at h1
    rwa [List.foldl_cons, hput]

theorem serialDequeue_window {q : RingBuffer 1024 (BitVec 8)} {l : List (BitVec 8)} (hq : q.Window l) :
    (serialDequeue q).1 = l.head?.getD 0xff ∧ (serialDequeue q).2.Window l.tail := by
  unfold serialDequeue
  cases l with
  | nil =>
    rw [if_neg (not_not.mpr (hq.head_eq_tail.mpr rfl))]
    exact ⟨rfl, hq⟩
  | cons y l =>
    rw [if_pos fun he => by cases hq.head_eq_tail.mp he]
    exact ⟨hq.head_cons, hq.drop⟩

/-- The bytes that wait in the ring, after an access. -/
def serialNext (host : DevHost) (offset : BitVec 32) (w : Bool) (l : List (BitVec 8)) : List (BitVec 8) :=
  if w then l else if offset = chOffset then l.tail else if offset = lsrOffset ∧ l = [] then host.pipe else l

theorem serialRxReadyFlag_ok {s : Serial} {l : List (BitVec 8)} (hq : s.queue.Window l)
    (h : serialRxReadyFlag host (space, s) = .ok ready x) :
    x.1 = space ∧ x.2.stderr = s.stderr ∧ x.2.queue.Window (if l = [] then host.pipe else l) ∧
      ready = if (if l = [] then host.pipe else l) = [] then 0 else 1 := by
  have htail : ∀ {t : Serial} {l' : List (BitVec 8)}, t.queue.Window l' → t.stderr = s.stderr →
      (do let s ← getOwn; pure (if s.queue.head = s.queue.tail then 0 else 1) : DevM Serial (BitVec 8)) (space, t) =
        .ok ready x → x.1 = space ∧ x.2.stderr = s.stderr ∧ x.2.queue.Window l' ∧ ready = if l' = [] then 0 else 1 := by
    intro t l' ht he h
    obtain ⟨_, _, hown, h1⟩ := ok_of_bind h
    cases hown
    cases h1
    exact ⟨rfl, he, ht, if_congr ht.head_eq_tail rfl rfl⟩
  obtain ⟨_, _, hown, h1⟩ := ok_of_bind h
  cases hown
  by_cases hl : l = []
  · subst hl
    have hempty : s.queue.head = s.queue.tail := hq.head_eq_tail.mpr rfl
    rw [if_pos hempty] at h1
    obtain ⟨_, _, hassert, h2⟩ := ok_of_bind h1
    obtain ⟨hlen, rfl⟩ := devAssert_ok hassert
    obtain ⟨_, _, hset, h3⟩ := ok_of_bind h2
    cases hset
    have hwin := foldl_serialEnqueue host.pipe hq (by rw [List.length_nil]; omega)
    exact htail (t := { s with queue := host.pipe.foldl serialEnqueue s.queue }) hwin rfl h3
  · have hfull : ¬ s.queue.head = s.queue.tail := fun he => hl (hq.head_eq_tail.mp he)
    rw [if_neg hfull] at h1
    rw [if_neg hl]
    exact htail hq rfl h1

/-- An access of the serial port: what waits afterwards, what was sent, and the register that a read finds. -/
theorem serialIoHandler_ok {s : Serial} {l : List (BitVec 8)} (hfifo : cfg.inputFifo = true) (hq : s.queue.Window l)
    (h : serialIoHandler cfg base host offset len w (space, s) = .ok out x) :
    len = 1 ∧ x.2.queue.Window (serialNext host offset w l) ∧
      x.2.stderr = s.stderr ++ (if w = true ∧ offset = chOffset then [Bytes.readLE 8 space base 1] else []) ∧
      (w = false → offset = chOffset → x.1 = Bytes.writeLE space base 1 (l.head?.getD 0xff)) ∧
      (w = false → offset = lsrOffset → x.1 = Bytes.writeLE space (base + 5) 1
        (0x20 ||| 0x40 ||| if serialNext host offset w l = [] then 0 else 1 : BitVec 8)) := by
  obtain ⟨_, _, hassert, h1⟩ := ok_of_bind h
  obtain ⟨hlen, rfl⟩ := devAssert_ok hassert
  refine ⟨hlen, ?_⟩
  by_cases hch : offset = chOffset
  · rw [if_pos hch] at h1
    have hlsr : ¬ offset = lsrOffset := by
      rw [hch]
      decide
    obtain ⟨_, _, hown, h2⟩ := ok_of_bind h1
    cases hown
    cases w with
    | true =>
      obtain ⟨_, _, hload, h3⟩ := ok_of_bind h2
      cases hload
      cases h3
      rw [if_pos ⟨rfl, hch⟩]
      exact ⟨hq, rfl, nofun, nofun⟩
    | false =>
      rw [if_neg Bool.false_ne_true, if_pos hfifo] at h2
      obtain ⟨_, _, hset, h3⟩ := ok_of_bind h2
      cases hset
      cases h3
      rw [if_neg fun h => Bool.false_ne_true h.1, List.append_nil]
      unfold serialNext
      rw [if_neg Bool.false_ne_true, if_pos hch]
      exact ⟨(serialDequeue_window hq).2, rfl,
        fun _ _ => congrArg (Bytes.writeLE space base 1) (serialDequeue_window hq).1, fun _ h => absurd h hlsr⟩
  · rw [if_neg hch] at h1
    have hstderr : ∀ p : Prop, [Decidable (p ∧ offset = chOffset)] →
        (if p ∧ offset = chOffset then [Bytes.readLE 8 space base 1] else []) = [] := fun p _ => if_neg fun h => hch h.2
    rw [hstderr, List.append_nil]
    by_cases hlsr : offset = lsrOffset ∧ w = false
    · rw [if_pos hlsr, if_pos hfifo] at h1
      obtain ⟨hoff, rfl⟩ := hlsr
      obtain ⟨ready, ⟨sp, t⟩, hready, h2⟩ := ok_of_bind h1
      obtain ⟨rfl, ht, hwin, rfl⟩ := serialRxReadyFlag_ok hq hready
      cases h2
      have hnext : serialNext host offset false l = if l = [] then host.pipe else l := by
        unfold serialNext
        rw [if_neg Bool.false_ne_true, if_neg hch]
        simp only [hoff, true_and]
      rw [hnext]
      exact ⟨hwin, ht, fun _ h => absurd h hch, fun _ _ => rfl⟩
    · rw [if_neg hlsr] at h1
      cases h1
      have hnext : serialNext host offset w l = l := by
        unfold serialNext
        cases w with
        | true => rfl
        | false =>
          have hne : ¬ offset = lsrOffset := fun h => hlsr ⟨h, rfl⟩
          rw [if_neg Bool.false_ne_true, if_neg hch, if_neg fun h => hne h.1]
      rw [hnext]
      exact ⟨hq, rfl, fun _ h => absurd h hch, fun hw h => absurd ⟨h, hw⟩ hlsr⟩

/-- What came in for the guest: first the preset input, and then what the pipe holds whenever the guest asks for more
and has read all. -/
def serialFeed (cfg : DevConfig) (f : Feed (BitVec 8)) : IoEvent Dev Dev.Event → Feed (BitVec 8)
  | .access .serial host req _ =>
    if req.write.isSome then f
    else if (req.addr - cfg.mmio .serial).setWidth 32 = chOffset then f.take
    else if (req.addr - cfg.mmio .serial).setWidth 32 = lsrOffset ∧ f.rest = [] then f.give host.pipe
    else f
  | _ => f

def presetFeed : Feed (BitVec 8) := ⟨presetInput, 0, Nat.zero_le _⟩

def serialSent (cfg : DevConfig) : IoEvent Dev Dev.Event → Option (BitVec 8)
  | .access .serial _ req _ =>
    if (req.addr - cfg.mmio .serial).setWidth 32 = chOffset then req.write.map fun data => data.setWidth 8 else none
  | _ => none

theorem serialFeed_other (f : Feed (BitVec 8)) (he : e.dev ≠ .serial) :
    serialFeed cfg f e = f ∧ serialSent cfg e = none := by
  cases e with
  | access d =>
    cases d with
    | serial => exact absurd rfl he
    | _ => exact ⟨rfl, rfl⟩
  | event d => exact ⟨rfl, rfl⟩

theorem serialFeed_rest (f : Feed (BitVec 8)) (host : DevHost) (req : MmioReq) (reply : Word × Outward) :
    (serialFeed cfg f (.access .serial host req reply)).rest =
      serialNext host ((req.addr - cfg.mmio .serial).setWidth 32) req.write.isSome f.rest := by
  unfold serialFeed serialNext
  dsimp only
  split
  · rfl
  split
  · exact f.rest_take
  split
  · rw [Feed.rest_give, ‹_ ∧ f.rest = []›.2]
    rfl
  · rfl

theorem offset_eq {x : Word} {k : BitVec 32} (hx : x.toNat < 2 ^ 32) (h : x.setWidth 32 = k) : x = k.setWidth 64 := by
  rw [← h]
  apply BitVec.eq_of_toNat_eq
  rw [BitVec.toNat_setWidth, BitVec.toNat_setWidth, Nat.mod_eq_of_lt hx, Nat.mod_eq_of_lt x.isLt]

/-- The ring holds what the guest did not read yet, and what was sent is what the guest wrote. -/
structure SerialState (cfg : DevConfig) (es : List (IoEvent Dev Dev.Event)) (s : Serial) : Prop where
  queue : s.queue.Window (es.foldl (serialFeed cfg) presetFeed).rest
  stderr : s.stderr = es.filterMap (serialSent cfg)

theorem SerialState.append {es : List (IoEvent Dev Dev.Event)} {s s' : Serial} (hs : SerialState cfg es s)
    (hq : s'.queue.Window (serialFeed cfg (es.foldl (serialFeed cfg) presetFeed) e).rest)
    (he : s'.stderr = s.stderr ++ (serialSent cfg e).toList) : SerialState cfg (es ++ [e]) s' where
  queue := by
    rw [List.foldl_append]
    exact hq
  stderr := by
    rw [he, hs.stderr, List.filterMap_append]
    congr 1

theorem serial_start (hfifo : cfg.inputFifo = true) :
    RingBuffer.Window (Serial.queue (Dev.start cfg .serial)) presetFeed.rest := by
  have hempty : RingBuffer.Window (⟨fun _ => 0, 0, 0⟩ : RingBuffer 1024 (BitVec 8)) [] := .nil _ rfl
  have hfill := foldl_serialEnqueue presetInput hempty (by decide)
  unfold Dev.start
  rw [if_pos hfifo]
  exact hfill

theorem serial_state (hb : Registered cfg b) (hfifo : cfg.inputFifo = true) (h : Run (DevStep cfg b.base) b tr c)
    (hgood : ∀ x ∈ tr, x.label.Orderly b.maps) : c.maps = b.maps ∧ SerialState cfg (labels tr) (c.dev .serial) := by
  refine hb.history (d := .serial) (I := fun es _ s => SerialState cfg es s) (fun _ he => he) ?_ ?_ ?_ h hgood
  · refine ⟨?_, ?_⟩
    · exact serial_start hfifo
    · rfl
  · intro es e _ _ _ _ _ he _ hs
    have hfeed : serialFeed cfg (es.foldl (serialFeed cfg) presetFeed) e = es.foldl (serialFeed cfg) presetFeed :=
      (serialFeed_other _ he).1
    have hsent : serialSent cfg e = none := (serialFeed_other presetFeed he).2
    refine hs.append ?_ ?_
    · rw [hfeed]
      exact hs.queue
    · rw [hsent, Option.toList_none, List.append_nil]
  · intro es e a c hs ha he hd hI
    cases e with
    | event d e =>
      cases hd
      exact e.elim
    | access d host req reply =>
      cases hd
      obtain ⟨space, x, hx, _, hdev, ⟨hlt, _⟩, hread, hwrite⟩ := hb.access hs ha
      obtain ⟨hlen, hwin, hsent, _⟩ := serialIoHandler_ok hfifo hI.queue hx
      rw [hdev]
      refine hI.append ?_ ?_
      · rw [serialFeed_rest]
        exact hwin
      · rw [hsent]
        congr 1
        unfold serialSent
        dsimp only
        by_cases hch : (req.addr - cfg.mmio .serial).setWidth 32 = chOffset
        · cases hreq : req.write with
          | none =>
            rw [if_neg fun h => Bool.false_ne_true h.1, if_pos hch]
            rfl
          | some data =>
            have hsize : (req.addr - cfg.mmio .serial).toNat < 8 := hlt
            have hzero : req.addr - cfg.mmio .serial = 0 := offset_eq (by omega) hch
            rw [if_pos ⟨rfl, hch⟩, if_pos hch, (hwrite data hreq).1, hzero, hlen]
            have hplace : b.base .serial + 0 = b.base .serial := BitVec.add_zero _
            rw [hplace, Bytes.readLE_writeLE _ _ _ (by decide) (by decide), BitVec.setWidth_eq]
            rfl
        · rw [if_neg fun h => hch h.2, if_neg hch]
          rfl

def lineStatus (l : List (BitVec 8)) : BitVec 8 := 0x20 ||| 0x40 ||| if l = [] then 0 else 1

/-- Input comes to the guest in order, once, and without a gap, whatever other devices do in between: first the preset
input, and then what the pipe held when the guest asked and had read everything. A read of the port gives the next
byte, or 0xff when there is none, and the status says which. Every byte that the guest writes is sent, in order. -/
theorem serial_stream (hv : cfg.Valid) (hfifo : cfg.inputFifo = true) (hinit : initBus cfg (.start cfg) = .ok () b)
    (h : Run (DevStep cfg b.base) b tr c) (hgood : ∀ x ∈ tr, x.label.Orderly b.maps) :
    (∀ pre x post, tr = pre ++ x :: post → ∀ host req reply, x.label = .access .serial host req reply → req.write = none →
      (req.addr = cfg.mmio .serial →
        reply.1 = (((labels pre).foldl (serialFeed cfg) presetFeed).next.getD 0xff).setWidth 64) ∧
      (req.addr = cfg.mmio .serial + 5 →
        reply.1 = (lineStatus ((labels (pre ++ [x])).foldl (serialFeed cfg) presetFeed).rest).setWidth 64)) ∧
      Serial.stderr (c.dev .serial) = (labels tr).filterMap (serialSent cfg) := by
  have hb := (initBus_registered hv hinit).1
  refine ⟨?_, (serial_state hb hfifo h hgood).2.stderr⟩
  rintro pre x post rfl host req reply hlabel hnone
  obtain ⟨hpre, hs, _⟩ := h.split
  obtain ⟨hmaps, hstate⟩ := serial_state hb hfifo hpre fun y hy => hgood y (List.mem_append_left _ hy)
  rw [hlabel] at hs
  obtain ⟨space, y, hy, _, _, _, hread, _⟩ := hb.access hs hmaps
  obtain ⟨hlen, _, _, hch, hlsr⟩ := serialIoHandler_ok hfifo hstate.queue hy
  have hisRead : req.write.isSome = false := by rw [hnone]; rfl
  refine ⟨fun haddr => ?_, fun haddr => ?_⟩
  · have hoff : req.addr - cfg.mmio .serial = 0 := by rw [haddr]; exact BitVec.sub_self _
    have hplace : b.base .serial + 0 = b.base .serial := BitVec.add_zero _
    rw [(hread hnone).2, hch hisRead (by rw [hoff]; rfl), hoff, hplace, hlen,
      Bytes.readLE_writeLE _ _ _ (by decide) (by decide), BitVec.setWidth_eq]
    rfl
  · have hoff : req.addr - cfg.mmio .serial = 5 := by
      rw [haddr, BitVec.add_comm]
      exact BitVec.add_sub_cancel _ _
    have hlabels : labels (pre ++ [x]) = labels pre ++ [.access .serial host req reply] := by
      rw [← hlabel]
      exact List.map_append
    rw [(hread hnone).2, hlsr hisRead (by rw [hoff]; rfl), hoff, hlen, hlabels, List.foldl_append, List.foldl_cons,
      List.foldl_nil, serialFeed_rest, hisRead, hoff, Bytes.readLE_writeLE _ _ _ (by decide) (by decide),
      BitVec.setWidth_eq]
    rfl

/-- The first byte of the preset input is read, one is sent, and the status says that more is there. -/
theorem serial_stream_preset : ∃ x y z c, Run (DevStep smallBoard smallBus.base) smallBus [x, y, z] c ∧
    x.label.answer = (.serial, 0x72) ∧ z.label.answer = (.serial, 0x61) ∧
    (0x72 : Word) = (presetFeed.next.getD 0xff).setWidth 64 ∧
    Serial.stderr (c.dev .serial) = [x.label, y.label, z.label].filterMap (serialSent smallBoard) := by
  have hrs : smallBoardAnswers [.access ⟨0, []⟩ ⟨0xa10003f8, 1, none⟩, .access ⟨0, []⟩ ⟨0xa10003f8, 1, some 0x41⟩,
      .access ⟨0, []⟩ ⟨0xa10003fd, 1, none⟩] =
    some [(.serial, 0x72), (.serial, 0), (.serial, 0x61)] := by decide +kernel
  obtain ⟨tr, c, hrun, hgood, hall⟩ := smallBoard_runs hrs
  obtain ⟨x, _, rfl, ⟨_, hx⟩, y, _, rfl, _, z, _, rfl, ⟨_, hz⟩, rfl⟩ := hall
  obtain ⟨hreads, hsent⟩ := serial_stream smallBoard_valid rfl smallBoard_starts hrun hgood
  refine ⟨x, y, z, c, hrun, ?_, ?_, (hreads [] x [y, z] rfl _ _ _ hx rfl).1 rfl, hsent⟩
  · rw [hx]
    rfl
  · rw [hz]
    rfl

end Serial

end Nemu
