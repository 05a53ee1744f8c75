import Nemu.IoMap
import Nemu.Lib.RingBuffer

namespace Nemu

open Effect

set_option autoImplicit true

/-- The regions that the devices add to the bus. -/
inductive Dev where
  | clint | serial | uartlite | uartSnps | plic | rtc | screen | vmem | keyboard | audio | sbuf | disk | sdcard
  deriving DecidableEq

/-- The options of `device/Kconfig`, the table of `init_keymap`, and what the host has before the start: the time
and the images. -/
structure DevConfig where
  has : Dev → Bool
  mmio : Dev → Word
  inputFifo : Bool
  deterministic : Bool
  assertFour : Bool
  screenW : Nat
  screenH : Nat
  sbSize : Nat
  keymap : BitVec 8 → BitVec 32
  bootTime : Word
  diskImage : Option (List (BitVec 8))
  sdcardImage : Option (List (BitVec 8))

/-- The ring of a serial port, and what it wrote to the terminal. -/
structure Serial where
  queue : RingBuffer 1024 (BitVec 8)
  stderr : List (BitVec 8)

structure UartSnps where
  dllConfig : BitVec 32
  stderr : List (BitVec 8)

/-- An open file, and the position in it. -/
structure CardFile where
  bytes : List (BitVec 8)
  pos : Nat

structure Sdcard where
  fp : Option CardFile
  blkcnt : BitVec 32
  blkAddr : Word
  addr : BitVec 32
  writeCmd : Bool
  readExtCsd : Bool

namespace Dev

/-- The static variables of a device, apart from the pointer to its region. -/
def State : Dev → Type
  | serial => Serial
  | uartlite => List (BitVec 8)
  | uartSnps => UartSnps
  | keyboard => RingBuffer 1024 (BitVec 32)
  | disk => Option (List (BitVec 8))
  | sdcard => Sdcard
  | _ => Unit

end Dev

section Primitive

variable {δ : Type}

def load (v : Nat) (addr : Word) (len : Nat) : DevM δ (BitVec v) := do
  let x ← get
  pure (Bytes.readLE v x.1 addr len)

def store (addr : Word) (len : Nat) (d : BitVec v) : DevM δ Unit := modify fun x => (Bytes.writeLE x.1 addr len d, x.2)

def getOwn : DevM δ δ := do
  let x ← get
  pure x.2

def setOwn (d : δ) : DevM δ Unit := modify fun x => (x.1, d)

/-- `base[idx]` for a pointer to 32-bit words. -/
def wordAt (base : Word) (idx : Nat) : Word := base + 4 * BitVec.ofNat 64 idx

def devAssert (p : Prop) [Decidable p] : DevM δ Unit := if p then pure () else throw .assertion

theorem devAssert_ok {p : Prop} [Decidable p] {x y : IoSpace × δ} (h : devAssert p x = .ok u y) : p ∧ y = x := by
  unfold devAssert at h
  split at h
  · cases h
    exact ⟨‹p›, rfl⟩
  · cases h

end Primitive

section Clint

def clintMtimecmp : Word := 0x4000
def clintMtimeOffset : Word := 0xbff8
def timebase : Word := 10000000

def updateClint (cfg : DevConfig) (base : Word) (host : DevHost) : DevM Unit Outward := do
  let mtime ← load 64 (base + clintMtimeOffset) 8
  let mtime : Word :=
    if cfg.deterministic then mtime + timebase / 10000 else timebase * (host.time - cfg.bootTime) / 1000000
  store (base + clintMtimeOffset) 8 mtime
  let mtimecmp ← load 64 (base + clintMtimecmp) 8
  pure ⟨some (mtimecmp ≤ mtime), id⟩

def clintIoHandler (cfg : DevConfig) (base : Word) : Callback Unit := fun host _ _ _ => updateClint cfg base host

end Clint

section Serial

def serialEnqueue (q : RingBuffer 1024 (BitVec 8)) (ch : BitVec 8) : RingBuffer 1024 (BitVec 8) :=
  if q.tail + 1 ≠ q.head then q.put ch else q

def serialDequeue (q : RingBuffer 1024 (BitVec 8)) : BitVec 8 × RingBuffer 1024 (BitVec 8) :=
  if q.head ≠ q.tail then (q.slot q.head, q.drop) else (0xff, q)

/-- `serial_rx_ready_flag`: an empty ring is filled from the pipe. -/
def serialRxReadyFlag (host : DevHost) : DevM Serial (BitVec 8) := do
  let s ← getOwn
  if s.queue.head = s.queue.tail then
    devAssert (host.pipe.length < 256)
    setOwn { s with queue := host.pipe.foldl serialEnqueue s.queue }
  let s ← getOwn
  pure (if s.queue.head = s.queue.tail then 0 else 1)

def chOffset : BitVec 32 := 0
def lsrOffset : BitVec 32 := 5

def serialIoHandler (cfg : DevConfig) (base : Word) : Callback Serial := fun host offset len isWrite => do
  devAssert (len = 1)
  if offset = chOffset then
    let s ← getOwn
    if isWrite then
      let ch ← load 8 base 1
      setOwn { s with stderr := s.stderr ++ [ch] }
    else if cfg.inputFifo then
      setOwn { s with queue := (serialDequeue s.queue).2 }
      store base 1 (serialDequeue s.queue).1
    else store base 1 (0xff : BitVec 8)
  else if offset = lsrOffset ∧ isWrite = false then
    let ready ← if cfg.inputFifo then serialRxReadyFlag host else pure 0
    store (base + 5) 1 (0x20 ||| 0x40 ||| ready : BitVec 8)
  pure .none

/-- `preset_input`, with `debian_cmd`. -/
def presetInput : List (BitVec 8) := [0x72, 0x6f, 0x6f, 0x74, 0x0a]

end Serial

section Uart

/-- `serial_io_handler` of the uartlite, whose input FIFO does not compile. -/
def uartliteIoHandler (cfg : DevConfig) (base : Word) : Callback (List (BitVec 8)) := fun _ offset len isWrite => do
  devAssert (len = 1 ∨ cfg.assertFour = true ∧ len = 4)
  if offset = 4 then
    if isWrite then
      let ch ← load 8 (base + 4) 1
      let s ← getOwn
      setOwn (s ++ [ch])
    else throw (.message "Cannot read UARTLITE_TX_FIFO")
  else if offset = 8 ∧ isWrite = false then store (base + 8) 1 (0 : BitVec 8)
  pure .none

/-- `serial_io_handler` of the snps UART: the first value written to THR is one for DLL. -/
def uartSnpsIoHandler (base : Word) : Callback UartSnps := fun _ offset _ isWrite => do
  if offset = 0 then
    if isWrite then
      let s ← getOwn
      let ch ← load 8 base 1
      if s.dllConfig = 0 then setOwn { s with dllConfig := ch.setWidth 32 }
      else setOwn { s with stderr := s.stderr ++ [ch] }
    else throw (.message "Cannot read UART_SNPS_TX_FIFO")
  pure .none

end Uart

section Rtc

def rtcIoHandler (base : Word) : Callback Unit := fun host offset _ isWrite => do
  devAssert (offset = 0 ∨ offset = 4)
  if isWrite = false ∧ offset = 4 then
    store base 4 (host.time.setWidth 32)
    store (base + 4) 4 ((host.time >>> 32).setWidth 32)
  pure .none

end Rtc

section Screen

/-- `vga_update_screen`, as far as the guest sees it. -/
def vgaUpdateScreen (base : Word) : DevM Unit Unit := do
  let sync ← load 32 (base + 4) 4
  if sync ≠ 0 then store (base + 4) 4 (0 : BitVec 32)

end Screen

section Keyboard

def keydownMask : BitVec 32 := 0x8000

/-- The code of a key. -/
def amScancode (cfg : DevConfig) (scancode : BitVec 8) (isKeydown : Bool) : BitVec 32 :=
  cfg.keymap scancode ||| if isKeydown then keydownMask else 0

def sendKey (cfg : DevConfig) (running : Bool) (scancode : BitVec 8) (isKeydown : Bool) :
    DevM (RingBuffer 1024 (BitVec 32)) Unit := do
  if running = true ∧ cfg.keymap scancode ≠ 0 then
    let q ← getOwn
    setOwn (q.put (amScancode cfg scancode isKeydown))
    if q.tail + 1 = q.head then throw (.message "key queue overflow!")

def i8042DataIoHandler (base : Word) : Callback (RingBuffer 1024 (BitVec 32)) := fun _ offset _ isWrite => do
  devAssert (isWrite = false)
  devAssert (offset = 0)
  let q ← getOwn
  if q.head ≠ q.tail then
    store base 4 (q.slot q.head)
    setOwn q.drop
  else store base 4 (0 : BitVec 32)
  pure .none

end Keyboard

section Audio

def audioIoHandler (base : Word) : Callback Unit := fun _ offset len isWrite => do
  if offset = 16 ∧ len = 4 ∧ isWrite = true then store (base + 20) 4 (0 : BitVec 32)
  pure .none

end Audio

section Disk

/-- `guest_to_host` of the `n` bytes at a guest address, filled by `fread`. -/
def dmaWrite (addr : Word) (bytes : List (BitVec 8)) (pmem : Word → BitVec 8) (x : Word) : BitVec 8 :=
  bytes.getD (x - addr).toNat (pmem x)

def diskSize : Nat := 0
def diskCmd : Nat := 1
def diskBuf : Nat := 2
def diskStart : Nat := 3
def diskCount : Nat := 4

/-- `disk_io_handler`: a write of the command register starts a copy from the image to memory. -/
def diskIoHandler (base : Word) : Callback (Option (List (BitVec 8))) := fun _ offset len isWrite => do
  if offset = 4 ∧ len = 4 ∧ isWrite = true then
    let cmd ← load 32 (wordAt base diskCmd) 4
    devAssert (cmd = 0)
    let fp ← getOwn
    match fp with
    | none => throw .crash
    | some bytes =>
      let start ← load 32 (wordAt base diskStart) 4
      let buf ← load 32 (wordAt base diskBuf) 4
      let count ← load 32 (wordAt base diskCount) 4
      let read := (bytes.drop (start * 512).toNat).take (count.toNat * 512)
      devAssert (0 < count.toNat ∧ read.length = count.toNat * 512)
      pure ⟨none, dmaWrite (buf.setWidth 64) read⟩
  else pure .none

end Disk

namespace CardFile

def seek (f : CardFile) (pos : Nat) : CardFile := { f with pos := pos }

/-- `fread` of 4 bytes: those that are there. -/
def read (f : CardFile) : List (BitVec 8) × CardFile :=
  let got := (f.bytes.drop f.pos).take 4
  (got, { f with pos := f.pos + got.length })

/-- `fwrite` of 4 bytes: a gap before them is filled with zeros. -/
def write (f : CardFile) (data : List (BitVec 8)) : CardFile where
  bytes := (f.bytes ++ List.replicate (f.pos - f.bytes.length) 0).take f.pos ++ data ++ f.bytes.drop (f.pos + data.length)
  pos := f.pos + data.length

end CardFile

section Sdcard

def sdcmd : Nat := 0
def sdarg : Nat := 1
def sdrsp (i : Nat) : Nat := 4 + i
def sddata : Nat := 16

def cSize : BitVec 32 := 1023
def readBlLen : BitVec 32 := 15

def storeRsp (base : Word) (r0 r1 r2 r3 : BitVec 32) : DevM Sdcard Unit := do
  store (wordAt base (sdrsp 0)) 4 r0
  store (wordAt base (sdrsp 1)) 4 r1
  store (wordAt base (sdrsp 2)) 4 r2
  store (wordAt base (sdrsp 3)) 4 r3

/-- `prepare_rw`. The argument is a block of 512 bytes. -/
def prepareRw (base : Word) (isWrite : Bool) : DevM Sdcard Unit := do
  let arg ← load 32 (wordAt base sdarg) 4
  let s ← getOwn
  setOwn { s with
    blkAddr := arg.setWidth 64
    addr := 0
    fp := s.fp.map fun f => f.seek (arg.toNat * 512)
    writeCmd := isWrite }

def sdcardHandleCmd (base : Word) (cmd : Nat) : DevM Sdcard Unit := do
  if cmd = 0 then pure ()
  else if cmd = 1 then store (wordAt base (sdrsp 0)) 4 (0x80ff8000 : BitVec 32)
  else if cmd = 2 then storeRsp base 0x00000001 0x00000000 0x00000000 0x15000000
  else if cmd = 52 then pure ()
  else if cmd = 9 then
    storeRsp base 0x92404001 (0x124b97e3 ||| ((cSize &&& 0x3) <<< 30)) (0x0f508000 ||| (cSize >>> 2) ||| (readBlLen <<< 16))
      0x9026012a
  else if cmd = 8 then
    let s ← getOwn
    setOwn { s with readExtCsd := true, addr := 0 }
  else if cmd = 5 then pure ()
  else if cmd = 55 then pure ()
  else if cmd = 3 then pure ()
  else if cmd = 7 then pure ()
  else if cmd = 23 then
    let arg ← load 32 (wordAt base sdarg) 4
    let s ← getOwn
    setOwn { s with blkcnt := arg &&& 0xffff }
  else if cmd = 18 then prepareRw base false
  else if cmd = 25 then prepareRw base true
  else if cmd = 13 then storeRsp base 0 0 0 0
  else if cmd = 12 then pure ()
  else throw (.message "unhandled command")

/-- The word of the extended CSD at a position. -/
def extCsd (addr : BitVec 32) : BitVec 32 := if addr = 192 then 2 else if addr = 212 then 0x2000000 else 0

def wordBytes (w : BitVec 32) : List (BitVec 8) := (List.range 4).map fun i => w.extractLsb' (8 * i) 8

/-- An access to the data register: the next word of the extended CSD, or of the file, which the direction of the last
command reads or writes. -/
def sdcardData (base : Word) : DevM Sdcard Unit := do
  let s ← getOwn
  if s.readExtCsd then
    store (wordAt base sddata) 4 (extCsd s.addr)
    setOwn { s with readExtCsd := !(s.addr = 512 - 4), addr := s.addr + 4 }
  else
    match s.fp with
    | none => setOwn { s with addr := s.addr + 4 }
    | some f =>
      if s.writeCmd then
        let data ← load 32 (wordAt base sddata) 4
        setOwn { s with fp := some (f.write (wordBytes data)), addr := s.addr + 4 }
      else
        let (got, f) := f.read
        store (wordAt base sddata) got.length (Bytes.readLE 32 (fun i : BitVec 32 => got.getD i.toNat 0) 0 got.length)
        setOwn { s with fp := some f, addr := s.addr + 4 }

def sdcardIoHandler (base : Word) : Callback Sdcard := fun _ offset _ _ => do
  let idx := offset.toNat / 4
  if idx = sdcmd then
    let cmd ← load 32 (wordAt base sdcmd) 4
    sdcardHandleCmd base (cmd &&& 0x3f).toNat
  else if idx = sdarg ∨ idx = sdrsp 0 ∨ idx = sdrsp 1 ∨ idx = sdrsp 2 ∨ idx = sdrsp 3 then pure ()
  else if idx = sddata then sdcardData base
  else throw (.message "unhandle offset")
  pure .none

end Sdcard

/-- The callbacks, for the pointers that the devices keep. -/
def callbacks (cfg : DevConfig) (base : Dev → Word) : (d : Dev) → Callback d.State
  | .clint => clintIoHandler cfg (base .clint)
  | .serial => serialIoHandler cfg (base .serial)
  | .uartlite => uartliteIoHandler cfg (base .uartlite)
  | .uartSnps => uartSnpsIoHandler (base .uartSnps)
  | .plic => fun _ _ _ _ => pure .none
  | .rtc => rtcIoHandler (base .rtc)
  | .screen => fun _ _ _ _ => pure .none
  | .vmem => fun _ _ _ _ => pure .none
  | .keyboard => i8042DataIoHandler (base .keyboard)
  | .audio => audioIoHandler (base .audio)
  | .sbuf => fun _ _ _ _ => pure .none
  | .disk => diskIoHandler (base .disk)
  | .sdcard => sdcardIoHandler (base .sdcard)

/-- What the host does to a device: a key, a refresh of the screen, or the alarm that updates the timer. -/
def Dev.Event : Dev → Type
  | .keyboard => Bool × BitVec 8 × Bool
  | .screen => Unit
  | .clint => DevHost
  | _ => Empty

def hostEvent (cfg : DevConfig) (base : Dev → Word) : (d : Dev) → d.Event → DevM d.State Outward
  | .keyboard, (running, scancode, isKeydown) => do
    sendKey cfg running scancode isKeydown
    pure .none
  | .screen, () => do
    vgaUpdateScreen (base .screen)
    pure .none
  | .clint, host => updateClint cfg (base .clint) host

section Init

/-- What a device starts with, apart from its region. -/
def Dev.start (cfg : DevConfig) : (d : Dev) → d.State
  | clint | plic | rtc | screen | vmem | audio | sbuf => ()
  | serial => ⟨if cfg.inputFifo then presetInput.foldl serialEnqueue ⟨fun _ => 0, 0, 0⟩ else ⟨fun _ => 0, 0, 0⟩, []⟩
  | uartlite => []
  | uartSnps => ⟨0, []⟩
  | keyboard => ⟨fun _ => 0, 0, 0⟩
  | disk => cfg.diskImage
  | sdcard => ⟨cfg.sdcardImage.map fun bytes => ⟨bytes, 0⟩, 0, 0, 0, false, false⟩

def IoBus.start (cfg : DevConfig) : IoBus Dev.State := ⟨fun _ => 0, 0, [], fun _ => 0, Dev.start cfg⟩

/-- The stores of an initialisation, as 32-bit words at offsets. -/
def storeWords (base : Word) : List (Word × BitVec 32) → IoM Dev.State Unit
  | [] => pure ()
  | (offset, w) :: ws => do
    modify fun b => { b with space := Bytes.writeLE b.space (base + offset) 4 w }
    storeWords base ws

/-- An initialisation: pages from `new_space`, the first contents of the registers, and the region. -/
def addDevice (cfg : DevConfig) (d : Dev) (name : String) (size : Nat) (callback : Bool)
    (ws : List (Word × BitVec 32)) :
    IoM Dev.State Unit := do
  let base ← newSpace size
  modify fun b => { b with base := Function.update b.base d base }
  storeWords base ws
  addMmioMap name (cfg.mmio d) base size d callback

def initClint (cfg : DevConfig) : IoM Dev.State Unit := addDevice cfg .clint "clint" 0x10000 true []

def initSerial (cfg : DevConfig) : IoM Dev.State Unit := addDevice cfg .serial "serial" 8 true []

def initUartlite (cfg : DevConfig) : IoM Dev.State Unit := addDevice cfg .uartlite "uartlite" 0xd true []

def initUartSnps (cfg : DevConfig) : IoM Dev.State Unit :=
  addDevice cfg .uartSnps "uart_snps" 0x100 true [(0x14, 0x60), (0x7c, 0)]

def initPlic (cfg : DevConfig) : IoM Dev.State Unit := addDevice cfg .plic "plic" 0x4000000 true []

def initTimer (cfg : DevConfig) : IoM Dev.State Unit := addDevice cfg .rtc "rtc" 8 true []

def DevConfig.screenSize (cfg : DevConfig) : Nat := cfg.screenH * cfg.screenW * 4

def initVga (cfg : DevConfig) : IoM Dev.State Unit := do
  addDevice cfg .screen "screen" 8 false [(0, BitVec.ofNat 32 (cfg.screenW * 2 ^ 16 + cfg.screenH))]
  addDevice cfg .vmem "vmem" cfg.screenSize false []

def initI8042 (cfg : DevConfig) : IoM Dev.State Unit := addDevice cfg .keyboard "keyboard" 4 true [(0, 0)]

def initAudio (cfg : DevConfig) : IoM Dev.State Unit := do
  addDevice cfg .audio "audio" 24 true [(12, BitVec.ofNat 32 cfg.sbSize)]
  addDevice cfg .sbuf "audio-sbuf" cfg.sbSize false []

def initDisk (cfg : DevConfig) : IoM Dev.State Unit :=
  addDevice cfg .disk "disk" 20 true
    [(0, BitVec.ofNat 32 (cfg.diskImage.elim 0 fun bytes => bytes.length / 512 + 1))]

def initSdcard (cfg : DevConfig) : IoM Dev.State Unit := addDevice cfg .sdcard "sdhci" 0x80 true []

def initIf (cfg : DevConfig) (d : Dev) (m : IoM Dev.State Unit) : IoM Dev.State Unit := if cfg.has d then m else pure ()

def initDevice (cfg : DevConfig) : IoM Dev.State Unit := do
  initIf cfg .serial (initSerial cfg)
  initIf cfg .uartlite (initUartlite cfg)
  initIf cfg .uartSnps (initUartSnps cfg)
  initIf cfg .plic (initPlic cfg)
  initIf cfg .rtc (initTimer cfg)
  initIf cfg .screen (initVga cfg)
  initIf cfg .keyboard (initI8042 cfg)
  initIf cfg .audio (initAudio cfg)
  initIf cfg .disk (initDisk cfg)
  initIf cfg .sdcard (initSdcard cfg)

/-- The devices at the start: `init_clint`, which `init_isa` calls, and `init_device`. -/
def initBus (cfg : DevConfig) : IoM Dev.State Unit := do
  initClint cfg
  initDevice cfg

end Init

end Nemu
