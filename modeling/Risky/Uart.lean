import Risky.FdtStrings
import Risky.Kmain
import Risky.PagingInit

/-!
# The serial port

The driver `platform/generic/uart.c`: the search for a port in the device tree, the
mapping of its registers, and the accesses to them. What the device answers is left
open (`Bus`). A loop that waits for the device is cut off after a number of turns, and
the run with it, so that the runs of any number of turns are all that can be seen of
the driver.
-/

namespace Uart

open Outcome
open Kmain (Dtb)

/-! ## The registers -/

/-- `UART_RBR`. -/
def uartRbr : BitVec 32 := 0

/-- `UART_THR`. -/
def uartThr : BitVec 32 := 0

/-- `UART_DLL`. -/
def uartDll : BitVec 32 := 0

/-- `UART_IER`. -/
def uartIer : BitVec 32 := 1

/-- `UART_DLM`. -/
def uartDlm : BitVec 32 := 1

/-- `UART_FCR`. -/
def uartFcr : BitVec 32 := 2

/-- `UART_LCR`. -/
def uartLcr : BitVec 32 := 3

/-- `UART_LSR`. -/
def uartLsr : BitVec 32 := 5

/-- `UART_LSR_RX_READY`. -/
def uartLsrRxReady : BitVec 8 := 0x01

/-- `UART_LSR_TX_EMPTY`. -/
def uartLsrTxEmpty : BitVec 8 := 0x20

/-- `UART_LCR_DLAB`. -/
def uartLcrDlab : BitVec 8 := 0x80

/-- **An access to a physical address.** -/
inductive MmioAccess where
  | write8 (physAddr : BitVec 64) (value : BitVec 8)
  | read8 (physAddr : BitVec 64)
  | write32 (physAddr : BitVec 64) (value : BitVec 32)
  | read32 (physAddr : BitVec 64)
  deriving DecidableEq, Repr

namespace MmioAccess

/-- The first byte. -/
def physAddr : MmioAccess → BitVec 64
  | write8 physAddr _ => physAddr
  | read8 physAddr => physAddr
  | write32 physAddr _ => physAddr
  | read32 physAddr => physAddr

/-- The number of bytes. -/
def width : MmioAccess → ℕ
  | write8 _ _ => 1
  | read8 _ => 1
  | write32 _ _ => 4
  | read32 _ => 4

end MmioAccess

/-- **The device**: what it answers to the reads to come, and the accesses so far. -/
structure Bus where
  reads : ℕ → BitVec 32
  accesses : List MmioAccess

namespace Bus

/-- `mmio_write8`. -/
def mmioWrite8 (bus : Bus) (physAddr : BitVec 64) (value : BitVec 8) : Bus :=
  { bus with accesses := bus.accesses ++ [MmioAccess.write8 physAddr value] }

/-- `mmio_write32`. -/
def mmioWrite32 (bus : Bus) (physAddr : BitVec 64) (value : BitVec 32) : Bus :=
  { bus with accesses := bus.accesses ++ [MmioAccess.write32 physAddr value] }

/-- `mmio_read8`. -/
def mmioRead8 (bus : Bus) (physAddr : BitVec 64) : BitVec 8 × Bus :=
  ((bus.reads 0).setWidth 8,
    ⟨fun n => bus.reads (n + 1), bus.accesses ++ [MmioAccess.read8 physAddr]⟩)

/-- `mmio_read32`. -/
def mmioRead32 (bus : Bus) (physAddr : BitVec 64) : BitVec 32 × Bus :=
  (bus.reads 0, ⟨fun n => bus.reads (n + 1), bus.accesses ++ [MmioAccess.read32 physAddr]⟩)

end Bus

/-- `struct uart_port`. -/
structure UartPort where
  base : BitVec 64
  size : BitVec 64
  regShift : BitVec 32
  regIoWidth : BitVec 32
  deriving DecidableEq, Repr

/-- The address of a register: a shift by 64 or more is undefined. -/
def uartRegAddr (uart0 : UartPort) (reg : BitVec 32) : Outcome (BitVec 64) :=
  if uart0.regShift.toNat < 64 then
    ok (uart0.base + (reg.setWidth 64 <<< uart0.regShift.toNat))
  else fault

/-- `uart_write_reg`. -/
def uartWriteReg (uart0 : UartPort) (reg : BitVec 32) (val : BitVec 8) (bus : Bus) :
    Outcome Bus := do
  let addr ← uartRegAddr uart0 reg
  if uart0.regIoWidth = 4 then ok (bus.mmioWrite32 addr (val.setWidth 32))
  else ok (bus.mmioWrite8 addr val)

/-- `uart_read_reg`. -/
def uartReadReg (uart0 : UartPort) (reg : BitVec 32) (bus : Bus) : Outcome (BitVec 8 × Bus) := do
  let addr ← uartRegAddr uart0 reg
  if uart0.regIoWidth = 4 then
    let (val, bus) := bus.mmioRead32 addr
    ok (val.setWidth 8, bus)
  else ok (bus.mmioRead8 addr)

/-! ## The search for a port -/

/-- `UART_PATH_MAX`. -/
def uartPathMax : ℕ := 256

/-- `UART_DEFAULT_BASE`. -/
def uartDefaultBase : BitVec 64 := 0x10000000

/-- `UART_DEFAULT_SIZE`. -/
def uartDefaultSize : BitVec 64 := 0x100

/-- `"reg-shift"`. -/
def regShiftName : CString := ⟨asciiBytes "reg-shift", by decide⟩

/-- `"reg-io-width"`. -/
def regIoWidthName : CString := ⟨asciiBytes "reg-io-width", by decide⟩

/-- `uart_compatibles`. -/
def uartCompatibles : List CString :=
  [⟨asciiBytes "ns16550a", by decide⟩, ⟨asciiBytes "ns16550", by decide⟩,
    ⟨asciiBytes "snps,dw-apb-uart", by decide⟩, ⟨asciiBytes "uart8250", by decide⟩]

/-- The string in a buffer. -/
def stringAt (buffer : List UInt8) : Option CString :=
  if 0 ∈ buffer then some ⟨cutAt [0] buffer, notMem_cutAt (List.mem_singleton_self 0) buffer⟩
  else none

/-- The loop over `uart_compatibles` at the node of the console. -/
def uartNodeMatches (dtb : Dtb) (node : FdtNode) : List CString → Outcome Bool
  | [] => ok false
  | compatible :: compatibles => do
    let found ← attempt (Kmain.dtbNodeHasCompatible dtb node compatible)
    if found.isSome then ok true else uartNodeMatches dtb node compatibles

/-- The loop over `uart_compatibles` without such a node. -/
def uartFindCompatible (dtb : Dtb) : List CString → Outcome FdtNode
  | [] => refused
  | compatible :: compatibles => do
    let node ← attempt (Kmain.dtbFindCompatible dtb compatible)
    match node with
    | some node => ok node
    | none => uartFindCompatible dtb compatibles

/-- The node of the console, if it is one of a serial port. The two buffers are on the
stack, with anything in them. -/
def uartConsoleNode (dtb : Dtb) (path resolved : List UInt8) : Outcome (Option FdtNode) := do
  let path ← attempt (Kmain.dtbGetStdoutPath dtb path uartPathMax)
  match path with
  | none => ok none
  | some path => do
    let resolved ← if path.head? ≠ some slash then
        attempt (do
          let name ← access (stringAt path)
          Kmain.dtbResolveAlias dtb name resolved uartPathMax)
      else ok none
    let p ← access (stringAt (resolved.getD path))
    let node ← attempt (Kmain.dtbFindNodeByPath dtb p)
    match node with
    | none => ok none
    | some node => do
      let found ← uartNodeMatches dtb node uartCompatibles
      ok (if found then some node else none)

/-- `uart_find_port`. -/
def uartFindPort (dtb : Dtb) (path resolved : List UInt8) : Outcome UartPort := do
  let console ← uartConsoleNode dtb path resolved
  let node ← match console with
    | some node => ok node
    | none => uartFindCompatible dtb uartCompatibles
  let (found, base, size) ← Kmain.dtbGetReg dtb node 0 0 0
  require (¬ (found = false ∨ size = 0))
  let shift ← attempt (Kmain.dtbGetU32 dtb node regShiftName)
  let width ← attempt (Kmain.dtbGetU32 dtb node regIoWidthName)
  require (¬ ∃ w ∈ width, w ≠ 1 ∧ w ≠ 4)
  ok ⟨base, size, BitVec.ofNat 32 (shift.getD 0), BitVec.ofNat 32 (width.getD 1)⟩

/-- The fallback. -/
def uartDefaultPort : UartPort := ⟨uartDefaultBase, uartDefaultSize, 0, 1⟩

/-- The port that `uart_init` settles on. -/
def uartPort (dtb : Dtb) (path resolved : List UInt8) : Outcome UartPort := do
  let port ← attempt (uartFindPort dtb path resolved)
  ok (port.getD uartDefaultPort)

/-! ## The calls -/

/-- **The variables of `uart.c`**: `uart0` and `uart_ready`. -/
structure Driver where
  uart0 : UartPort
  uartReady : Bool

/-- The loop of `uart_putc`. -/
def uartSpin (uart0 : UartPort) : ℕ → Bus → Outcome Bus
  | 0, bus => ok bus
  | spins + 1, bus => do
    let (lsr, bus) ← uartReadReg uart0 uartLsr bus
    if lsr &&& uartLsrTxEmpty = 0 then uartSpin uart0 spins bus else ok bus

/-- `uart_putc`. -/
def uartPutc (d : Driver) (c : BitVec 8) (bus : Bus) : Outcome Bus :=
  if !d.uartReady then ok bus
  else do
    let bus ← uartSpin d.uart0 1000000 bus
    uartWriteReg d.uart0 uartThr c bus

/-- `uart_puts`, and `klog` once the driver is ready. -/
def uartPuts (d : Driver) : List (BitVec 8) → Bus → Outcome Bus
  | [], bus => ok bus
  | c :: s, bus => do
    let bus ← uartPutc d c bus
    uartPuts d s bus

/-- The loop of `uart_init`, and whether it has ended. -/
def uartDrain (uart0 : UartPort) : ℕ → Bus → Outcome (Bool × Bus)
  | 0, bus => ok (false, bus)
  | turns + 1, bus => do
    let (lsr, bus) ← uartReadReg uart0 uartLsr bus
    if lsr &&& uartLsrRxReady ≠ 0 then do
      let (_, bus) ← uartReadReg uart0 uartRbr bus
      uartDrain uart0 turns bus
    else ok (true, bus)

/-- The loop of `uart_getc`, and whether it has ended. -/
def uartWait (uart0 : UartPort) : ℕ → Bus → Outcome (Bool × Bus)
  | 0, bus => ok (false, bus)
  | turns + 1, bus => do
    let (lsr, bus) ← uartReadReg uart0 uartLsr bus
    if lsr &&& uartLsrRxReady = 0 then uartWait uart0 turns bus else ok (true, bus)

/-- `uart_getc`; without a character it is still in its loop. -/
def uartGetc (d : Driver) (turns : ℕ) (bus : Bus) : Outcome (Option (BitVec 8) × Bus) :=
  if !d.uartReady then ok (some 0, bus)
  else do
    let (done, bus) ← uartWait d.uart0 turns bus
    if done then do
      let (c, bus) ← uartReadReg d.uart0 uartRbr bus
      ok (some c, bus)
    else ok (none, bus)

/-- **`uart_init`**; without a result it is still in its loop. The text is that of the
message which it logs over the port. -/
def uartInit (B : Boot) (dtb : Dtb) (path resolved : List UInt8) (s : Paging)
    (text : List (BitVec 8)) (turns : ℕ) (bus : Bus) :
    Outcome (Option Bool × Driver × Paging × Bus) := do
  let uart0 ← uartPort dtb path resolved
  let (mapped, s) ← access (s.pagingMapMmio B uart0.base uart0.size)
  if !mapped then ok (some false, ⟨uart0, false⟩, s, bus)
  else do
    let bus ← uartWriteReg uart0 uartIer 0x00 bus
    let bus ← uartWriteReg uart0 uartLcr uartLcrDlab bus
    let bus ← uartWriteReg uart0 uartDll 0x02 bus
    let bus ← uartWriteReg uart0 uartDlm 0x00 bus
    let bus ← uartWriteReg uart0 uartLcr 0x03 bus
    let bus ← uartWriteReg uart0 uartFcr 0x07 bus
    let bus ← uartPuts ⟨uart0, true⟩ text bus
    let (done, bus) ← uartDrain uart0 turns bus
    ok (if done then some true else none, ⟨uart0, true⟩, s, bus)

/-- A call of the driver. -/
inductive UartCall where
  | putc (c : BitVec 8)
  | getc (turns : ℕ)

/-- Calls one after the other, up to one that does not return. -/
def uartCalls (d : Driver) : List UartCall → Bus → Outcome Bus
  | [], bus => ok bus
  | UartCall.putc c :: calls, bus => do
    let bus ← uartPutc d c bus
    uartCalls d calls bus
  | UartCall.getc turns :: calls, bus => do
    let (c, bus) ← uartGetc d turns bus
    if c.isSome then uartCalls d calls bus else ok bus

/-- **A run of the driver**: `uart_init`, and then any calls. -/
def uartRun (B : Boot) (dtb : Dtb) (path resolved : List UInt8) (s : Paging)
    (text : List (BitVec 8)) (turns : ℕ) (calls : List UartCall) (bus : Bus) : Outcome Bus := do
  let (done, d, _, bus) ← uartInit B dtb path resolved s text turns bus
  if done.isSome then uartCalls d calls bus else ok bus

end Uart
