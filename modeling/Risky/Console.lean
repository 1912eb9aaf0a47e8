import Risky.PrintkStamp
import Risky.UartDevice

/-!
# The console

`printk_putc` of `main.c` hands each character of the log to the firmware until the
driver of the serial port is ready and to the driver from then on, and to the terminal on
the framebuffer as well, once there is one. Who reads the two first of these one after the
other has the whole log (`Console.bootLog`).
-/

namespace Console

open Outcome
open Kmain (Dtb)
open Ns16550 (Device Event Lossless)
open Uart (Bus Driver UartCall Served Live)
open Printk (Arg LogLines times vklogs)

/-- **Where the characters of the log go**, and what has gone there. -/
structure Sinks where
  driver : Driver
  bus : Bus
  /-- The characters given to `sbi_legacy_console_putchar`. -/
  sbi : List UInt8
  /-- Those given to `flanterm_write`, unless `g_ft_ctx` is `NULL`. -/
  flanterm : Option (List UInt8)

/-- The variables before they are written. -/
def Sinks.start (bus : Bus) : Sinks := ⟨⟨⟨0, 0, 0, 0⟩, false⟩, bus, [], none⟩

/-- The character goes to the driver if that is ready, and to the firmware if not. -/
def putLine (con : Sinks) (c : UInt8) : Outcome Sinks :=
  if con.driver.uartReady then do
    let bus ← Uart.uartPutc con.driver c.toBitVec con.bus
    ok { con with bus := bus }
  else ok { con with sbi := con.sbi ++ [c] }

/-- `printk_putc`. -/
def printkPutc (con : Sinks) (c : UInt8) : Outcome Sinks := do
  let con ← putLine con c
  ok { con with flanterm := con.flanterm.map (· ++ [c]) }

/-- Characters one after the other. -/
def print (con : Sinks) (cs : List UInt8) : Outcome Sinks := cs.foldlM printkPutc con

/-- **The log of `kmain`**: what is logged before the driver is ready (`early`), by
`uart_init` when it is (`text`), before the framebuffer is set up (`middle`) and after
that (`late`). This is a boot in which `uart_init` returns with the driver ready. Where it
fails, `kmain` logs that through the firmware and halts. -/
def kmainLog (B : Boot) (dtb : Dtb) (path resolved : List UInt8) (s : Paging)
    (early text middle late : List UInt8) (framebuffer : Bool) (turns : ℕ) (bus : Bus) :
    Outcome Sinks := do
  let con ← print (Sinks.start bus) early
  let (done, driver, _, bus) ←
    Uart.uartInit B dtb path resolved s (text.map UInt8.toBitVec) turns con.bus
  require (done = some true)
  let con ← print { con with driver := driver, bus := bus } middle
  print { con with flanterm := if framebuffer then some [] else none } late

variable {B : Boot} {dtb : Dtb} {path resolved : List UInt8} {s : Paging} {con con' : Sinks}
variable {line : ℕ → List Event} {d d' : Device}

/-! ## The sinks -/

/-- **Before the driver is ready** the firmware gets all characters. -/
theorem print_of_not_ready (hready : con.driver.uartReady = false) (hft : con.flanterm = none)
    (cs : List UInt8) : print con cs = ok { con with sbi := con.sbi ++ cs } := by
  induction cs generalizing con with
  | nil =>
    rw [List.append_nil]
    rfl
  | cons c cs ih =>
    have hputc : printkPutc con c = ok { con with sbi := con.sbi ++ [c] } := by
      rw [printkPutc, putLine, if_neg (by rw [hready]; decide), ok_bind]
      dsimp only
      rw [hft, Option.map_none]
    rw [print, List.foldlM_cons, hputc, ok_bind]
    have hready' : { con with sbi := con.sbi ++ [c] : Sinks }.driver.uartReady = false := hready
    refine (ih hready' hft).trans ?_
    rw [List.append_assoc]
    rfl

/-- **When it is ready** the driver gets them. -/
theorem print_of_ready {cs : List UInt8} (h : print con cs = ok con')
    (hready : con.driver.uartReady = true) :
    Uart.uartPuts con.driver (cs.map UInt8.toBitVec) con.bus = ok con'.bus
      ∧ con'.driver = con.driver ∧ con'.sbi = con.sbi
      ∧ con'.flanterm = con.flanterm.map (· ++ cs) := by
  induction cs generalizing con with
  | nil =>
    obtain rfl := Outcome.ok.inj h
    refine ⟨rfl, rfl, rfl, ?_⟩
    simp only [List.append_nil, Option.map_id']
  | cons c cs ih =>
    obtain ⟨con₁, hputc, hprint⟩ := bind_eq_ok.mp h
    obtain ⟨con₂, hline, hcon₁⟩ := bind_eq_ok.mp hputc
    rw [putLine, if_pos hready] at hline
    obtain ⟨bus, hbus, hcon₂⟩ := bind_eq_ok.mp hline
    obtain rfl := Outcome.ok.inj hcon₂
    obtain rfl := Outcome.ok.inj hcon₁
    have hready' : { con with
        bus := bus
        flanterm := con.flanterm.map (· ++ [c]) : Sinks }.driver.uartReady = true := hready
    obtain ⟨hputs, hdriver, hsbi, hft⟩ := ih hprint hready'
    refine ⟨?_, hdriver, hsbi, ?_⟩
    · rw [List.map_cons, Uart.uartPuts, hbus, ok_bind]
      exact hputs
    · rw [hft, Option.map_map]
      congr 1
      funext out
      exact (List.append_assoc out [c] cs)

/-! ## The whole log -/

/-- Characters written are a session of their own. -/
theorem uartTalk_putc {driver : Driver} {text : List (BitVec 8)} {bus bus' : Bus}
    (h : Uart.uartPuts driver text bus = ok bus') :
    Uart.uartTalk driver (text.map UartCall.putc) bus = ok (some [], bus') := by
  induction text generalizing bus with
  | nil =>
    obtain rfl := Outcome.ok.inj h
    rfl
  | cons c text ih =>
    obtain ⟨bus₁, hputc, hputs⟩ := bind_eq_ok.mp h
    rw [List.map_cons, Uart.uartTalk, hputc, ok_bind]
    exact ih hputs

theorem uartPuts_append {driver : Driver} {text text' : List (BitVec 8)} {bus bus' bus'' : Bus}
    (h : Uart.uartPuts driver text bus = ok bus')
    (h' : Uart.uartPuts driver text' bus' = ok bus'') :
    Uart.uartPuts driver (text ++ text') bus = ok bus'' := by
  induction text generalizing bus with
  | nil =>
    obtain rfl := Outcome.ok.inj h
    exact h'
  | cons c text ih =>
    obtain ⟨bus₁, hputc, hputs⟩ := bind_eq_ok.mp h
    rw [List.cons_append, Uart.uartPuts, hputc, ok_bind]
    exact ih hputs

theorem filterMap_written_putc (text : List (BitVec 8)) :
    (text.map UartCall.putc).filterMap UartCall.written = text := by
  rw [List.filterMap_map]
  exact List.filterMap_some

/-- **Nothing of the log is lost or printed twice.** What the firmware was given and what
is on the line of the serial port behind what was there before are one log, whose lines
carry the times of the clock in order, and the terminal has the end of it. -/
theorem bootLog {lines : List (List UInt8 × List Arg)} {clock : ℕ → BitVec 64}
    {early text middle late : List UInt8} {framebuffer : Bool} {turns : ℕ} {bus : Bus}
    (hlog : vklogs lines clock = ok (early ++ text ++ middle ++ late))
    (hrun : kmainLog B dtb path resolved s early text middle late framebuffer turns bus = ok con)
    (hshift : con.driver.uart0.regShift.toNat < 62)
    (h : Served con.driver.uart0 line bus d con.bus d') (hlive : Live line) :
    ∃ before out, before <+: d.output ∧ d'.output = before ++ out.map UInt8.toBitVec
      ∧ con.sbi ++ out = early ++ text ++ middle ++ late
      ∧ (∃ n, LogLines (times clock n) (con.sbi ++ out))
      ∧ con.flanterm = (if framebuffer then some late else none) := by
  unfold kmainLog at hrun
  rw [print_of_not_ready rfl rfl, ok_bind] at hrun
  obtain ⟨⟨done, driver, s', bus₁⟩, hinit, hrun⟩ := bind_eq_ok.mp hrun
  obtain ⟨_, hdone, hrun⟩ := bind_eq_ok.mp hrun
  obtain ⟨con₁, hmiddle, hlate⟩ := bind_eq_ok.mp hrun
  rw [require_eq_ok] at hdone
  subst hdone
  have hready : driver.uartReady = true := (Uart.uartInit_steps hinit).1
  obtain ⟨hputs, hdriver, hsbi, hft⟩ := print_of_ready hmiddle hready
  have hready₁ : con₁.driver.uartReady = true := by rw [hdriver]; exact hready
  obtain ⟨hputs', hdriver', hsbi', hft'⟩ := print_of_ready hlate hready₁
  dsimp only [Sinks.start] at hputs hdriver hsbi hputs' hdriver' hsbi' hft' hinit
  rw [hdriver] at hputs' hdriver'
  rw [hdriver'] at hshift h
  have htalk := uartTalk_putc (uartPuts_append hputs hputs')
  obtain ⟨d₀, d₁, taken, hset, -, -, -, -, -, hlossless⟩ := Uart.session_served hinit htalk hshift h
  obtain ⟨-, hout⟩ := hlossless hlive (by rw [hset.tx]; exact Nat.zero_le 1)
  rw [filterMap_written_putc, hset.output_eq] at hout
  have hall : con.sbi ++ (text ++ middle ++ late) = early ++ text ++ middle ++ late := by
    rw [hsbi', hsbi, List.nil_append, List.append_assoc, List.append_assoc, List.append_assoc]
  refine ⟨d₀.sent, text ++ middle ++ late, hset.sent, ?_, hall, ?_, ?_⟩
  · rw [hout, List.map_append, List.map_append, List.append_assoc]
  · rw [hall]
    exact Printk.exists_logLines hlog
  · rw [hft']
    cases framebuffer <;> rfl

/-- The bus after `uart_init` and one character. -/
def newlineBus : Bus :=
  ⟨fun n => Uart.busyReads (n + 2), Uart.busyInit.accesses
    ++ [Uart.plainPort.readAccess Uart.uartLsr, Uart.plainPort.writeAccess Uart.uartThr 0x0a]⟩

/-- The device there. -/
def newlineDevice : Device := ⟨0x00, 0x03, 0x02, 0x00, true, [0x0a], [], [0x46], []⟩

/-- **The log of one line**, the last character of which goes out on the serial port. -/
theorem bootLog_newline : ∃ before out, before <+: Uart.coldDevice.output
    ∧ newlineDevice.output = before ++ out.map UInt8.toBitVec
    ∧ asciiBytes "[0.000] hi\r" ++ out = asciiBytes "[0.000] hi\r" ++ [] ++ [] ++ [10]
    ∧ (∃ n, LogLines (times (fun _ => 0) n) (asciiBytes "[0.000] hi\r" ++ out))
    ∧ (some [10] : Option (List UInt8)) = if true then some [10] else none := by
  obtain ⟨s', hinit⟩ := Uart.exists_busyInit
  have hlog : vklogs [(asciiBytes "hi" ++ [0], [])] (fun _ => 0)
      = ok (asciiBytes "[0.000] hi\r" ++ [] ++ [] ++ [10]) := by
    decide +kernel
  have hputc : Uart.uartPutc ⟨Uart.plainPort, true⟩ 0x0a Uart.busyInit = ok newlineBus := by
    unfold Uart.uartPutc
    rw [if_neg (by decide), Uart.uartSpin_of_ready (by decide) (by decide), ok_bind,
      Uart.uartWriteReg_eq (by decide)]
    rfl
  have hrun : kmainLog Paging.exampleBoot (Uart.uartDtb 0) Uart.uartBuffer Uart.uartBuffer
      Paging.emptyTree (asciiBytes "[0.000] hi\r") [] [] [10] true 1 ⟨Uart.busyReads, []⟩
      = ok ⟨⟨Uart.plainPort, true⟩, newlineBus, asciiBytes "[0.000] hi\r", some [10]⟩ := by
    unfold kmainLog
    rw [print_of_not_ready rfl rfl, ok_bind]
    dsimp only [Sinks.start]
    rw [List.map_nil, hinit, ok_bind]
    dsimp only
    rw [require_of_pos rfl, ok_bind, print, List.foldlM_nil, pure_eq, ok_bind, print,
      List.foldlM_cons, printkPutc, putLine, if_pos rfl]
    dsimp only
    rw [show UInt8.toBitVec 10 = 0x0a from rfl, hputc]
    rfl
  exact bootLog hlog hrun (by decide) ⟨newlineBus.accesses, rfl, by decide +kernel⟩
    Uart.live_busyLine

end Console
