import Risky.Ns16550
import Risky.UartWindow

/-!
# The driver and its device

`uart.c` at a 16550: the bus of the driver is answered by the device of `Ns16550`, while
things happen on the line in between (`Uart.Served`). The driver polls before it writes a
character, but writes it after a million polls in any case, so that whether characters
get lost depends on the line. Where one goes out at least every million accesses, all that
is written goes out, in order (`Uart.transmits`), and what comes in is what `uart_getc`
returns, in order (`Uart.receives`).
-/

namespace Uart

open Outcome
open Kmain (Dtb)
open Ns16550 (Device Event Moves Holds Lossless)

variable {B : Boot} {dtb : Dtb} {path resolved : List UInt8} {s s' : Paging} {uart0 : UartPort}
variable {bus bus' bus'' : Bus} {reg : BitVec 32} {line : ℕ → List Event} {d d' d'' : Device}

/-! ## The device at the bus -/

/-- The number of the register at an address. -/
def UartPort.regAt (uart0 : UartPort) (physAddr : BitVec 64) : ℕ :=
  ((physAddr - uart0.base) >>> uart0.regShift.toNat).toNat

/-- The byte that an access writes. -/
def MmioAccess.value : MmioAccess → Option (BitVec 8)
  | write8 _ value => some value
  | read8 _ => none
  | write32 _ value => some (value.setWidth 8)
  | read32 _ => none

/-- **The device serves accesses**, from the `n`-th on, where the line decides what
happens in front of each: there is no state after an answer that it does not give. -/
def serve (uart0 : UartPort) (line : ℕ → List Event) :
    ℕ → (ℕ → BitVec 32) → Device → List MmioAccess → Option Device
  | _, _, d, [] => some d
  | n, reads, d, a :: as =>
    let reg := uart0.regAt a.physAddr
    let d := d.events (line n)
    match a.value with
    | some val => serve uart0 line (n + 1) reads (d.write reg val) as
    | none =>
      if d.answers reg ((reads 0).setWidth 8) then
        serve uart0 line (n + 1) (fun k => reads (k + 1)) (d.read reg) as
      else none

/-- **From one state of bus and device to another.** -/
def Served (uart0 : UartPort) (line : ℕ → List Event) (bus : Bus) (d : Device) (bus' : Bus)
    (d' : Device) : Prop :=
  ∃ as, bus'.accesses = bus.accesses ++ as
    ∧ serve uart0 line bus.accesses.length bus.reads d as = some d'

/-- The number of reads among accesses. -/
def readCount (as : List MmioAccess) : ℕ := as.countP (fun a => a.value.isNone)

/-- **A later state of the bus**: accesses have been added, and each read among them has
taken an answer. -/
def Bus.Extends (bus bus' : Bus) : Prop :=
  ∃ as, bus'.accesses = bus.accesses ++ as
    ∧ bus'.reads = fun k => bus.reads (k + readCount as)

theorem Bus.Extends.refl (bus : Bus) : bus.Extends bus := ⟨[], (List.append_nil _).symm, rfl⟩

theorem Bus.Extends.trans (h : bus.Extends bus') (h' : bus'.Extends bus'') :
    bus.Extends bus'' := by
  obtain ⟨as, has, hreads⟩ := h
  obtain ⟨as', has', hreads'⟩ := h'
  refine ⟨as ++ as', by rw [has', has, List.append_assoc], ?_⟩
  rw [hreads', hreads]
  funext k
  have hcount : readCount (as ++ as') = readCount as + readCount as' := List.countP_append
  show bus.reads (k + readCount as' + readCount as) = _
  rw [hcount, Nat.add_assoc, Nat.add_comm (readCount as')]

theorem Bus.Extends.write {a : MmioAccess} {val : BitVec 8} (ha : a.value = some val) (bus : Bus) :
    bus.Extends ⟨bus.reads, bus.accesses ++ [a]⟩ := by
  refine ⟨[a], rfl, ?_⟩
  rw [readCount, List.countP_singleton, ha]
  rfl

theorem Bus.Extends.read {a : MmioAccess} (ha : a.value = none) (bus : Bus) :
    bus.Extends ⟨fun n => bus.reads (n + 1), bus.accesses ++ [a]⟩ := by
  refine ⟨[a], rfl, ?_⟩
  rw [readCount, List.countP_singleton, ha]
  rfl

/-- **Accesses are served one after the other.** -/
theorem serve_append (as as' : List MmioAccess) (n : ℕ) (reads : ℕ → BitVec 32) (d : Device) :
    serve uart0 line n reads d (as ++ as')
      = (serve uart0 line n reads d as).bind (fun d' => serve uart0 line (n + as.length)
        (fun k => reads (k + readCount as)) d' as') := by
  induction as generalizing n reads d with
  | nil => rfl
  | cons a as ih =>
    have hlength : n + (a :: as).length = n + 1 + as.length := by
      rw [List.length_cons, Nat.add_assoc, Nat.add_comm 1]
    rw [List.cons_append, serve, serve, hlength]
    cases hvalue : a.value with
    | some val =>
      have hcount : readCount (a :: as) = readCount as := by
        rw [readCount, readCount, List.countP_cons_of_neg (by simp [hvalue])]
      dsimp only
      rw [ih, hcount]
    | none =>
      have hcount : readCount (a :: as) = readCount as + 1 := by
        rw [readCount, readCount, List.countP_cons_of_pos (by simp [hvalue])]
      dsimp only
      split
      · rw [ih, hcount]
        rfl
      · rfl

/-- **What is served can be cut in two**, at any state of the bus in between. -/
theorem Served.split (h : Served uart0 line bus d bus'' d'') (hext : bus.Extends bus')
    (hext' : bus'.Extends bus'') :
    ∃ d', Served uart0 line bus d bus' d' ∧ Served uart0 line bus' d' bus'' d'' := by
  obtain ⟨as, has, hserve⟩ := h
  obtain ⟨as₁, has₁, hreads₁⟩ := hext
  obtain ⟨as₂, has₂, -⟩ := hext'
  obtain rfl : as = as₁ ++ as₂ := by
    rw [has, has₁, List.append_assoc] at has₂
    exact List.append_cancel_left has₂
  rw [serve_append, Option.bind_eq_some_iff] at hserve
  obtain ⟨d', hfirst, hrest⟩ := hserve
  refine ⟨d', ⟨as₁, has₁, hfirst⟩, as₂, has₂, ?_⟩
  rw [has₁, List.length_append, hreads₁]
  exact hrest

theorem served_refl_iff : Served uart0 line bus d bus d' ↔ d' = d := by
  constructor
  · rintro ⟨as, has, hserve⟩
    obtain rfl := List.self_eq_append_right.mp has
    exact (Option.some.inj hserve).symm
  · rintro rfl
    exact ⟨[], (List.append_nil _).symm, rfl⟩

/-- **The first access** of those that are served. -/
theorem Served.first {a : MmioAccess} {reads : ℕ → BitVec 32} (h : Served uart0 line bus d bus' d')
    (hext : Bus.Extends ⟨reads, bus.accesses ++ [a]⟩ bus') :
    ∃ as, bus'.accesses = bus.accesses ++ [a] ++ as
      ∧ serve uart0 line bus.accesses.length bus.reads d (a :: as) = some d' := by
  obtain ⟨as, has, hserve⟩ := h
  obtain ⟨as', has', -⟩ := hext
  have heq : as = a :: as' := by
    rw [has, List.append_assoc] at has'
    exact List.append_cancel_left has'
  exact ⟨as', has', heq ▸ hserve⟩

theorem value_writeAccess (uart0 : UartPort) (reg : BitVec 32) (val : BitVec 8) :
    (uart0.writeAccess reg val).value = some val := by
  unfold UartPort.writeAccess
  split <;> simp [MmioAccess.value]

theorem value_readAccess (uart0 : UartPort) (reg : BitVec 32) :
    (uart0.readAccess reg).value = none := by
  unfold UartPort.readAccess
  split <;> rfl

section Registers

variable (hshift : uart0.regShift.toNat < 62)
include hshift

/-- **The registers are told apart** if their addresses do not wrap around. -/
theorem regAt_regAddr (hreg : reg.toNat < 8) : uart0.regAt (uart0.regAddr reg) = reg.toNat := by
  have hpow : 2 ^ uart0.regShift.toNat ≤ 2 ^ 61 := Nat.pow_le_pow_right (by decide) (by omega)
  have hle : reg.toNat * 2 ^ uart0.regShift.toNat ≤ 7 * 2 ^ 61 :=
    Nat.mul_le_mul (by omega) hpow
  have hsub : uart0.regAddr reg - uart0.base = reg.setWidth 64 <<< uart0.regShift.toNat := by
    rw [UartPort.regAddr, BitVec.add_comm, BitVec.add_sub_cancel]
  rw [UartPort.regAt, hsub, BitVec.toNat_ushiftRight, BitVec.toNat_shiftLeft,
    BitVec.toNat_setWidth, Nat.mod_eq_of_lt (by omega : reg.toNat < 2 ^ 64), Nat.shiftLeft_eq,
    Nat.mod_eq_of_lt (by omega), Nat.shiftRight_eq_div_pow, Nat.mul_div_cancel _ (by positivity)]

/-- **A register has been written.** -/
theorem Served.write (h : Served uart0 line bus d bus' d') (hreg : reg.toNat < 8) {val : BitVec 8}
    (hext : Bus.Extends ⟨bus.reads, bus.accesses ++ [uart0.writeAccess reg val]⟩ bus') :
    Served uart0 line ⟨bus.reads, bus.accesses ++ [uart0.writeAccess reg val]⟩
      ((d.events (line bus.accesses.length)).write reg.toNat val) bus' d' := by
  obtain ⟨as, has, hserve⟩ := h.first hext
  refine ⟨as, has, ?_⟩
  unfold serve at hserve
  simp only [value_writeAccess, (writeAccess_at uart0 reg val).1, regAt_regAddr hshift hreg]
    at hserve
  rw [List.length_append]
  exact hserve

/-- **A register has been read**, and its content is what the device answers. -/
theorem Served.read (h : Served uart0 line bus d bus' d') (hreg : reg.toNat < 8)
    {reads : ℕ → BitVec 32} (hreads : (fun n => bus.reads (n + 1)) = reads)
    (hext : Bus.Extends ⟨reads, bus.accesses ++ [uart0.readAccess reg]⟩ bus') :
    (d.events (line bus.accesses.length)).answers reg.toNat ((bus.reads 0).setWidth 8) = true
      ∧ Served uart0 line ⟨reads, bus.accesses ++ [uart0.readAccess reg]⟩
        ((d.events (line bus.accesses.length)).read reg.toNat) bus' d' := by
  subst hreads
  obtain ⟨as, has, hserve⟩ := h.first hext
  unfold serve at hserve
  simp only [value_readAccess, (readAccess_at uart0 reg).1, regAt_regAddr hshift hreg,
    Option.ite_none_right_eq_some] at hserve
  refine ⟨hserve.1, as, has, ?_⟩
  rw [List.length_append]
  exact hserve.2

/-! ## Accesses are only added -/

theorem uartWriteReg_extends (reg : BitVec 32) (val : BitVec 8) (bus : Bus) :
    (uartWriteReg uart0 reg val bus).Ensures bus.Extends := by
  rw [uartWriteReg_eq (hshift.trans (by decide))]
  exact Bus.Extends.write (value_writeAccess uart0 reg val) bus

theorem uartReadReg_extends (reg : BitVec 32) (bus : Bus) :
    (uartReadReg uart0 reg bus).Ensures (fun r => bus.Extends r.2) := by
  rw [uartReadReg_eq (hshift.trans (by decide))]
  exact Bus.Extends.read (value_readAccess uart0 reg) bus

theorem uartSpin_extends (spins : ℕ) (bus : Bus) :
    (uartSpin uart0 spins bus).Ensures bus.Extends := by
  induction spins generalizing bus with
  | zero => exact Bus.Extends.refl bus
  | succ spins ih =>
    refine (uartReadReg_extends hshift _ bus).bind (fun r hr => ?_)
    dsimp only
    split
    · exact (ih r.2).mono (fun _ => hr.trans)
    · exact hr

theorem uartDrain_extends (turns : ℕ) (bus : Bus) :
    (uartDrain uart0 turns bus).Ensures (fun r => bus.Extends r.2) := by
  induction turns generalizing bus with
  | zero => exact Bus.Extends.refl bus
  | succ turns ih =>
    refine (uartReadReg_extends hshift _ bus).bind (fun r hr => ?_)
    dsimp only
    split
    · refine (uartReadReg_extends hshift _ r.2).bind (fun r' hr' => ?_)
      exact (ih r'.2).mono (fun _ => (hr.trans hr').trans)
    · exact hr

theorem uartWait_extends (turns : ℕ) (bus : Bus) :
    (uartWait uart0 turns bus).Ensures (fun r => bus.Extends r.2) := by
  induction turns generalizing bus with
  | zero => exact Bus.Extends.refl bus
  | succ turns ih =>
    refine (uartReadReg_extends hshift _ bus).bind (fun r hr => ?_)
    dsimp only
    split
    · exact (ih r.2).mono (fun _ => hr.trans)
    · exact hr

theorem uartPutc_extends (ready : Bool) (c : BitVec 8) (bus : Bus) :
    (uartPutc ⟨uart0, ready⟩ c bus).Ensures bus.Extends := by
  unfold uartPutc
  split
  · exact Bus.Extends.refl bus
  · refine (uartSpin_extends hshift _ bus).bind (fun bus' h => ?_)
    exact (uartWriteReg_extends hshift _ c bus').mono (fun _ => h.trans)

theorem uartPuts_extends (ready : Bool) (text : List (BitVec 8)) (bus : Bus) :
    (uartPuts ⟨uart0, ready⟩ text bus).Ensures bus.Extends := by
  induction text generalizing bus with
  | nil => exact Bus.Extends.refl bus
  | cons c text ih =>
    refine (uartPutc_extends hshift ready c bus).bind (fun bus' h => ?_)
    exact (ih bus').mono (fun _ => h.trans)

theorem uartGetc_extends (ready : Bool) (turns : ℕ) (bus : Bus) :
    (uartGetc ⟨uart0, ready⟩ turns bus).Ensures (fun r => bus.Extends r.2) := by
  unfold uartGetc
  split
  · exact Bus.Extends.refl bus
  · refine (uartWait_extends hshift turns bus).bind (fun r hr => ?_)
    dsimp only
    split
    · refine (uartReadReg_extends hshift _ r.2).bind (fun r' hr' => ?_)
      exact hr.trans hr'
    · exact hr

end Registers

/-! ## Polling -/

/-- **The line is alive**: a character goes out at least every million accesses. -/
def Live (line : ℕ → List Event) : Prop :=
  ∀ n, ∃ k < 1000000, Event.shift ∈ line (n + k)

theorem lsrTxEmpty_eq_zero_iff (lsr : BitVec 8) :
    lsr &&& uartLsrTxEmpty = 0 ↔ lsr.getLsbD 5 = false := by
  revert lsr
  decide +kernel

theorem lsrRxReady_eq_zero_iff (lsr : BitVec 8) :
    lsr &&& uartLsrRxReady = 0 ↔ lsr.getLsbD 0 = false := by
  revert lsr
  decide +kernel

section Calls

variable (hshift : uart0.regShift.toNat < 62)
include hshift

/-- **A poll of the line status** tells how the queues are. -/
theorem Served.poll (h : Served uart0 line bus d bus' d')
    (hext : Bus.Extends
      ⟨fun n => bus.reads (n + 1), bus.accesses ++ [uart0.readAccess uartLsr]⟩ bus') :
    ((bus.reads 0).setWidth 8 &&& uartLsrTxEmpty = 0
        ↔ (d.events (line bus.accesses.length)).tx ≠ [])
      ∧ ((bus.reads 0).setWidth 8 &&& uartLsrRxReady = 0
        ↔ (d.events (line bus.accesses.length)).rx = [])
      ∧ Served uart0 line ⟨fun n => bus.reads (n + 1), bus.accesses ++ [uart0.readAccess uartLsr]⟩
        (d.events (line bus.accesses.length)) bus' d' := by
  obtain ⟨hanswers, hserved⟩ := h.read hshift (by decide) rfl hext
  obtain ⟨hrx, htx⟩ := Device.answers_lsr.mp hanswers
  refine ⟨?_, ?_, hserved⟩
  · rw [lsrTxEmpty_eq_zero_iff, ← Bool.not_eq_true, htx]
  · rw [lsrRxReady_eq_zero_iff, ← Bool.not_eq_true, hrx, not_not]

/-- **The loop of `uart_putc`** ends with an empty transmitter, if a character goes out
in time. -/
theorem uartSpin_served {spins : ℕ} (hrun : uartSpin uart0 spins bus = ok bus')
    (h : Served uart0 line bus d bus'' d'') (hext : bus'.Extends bus'') :
    ∃ d', Served uart0 line bus' d' bus'' d'' ∧ Moves d d' [] [] ∧ Lossless d d' []
      ∧ ((∃ k < spins, Event.shift ∈ line (bus.accesses.length + k)) → d.tx.length ≤ 1
        → d'.tx = []) := by
  induction spins generalizing bus d with
  | zero =>
    obtain rfl := Outcome.ok.inj hrun
    exact ⟨d, h, Moves.refl d, Lossless.refl d, fun ⟨_, hk, _⟩ => absurd hk (Nat.not_lt_zero _)⟩
  | succ spins ih =>
    have hmoves := d.events_moves (line bus.accesses.length)
    have hlossless := d.events_lossless (line bus.accesses.length)
    rw [uartSpin, uartReadReg_eq (hshift.trans (by decide)), ok_bind] at hrun
    dsimp only at hrun
    split at hrun
    · next hbusy =>
      have hrest := (uartSpin_extends hshift spins _).of_ok hrun
      obtain ⟨htx, -, hserved⟩ := h.poll hshift (hrest.trans hext)
      obtain ⟨d', hd', hmoves', hlossless', hshifted⟩ := ih hrun hserved
      refine ⟨d', hd', hmoves.trans hmoves', hlossless.trans hlossless', ?_⟩
      rintro ⟨k, hk, hevent⟩ hone
      cases k with
      | zero =>
        -- the poll sees it
        exact absurd (Device.events_tx_of_shift hone hevent) (htx.mp hbusy)
      | succ k =>
        refine hshifted ⟨k, by omega, ?_⟩ (hlossless hone).1
        rw [List.length_append, List.length_singleton, Nat.add_assoc, Nat.add_comm 1 k]
        exact hevent
    · next hempty =>
      obtain rfl := Outcome.ok.inj hrun
      obtain ⟨htx, -, hserved⟩ := h.poll hshift hext
      exact ⟨_, hserved, hmoves, hlossless, fun _ _ => not_not.mp (fun hne => hempty (htx.mpr hne))⟩

/-- **A character is written**, and is not lost if the line is alive. -/
theorem uartPutc_served {c : BitVec 8} (hrun : uartPutc ⟨uart0, true⟩ c bus = ok bus')
    (hdlab : d.dlab = false) (h : Served uart0 line bus d bus'' d'') (hext : bus'.Extends bus'') :
    ∃ d', Served uart0 line bus' d' bus'' d'' ∧ Moves d d' [c] []
      ∧ (Live line → Lossless d d' [c]) := by
  unfold uartPutc at hrun
  rw [if_neg (by simp)] at hrun
  obtain ⟨bus₁, hspin, hwrite⟩ := bind_eq_ok.mp hrun
  have hext₁ := (uartWriteReg_extends hshift _ c bus₁).of_ok hwrite
  rw [uartWriteReg_eq (hshift.trans (by decide))] at hwrite
  obtain rfl := Outcome.ok.inj hwrite
  obtain ⟨d₁, hserved, hmoves, hlossless, hempty⟩ :=
    uartSpin_served hshift hspin h (hext₁.trans hext)
  have hmoves₁ := hmoves.trans (d₁.events_moves (line bus₁.accesses.length))
  have hdlab₁ := hmoves₁.dlab.trans hdlab
  refine ⟨_, hserved.write hshift (by decide) hext,
    hmoves₁.trans (Device.write_thr_moves hdlab₁ c), fun hlive hone => ?_⟩
  have htx := Device.events_tx_nil (hempty (hlive _) hone) (line bus₁.accesses.length)
  obtain ⟨hone', hout⟩ := Device.write_thr_output hdlab₁ htx c
  refine ⟨hone', ?_⟩
  rw [show uartThr.toNat = 0 from rfl, hout,
    ((hlossless.trans (d₁.events_lossless (line bus₁.accesses.length))) hone).2,
    List.append_assoc]
  rfl

/-- **`uart_puts`** writes one character after the other. -/
theorem uartPuts_served {text : List (BitVec 8)} (hrun : uartPuts ⟨uart0, true⟩ text bus = ok bus')
    (hdlab : d.dlab = false) (h : Served uart0 line bus d bus'' d'') (hext : bus'.Extends bus'') :
    ∃ d', Served uart0 line bus' d' bus'' d'' ∧ Moves d d' text []
      ∧ (Live line → Lossless d d' text) := by
  induction text generalizing bus d with
  | nil =>
    obtain rfl := Outcome.ok.inj hrun
    exact ⟨d, h, Moves.refl d, fun _ => Lossless.refl d⟩
  | cons c text ih =>
    obtain ⟨bus₁, hputc, hputs⟩ := bind_eq_ok.mp hrun
    have hext₁ := (uartPuts_extends hshift true text bus₁).of_ok hputs
    obtain ⟨d₁, hserved, hmoves, hlossless⟩ :=
      uartPutc_served hshift hputc hdlab h (hext₁.trans hext)
    obtain ⟨d', hserved', hmoves', hlossless'⟩ := ih hputs (hmoves.dlab.trans hdlab) hserved
    exact ⟨d', hserved', hmoves.trans hmoves',
      fun hlive => (hlossless hlive).trans (hlossless' hlive)⟩

/-- **The loop of `uart_getc`** ends with a character in the receiver. -/
theorem uartWait_served {turns : ℕ} {done : Bool}
    (hrun : uartWait uart0 turns bus = ok (done, bus'))
    (h : Served uart0 line bus d bus'' d'') (hext : bus'.Extends bus'') :
    ∃ d', Served uart0 line bus' d' bus'' d'' ∧ Moves d d' [] [] ∧ Lossless d d' []
      ∧ (done = true → d'.rx ≠ []) := by
  induction turns generalizing bus d with
  | zero =>
    obtain ⟨rfl, rfl⟩ := Prod.mk.inj (Outcome.ok.inj hrun)
    exact ⟨d, h, Moves.refl d, Lossless.refl d, fun hdone => absurd hdone (by decide)⟩
  | succ turns ih =>
    have hmoves := d.events_moves (line bus.accesses.length)
    have hlossless := d.events_lossless (line bus.accesses.length)
    rw [uartWait, uartReadReg_eq (hshift.trans (by decide)), ok_bind] at hrun
    dsimp only at hrun
    split at hrun
    · have hrest := (uartWait_extends hshift turns _).of_ok hrun
      obtain ⟨-, -, hserved⟩ := h.poll hshift (hrest.trans hext)
      obtain ⟨d', hd', hmoves', hlossless', hready⟩ := ih hrun hserved
      exact ⟨d', hd', hmoves.trans hmoves', hlossless.trans hlossless', hready⟩
    · next hready =>
      obtain ⟨rfl, rfl⟩ := Prod.mk.inj (Outcome.ok.inj hrun)
      obtain ⟨-, hrx, hserved⟩ := h.poll hshift hext
      exact ⟨_, hserved, hmoves, hlossless, fun _ hnil => hready (hrx.mpr hnil)⟩

/-- **A character is read.** -/
theorem uartRead_served {c : BitVec 8} (hrun : uartReadReg uart0 uartRbr bus = ok (c, bus'))
    (hdlab : d.dlab = false) (hrx : d.rx ≠ []) (h : Served uart0 line bus d bus'' d'')
    (hext : bus'.Extends bus'') :
    ∃ d', Served uart0 line bus' d' bus'' d'' ∧ Moves d d' [] [c] ∧ Lossless d d' [] := by
  have hmoves := d.events_moves (line bus.accesses.length)
  have hlossless := d.events_lossless (line bus.accesses.length)
  rw [uartReadReg_eq (hshift.trans (by decide))] at hrun
  obtain ⟨rfl, rfl⟩ := Prod.mk.inj (Outcome.ok.inj hrun)
  obtain ⟨hanswers, hserved⟩ := h.read hshift (by decide) rfl hext
  have hread := Device.read_rbr_moves (hmoves.dlab.trans hdlab)
    (Device.events_rx_ne_nil hrx (line bus.accesses.length)) hanswers
  exact ⟨_, hserved, hmoves.trans hread, hlossless.trans (Device.read_lossless _ _)⟩

/-- **`uart_getc`** returns the oldest character in the receiver. -/
theorem uartGetc_served {turns : ℕ} {c : BitVec 8}
    (hrun : uartGetc ⟨uart0, true⟩ turns bus = ok (some c, bus')) (hdlab : d.dlab = false)
    (h : Served uart0 line bus d bus'' d'') (hext : bus'.Extends bus'') :
    ∃ d', Served uart0 line bus' d' bus'' d'' ∧ Moves d d' [] [c] ∧ Lossless d d' [] := by
  unfold uartGetc at hrun
  rw [if_neg (by simp)] at hrun
  obtain ⟨⟨done, bus₁⟩, hwait, hread⟩ := bind_eq_ok.mp hrun
  cases done with
  | false => exact absurd (Prod.mk.inj (Outcome.ok.inj hread)).1 (by simp)
  | true =>
    dsimp only at hread
    rw [if_pos rfl] at hread
    obtain ⟨⟨c', bus₂⟩, hrbr, heq⟩ := bind_eq_ok.mp hread
    obtain ⟨hc, rfl⟩ := Prod.mk.inj (Outcome.ok.inj heq)
    obtain rfl := Option.some.inj hc
    have hext₁ := (uartReadReg_extends hshift _ bus₁).of_ok hrbr
    obtain ⟨d₁, hserved, hmoves, hlossless, hrx⟩ :=
      uartWait_served hshift hwait h (Bus.Extends.trans hext₁ hext)
    obtain ⟨d', hserved', hmoves', hlossless'⟩ :=
      uartRead_served hshift hrbr (hmoves.dlab.trans hdlab) (hrx rfl) hserved hext
    exact ⟨d', hserved', hmoves.trans hmoves', hlossless.trans hlossless'⟩

/-- **The loop of `uart_init`** leaves the receiver empty. -/
theorem uartDrain_served {turns : ℕ} {done : Bool}
    (hrun : uartDrain uart0 turns bus = ok (done, bus'))
    (hdlab : d.dlab = false) (h : Served uart0 line bus d bus'' d'') (hext : bus'.Extends bus'') :
    ∃ d' taken, Served uart0 line bus' d' bus'' d'' ∧ Moves d d' [] taken ∧ Lossless d d' []
      ∧ (done = true → d'.rx = []) := by
  induction turns generalizing bus d with
  | zero =>
    obtain ⟨rfl, rfl⟩ := Prod.mk.inj (Outcome.ok.inj hrun)
    exact ⟨d, [], h, Moves.refl d, Lossless.refl d, fun hdone => absurd hdone (by decide)⟩
  | succ turns ih =>
    have hmoves := d.events_moves (line bus.accesses.length)
    have hlossless := d.events_lossless (line bus.accesses.length)
    rw [uartDrain, uartReadReg_eq (hshift.trans (by decide)), ok_bind] at hrun
    dsimp only at hrun
    split at hrun
    · next hready =>
      obtain ⟨⟨c, bus₁⟩, hread, hdrain⟩ := bind_eq_ok.mp hrun
      have hrest : bus₁.Extends bus'' :=
        Bus.Extends.trans ((uartDrain_extends hshift turns bus₁).of_ok hdrain) hext
      have hext₁ := (uartReadReg_extends hshift _ _).of_ok hread
      obtain ⟨-, hrx, hserved⟩ := h.poll hshift (Bus.Extends.trans hext₁ hrest)
      obtain ⟨d₁, hserved₁, hmoves₁, hlossless₁⟩ := uartRead_served hshift hread
        (hmoves.dlab.trans hdlab) (fun hnil => hready (hrx.mpr hnil)) hserved hrest
      have hmoves₁ := hmoves.trans hmoves₁
      obtain ⟨d', taken, hserved', hmoves', hlossless', hempty⟩ :=
        ih hdrain (hmoves₁.dlab.trans hdlab) hserved₁
      exact ⟨d', _, hserved', hmoves₁.trans hmoves', (hlossless.trans hlossless₁).trans hlossless',
        hempty⟩
    · next hempty =>
      obtain ⟨rfl, rfl⟩ := Prod.mk.inj (Outcome.ok.inj hrun)
      obtain ⟨-, hrx, hserved⟩ := h.poll hshift hext
      exact ⟨_, [], hserved, hmoves, hlossless, fun _ => hrx.mp (not_not.mp hempty)⟩

theorem uartWriteReg_served {val : BitVec 8} (hrun : uartWriteReg uart0 reg val bus = ok bus')
    (hreg : reg.toNat < 8) (h : Served uart0 line bus d bus'' d'') (hext : bus'.Extends bus'') :
    Served uart0 line bus' ((d.events (line bus.accesses.length)).write reg.toNat val)
      bus'' d'' := by
  rw [uartWriteReg_eq (hshift.trans (by decide))] at hrun
  obtain rfl := Outcome.ok.inj hrun
  exact h.write hshift hreg hext

end Calls

/-! ## Setting the port up -/

/-- **What `uart_init` makes of the device**: eight bits without parity, a
divisor of two, and the queues turned on. Whether interrupts are off depends on the
state before. -/
structure SetUp (d d' : Device) : Prop where
  ier : d'.ier = if d.dlab then d.ier else 0
  lcr : d'.lcr = 0x03
  dll : d'.dll = 0x02
  dlm : d'.dlm = 0x00
  fifo : d'.fifo = true
  tx : d'.tx = []
  sent : d'.sent <+: d.output
  arrived : d.arrived <+: d'.arrived

theorem SetUp.output_eq (h : SetUp d d') : d'.output = d'.sent := by
  rw [Device.output, h.tx, List.append_nil]

/-- The interrupt enable register is written, or the high byte of the divisor. -/
theorem setUp_ier (d : Device) (es : List Event) :
    ((d.events es).write 1 0x00).ier = (if d.dlab then d.ier else 0)
      ∧ Holds d ((d.events es).write 1 0x00) := by
  have hmoves := d.events_moves es
  cases hdlab : d.dlab with
  | true =>
    rw [Device.write_dlm (hmoves.dlab.trans hdlab)]
    exact ⟨hmoves.ier, hmoves.holds⟩
  | false =>
    rw [Device.write_ier (hmoves.dlab.trans hdlab)]
    exact ⟨rfl, hmoves.holds⟩

/-- **The six writes**, with events in front of each. -/
theorem setUp (d : Device) (es₁ es₂ es₃ es₄ es₅ es₆ : List Event) :
    SetUp d (((((((((((d.events es₁).write 1 0x00).events es₂).write 3 0x80).events es₃).write 0
      0x02).events es₄).write 1 0x00).events es₅).write 3 0x03).events es₆ |>.write 2 0x07) := by
  obtain ⟨hier, hholds⟩ := setUp_ier d es₁
  generalize (d.events es₁).write 1 0x00 = d₁ at hier hholds ⊢
  have h₂ := d₁.events_moves es₂
  generalize d₁.events es₂ = d₂ at h₂ ⊢
  have h₃ := (d₂.write 3 0x80).events_moves es₃
  generalize (d₂.write 3 0x80).events es₃ = d₃ at h₃ ⊢
  have hdlab₃ : d₃.dlab = true :=
    h₃.dlab.trans (by decide : BitVec.getLsbD (0x80 : BitVec 8) 7 = true)
  rw [Device.write_dll hdlab₃]
  have h₄ := { d₃ with dll := 0x02 : Device }.events_moves es₄
  generalize { d₃ with dll := 0x02 : Device }.events es₄ = d₄ at h₄ ⊢
  have hdlab₄ : d₄.dlab = true := h₄.dlab.trans hdlab₃
  rw [Device.write_dlm hdlab₄]
  have h₅ := { d₄ with dlm := 0x00 : Device }.events_moves es₅
  generalize { d₄ with dlm := 0x00 : Device }.events es₅ = d₅ at h₅ ⊢
  have h₆ := (d₅.write 3 0x03).events_moves es₆
  generalize (d₅.write 3 0x03).events es₆ = d₆ at h₆ ⊢
  rw [Device.write_fcr]
  have hall : Holds d d₆ := hholds.trans (h₂.holds.trans (Holds.trans h₃.holds
    (Holds.trans h₄.holds (Holds.trans h₅.holds h₆.holds))))
  refine ⟨?_, h₆.lcr, ?_, ?_, rfl, rfl, ?_, hall.2⟩
  · calc d₆.ier = d₅.ier := h₆.ier
      _ = d₄.ier := h₅.ier
      _ = d₃.ier := h₄.ier
      _ = d₂.ier := h₃.ier
      _ = d₁.ier := h₂.ier
      _ = _ := hier
  · calc d₆.dll = d₅.dll := h₆.dll
      _ = d₄.dll := h₅.dll
      _ = 0x02 := h₄.dll
  · calc d₆.dlm = d₅.dlm := h₆.dlm
      _ = 0x00 := h₅.dlm
  · rw [← hall.1]
    exact List.prefix_append _ _

/-- **The steps of `uart_init`** that succeeds. -/
theorem uartInit_steps {text : List (BitVec 8)} {turns : ℕ} {drv : Driver}
    (hrun : uartInit B dtb path resolved s text turns bus = ok (some true, drv, s', bus')) :
    drv.uartReady = true ∧ ∃ bus₁ bus₂ bus₃ bus₄ bus₅ bus₆ bus₇,
      uartWriteReg drv.uart0 uartIer 0x00 bus = ok bus₁
        ∧ uartWriteReg drv.uart0 uartLcr uartLcrDlab bus₁ = ok bus₂
        ∧ uartWriteReg drv.uart0 uartDll 0x02 bus₂ = ok bus₃
        ∧ uartWriteReg drv.uart0 uartDlm 0x00 bus₃ = ok bus₄
        ∧ uartWriteReg drv.uart0 uartLcr 0x03 bus₄ = ok bus₅
        ∧ uartWriteReg drv.uart0 uartFcr 0x07 bus₅ = ok bus₆
        ∧ uartPuts ⟨drv.uart0, true⟩ text bus₆ = ok bus₇
        ∧ uartDrain drv.uart0 turns bus₇ = ok (true, bus') := by
  unfold uartInit at hrun
  obtain ⟨uart0, -, hrun⟩ := bind_eq_ok.mp hrun
  obtain ⟨⟨mapped, s₁⟩, -, hrun⟩ := bind_eq_ok.mp hrun
  cases mapped with
  | false => exact absurd (Prod.mk.inj (Outcome.ok.inj hrun)).1 (by simp)
  | true =>
    dsimp only at hrun
    rw [if_neg (by decide)] at hrun
    obtain ⟨bus₁, hier, hrun⟩ := bind_eq_ok.mp hrun
    obtain ⟨bus₂, hdlab, hrun⟩ := bind_eq_ok.mp hrun
    obtain ⟨bus₃, hdll, hrun⟩ := bind_eq_ok.mp hrun
    obtain ⟨bus₄, hdlm, hrun⟩ := bind_eq_ok.mp hrun
    obtain ⟨bus₅, hlcr, hrun⟩ := bind_eq_ok.mp hrun
    obtain ⟨bus₆, hfcr, hrun⟩ := bind_eq_ok.mp hrun
    obtain ⟨bus₇, hputs, hrun⟩ := bind_eq_ok.mp hrun
    obtain ⟨⟨done, bus₈⟩, hdrain, hrun⟩ := bind_eq_ok.mp hrun
    obtain ⟨hdone, hend⟩ := Prod.mk.inj (Outcome.ok.inj hrun)
    obtain ⟨hdrv, hend⟩ := Prod.mk.inj hend
    obtain ⟨-, hbus⟩ := Prod.mk.inj hend
    subst hdrv hbus
    cases done with
    | false => exact absurd hdone (by simp)
    | true =>
      exact ⟨rfl, bus₁, bus₂, bus₃, bus₄, bus₅, bus₆, bus₇, hier, hdlab, hdll, hdlm, hlcr, hfcr,
        hputs, hdrain⟩

/-- **`uart_init`** sets the device up, writes its message and empties the receiver. -/
theorem uartInit_served {text : List (BitVec 8)} {turns : ℕ} {drv : Driver}
    (hrun : uartInit B dtb path resolved s text turns bus = ok (some true, drv, s', bus'))
    (hshift : drv.uart0.regShift.toNat < 62) (h : Served drv.uart0 line bus d bus'' d'')
    (hext : bus'.Extends bus'') :
    ∃ d₀ d' taken, SetUp d d₀ ∧ Moves d₀ d' text taken
      ∧ (Live line → Lossless d₀ d' text) ∧ d'.rx = []
      ∧ Served drv.uart0 line bus' d' bus'' d'' := by
  obtain ⟨-, bus₁, bus₂, bus₃, bus₄, bus₅, bus₆, bus₇, hier, hdlab, hdll, hdlm, hlcr, hfcr, hputs,
    hdrain⟩ := uartInit_steps hrun
  -- what is accessed later has not been accessed yet
  have hext₇ := Bus.Extends.trans ((uartDrain_extends hshift turns bus₇).of_ok hdrain) hext
  have hext₆ := ((uartPuts_extends hshift true text bus₆).of_ok hputs).trans hext₇
  have hext₅ := ((uartWriteReg_extends hshift _ _ bus₅).of_ok hfcr).trans hext₆
  have hext₄ := ((uartWriteReg_extends hshift _ _ bus₄).of_ok hlcr).trans hext₅
  have hext₃ := ((uartWriteReg_extends hshift _ _ bus₃).of_ok hdlm).trans hext₄
  have hext₂ := ((uartWriteReg_extends hshift _ _ bus₂).of_ok hdll).trans hext₃
  have hext₁ := ((uartWriteReg_extends hshift _ _ bus₁).of_ok hdlab).trans hext₂
  have h₁ := uartWriteReg_served hshift hier (by decide) h hext₁
  have h₂ := uartWriteReg_served hshift hdlab (by decide) h₁ hext₂
  have h₃ := uartWriteReg_served hshift hdll (by decide) h₂ hext₃
  have h₄ := uartWriteReg_served hshift hdlm (by decide) h₃ hext₄
  have h₅ := uartWriteReg_served hshift hlcr (by decide) h₄ hext₅
  have h₆ := uartWriteReg_served hshift hfcr (by decide) h₅ hext₆
  have hset := setUp d (line bus.accesses.length) (line bus₁.accesses.length)
    (line bus₂.accesses.length) (line bus₃.accesses.length) (line bus₄.accesses.length)
    (line bus₅.accesses.length)
  have hdlab₀ : ∀ d₀, SetUp d d₀ → d₀.dlab = false := by
    intro d₀ h₀
    rw [Device.dlab, h₀.lcr]
    decide
  obtain ⟨d₁, h₇, hmoves, hlossless⟩ := uartPuts_served hshift hputs (hdlab₀ _ hset) h₆ hext₇
  obtain ⟨d', taken, h₈, hmoves', hlossless', hempty⟩ :=
    uartDrain_served hshift hdrain (hmoves.dlab.trans (hdlab₀ _ hset)) h₇ hext
  have hboth := hmoves.trans hmoves'
  rw [List.append_nil] at hboth
  refine ⟨_, d', _, hset, hboth, fun hlive => ?_, hempty rfl, h₈⟩
  have hall := (hlossless hlive).trans hlossless'
  rw [List.append_nil] at hall
  exact hall

/-- `uart_init` only adds accesses. -/
theorem uartInit_extends {text : List (BitVec 8)} {turns : ℕ} {drv : Driver}
    (hrun : uartInit B dtb path resolved s text turns bus = ok (some true, drv, s', bus'))
    (hshift : drv.uart0.regShift.toNat < 62) : bus.Extends bus' := by
  obtain ⟨-, bus₁, bus₂, bus₃, bus₄, bus₅, bus₆, bus₇, hier, hdlab, hdll, hdlm, hlcr, hfcr, hputs,
    hdrain⟩ := uartInit_steps hrun
  have h₁ := (uartWriteReg_extends hshift _ _ bus).of_ok hier
  have h₂ := h₁.trans ((uartWriteReg_extends hshift _ _ bus₁).of_ok hdlab)
  have h₃ := h₂.trans ((uartWriteReg_extends hshift _ _ bus₂).of_ok hdll)
  have h₄ := h₃.trans ((uartWriteReg_extends hshift _ _ bus₃).of_ok hdlm)
  have h₅ := h₄.trans ((uartWriteReg_extends hshift _ _ bus₄).of_ok hlcr)
  have h₆ := h₅.trans ((uartWriteReg_extends hshift _ _ bus₅).of_ok hfcr)
  have h₇ := h₆.trans ((uartPuts_extends hshift true text bus₆).of_ok hputs)
  exact h₇.trans ((uartDrain_extends hshift turns bus₇).of_ok hdrain)

/-! ## A session -/

/-- The character that a call writes. -/
def UartCall.written : UartCall → Option (BitVec 8)
  | putc c => some c
  | getc _ => none

/-- **A session**: calls one after the other, and what the calls of `uart_getc` return;
nothing, if one of them is still in its loop. -/
def uartTalk (d : Driver) : List UartCall → Bus → Outcome (Option (List (BitVec 8)) × Bus)
  | [], bus => ok (some [], bus)
  | UartCall.putc c :: calls, bus => do
    let bus ← uartPutc d c bus
    uartTalk d calls bus
  | UartCall.getc turns :: calls, bus => do
    let (c, bus) ← uartGetc d turns bus
    match c with
    | none => ok (none, bus)
    | some c => do
      let (cs, bus) ← uartTalk d calls bus
      ok (cs.map (c :: ·), bus)

section Sessions

variable (hshift : uart0.regShift.toNat < 62)
include hshift

theorem uartTalk_extends (ready : Bool) (calls : List UartCall) (bus : Bus) :
    (uartTalk ⟨uart0, ready⟩ calls bus).Ensures (fun r => bus.Extends r.2) := by
  induction calls generalizing bus with
  | nil => exact Bus.Extends.refl bus
  | cons call calls ih =>
    cases call with
    | putc c =>
      refine (uartPutc_extends hshift ready c bus).bind (fun bus' h => ?_)
      exact (ih bus').mono (fun _ => h.trans)
    | getc turns =>
      refine (uartGetc_extends hshift ready turns bus).bind (fun r h => ?_)
      obtain ⟨_ | c, bus'⟩ := r
      · exact h
      · exact (ih bus').bind (fun r' h' => h.trans h')

/-- **A session** writes the characters of its calls, and returns what it reads. -/
theorem uartTalk_served {calls : List UartCall} {results : List (BitVec 8)}
    (hrun : uartTalk ⟨uart0, true⟩ calls bus = ok (some results, bus')) (hdlab : d.dlab = false)
    (h : Served uart0 line bus d bus'' d'') (hext : bus'.Extends bus'') :
    ∃ d', Served uart0 line bus' d' bus'' d''
      ∧ Moves d d' (calls.filterMap UartCall.written) results
      ∧ (Live line → Lossless d d' (calls.filterMap UartCall.written)) := by
  induction calls generalizing bus d results with
  | nil =>
    obtain ⟨hresults, rfl⟩ := Prod.mk.inj (Outcome.ok.inj hrun)
    obtain rfl := Option.some.inj hresults
    exact ⟨d, h, Moves.refl d, fun _ => Lossless.refl d⟩
  | cons call calls ih =>
    cases call with
    | putc c =>
      obtain ⟨bus₁, hputc, htalk⟩ := bind_eq_ok.mp hrun
      have hext₁ : bus₁.Extends bus'' :=
        Bus.Extends.trans ((uartTalk_extends hshift true calls bus₁).of_ok htalk) hext
      obtain ⟨d₁, hserved, hmoves, hlossless⟩ := uartPutc_served hshift hputc hdlab h hext₁
      obtain ⟨d', hserved', hmoves', hlossless'⟩ := ih htalk (hmoves.dlab.trans hdlab) hserved
      exact ⟨d', hserved', hmoves.trans hmoves',
        fun hlive => (hlossless hlive).trans (hlossless' hlive)⟩
    | getc turns =>
      obtain ⟨⟨c, bus₁⟩, hgetc, htalk⟩ := bind_eq_ok.mp hrun
      cases c with
      | none => exact absurd (Prod.mk.inj (Outcome.ok.inj htalk)).1 (by simp)
      | some c =>
        obtain ⟨⟨cs, bus₂⟩, hrest, heq⟩ := bind_eq_ok.mp htalk
        obtain ⟨hcs, rfl⟩ := Prod.mk.inj (Outcome.ok.inj heq)
        obtain ⟨cs, rfl, rfl⟩ := Option.map_eq_some_iff.mp hcs
        have hext₁ : bus₁.Extends bus'' :=
          Bus.Extends.trans ((uartTalk_extends hshift true calls bus₁).of_ok hrest) hext
        obtain ⟨d₁, hserved, hmoves, hlossless⟩ := uartGetc_served hshift hgetc hdlab h hext₁
        obtain ⟨d', hserved', hmoves', hlossless'⟩ := ih hrest (hmoves.dlab.trans hdlab) hserved
        exact ⟨d', hserved', hmoves.trans hmoves', fun hlive => hlossless.trans (hlossless' hlive)⟩

end Sessions

/-! ## A session at the port of a blob -/

/-- A line on which a character goes out in front of every access, and `B` comes in. -/
def busyLine (n : ℕ) : List Event :=
  Event.shift :: if n = 10 then [Event.receive 0x42] else []

theorem live_busyLine : Live busyLine :=
  fun _ => ⟨0, by decide, List.mem_cons_self⟩

/-- A device that has not been set up, with a character of the firmware on it. -/
def coldDevice : Device := ⟨0x0f, 0x00, 0x0c, 0x01, false, [0x46], [], [], []⟩

/-- What it answers. -/
def busyReads (n : ℕ) : BitVec 32 := [0x20, 0x20, 0x20, 0x21, 0x42].getD n 0x20

/-- The port after `A` has been written and `B` read. -/
def busyDevice : Device := ⟨0x00, 0x03, 0x02, 0x00, true, [], [], [0x46, 0x41], [0x42]⟩

/-- The first poll ends the loop of `uart_putc`, if the transmitter is empty. -/
theorem uartSpin_of_ready (hshift : uart0.regShift.toNat < 64) {spins : ℕ}
    (hready : (bus.reads 0).setWidth 8 &&& uartLsrTxEmpty ≠ 0) :
    uartSpin uart0 (spins + 1) bus
      = ok ⟨fun n => bus.reads (n + 1), bus.accesses ++ [uart0.readAccess uartLsr]⟩ := by
  rw [uartSpin, uartReadReg_eq hshift, ok_bind]
  exact if_neg hready

/-- The bus after `uart_init` without a message. -/
def busyInit : Bus :=
  ⟨fun n => busyReads (n + 1), [plainPort.writeAccess uartIer 0x00,
    plainPort.writeAccess uartLcr uartLcrDlab, plainPort.writeAccess uartDll 0x02,
    plainPort.writeAccess uartDlm 0x00, plainPort.writeAccess uartLcr 0x03,
    plainPort.writeAccess uartFcr 0x07, plainPort.readAccess uartLsr]⟩

/-- The bus after one character has gone out, and one has come in. -/
def busyTalk : Bus :=
  ⟨fun n => busyReads (n + 5), busyInit.accesses ++ [plainPort.readAccess uartLsr,
    plainPort.writeAccess uartThr 0x41, plainPort.readAccess uartLsr,
    plainPort.readAccess uartLsr, plainPort.readAccess uartRbr]⟩

theorem exists_busyInit : ∃ s',
    uartInit Paging.exampleBoot (uartDtb 0) uartBuffer uartBuffer Paging.emptyTree [] 1
        ⟨busyReads, []⟩
      = ok (some true, ⟨plainPort, true⟩, s', busyInit) := by
  have hport : uartPort (uartDtb 0) uartBuffer uartBuffer = ok plainPort := by decide +kernel
  have hmapped :
      (Paging.emptyTree.pagingMapMmio Paging.exampleBoot plainPort.base plainPort.size).map
      Prod.fst = some true := by
    decide +kernel
  obtain ⟨⟨r, s'⟩, hmap, rfl⟩ := Option.map_eq_some_iff.mp hmapped
  refine ⟨s', ?_⟩
  unfold uartInit
  rw [hport, ok_bind, hmap, access_some, ok_bind]
  dsimp only
  rw [if_neg (by decide)]
  simp only [uartWriteReg_eq (show plainPort.regShift.toNat < 64 by decide),
    uartReadReg_eq (show plainPort.regShift.toNat < 64 by decide), uartPuts, uartDrain, ok_bind]
  rw [if_neg (by decide)]
  rfl

theorem uartTalk_busyInit :
    uartTalk ⟨plainPort, true⟩ [UartCall.putc 0x41, UartCall.getc 3] busyInit
    = ok (some [0x42], busyTalk) := by
  have hshift : plainPort.regShift.toNat < 64 := by decide
  unfold uartTalk uartPutc
  rw [if_neg (by decide), uartSpin_of_ready hshift (by decide), ok_bind, uartWriteReg_eq hshift,
    ok_bind]
  unfold uartTalk uartGetc
  rw [if_neg (by decide)]
  simp only [uartWait, uartReadReg_eq hshift, ok_bind]
  rw [if_pos (by decide), if_neg (by decide)]
  rfl

theorem served_busyTalk :
    Served plainPort busyLine ⟨busyReads, []⟩ coldDevice busyTalk busyDevice :=
  ⟨busyTalk.accesses, rfl, by decide +kernel⟩

/-! ## What goes out and what comes in -/

section Results

variable {text : List (BitVec 8)} {turns : ℕ} {drv : Driver} {calls : List UartCall}
variable {results : List (BitVec 8)}

/-- **A session after `uart_init`**: the device as it was set up, and as it is when
`uart_init` returns. -/
theorem session_served
    (hinit : uartInit B dtb path resolved s text turns bus = ok (some true, drv, s', bus'))
    (htalk : uartTalk drv calls bus' = ok (some results, bus''))
    (hshift : drv.uart0.regShift.toNat < 62) (h : Served drv.uart0 line bus d bus'' d'') :
    ∃ d₀ d' taken, SetUp d d₀ ∧ Moves d₀ d' text taken ∧ d'.rx = []
      ∧ Served drv.uart0 line bus d bus' d' ∧ Served drv.uart0 line bus' d' bus'' d''
      ∧ Moves d' d'' (calls.filterMap UartCall.written) results
      ∧ (Live line → Lossless d₀ d'' (text ++ calls.filterMap UartCall.written)) := by
  obtain ⟨uart0, ready⟩ := drv
  have hext := (uartTalk_extends hshift ready calls bus').of_ok htalk
  obtain ⟨d', hinitial, hserved⟩ := h.split (uartInit_extends hinit hshift) hext
  obtain ⟨d₀, d₁, taken, hset, hmoves, hlossless, hempty, hreturn⟩ :=
    uartInit_served hinit hshift hinitial (Bus.Extends.refl bus')
  obtain rfl := served_refl_iff.mp hreturn
  obtain rfl : ready = true := (uartInit_steps hinit).1
  have hdlab : d'.dlab = false := by
    rw [hmoves.dlab, Device.dlab, hset.lcr]
    decide
  obtain ⟨d₂, hend, hmoves', hlossless'⟩ :=
    uartTalk_served hshift htalk hdlab hserved (Bus.Extends.refl bus'')
  obtain rfl := served_refl_iff.mp hend
  exact ⟨d₀, d', taken, hset, hmoves, hempty, hinitial, hserved, hmoves',
    fun hlive => (hlossless hlive).trans (hlossless' hlive)⟩

/-- **What the driver writes is what goes out.** Whatever happens on the line, the port
stays as `uart_init` has set it up, and behind what was in the transmitter before comes
nothing but what the driver writes, in order and nothing twice. If the line is alive it is
all there, and at most one character still waits. -/
theorem transmits
    (hinit : uartInit B dtb path resolved s text turns bus = ok (some true, drv, s', bus'))
    (htalk : uartTalk drv calls bus' = ok (some results, bus''))
    (hshift : drv.uart0.regShift.toNat < 62) (h : Served drv.uart0 line bus d bus'' d'') :
    (d''.lcr = 0x03 ∧ d''.dll = 0x02 ∧ d''.dlm = 0x00 ∧ d''.fifo = true
      ∧ d''.ier = if d.dlab then d.ier else 0)
    ∧ ∃ before out, before <+: d.output ∧ d''.output = before ++ out
      ∧ out.Sublist (text ++ calls.filterMap UartCall.written)
      ∧ (Live line → out = text ++ calls.filterMap UartCall.written ∧ d''.tx.length ≤ 1) := by
  obtain ⟨d₀, d', taken, hset, hmoves, -, -, -, hmoves', hlossless⟩ :=
    session_served hinit htalk hshift h
  have hall := hmoves.trans hmoves'
  obtain ⟨out, hout, houtput⟩ := hall.output
  refine ⟨⟨hall.lcr.trans hset.lcr, hall.dll.trans hset.dll, hall.dlm.trans hset.dlm,
    hall.fifo.trans hset.fifo, hall.ier.trans hset.ier⟩,
    d₀.sent, out, hset.sent, hset.output_eq ▸ houtput, hout, fun hlive => ?_⟩
  obtain ⟨hone, hlost⟩ := hlossless hlive (by rw [hset.tx]; exact Nat.zero_le 1)
  exact ⟨List.append_cancel_left (houtput.symm.trans hlost), hone⟩

theorem transmits_busyTalk :
    (busyDevice.lcr = 0x03 ∧ busyDevice.dll = 0x02 ∧ busyDevice.dlm = 0x00 ∧ busyDevice.fifo = true
      ∧ busyDevice.ier = if coldDevice.dlab then coldDevice.ier else 0)
    ∧ ∃ before out, before <+: coldDevice.output ∧ busyDevice.output = before ++ out
      ∧ out.Sublist ([] ++ [UartCall.putc 0x41, UartCall.getc 3].filterMap UartCall.written)
      ∧ (Live busyLine →
        out = [] ++ [UartCall.putc 0x41, UartCall.getc 3].filterMap UartCall.written
        ∧ busyDevice.tx.length ≤ 1) := by
  obtain ⟨s', hinit⟩ := exists_busyInit
  exact transmits hinit uartTalk_busyInit (by decide) served_busyTalk

/-- **What comes in is what is read.** When `uart_init` returns the receiver is empty, and
of all that comes in from then on and finds room, the calls of `uart_getc` return the
first characters, in order, and the receiver holds the others. -/
theorem receives
    (hinit : uartInit B dtb path resolved s text turns bus = ok (some true, drv, s', bus'))
    (htalk : uartTalk drv calls bus' = ok (some results, bus''))
    (hshift : drv.uart0.regShift.toNat < 62) (h : Served drv.uart0 line bus d bus'' d'') :
    ∃ d', Served drv.uart0 line bus d bus' d' ∧ Served drv.uart0 line bus' d' bus'' d''
      ∧ d.arrived <+: d'.arrived ∧ d'.rx = []
      ∧ d''.arrived = d'.arrived ++ results ++ d''.rx := by
  obtain ⟨d₀, d', taken, hset, hmoves, hempty, hinitial, hserved, hmoves', -⟩ :=
    session_served hinit htalk hshift h
  refine ⟨d', hinitial, hserved, hset.arrived.trans hmoves.arrived_le, hempty, ?_⟩
  obtain ⟨new, harrived, hrx⟩ := hmoves'.input
  rw [hempty, List.nil_append] at hrx
  rw [harrived, hrx, List.append_assoc]

theorem receives_busyTalk :
    ∃ d', Served plainPort busyLine ⟨busyReads, []⟩ coldDevice busyInit d'
      ∧ Served plainPort busyLine busyInit d' busyTalk busyDevice
      ∧ coldDevice.arrived <+: d'.arrived ∧ d'.rx = []
      ∧ busyDevice.arrived = d'.arrived ++ [0x42] ++ busyDevice.rx := by
  obtain ⟨s', hinit⟩ := exists_busyInit
  exact receives hinit uartTalk_busyInit (by decide) served_busyTalk

end Results

end Uart
