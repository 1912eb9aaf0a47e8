import Risky.PagingMap
import Risky.Uart

/-!
# Where the serial port is accessed

`uart_init` has the registers mapped by their base and size and then reaches them by the
shift of the device tree, which nobody compares with the size or with the width of an
address. All accesses of a run lie within the pages that were mapped, and no shift is
undefined, exactly if the shift is below 64 and the farthest register ends within the
last of these pages (`Uart.accessesInside_iff`).
-/

namespace Uart

open Outcome
open Kmain (Dtb)

variable {B : Boot} {dtb : Dtb} {path resolved : List UInt8} {s s' : Paging} {uart0 : UartPort}
variable {bus : Bus} {reg : BitVec 32}

/-! ## The window -/

/-- The registers that the driver uses. -/
def uartRegs : List (BitVec 32) := [uartRbr, uartIer, uartFcr, uartLcr, uartLsr]

theorem forall_mem_uartRegs {P : BitVec 32 → Prop} : (∀ reg ∈ uartRegs, P reg)
    ↔ P uartRbr ∧ P uartIer ∧ P uartFcr ∧ P uartLcr ∧ P uartLsr := by
  simp only [uartRegs, List.forall_mem_cons, List.not_mem_nil, false_imp_iff, implies_true,
    and_true]

namespace UartPort

/-- The number of bytes of an access. -/
def width (uart0 : UartPort) : ℕ := if uart0.regIoWidth = 4 then 4 else 1

/-- The address of a register, if the shift is defined. -/
def regAddr (uart0 : UartPort) (reg : BitVec 32) : BitVec 64 :=
  uart0.base + (reg.setWidth 64 <<< uart0.regShift.toNat)

/-- The base rounded down to a page. -/
def start (uart0 : UartPort) : ℕ := uart0.base.toNat / 2 ^ 12 * 2 ^ 12

/-- The size of the range that `paging_map_mmio` computes. -/
def rangeSize (uart0 : UartPort) : BitVec 64 :=
  pageAlignUp (uart0.base + uart0.size) - pageAlignDown uart0.base

/-- The bytes that `paging_map_mmio` maps: none if the virtual range reaches the end of
the address space. -/
def mappedSize (B : Boot) (uart0 : UartPort) : ℕ :=
  if (physToVirt B.hhdm (pageAlignDown uart0.base)).toNat + uart0.rangeSize.toNat < 2 ^ 64 then
    uart0.rangeSize.toNat
  else 0

end UartPort

/-- **A byte of the window**: from the base rounded down to base and size rounded up, on
a page that `paging_map_mmio` maps. -/
def InWindow (B : Boot) (uart0 : UartPort) (b : ℕ) : Prop :=
  uart0.start ≤ b
    ∧ b < (uart0.base.toNat + uart0.size.toNat + (2 ^ 12 - 1)) / 2 ^ 12 * 2 ^ 12
    ∧ ∃ q ∈ Paging.mmioRequests B uart0.base uart0.size,
      q.phys.toNat ≤ b ∧ b < q.phys.toNat + 2 ^ 12

/-- **Bytes inside the window.** -/
def BytesInside (B : Boot) (uart0 : UartPort) (physAddr : BitVec 64) (width : ℕ) : Prop :=
  ∀ b, physAddr.toNat ≤ b → b < physAddr.toNat + width → InWindow B uart0 b

/-- The range is one of whole pages, and does not go beyond base and size. -/
theorem rangeSize_le (uart0 : UartPort) : uart0.rangeSize.toNat % 2 ^ 12 = 0
    ∧ uart0.start + uart0.rangeSize.toNat
      ≤ (uart0.base.toNat + uart0.size.toNat + (2 ^ 12 - 1)) / 2 ^ 12 * 2 ^ 12 := by
  have hbase := uart0.base.isLt
  have hsize := uart0.size.isLt
  unfold UartPort.rangeSize UartPort.start
  rw [BitVec.toNat_sub, toNat_pageAlignUp, toNat_pageAlignDown, BitVec.toNat_add]
  omega

/-- **The window**, by its length. -/
theorem inWindow_iff (b : ℕ) : InWindow B uart0 b
    ↔ uart0.start ≤ b ∧ b < uart0.start + uart0.mappedSize B ∧ b < 2 ^ 64 := by
  have hbase := uart0.base.isLt
  obtain ⟨haligned, hle⟩ := rangeSize_le uart0
  have hpages : Paging.sizePages uart0.rangeSize * 2 ^ 12 = uart0.rangeSize.toNat := by
    unfold Paging.sizePages
    omega
  have hlt := uart0.rangeSize.isLt
  have hpage : ∀ i, (pageAt (pageAlignDown uart0.base) i).toNat
      = (uart0.start + i * 2 ^ 12) % 2 ^ 64 := by
    intro i
    rw [pageAt, BitVec.toNat_add, toNat_pageAlignDown, BitVec.toNat_ofNat, Nat.add_mod_mod]
    rfl
  have hstart : uart0.start % 2 ^ 12 = 0 := Nat.mul_mod_left _ _
  unfold InWindow Paging.mmioRequests Paging.rangeRequests
  rw [show pageAlignUp (uart0.base + uart0.size) - pageAlignDown uart0.base = uart0.rangeSize
    from rfl, hpages]
  unfold UartPort.mappedSize
  split
  · -- the pages are mapped one behind the other
    constructor
    · rintro ⟨h₁, h₂, q, hq, h₃, h₄⟩
      obtain ⟨i, hi, rfl⟩ := Paging.mem_pageRequests.mp hq
      dsimp only at h₃ h₄
      rw [hpage] at h₃ h₄
      omega
    · rintro ⟨h₁, h₂, h₃⟩
      refine ⟨h₁, by omega, _, Paging.mem_pageRequests.mpr
        ⟨(b - uart0.start) / 2 ^ 12, by omega, rfl⟩, ?_⟩
      dsimp only
      rw [hpage]
      omega
  · -- `paging_map_range` refuses a range that reaches the end of the address space
    constructor
    · rintro ⟨-, -, q, hq, -⟩
      exact absurd hq List.not_mem_nil
    · rintro ⟨h₁, h₂, -⟩
      omega

/-! ## The farthest register -/

/-- The largest offset of a register. -/
def farthest (shift : ℕ) : ℕ :=
  if shift < 62 then 5 * 2 ^ shift else if shift = 62 then 3 * 2 ^ 62 else 2 ^ 63

/-- Offsets that do not wrap around. -/
theorem offset_of_lt {shift : ℕ} (h : shift < 62) (hreg : reg ∈ uartRegs) :
    reg.toNat * 2 ^ shift % 2 ^ 64 = reg.toNat * 2 ^ shift
      ∧ reg.toNat * 2 ^ shift ≤ 5 * 2 ^ shift ∧ 5 * 2 ^ shift ≤ 5 * 2 ^ 61 := by
  have hfive : ∀ reg ∈ uartRegs, reg.toNat ≤ 5 := forall_mem_uartRegs.mpr (by decide)
  have hpow : 2 ^ shift ≤ 2 ^ 61 := Nat.pow_le_pow_right (by decide) (by omega)
  have hle : reg.toNat * 2 ^ shift ≤ 5 * 2 ^ shift := Nat.mul_le_mul_right _ (hfive reg hreg)
  exact ⟨Nat.mod_eq_of_lt (by omega), hle, Nat.mul_le_mul_left 5 hpow⟩

theorem farthest_spec {shift : ℕ} (h : shift < 64) :
    (∀ reg ∈ uartRegs, reg.toNat * 2 ^ shift % 2 ^ 64 ≤ farthest shift)
      ∧ (∃ reg ∈ uartRegs, reg.toNat * 2 ^ shift % 2 ^ 64 = farthest shift)
      ∧ farthest shift ≤ 3 * 2 ^ 62 := by
  obtain hlt | rfl | rfl : shift < 62 ∨ shift = 62 ∨ shift = 63 := by omega
  · have hlsr : uartLsr ∈ uartRegs := by decide
    obtain ⟨heq, -, hle⟩ := offset_of_lt hlt hlsr
    unfold farthest
    rw [if_pos hlt]
    refine ⟨fun reg hreg => ?_, ⟨uartLsr, hlsr, heq⟩, by omega⟩
    obtain ⟨heq, hle, -⟩ := offset_of_lt hlt hreg
    rw [heq]
    exact hle
  · exact ⟨forall_mem_uartRegs.mpr (by decide), ⟨uartLcr, by decide, by decide⟩, by decide⟩
  · exact ⟨forall_mem_uartRegs.mpr (by decide), ⟨uartIer, by decide, by decide⟩, by decide⟩

/-- **The port fits**: the shift is defined, and the farthest register ends within the
pages that are mapped. -/
def Fits (B : Boot) (uart0 : UartPort) : Prop :=
  uart0.regShift.toNat < 64
    ∧ uart0.base.toNat + farthest uart0.regShift.toNat + uart0.width ≤ 2 ^ 64
    ∧ uart0.base.toNat % 2 ^ 12 + farthest uart0.regShift.toNat + uart0.width
      ≤ uart0.mappedSize B

instance (B : Boot) (uart0 : UartPort) : Decidable (Fits B uart0) :=
  inferInstanceAs (Decidable (_ ∧ _))

theorem width_pos (uart0 : UartPort) : 0 < uart0.width ∧ uart0.width ≤ 4 := by
  unfold UartPort.width
  split <;> decide

theorem toNat_regAddr (uart0 : UartPort) (reg : BitVec 32) :
    (uart0.regAddr reg).toNat
      = (uart0.base.toNat + reg.toNat * 2 ^ uart0.regShift.toNat % 2 ^ 64) % 2 ^ 64 := by
  have hreg := reg.isLt
  rw [UartPort.regAddr, BitVec.toNat_add, BitVec.toNat_shiftLeft, BitVec.toNat_setWidth,
    Nat.shiftLeft_eq, Nat.mod_eq_of_lt (show reg.toNat < 2 ^ 64 by omega)]

/-- **All registers lie inside** exactly if the farthest one does. -/
theorem regs_inside_iff (hshift : uart0.regShift.toNat < 64) :
    (∀ reg ∈ uartRegs, BytesInside B uart0 (uart0.regAddr reg) uart0.width) ↔ Fits B uart0 := by
  have hbase := uart0.base.isLt
  obtain ⟨hpos, hle⟩ := width_pos uart0
  obtain ⟨hoffset, ⟨far, hfar, heq⟩, hsmall⟩ := farthest_spec hshift
  have hstart : uart0.start + uart0.base.toNat % 2 ^ 12 = uart0.base.toNat :=
    Nat.div_add_mod' _ _
  -- the window has no holes, so that the first and the last byte decide
  have hinside : ∀ reg, BytesInside B uart0 (uart0.regAddr reg) uart0.width
      ↔ uart0.start ≤ (uart0.regAddr reg).toNat
        ∧ (uart0.regAddr reg).toNat + uart0.width ≤ uart0.start + uart0.mappedSize B
        ∧ (uart0.regAddr reg).toNat + uart0.width ≤ 2 ^ 64 := by
    intro reg
    unfold BytesInside
    simp only [inWindow_iff]
    constructor
    · intro h
      have hfirst := h _ le_rfl (by omega)
      have hlast := h ((uart0.regAddr reg).toNat + uart0.width - 1) (by omega) (by omega)
      omega
    · rintro ⟨h₁, h₂, h₃⟩ b hb hb'
      omega
  unfold Fits
  rw [and_iff_right hshift]
  constructor
  · intro h
    have hend := (hinside far).mp (h far hfar)
    rw [toNat_regAddr, heq] at hend
    omega
  · rintro ⟨h₁, h₂⟩ reg hreg
    have hoff := hoffset reg hreg
    rw [hinside, toNat_regAddr]
    omega

/-! ## The accesses of a run -/

/-- **The accesses so far are to registers of the driver.** -/
def OnRegs (uart0 : UartPort) (bus : Bus) : Prop :=
  ∀ a ∈ bus.accesses, ∃ reg ∈ uartRegs, a.physAddr = uart0.regAddr reg ∧ a.width = uart0.width

/-- The access that writes a register. -/
def UartPort.writeAccess (uart0 : UartPort) (reg : BitVec 32) (val : BitVec 8) : MmioAccess :=
  if uart0.regIoWidth = 4 then MmioAccess.write32 (uart0.regAddr reg) (val.setWidth 32)
  else MmioAccess.write8 (uart0.regAddr reg) val

/-- The access that reads one. -/
def UartPort.readAccess (uart0 : UartPort) (reg : BitVec 32) : MmioAccess :=
  if uart0.regIoWidth = 4 then MmioAccess.read32 (uart0.regAddr reg)
  else MmioAccess.read8 (uart0.regAddr reg)

/-- Both are at the address of the register, and as wide as the port is. -/
theorem writeAccess_at (uart0 : UartPort) (reg : BitVec 32) (val : BitVec 8) :
    (uart0.writeAccess reg val).physAddr = uart0.regAddr reg
      ∧ (uart0.writeAccess reg val).width = uart0.width := by
  unfold UartPort.writeAccess UartPort.width
  split <;> exact ⟨rfl, rfl⟩

theorem readAccess_at (uart0 : UartPort) (reg : BitVec 32) :
    (uart0.readAccess reg).physAddr = uart0.regAddr reg
      ∧ (uart0.readAccess reg).width = uart0.width := by
  unfold UartPort.readAccess UartPort.width
  split <;> exact ⟨rfl, rfl⟩

/-- One more access to a register. -/
theorem OnRegs.concat {a : MmioAccess} {reads : ℕ → BitVec 32} (h : OnRegs uart0 bus)
    (hreg : reg ∈ uartRegs) (ha : a.physAddr = uart0.regAddr reg ∧ a.width = uart0.width) :
    OnRegs uart0 ⟨reads, bus.accesses ++ [a]⟩ := by
  intro a' ha'
  rcases List.mem_append.mp ha' with ha' | ha'
  · exact h a' ha'
  · rw [List.mem_singleton.mp ha']
    exact ⟨reg, hreg, ha⟩

section Calls

variable (hshift : uart0.regShift.toNat < 64)
include hshift

/-- **A register is written by one access**, if the shift is defined. -/
theorem uartWriteReg_eq (reg : BitVec 32) (val : BitVec 8) (bus : Bus) :
    uartWriteReg uart0 reg val bus
      = ok ⟨bus.reads, bus.accesses ++ [uart0.writeAccess reg val]⟩ := by
  unfold uartWriteReg uartRegAddr UartPort.writeAccess
  rw [if_pos hshift, ok_bind]
  split <;> rfl

/-- So it is read. -/
theorem uartReadReg_eq (reg : BitVec 32) (bus : Bus) :
    uartReadReg uart0 reg bus = ok ((bus.reads 0).setWidth 8,
      ⟨fun n => bus.reads (n + 1), bus.accesses ++ [uart0.readAccess reg]⟩) := by
  unfold uartReadReg uartRegAddr UartPort.readAccess
  rw [if_pos hshift, ok_bind]
  split <;> rfl

theorem uartWriteReg_ensures (hreg : reg ∈ uartRegs) (val : BitVec 8) (h : OnRegs uart0 bus) :
    (uartWriteReg uart0 reg val bus).Ensures (OnRegs uart0) := by
  rw [uartWriteReg_eq hshift]
  exact h.concat hreg (writeAccess_at uart0 reg val)

theorem uartReadReg_ensures (hreg : reg ∈ uartRegs) (h : OnRegs uart0 bus) :
    (uartReadReg uart0 reg bus).Ensures (fun r => OnRegs uart0 r.2) := by
  rw [uartReadReg_eq hshift]
  exact h.concat hreg (readAccess_at uart0 reg)

theorem uartSpin_ensures (spins : ℕ) (h : OnRegs uart0 bus) :
    (uartSpin uart0 spins bus).Ensures (OnRegs uart0) := by
  induction spins generalizing bus with
  | zero => exact h
  | succ spins ih =>
    refine (uartReadReg_ensures hshift (by decide) h).bind (fun r hr => ?_)
    dsimp only
    split
    · exact ih hr
    · exact hr

theorem uartDrain_ensures (turns : ℕ) (h : OnRegs uart0 bus) :
    (uartDrain uart0 turns bus).Ensures (fun r => OnRegs uart0 r.2) := by
  induction turns generalizing bus with
  | zero => exact h
  | succ turns ih =>
    refine (uartReadReg_ensures hshift (by decide) h).bind (fun r hr => ?_)
    dsimp only
    split
    · exact (uartReadReg_ensures hshift (by decide) hr).bind (fun r' hr' => ih hr')
    · exact hr

theorem uartWait_ensures (turns : ℕ) (h : OnRegs uart0 bus) :
    (uartWait uart0 turns bus).Ensures (fun r => OnRegs uart0 r.2) := by
  induction turns generalizing bus with
  | zero => exact h
  | succ turns ih =>
    refine (uartReadReg_ensures hshift (by decide) h).bind (fun r hr => ?_)
    dsimp only
    split
    · exact ih hr
    · exact hr

theorem uartPutc_ensures (ready : Bool) (c : BitVec 8) (h : OnRegs uart0 bus) :
    (uartPutc ⟨uart0, ready⟩ c bus).Ensures (OnRegs uart0) := by
  unfold uartPutc
  split
  · exact h
  · exact (uartSpin_ensures hshift _ h).bind
      (fun bus hbus => uartWriteReg_ensures hshift (by decide) c hbus)

theorem uartPuts_ensures (ready : Bool) (text : List (BitVec 8)) (h : OnRegs uart0 bus) :
    (uartPuts ⟨uart0, ready⟩ text bus).Ensures (OnRegs uart0) := by
  induction text generalizing bus with
  | nil => exact h
  | cons c text ih => exact (uartPutc_ensures hshift ready c h).bind (fun bus hbus => ih hbus)

theorem uartGetc_ensures (ready : Bool) (turns : ℕ) (h : OnRegs uart0 bus) :
    (uartGetc ⟨uart0, ready⟩ turns bus).Ensures (fun r => OnRegs uart0 r.2) := by
  unfold uartGetc
  split
  · exact h
  · refine (uartWait_ensures hshift turns h).bind (fun r hr => ?_)
    dsimp only
    split
    · exact (uartReadReg_ensures hshift (by decide) hr).bind (fun r' hr' => hr')
    · exact hr

theorem uartCalls_ensures (ready : Bool) (calls : List UartCall) (h : OnRegs uart0 bus) :
    (uartCalls ⟨uart0, ready⟩ calls bus).Ensures (OnRegs uart0) := by
  induction calls generalizing bus with
  | nil => exact h
  | cons call calls ih =>
    cases call with
    | putc c => exact (uartPutc_ensures hshift ready c h).bind (fun bus hbus => ih hbus)
    | getc turns =>
      refine (uartGetc_ensures hshift ready turns h).bind (fun r hr => ?_)
      dsimp only
      split
      · exact ih hr
      · exact hr

/-- **A run accesses the registers of the driver only**, and no shift is undefined. -/
theorem uartRun_ensures (hport : uartPort dtb path resolved = ok uart0)
    (hmap : s.pagingMapMmio B uart0.base uart0.size = some (true, s'))
    (text : List (BitVec 8)) (turns : ℕ) (calls : List UartCall) (h : OnRegs uart0 bus) :
    (uartRun B dtb path resolved s text turns calls bus).Ensures (OnRegs uart0) := by
  have hinit : (uartInit B dtb path resolved s text turns bus).Ensures
      (fun r => r.2.1.uart0 = uart0 ∧ OnRegs uart0 r.2.2.2) := by
    unfold uartInit
    rw [hport, ok_bind, hmap, access_some, ok_bind]
    refine (uartWriteReg_ensures hshift (by decide) _ h).bind (fun bus h => ?_)
    refine (uartWriteReg_ensures hshift (by decide) _ h).bind (fun bus h => ?_)
    refine (uartWriteReg_ensures hshift (by decide) _ h).bind (fun bus h => ?_)
    refine (uartWriteReg_ensures hshift (by decide) _ h).bind (fun bus h => ?_)
    refine (uartWriteReg_ensures hshift (by decide) _ h).bind (fun bus h => ?_)
    refine (uartWriteReg_ensures hshift (by decide) _ h).bind (fun bus h => ?_)
    refine (uartPuts_ensures hshift true text h).bind (fun bus h => ?_)
    exact (uartDrain_ensures hshift turns h).bind (fun r hr => ⟨rfl, hr⟩)
  refine hinit.bind ?_
  rintro ⟨done, ⟨uart0', ready⟩, t, bus⟩ ⟨hd, hbus⟩
  obtain rfl : uart0' = uart0 := hd
  dsimp only
  split
  · exact uartCalls_ensures hshift ready calls hbus
  · exact hbus

end Calls

/-! ## The claim about the driver -/

/-- **What is asked of the driver**: whatever it logs, whatever the device answers and
whatever is called, no shift is undefined and all accesses lie inside the window. -/
def AccessesInside (B : Boot) (dtb : Dtb) (path resolved : List UInt8) (s : Paging)
    (uart0 : UartPort) : Prop :=
  ∀ (text : List (BitVec 8)) (turns : ℕ) (calls : List UartCall) (reads : ℕ → BitVec 32),
    (uartRun B dtb path resolved s text turns calls ⟨reads, []⟩).Ensures
      (fun bus => ∀ a ∈ bus.accesses, BytesInside B uart0 a.physAddr a.width)

/-- `uart_init` accesses all registers, if the device is silent. -/
theorem exists_silent_run (hshift : uart0.regShift.toNat < 64)
    (hport : uartPort dtb path resolved = ok uart0)
    (hmap : s.pagingMapMmio B uart0.base uart0.size = some (true, s')) :
    ∃ bus, uartRun B dtb path resolved s [] 1 [] ⟨fun _ => 0, []⟩ = ok bus
      ∧ ∀ reg ∈ uartRegs, ∃ a ∈ bus.accesses,
        a.physAddr = uart0.regAddr reg ∧ a.width = uart0.width := by
  unfold uartRun uartInit
  rw [hport, ok_bind, hmap, access_some, ok_bind]
  dsimp only
  rw [if_neg (by decide)]
  simp only [uartWriteReg_eq hshift, uartReadReg_eq hshift, uartPuts, uartDrain, ok_bind]
  rw [if_neg (by decide)]
  refine ⟨_, rfl, forall_mem_uartRegs.mpr
    ⟨⟨uart0.writeAccess uartDll 0x02, ?_, writeAccess_at _ _ _⟩,
      ⟨uart0.writeAccess uartIer 0x00, ?_, writeAccess_at _ _ _⟩,
      ⟨uart0.writeAccess uartFcr 0x07, ?_, writeAccess_at _ _ _⟩,
      ⟨uart0.writeAccess uartLcr 0x03, ?_, writeAccess_at _ _ _⟩,
      ⟨uart0.readAccess uartLsr, ?_, readAccess_at _ _⟩⟩⟩
  all_goals simp

theorem AccessesInside.regs_inside (h : AccessesInside B dtb path resolved s uart0)
    (hshift : uart0.regShift.toNat < 64) (hport : uartPort dtb path resolved = ok uart0)
    (hmap : s.pagingMapMmio B uart0.base uart0.size = some (true, s')) :
    ∀ reg ∈ uartRegs, BytesInside B uart0 (uart0.regAddr reg) uart0.width := by
  intro reg hreg
  obtain ⟨bus, hrun, hall⟩ := exists_silent_run hshift hport hmap
  obtain ⟨a, ha, haddr, hwidth⟩ := hall reg hreg
  rw [← haddr, ← hwidth]
  exact (h [] 1 [] (fun _ => 0)).of_ok hrun a ha

/-- **The driver stays inside the window exactly if the port fits.** -/
theorem accessesInside_iff (hport : uartPort dtb path resolved = ok uart0)
    (hmap : s.pagingMapMmio B uart0.base uart0.size = some (true, s')) :
    AccessesInside B dtb path resolved s uart0 ↔ Fits B uart0 := by
  by_cases hshift : uart0.regShift.toNat < 64
  swap
  · -- the first access does not come about
    have hfault : uartRun B dtb path resolved s [] 1 [] ⟨fun _ => 0, []⟩ = fault := by
      unfold uartRun uartInit uartWriteReg uartRegAddr
      rw [hport, ok_bind, hmap, access_some, ok_bind, if_neg hshift]
      rfl
    refine iff_of_false (fun h => ?_) (fun h => hshift h.1)
    have hrun := h [] 1 [] (fun _ => 0)
    rw [hfault] at hrun
    exact hrun
  rw [← regs_inside_iff hshift]
  constructor
  · exact fun h => h.regs_inside hshift hport hmap
  · intro h text turns calls reads
    have hstart : OnRegs uart0 ⟨reads, []⟩ := fun _ ha => absurd ha List.not_mem_nil
    refine (uartRun_ensures hshift hport hmap text turns calls hstart).mono (fun bus hbus a ha => ?_)
    obtain ⟨reg, hreg, haddr, hwidth⟩ := hbus a ha
    rw [haddr, hwidth]
    exact h reg hreg

/-! ## Ports of a blob -/

/-- A blob whose root is a port of 256 bytes with the shift given. -/
def uartBlob (shift : UInt8) : List UInt8 :=
  FdtHeader.bytes ⟨145, 40, 120, 40, 17, 16, 0, 25, 80⟩
    ++ structText [FdtToken.beginNode ⟨[], nul_notMem_nil⟩,
      FdtToken.prop 0 ⟨compatibleName, asciiBytes "ns16550a" ++ [0]⟩,
      FdtToken.prop 11 ⟨regName, [0, 0, 0, 0, 16, 0, 0, 0, 0, 0, 1, 0]⟩,
      FdtToken.prop 15 ⟨regShiftName, [0, 0, 0, shift]⟩, FdtToken.endNode]
    ++ compatibleName.bytes ++ regName.bytes ++ regShiftName.bytes

/-- The device tree after `dtb_init`. -/
def uartDtb (shift : UInt8) : Dtb := ⟨⟨uartBlob shift, 4096, 40, 120, 120, 25⟩, true⟩

/-- What is on the stack. -/
def uartBuffer : List UInt8 := List.replicate uartPathMax 0

/-- The port in the blob with the shift 0. -/
def plainPort : UartPort := ⟨0x10000000, 0x100, 0, 1⟩

theorem accessesInside_iff_plainPort :
    Fits Paging.exampleBoot plainPort
      ∧ AccessesInside Paging.exampleBoot (uartDtb 0) uartBuffer uartBuffer Paging.emptyTree
        plainPort := by
  have hport : uartPort (uartDtb 0) uartBuffer uartBuffer = ok plainPort := by decide +kernel
  have hmapped : (Paging.emptyTree.pagingMapMmio Paging.exampleBoot plainPort.base plainPort.size).map
      Prod.fst = some true := by
    decide +kernel
  obtain ⟨⟨r, s'⟩, hmap, rfl⟩ := Option.map_eq_some_iff.mp hmapped
  have hfits : Fits Paging.exampleBoot plainPort := by decide +kernel
  refine ⟨hfits, ?_⟩
  rw [accessesInside_iff hport hmap]
  exact hfits

/-- The same port with registers that are a page apart. -/
def widePort : UartPort := ⟨0x10000000, 0x100, 12, 1⟩

/-- **A port whose registers are too far apart**: one page is mapped, and the second
register lies on the next. -/
theorem not_accessesInside_widePort :
    Kmain.dtbInit (some (some (uartBlob 12, 4096))) = ok (true, uartDtb 12, [])
      ∧ uartFindPort (uartDtb 12) uartBuffer uartBuffer = ok widePort
      ∧ widePort.mappedSize Paging.exampleBoot = 0x1000
      ∧ widePort.regAddr uartIer = 0x10001000
      ∧ ¬ AccessesInside Paging.exampleBoot (uartDtb 12) uartBuffer uartBuffer Paging.emptyTree
        widePort := by
  have hfind : uartFindPort (uartDtb 12) uartBuffer uartBuffer = ok widePort := by decide +kernel
  have hport : uartPort (uartDtb 12) uartBuffer uartBuffer = ok widePort := by
    rw [uartPort, hfind]
    rfl
  have hmapped : (Paging.emptyTree.pagingMapMmio Paging.exampleBoot widePort.base widePort.size).map
      Prod.fst = some true := by
    decide +kernel
  obtain ⟨⟨r, s'⟩, hmap, rfl⟩ := Option.map_eq_some_iff.mp hmapped
  refine ⟨rfl, hfind, by decide +kernel, by decide +kernel, fun h => ?_⟩
  have hinside := h.regs_inside (by decide) hport hmap uartIer (by decide)
  have hfirst := (inWindow_iff _).mp (hinside 0x10001000 (by decide) (by decide))
  exact absurd hfirst (by decide)

end Uart
