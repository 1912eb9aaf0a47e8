import Risky.Fdt
import Risky.Printk

/-!
# The tick frequency after boot

The model of `dev/dtb.c` and `lib/time.c` as far as the clock goes, and of the order
in which `kmain` initialises the modules. What the other modules do is left open: the
variables of `time.c` and `dtb.c` are `static`, so that nobody else writes them.

`ktime_init` asks the device tree for the tick frequency (`Kmain.ktimeInit_of_ready`),
but `kmain` calls it before `dtb_init`, when the device tree is not there yet, and the
clock always runs at the fallback frequency (`Kmain.kmain_ktime`).
-/

namespace Kmain

open Outcome
open Printk (Line)

/-! ## The device tree -/

/-- **The variables of `dtb.c`**: `dtb_fdt` and `dtb_ready`. -/
structure Dtb where
  fdt : Fdt
  ready : Bool

/-- The variables before they are written. -/
def Dtb.zero : Dtb := ⟨⟨[], 0, 0, 0, 0, 0⟩, false⟩

/-- What Limine passes for a device tree: there may be no response, its `dtb_ptr` may
be `NULL`, and else the pointer is an address and the memory there. -/
abbrev DtbResponse := Option (Option (List UInt8 × ℕ))

/-- `dtb_init`, with what it logs. -/
def dtbInit : DtbResponse → Outcome (Bool × Dtb × List Line)
  | none => ok (false, Dtb.zero, [⟨"dtb: missing Limine dtb response", []⟩])
  | some none => ok (false, Dtb.zero, [⟨"dtb: Limine dtb_ptr is NULL", []⟩])
  | some (some (mem, base)) => do
    let fdt ← attempt (fdtInit mem base)
    match fdt with
    | some fdt => ok (true, ⟨fdt, true⟩, [])
    | none => ok (false, Dtb.zero,
        [⟨"dtb: invalid fdt blob at %p", [Printk.Arg.ptr (BitVec.ofNat 64 base) mem]⟩])

/-- `dtb_find_node_by_path`. -/
def dtbFindNodeByPath (dtb : Dtb) (path : CString) : Outcome FdtNode := do
  require (dtb.ready = true)
  dtb.fdt.fdtFindNodeByPath path

/-- `dtb_find_compatible`. -/
def dtbFindCompatible (dtb : Dtb) (compatible : CString) : Outcome FdtNode := do
  require (dtb.ready = true)
  dtb.fdt.fdtFindCompatible compatible

/-- `dtb_node_has_compatible`. -/
def dtbNodeHasCompatible (dtb : Dtb) (node : FdtNode) (compatible : CString) : Outcome Unit := do
  require (dtb.ready = true)
  dtb.fdt.fdtNodeHasCompatible node compatible

/-- `dtb_get_reg`, with what is in `*out_addr` and `*out_size` before and after. -/
def dtbGetReg (dtb : Dtb) (node : FdtNode) (index : BitVec 32) (outAddr outSize : BitVec 64) :
    Outcome (Bool × BitVec 64 × BitVec 64) :=
  if !dtb.ready then ok (false, outAddr, outSize)
  else dtb.fdt.fdtGetReg node index outAddr outSize

/-- `dtb_get_stdout_path`. -/
def dtbGetStdoutPath (dtb : Dtb) (buffer : List UInt8) (bufferSize : ℕ) :
    Outcome (List UInt8) := do
  require (dtb.ready = true)
  dtb.fdt.fdtGetStdoutPath buffer bufferSize

/-- `dtb_resolve_alias`. -/
def dtbResolveAlias (dtb : Dtb) (name : CString) (buffer : List UInt8) (bufferSize : ℕ) :
    Outcome (List UInt8) := do
  require (dtb.ready = true)
  dtb.fdt.fdtResolveAlias name buffer bufferSize

/-- `dtb_get_u32`. -/
def dtbGetU32 (dtb : Dtb) (node : FdtNode) (name : CString) : Outcome ℕ := do
  require (dtb.ready = true)
  dtb.fdt.fdtGetU32 node name

/-! ## The clock -/

/-- `KTIME_FALLBACK_FREQ`. -/
def ktimeFallbackFreq : BitVec 32 := 10000000

/-- `"/cpus"`. -/
def cpusPath : CString := ⟨asciiBytes "/cpus", by decide⟩

/-- `"timebase-frequency"`. -/
def timebaseFrequency : CString := ⟨asciiBytes "timebase-frequency", by decide⟩

/-- **The variables of `time.c`**. -/
structure Ktime where
  bootTicks : BitVec 64
  tickFreq : BitVec 32
  ready : Bool
  deriving DecidableEq, Repr

/-- The variables before they are written. -/
def Ktime.zero : Ktime := ⟨0, 0, false⟩

/-- The frequency that the device tree gives, if it gives one. -/
def dtbFreq (dtb : Dtb) : Outcome ℕ := do
  let cpus ← dtbFindNodeByPath dtb cpusPath
  let dtbFreq ← dtbGetU32 dtb cpus timebaseFrequency
  require (dtbFreq ≠ 0)
  ok dtbFreq

/-- `ktime_init`, when the time counter reads `now`. -/
def ktimeInit (dtb : Dtb) (now : BitVec 64) : Outcome Ktime := do
  let freq ← attempt (dtbFreq dtb)
  match freq with
  | some freq => ok ⟨now, BitVec.ofNat 32 freq, true⟩
  | none => ok ⟨now, ktimeFallbackFreq, true⟩

namespace Ktime

/-- `ktime_get_ticks`, when the time counter reads `now`. -/
def ktimeGetTicks (k : Ktime) (now : BitVec 64) : BitVec 64 :=
  if !k.ready then 0 else now - k.bootTicks

/-- `ktime_get_freq`. -/
def ktimeGetFreq (k : Ktime) : BitVec 32 := k.tickFreq

/-- `ktime_get_ms`, when the time counter reads `now`. -/
def ktimeGetMs (k : Ktime) (now : BitVec 64) : BitVec 64 :=
  let freq := k.ktimeGetFreq
  let ticks := k.ktimeGetTicks now
  if freq = 0 then 0 else ticks * 1000 / freq.setWidth 64

end Ktime

/-! ## The order of initialisation -/

/-- **The other modules**, with a state `ρ` of their own. An initialiser that
returns `false` is refused. -/
structure Modules (ρ : Type) where
  pfndbInit : ρ → Outcome ρ
  pmmInit : ρ → Outcome ρ
  pagingEarlyInit : ρ → Outcome ρ
  uartInit : Dtb → ρ → Outcome ρ
  pagingInit : ρ → Outcome ρ

/-- **What `kmain` finds.** -/
structure Machine where
  /-- `LIMINE_BASE_REVISION_SUPPORTED`. -/
  baseRevisionSupported : Bool
  /-- `dtb_request.response`. -/
  dtbResponse : DtbResponse
  /-- The time counter when `ktime_init` reads it. -/
  now : BitVec 64

/-- The variables of all modules. -/
structure Kernel (ρ : Type) where
  ktime : Ktime
  dtb : Dtb
  rest : ρ

/-- **`kmain`** up to the last initialiser; it is refused where it calls `hlt`. -/
def kmain {ρ : Type} (M : Modules ρ) (m : Machine) (k : Kernel ρ) : Outcome (Kernel ρ) := do
  require (m.baseRevisionSupported = true)
  let ktime ← ktimeInit k.dtb m.now
  let rest ← M.pfndbInit k.rest
  let rest ← M.pmmInit rest
  let (_, dtb, _) ← dtbInit m.dtbResponse
  let rest ← M.pagingEarlyInit rest
  let rest ← M.uartInit dtb rest
  let rest ← M.pagingInit rest
  ok ⟨ktime, dtb, rest⟩

/-- The kernel when `kmain` is entered. -/
def Kernel.start {ρ : Type} (rest : ρ) : Kernel ρ := ⟨Ktime.zero, Dtb.zero, rest⟩

/-! ## The frequency -/

section Frequency

variable {ρ : Type} {M : Modules ρ} {m : Machine} {rest : ρ} {k : Kernel ρ} {f : ℕ}

/-- **With the device tree at hand, `ktime_init` takes the frequency from it.** -/
theorem ktimeInit_of_ready {dtb : Dtb} {cpus : FdtNode} {now : BitVec 64}
    (hready : dtb.ready = true) (hcpus : dtb.fdt.fdtFindNodeByPath cpusPath = ok cpus)
    (hprop : dtb.fdt.fdtGetU32 cpus timebaseFrequency = ok f) (hf : f ≠ 0) :
    ktimeInit dtb now = ok ⟨now, BitVec.ofNat 32 f, true⟩ := by
  have hfreq : dtbFreq dtb = ok f := by
    rw [dtbFreq, dtbFindNodeByPath, require_of_pos hready, ok_bind, hcpus, ok_bind, dtbGetU32,
      require_of_pos hready, ok_bind, hprop, ok_bind, require_of_pos hf, ok_bind]
  rw [ktimeInit, attempt_eq_some.mpr hfreq, ok_bind]

/-- Without it, it falls back. -/
theorem ktimeInit_of_not_ready {dtb : Dtb} {now : BitVec 64} (hready : dtb.ready = false) :
    ktimeInit dtb now = ok ⟨now, ktimeFallbackFreq, true⟩ := by
  have hfreq : dtbFreq dtb = refused := by
    rw [dtbFreq, dtbFindNodeByPath, require_of_neg (by simp [hready]), refused_bind, refused_bind]
  rw [ktimeInit, attempt_eq_none.mpr hfreq, ok_bind]

/-- **After `kmain` the clock runs at the fallback frequency**, whatever the device
tree says. -/
theorem kmain_ktime (h : kmain M m (Kernel.start rest) = ok k) :
    k.ktime = ⟨m.now, ktimeFallbackFreq, true⟩ := by
  obtain ⟨_, -, h⟩ := bind_eq_ok.mp h
  obtain ⟨ktime, hktime, h⟩ := bind_eq_ok.mp h
  rw [ktimeInit_of_not_ready rfl] at hktime
  cases hktime
  obtain ⟨_, -, h⟩ := bind_eq_ok.mp h
  obtain ⟨_, -, h⟩ := bind_eq_ok.mp h
  obtain ⟨⟨_, _, _⟩, -, h⟩ := bind_eq_ok.mp h
  obtain ⟨_, -, h⟩ := bind_eq_ok.mp h
  obtain ⟨_, -, h⟩ := bind_eq_ok.mp h
  obtain ⟨_, -, h⟩ := bind_eq_ok.mp h
  cases h
  rfl

/-- **The clock runs at `f` ticks a second.** -/
structure Ktime.RunsAt (k : Ktime) (f : ℕ) : Prop where
  freq : k.ktimeGetFreq.toNat = f
  /-- Unless the product overflows, milliseconds are the elapsed ticks over `f`. -/
  ms : ∀ t : BitVec 64, 1000 * t.toNat < 2 ^ 64 →
    (k.ktimeGetMs (k.bootTicks + t)).toNat = 1000 * t.toNat / f

/-- A clock that is ready runs at its frequency. -/
theorem Ktime.runsAt {k : Ktime} (hready : k.ready = true) (hf : k.tickFreq ≠ 0) :
    k.RunsAt k.tickFreq.toNat where
  freq := rfl
  ms := fun t ht => by
    have hticks : k.ktimeGetTicks (k.bootTicks + t) = t := by
      rw [ktimeGetTicks, hready, BitVec.add_comm]
      exact BitVec.add_sub_cancel t k.bootTicks
    have hfreq := k.tickFreq.isLt
    rw [ktimeGetMs, hticks, ktimeGetFreq, if_neg hf, BitVec.toNat_udiv, BitVec.toNat_mul,
      BitVec.toNat_setWidth, Nat.mod_eq_of_lt (lt_trans hfreq (by decide))]
    rw [show BitVec.toNat (1000 : BitVec 64) = 1000 from rfl, mul_comm, Nat.mod_eq_of_lt ht]

theorem Ktime.RunsAt.eq {k : Ktime} {f g : ℕ} (hf : k.RunsAt f) (hg : k.RunsAt g) : f = g :=
  hf.freq.symm.trans hg.freq

/-- **The device tree gives a frequency**: Limine passes a blob that `fdt_init`
accepts, and its node `/cpus` carries it. -/
def Machine.GivesFreq (m : Machine) (f : ℕ) : Prop :=
  ∃ mem base fdt cpus, m.dtbResponse = some (some (mem, base)) ∧ fdtInit mem base = ok fdt
    ∧ fdt.fdtFindNodeByPath cpusPath = ok cpus
    ∧ fdt.fdtGetU32 cpus timebaseFrequency = ok f ∧ f ≠ 0

/-- **After `dtb_init`, `ktime_init` would take that frequency.** -/
theorem Machine.GivesFreq.ktimeInit_eq (h : m.GivesFreq f) (now : BitVec 64) :
    ∃ dtb log, dtbInit m.dtbResponse = ok (true, dtb, log)
      ∧ ktimeInit dtb now = ok ⟨now, BitVec.ofNat 32 f, true⟩ := by
  obtain ⟨mem, base, fdt, cpus, hresponse, hfdt, hcpus, hprop, hf⟩ := h
  refine ⟨⟨fdt, true⟩, [], ?_, ktimeInit_of_ready rfl hcpus hprop hf⟩
  rw [hresponse, dtbInit, attempt_eq_some.mpr hfdt, ok_bind]

/-- **After `kmain` the clock runs at the frequency the device tree gives exactly if
that is the fallback frequency.** -/
theorem runsAt_iff (_h : m.GivesFreq f) (hrun : kmain M m (Kernel.start rest) = ok k) :
    k.ktime.RunsAt f ↔ f = 10000000 := by
  have hfallback : k.ktime.RunsAt 10000000 := by
    rw [kmain_ktime hrun]
    exact Ktime.runsAt (k := ⟨m.now, ktimeFallbackFreq, true⟩) rfl
      (show ktimeFallbackFreq ≠ 0 by decide)
  refine ⟨fun h => h.eq hfallback, ?_⟩
  rintro rfl
  exact hfallback

/-- The blob of a machine with nothing but the node `/cpus` and its
`timebase-frequency`. -/
def cpusBlob (freq : List UInt8) : List UInt8 :=
  [0xd0, 0x0d, 0xfe, 0xed, 0, 0, 0, 123, 0, 0, 0, 56, 0, 0, 0, 104, 0, 0, 0, 40,
    0, 0, 0, 17, 0, 0, 0, 16, 0, 0, 0, 0, 0, 0, 0, 19, 0, 0, 0, 48]
    ++ List.replicate 16 0
    ++ [0, 0, 0, 1, 0, 0, 0, 0, 0, 0, 0, 1] ++ asciiBytes "cpus" ++ [0, 0, 0, 0]
    ++ [0, 0, 0, 3, 0, 0, 0, 4, 0, 0, 0, 0] ++ freq
    ++ [0, 0, 0, 2, 0, 0, 0, 2, 0, 0, 0, 9] ++ asciiBytes "timebase-frequency" ++ [0]

/-- That machine. -/
def cpusMachine (freq : List UInt8) : Machine := ⟨true, some (some (cpusBlob freq, 4096)), 5⟩

/-- Modules that initialise without an error. -/
def quietModules : Modules Unit := ⟨ok, ok, ok, fun _ => ok, ok⟩

/-- The kernel of that machine. -/
def cpusKernel (freq : List UInt8) : Kernel Unit :=
  ⟨⟨5, ktimeFallbackFreq, true⟩, ⟨⟨cpusBlob freq, 4096, 56, 104, 104, 19⟩, true⟩, ()⟩

theorem runsAt_iff_cpusMachine :
    (cpusKernel [0, 0x98, 0x96, 0x80]).ktime.RunsAt 10000000 ↔ 10000000 = 10000000 :=
  runsAt_iff (show (cpusMachine [0, 0x98, 0x96, 0x80]).GivesFreq 10000000 from
    ⟨cpusBlob [0, 0x98, 0x96, 0x80], 4096,
      ⟨cpusBlob [0, 0x98, 0x96, 0x80], 4096, 56, 104, 104, 19⟩, ⟨8, 2, 1⟩, rfl, rfl,
      by decide +kernel, by decide +kernel, by decide⟩)
    (show kmain quietModules (cpusMachine [0, 0x98, 0x96, 0x80]) (Kernel.start ()) = _ from rfl)

/-- **A machine whose clock runs at 1 MHz**, and at 10 MHz for the kernel. -/
theorem not_runsAt_cpusMachine :
    (cpusMachine [0, 0x0f, 0x42, 0x40]).GivesFreq 1000000
      ∧ kmain quietModules (cpusMachine [0, 0x0f, 0x42, 0x40]) (Kernel.start ())
        = ok (cpusKernel [0, 0x0f, 0x42, 0x40])
      ∧ (cpusKernel [0, 0x0f, 0x42, 0x40]).ktime.ktimeGetFreq = 10000000
      ∧ ¬ (cpusKernel [0, 0x0f, 0x42, 0x40]).ktime.RunsAt 1000000 := by
  refine ⟨⟨cpusBlob [0, 0x0f, 0x42, 0x40], 4096,
    ⟨cpusBlob [0, 0x0f, 0x42, 0x40], 4096, 56, 104, 104, 19⟩, ⟨8, 2, 1⟩, rfl, rfl,
    by decide +kernel, by decide +kernel, by decide⟩, rfl, rfl, fun h => ?_⟩
  exact absurd h.freq (by decide)

end Frequency

end Kmain
