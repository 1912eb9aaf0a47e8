import Risky.Trap

/-!
# Programs that are interrupted

What `trap_init`, the stub and the handler are there for, said of whole runs. A hart in
supervisor mode may take an interrupt in front of any instruction (`Trap.takeInterrupt`),
goes through `trap_entry` and the handler, and returns by `sret`. A program that keeps
nothing below its stack pointer does not notice: after any number of interrupts, wherever
they come, it is where it would be without them (`Trap.interleaved_agree`). While the stub
saves and restores the registers interrupts are off, whatever the handler does in between.
-/

namespace Trap

open Rv64

/-! ## Taking an interrupt -/

/-- What an interrupt makes of `sstatus`: `SPIE` is `SIE`, `SIE` is cleared, and `SPP`
is the mode. -/
def trapStatus (sstatus : Word) (supervisor : Bool) : Word :=
  let spie := if sstatus.getLsbD 1 then sstatus ||| 0x20#64 else sstatus &&& ~~~ 0x20#64
  let sie := spie &&& ~~~ 0x2#64
  if supervisor then sie ||| 0x100#64 else sie &&& ~~~ 0x100#64

/-- **The hart takes an interrupt** and goes on at the address in `stvec`. -/
def takeInterrupt (stvec code : Word) (m : Hart) : Hart :=
  { m with
    csr := fun c => match c with
      | Csr.sstatus => trapStatus (m.csr Csr.sstatus) m.supervisor
      | Csr.sepc => m.pc
      | Csr.scause => scauseInterruptBit ||| code
      | Csr.stval => 0
    pc := stvec
    supervisor := true }

variable {m m' : Hart} {stvec code s : Word}

theorem takeInterrupt_scause : ((takeInterrupt stvec code m).csr Csr.scause).getLsbD 63 = true := by
  show (scauseInterruptBit ||| code).getLsbD 63 = true
  rw [BitVec.getLsbD_or, show scauseInterruptBit.getLsbD 63 = true by decide, Bool.true_or]

/-- The bits of `sstatus` that do not survive an interrupt: `SPIE` and `SPP`. -/
def lostBits : Word := 0x120#64

theorem getLsbD_two {i : ℕ} (hi : i < 64) (h : (0x2#64).getLsbD i = true) : i = 1 := by
  have hall : ∀ i < 64, (0x2#64).getLsbD i = true → i = 1 := by decide
  exact hall i hi h

theorem trapStatus_spp (s : Word) : (trapStatus s true).getLsbD 8 = true := by
  unfold trapStatus
  rw [if_pos rfl, BitVec.getLsbD_or]
  exact Bool.or_true _

/-- **Interrupts are off** once one is taken. -/
theorem trapStatus_sie (s : Word) (supervisor : Bool) :
    (trapStatus s supervisor).getLsbD 1 = false := by
  unfold trapStatus
  cases supervisor <;> simp

/-- **`sret` turns them on again**, and leaves everything else in `sstatus` as it was
before the interrupt. -/
theorem sretStatus_trapStatus (hsie : s.getLsbD 1 = true) :
    sretStatus (trapStatus s true) ||| lostBits = s ||| lostBits := by
  have hspie : (trapStatus s true).getLsbD 5 = true := by
    unfold trapStatus
    rw [if_pos hsie, if_pos rfl]
    simp
  unfold sretStatus
  rw [hspie, if_pos rfl]
  unfold trapStatus
  rw [if_pos hsie, if_pos rfl]
  refine BitVec.eq_of_getLsbD_eq (fun i hi => ?_)
  have hone : (0x2#64).getLsbD i = true → s.getLsbD i = true := fun h => getLsbD_two hi h ▸ hsie
  rw [show lostBits = 0x20#64 ||| 0x100#64 from rfl]
  simp only [BitVec.getLsbD_or, BitVec.getLsbD_and, BitVec.getLsbD_not, hi, decide_true,
    Bool.true_and]
  revert hone
  generalize (0x2#64).getLsbD i = b₂
  generalize (0x20#64).getLsbD i = b₅
  generalize (0x100#64).getLsbD i = b₈
  generalize s.getLsbD i = b
  revert b b₂ b₅ b₈
  decide

/-! ## What a program relies on -/

/-- **Two states that a program cannot tell apart**, if it owns some memory. -/
structure Agree (own : (Reg → Word) → Word → Set Word) (m m' : Hart) : Prop where
  reg : m'.reg = m.reg
  pc : m'.pc = m.pc
  supervisor : m'.supervisor = m.supervisor
  status : m'.csr Csr.sstatus ||| lostBits = m.csr Csr.sstatus ||| lostBits
  mem : ∀ x ∈ own m.reg m.pc, m'.mem x = m.mem x

variable {own : (Reg → Word) → Word → Set Word}

theorem Agree.refl (m : Hart) : Agree own m m := ⟨rfl, rfl, rfl, rfl, fun _ _ => rfl⟩

theorem Agree.trans {m'' : Hart} (h : Agree own m m') (h' : Agree own m' m'') :
    Agree own m m'' where
  reg := h'.reg.trans h.reg
  pc := h'.pc.trans h.pc
  supervisor := h'.supervisor.trans h.supervisor
  status := h'.status.trans h.status
  mem := fun x hx => by
    have hx' : x ∈ own m'.reg m'.pc := by rwa [h.reg, h.pc]
    exact (h'.mem x hx').trans (h.mem x hx)

/-- **A program**, by what one instruction of it does. It owns the memory that it relies
on, which may depend on where it is, and keeps nothing below its stack pointer. -/
structure Program where
  own : (Reg → Word) → Word → Set Word
  step : Hart → Hart
  /-- An instruction depends on what the program owns, and leaves what it owns then. -/
  step_agree : ∀ {m m'}, Agree own m m' → Agree own (step m) (step m')
  /-- There is no red zone. -/
  own_above : ∀ reg pc, ∀ x ∈ own reg pc,
    ¬ ((reg Reg.sp).toNat - tfSize ≤ x.toNat ∧ x.toNat < (reg Reg.sp).toNat)

/-- **The handler spares the program**: it stores to its own stack and variables only. -/
def Spares (handler : CompiledHandler) (P : Program) : Prop :=
  ∀ (stvec code : Word) (m : Hart) (e : Execution handler (takeInterrupt stvec code m)),
    ∀ x ∈ P.own m.reg m.pc, e.returned.mem x = (called (takeInterrupt stvec code m)).mem x

/-- **A run of `n` instructions of the program with interrupts in between.** -/
inductive Interleaved (handler : CompiledHandler) (P : Program) (stvec : Word) :
    ℕ → Hart → Hart → Prop where
  | start (m : Hart) : Interleaved handler P stvec 0 m m
  | step {n : ℕ} {m m' : Hart} (h : Interleaved handler P stvec n m m') :
      Interleaved handler P stvec (n + 1) m (P.step m')
  | interrupt {n : ℕ} {m m' : Hart} (h : Interleaved handler P stvec n m m')
      (hmode : m'.supervisor = true) (hsie : (m'.csr Csr.sstatus).getLsbD 1 = true)
      (hroom : tfSize ≤ (m'.reg Reg.sp).toNat) (code : Word)
      (e : Execution handler (takeInterrupt stvec code m')) :
      Interleaved handler P stvec n m e.resumed

section Runs

variable {handler : CompiledHandler} {P : Program} {n : ℕ}

/-- **One interrupt goes unnoticed.** -/
theorem resumed_agree (hspares : Spares handler P) (hmode : m.supervisor = true)
    (hsie : (m.csr Csr.sstatus).getLsbD 1 = true) (hroom : tfSize ≤ (m.reg Reg.sp).toNat)
    (e : Execution handler (takeInterrupt stvec code m)) : Agree P.own m e.resumed := by
  obtain ⟨-, -, hstatus, hepc, hmem⟩ := run_trapEntryRestore e.returned
  rw [← Execution.restored] at hstatus hepc hmem
  rw [e.returned_sp, e.frame_eq, called_frame_csr] at hstatus hepc
  have hsaved : e.restored.csr Csr.sstatus = trapStatus (m.csr Csr.sstatus) true := by
    rw [hstatus, ← hmode]
    rfl
  refine ⟨e.resumed_reg, e.resumed_pc.trans hepc, ?_, ?_, fun x hx => ?_⟩
  · show (e.restored.csr Csr.sstatus).getLsbD 8 = m.supervisor
    rw [hsaved, trapStatus_spp, hmode]
  · show sretStatus (e.restored.csr Csr.sstatus) ||| lostBits = _
    rw [hsaved, sretStatus_trapStatus hsie]
  · rw [e.resumed_mem, hmem, hspares stvec code m e x hx]
    exact called_mem_outside hroom (P.own_above m.reg m.pc x hx)

/-- **Interrupts go unnoticed, wherever they come.** After any run of the program with
interrupts in between, its registers, its program counter, its mode, its memory and, but
for `SPIE` and `SPP`, `sstatus` are what they are after as many instructions without
interrupts; and the handler returns from every further interrupt. On entry, when the
handler is called and before `sret` interrupts are off. -/
theorem interleaved_agree (hspares : Spares handler P) (h : Interleaved handler P stvec n m m') :
    Agree P.own (P.step^[n] m) m'
      ∧ ∀ code, ((takeInterrupt stvec code m').csr Csr.sstatus).getLsbD 1 = false
        ∧ ((called (takeInterrupt stvec code m')).csr Csr.sstatus).getLsbD 1 = false
        ∧ Nonempty (Execution handler (takeInterrupt stvec code m'))
        ∧ ∀ e : Execution handler (takeInterrupt stvec code m'),
          (e.restored.csr Csr.sstatus).getLsbD 1 = false := by
  constructor
  · induction h with
    | start m => exact Agree.refl m
    | step h ih =>
      rw [Function.iterate_succ_apply']
      exact P.step_agree ih
    | interrupt h hmode hsie hroom code e ih =>
      exact ih.trans (resumed_agree hspares hmode hsie hroom e)
  · intro code
    have hentry : ((takeInterrupt stvec code m').csr Csr.sstatus).getLsbD 1 = false :=
      trapStatus_sie _ _
    -- the stub writes no control register before it calls the handler
    have hcalled : (called (takeInterrupt stvec code m')).csr = (takeInterrupt stvec code m').csr :=
      rfl
    refine ⟨hentry, hcalled ▸ hentry, exists_execution takeInterrupt_scause, fun e => ?_⟩
    obtain ⟨-, -, hstatus, -⟩ := run_trapEntryRestore e.returned
    rw [← Execution.restored, e.returned_sp, e.frame_eq, called_frame_csr] at hstatus
    rw [hstatus]
    exact trapStatus_sie _ _

/-- A program that counts in `a0`, and owns its stack. -/
def counter : Program where
  own := fun reg _ => {x | (reg Reg.sp).toNat ≤ x.toNat}
  step := fun m => { (Instr.addi Reg.a0 Reg.a0 1).exec m with pc := m.pc + 4 }
  step_agree := fun {m m'} h => by
    refine ⟨?_, ?_, h.supervisor, h.status, fun x hx => h.mem x hx⟩
    · show Function.update m'.reg Reg.a0 (m'.reg Reg.a0 + _) = Function.update m.reg Reg.a0 _
      rw [h.reg]
    · show m'.pc + 4 = m.pc + 4
      rw [h.pc]
  own_above := fun _ _ _ hx hbelow => absurd hbelow.2 (not_lt.mpr hx)

theorem spares_quietHandler (P : Program) : Spares quietHandler P := by
  intro stvec code m e x _
  obtain ⟨link, hreturned, -⟩ := e.call
  rw [hreturned]
  rfl

/-- A hart in supervisor mode with interrupts on. -/
def countingHart : Hart where
  reg := fun _ => 4096
  csr := fun _ => 0x2#64
  mem := fun _ => 0
  pc := 0x80000000
  supervisor := true

/-- One step with a timer interrupt in front of it. -/
theorem interleaved_agree_counter : ∃ m', Interleaved quietHandler counter 0 1 countingHart m'
    ∧ Agree counter.own (counter.step^[1] countingHart) m'
      ∧ ∀ code, ((takeInterrupt 0 code m').csr Csr.sstatus).getLsbD 1 = false
        ∧ ((called (takeInterrupt 0 code m')).csr Csr.sstatus).getLsbD 1 = false
        ∧ Nonempty (Execution quietHandler (takeInterrupt 0 code m'))
        ∧ ∀ e : Execution quietHandler (takeInterrupt 0 code m'),
          (e.restored.csr Csr.sstatus).getLsbD 1 = false := by
  obtain ⟨e⟩ : Nonempty (Execution quietHandler (takeInterrupt 0 5 countingHart)) :=
    exists_execution takeInterrupt_scause
  have hrun : Interleaved quietHandler counter 0 1 countingHart (counter.step e.resumed) :=
    ((Interleaved.start countingHart).interrupt rfl (by decide) (by decide) 5 e).step
  exact ⟨_, hrun, interleaved_agree (spares_quietHandler counter) hrun⟩

end Runs

/-! ## Turning interrupts on and off -/

/-- **The control and status registers that `trap.c` writes.** -/
structure TrapCsrs where
  sstatus : Word
  sie : Word
  stvec : Word
  deriving DecidableEq, Repr

/-- `csr_set`. -/
def csrSet (v mask : Word) : Word := v ||| mask

/-- `csr_clear`. -/
def csrClear (v mask : Word) : Word := v &&& ~~~ mask

/-- `SSTATUS_SIE`. -/
def sstatusSie : Word := 1#64 <<< 1

/-- `SIE_SSIE | SIE_STIE | SIE_SEIE`. -/
def sieSources : Word := 1#64 <<< 1 ||| 1#64 <<< 5 ||| 1#64 <<< 9

/-- `STVEC_MODE_MASK`. -/
def stvecModeMask : Word := 0x3#64

/-- `STVEC_MODE_DIRECT`. -/
def stvecModeDirect : Word := 0

/-- `trap_enable_interrupts`. -/
def trapEnableInterrupts (c : TrapCsrs) : TrapCsrs :=
  { c with sstatus := csrSet c.sstatus sstatusSie }

/-- `trap_disable_interrupts`. -/
def trapDisableInterrupts (c : TrapCsrs) : TrapCsrs :=
  { c with sstatus := csrClear c.sstatus sstatusSie }

/-- `trap_enable_interrupt_sources`. -/
def trapEnableInterruptSources (c : TrapCsrs) : TrapCsrs :=
  { c with sie := csrSet c.sie sieSources }

/-- `trap_disable_interrupt_sources`. -/
def trapDisableInterruptSources (c : TrapCsrs) : TrapCsrs :=
  { c with sie := csrClear c.sie sieSources }

/-- `trap_init`, with `trap_entry` at an address. -/
def trapInit (trapEntry : Word) (c : TrapCsrs) : TrapCsrs :=
  let stvecValue := (trapEntry &&& ~~~ stvecModeMask) ||| stvecModeDirect
  let c := trapDisableInterrupts c
  let c := trapDisableInterruptSources c
  { c with stvec := stvecValue }

/-- A call of `trap.c` that writes them. -/
inductive TrapCall where
  | enableInterrupts
  | disableInterrupts
  | enableInterruptSources
  | disableInterruptSources
  deriving DecidableEq, Repr

/-- What it does. -/
def TrapCall.run : TrapCall → TrapCsrs → TrapCsrs
  | enableInterrupts => trapEnableInterrupts
  | disableInterrupts => trapDisableInterrupts
  | enableInterruptSources => trapEnableInterruptSources
  | disableInterruptSources => trapDisableInterruptSources

/-- **What the calls are for**: two switches. -/
structure Switches where
  interrupts : Bool
  sources : Bool
  deriving DecidableEq, Repr

/-- What a call does to the switches. -/
def TrapCall.switch : TrapCall → Switches → Switches
  | enableInterrupts, w => { w with interrupts := true }
  | disableInterrupts, w => { w with interrupts := false }
  | enableInterruptSources, w => { w with sources := true }
  | disableInterruptSources, w => { w with sources := false }

/-- A register with the bits of a mask on or off. -/
def switched (on : Bool) (v mask : Word) : Word := if on then csrSet v mask else csrClear v mask

theorem getLsbD_switched (on : Bool) (v mask : Word) {i : ℕ} (hi : i < 64) :
    (switched on v mask).getLsbD i = if mask.getLsbD i then on else v.getLsbD i := by
  unfold switched csrSet csrClear
  cases on with
  | true =>
    rw [if_pos rfl, BitVec.getLsbD_or]
    cases mask.getLsbD i <;> simp
  | false =>
    rw [if_neg (by decide), BitVec.getLsbD_and, BitVec.getLsbD_not, decide_eq_true hi]
    cases mask.getLsbD i <;> simp

/-- Only the last switch counts. -/
theorem switched_switched (on on' : Bool) (v mask : Word) :
    switched on (switched on' v mask) mask = switched on v mask := by
  refine BitVec.eq_of_getLsbD_eq (fun i hi => ?_)
  rw [getLsbD_switched _ _ _ hi, getLsbD_switched _ _ _ hi, getLsbD_switched _ _ _ hi]
  split <;> rfl

/-- A bit that is not in the mask is left as it is. -/
theorem getLsbD_switched_of_not {on : Bool} {v mask : Word} {i : ℕ}
    (hmask : mask.getLsbD i = false) : (switched on v mask).getLsbD i = v.getLsbD i := by
  by_cases hi : i < 64
  · rw [getLsbD_switched on v mask hi, hmask, if_neg Bool.false_ne_true]
  · rw [BitVec.getLsbD_of_ge _ _ (not_lt.mp hi), BitVec.getLsbD_of_ge _ _ (not_lt.mp hi)]

/-- **The registers represent the switches**, and are otherwise as they were. -/
structure RepresentsSwitches (c₀ c : TrapCsrs) (w : Switches) (trapEntry : Word) : Prop where
  sstatus : c.sstatus = switched w.interrupts c₀.sstatus sstatusSie
  sie : c.sie = switched w.sources c₀.sie sieSources
  stvec : c.stvec = trapEntry &&& ~~~ stvecModeMask

variable {c₀ c : TrapCsrs} {w : Switches} {trapEntry : Word}

theorem representsSwitches_trapInit (c₀ : TrapCsrs) (trapEntry : Word) :
    RepresentsSwitches c₀ (trapInit trapEntry c₀) ⟨false, false⟩ trapEntry :=
  ⟨rfl, rfl, BitVec.or_zero⟩

/-- **A call turns a switch.** -/
theorem RepresentsSwitches.run (h : RepresentsSwitches c₀ c w trapEntry) (call : TrapCall) :
    RepresentsSwitches c₀ (call.run c) (call.switch w) trapEntry := by
  have hsstatus : ∀ on, switched on c.sstatus sstatusSie = switched on c₀.sstatus sstatusSie := by
    intro on
    rw [h.sstatus, switched_switched]
  have hsie : ∀ on, switched on c.sie sieSources = switched on c₀.sie sieSources := by
    intro on
    rw [h.sie, switched_switched]
  cases call with
  | enableInterrupts => exact ⟨hsstatus true, h.sie, h.stvec⟩
  | disableInterrupts => exact ⟨hsstatus false, h.sie, h.stvec⟩
  | enableInterruptSources => exact ⟨h.sstatus, hsie true, h.stvec⟩
  | disableInterruptSources => exact ⟨h.sstatus, hsie false, h.stvec⟩

theorem RepresentsSwitches.runs (h : RepresentsSwitches c₀ c w trapEntry) (calls : List TrapCall) :
    RepresentsSwitches c₀ (calls.foldl (fun c call => call.run c) c)
      (calls.foldl (fun w call => call.switch w) w) trapEntry := by
  induction calls generalizing c w with
  | nil => exact h
  | cons call calls ih => exact ih (h.run call)

/-- **An interrupt that is pending is taken in supervisor mode.** -/
def Takes (c : TrapCsrs) (sip : Word) (code : ℕ) : Prop :=
  c.sstatus.getLsbD 1 = true ∧ (c.sie &&& sip).getLsbD code = true

/-- **Interrupts are taken exactly while both switches are on.** In every run of the calls
after `trap_init`, whatever the registers were before, the pending software, timer and
external interrupts are taken exactly if interrupts and their sources have been enabled
last, interrupts enter the stub, and no other bit of the two registers ever changes. -/
theorem takes_iff (c₀ : TrapCsrs) (trapEntry : Word) (calls : List TrapCall) :
    ∃ c, calls.foldl (fun c call => call.run c) (trapInit trapEntry c₀) = c
      ∧ (∀ sip, ∀ code ∈ [1, 5, 9], Takes c sip code
        ↔ calls.foldl (fun w call => call.switch w) ⟨false, false⟩ = ⟨true, true⟩
          ∧ sip.getLsbD code = true)
      ∧ c.stvec = trapEntry &&& ~~~ stvecModeMask
      ∧ (∀ i, i ≠ 1 → c.sstatus.getLsbD i = c₀.sstatus.getLsbD i)
      ∧ ∀ i, i ∉ [1, 5, 9] → c.sie.getLsbD i = c₀.sie.getLsbD i := by
  have h := (representsSwitches_trapInit c₀ trapEntry).runs calls
  generalize calls.foldl (fun w call => TrapCall.switch call w) ⟨false, false⟩ = w at h ⊢
  have hone : ∀ i, i ≠ 1 → sstatusSie.getLsbD i = false := by
    intro i hi
    by_cases hlt : i < 64
    · have hall : ∀ i < 64, i ≠ 1 → sstatusSie.getLsbD i = false := by decide
      exact hall i hlt hi
    · exact BitVec.getLsbD_of_ge _ _ (not_lt.mp hlt)
  have hsources : ∀ i, sieSources.getLsbD i = decide (i ∈ [1, 5, 9]) := by
    intro i
    by_cases hlt : i < 64
    · have hall : ∀ i < 64, sieSources.getLsbD i = decide (i ∈ [1, 5, 9]) := by decide
      exact hall i hlt
    · rw [BitVec.getLsbD_of_ge _ _ (not_lt.mp hlt)]
      simp
      omega
  refine ⟨_, rfl, fun sip code hcode => ?_, h.stvec, fun i hi => ?_, fun i hi => ?_⟩
  · have hlt : code < 64 := by
      have hall : ∀ code ∈ [1, 5, 9], code < 64 := by decide
      exact hall code hcode
    unfold Takes
    rw [h.sstatus, h.sie, BitVec.getLsbD_and, getLsbD_switched _ _ _ (by decide),
      getLsbD_switched _ _ _ hlt, hsources, decide_eq_true hcode, if_pos rfl,
      if_pos (by decide), Bool.and_eq_true]
    obtain ⟨interrupts, sources⟩ := w
    simp only [Switches.mk.injEq, and_assoc]
  · rw [h.sstatus]
    exact getLsbD_switched_of_not (hone i hi)
  · rw [h.sie]
    exact getLsbD_switched_of_not (by rw [hsources]; exact decide_eq_false hi)

end Trap
