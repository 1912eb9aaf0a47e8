import Risky.Printk
import Risky.Rv64

/-!
# Traps

The model of `platform/generic/trap.S`, `trap.h` and `trap.c`. The stub `trap_entry`
saves the interrupted context in a frame below the stack pointer, passes the frame to
`trap_handler` and restores the context from it. The frame is described twice, by the
offsets `TF_*` of the stub (`Trap.tfReg`, `Trap.tfCsr`) and by `struct trap_frame`
(`Trap.offsetof`); the two agree (`Trap.offsetof_reg`, `Trap.offsetof_csr`).

An interrupt is transparent: `Trap.interrupt_transparent`. The frame itself is not a
faithful record: the stub moves the stack pointer before it stores it, so that the
handler reads a stack pointer `TF_SIZE` below the interrupted one
(`Trap.called_frame_sp`).
-/

namespace Trap

open Rv64
open Printk (Line literal)

/-! ## The frame -/

/-- `TF_RA` to `TF_T6`. -/
def tfReg : Reg → ℕ
  | Reg.ra => 0
  | Reg.sp => 8
  | Reg.gp => 16
  | Reg.tp => 24
  | Reg.t0 => 32
  | Reg.t1 => 40
  | Reg.t2 => 48
  | Reg.s0 => 56
  | Reg.s1 => 64
  | Reg.a0 => 72
  | Reg.a1 => 80
  | Reg.a2 => 88
  | Reg.a3 => 96
  | Reg.a4 => 104
  | Reg.a5 => 112
  | Reg.a6 => 120
  | Reg.a7 => 128
  | Reg.s2 => 136
  | Reg.s3 => 144
  | Reg.s4 => 152
  | Reg.s5 => 160
  | Reg.s6 => 168
  | Reg.s7 => 176
  | Reg.s8 => 184
  | Reg.s9 => 192
  | Reg.s10 => 200
  | Reg.s11 => 208
  | Reg.t3 => 216
  | Reg.t4 => 224
  | Reg.t5 => 232
  | Reg.t6 => 240

/-- `TF_SSTATUS` to `TF_STVAL`. -/
def tfCsr : Csr → ℕ
  | Csr.sstatus => 248
  | Csr.sepc => 256
  | Csr.scause => 264
  | Csr.stval => 272

/-- `TF_SIZE`. -/
def tfSize : ℕ := 288

/-- A member of `struct trap_frame`. -/
inductive Field where
  | reg (r : Reg)
  | csr (c : Csr)
  | padding
  deriving DecidableEq, Repr

/-- **The members of `struct trap_frame`** in the order of their declaration. -/
def members : List Field :=
  [Field.reg Reg.ra, Field.reg Reg.sp, Field.reg Reg.gp, Field.reg Reg.tp,
    Field.reg Reg.t0, Field.reg Reg.t1, Field.reg Reg.t2,
    Field.reg Reg.s0, Field.reg Reg.s1,
    Field.reg Reg.a0, Field.reg Reg.a1, Field.reg Reg.a2, Field.reg Reg.a3,
    Field.reg Reg.a4, Field.reg Reg.a5, Field.reg Reg.a6, Field.reg Reg.a7,
    Field.reg Reg.s2, Field.reg Reg.s3, Field.reg Reg.s4, Field.reg Reg.s5,
    Field.reg Reg.s6, Field.reg Reg.s7, Field.reg Reg.s8, Field.reg Reg.s9,
    Field.reg Reg.s10, Field.reg Reg.s11,
    Field.reg Reg.t3, Field.reg Reg.t4, Field.reg Reg.t5, Field.reg Reg.t6,
    Field.csr Csr.sstatus, Field.csr Csr.sepc, Field.csr Csr.scause, Field.csr Csr.stval,
    Field.padding]

/-- The offset of a member: every one is a `uint64_t`. -/
def offsetof (f : Field) : ℕ := 8 * members.idxOf f

/-- **`struct trap_frame`**, by its members. -/
abbrev TrapFrame := Field → Word

/-- The frame at an address. -/
def frameAt (mem : Mem) (a : Word) : TrapFrame :=
  fun f => load mem (a + BitVec.ofNat 64 (offsetof f))

/-- **The two descriptions of the frame agree** on the general registers. -/
theorem offsetof_reg (r : Reg) : offsetof (Field.reg r) = tfReg r := by
  cases r <;> rfl

/-- The two descriptions of the frame agree on the control and status registers. -/
theorem offsetof_csr (c : Csr) : offsetof (Field.csr c) = tfCsr c := by
  cases c <;> rfl

/-! ## The handler -/

/-- **How `trap_handler` ends**: it returns and leaves a frame behind, or it has
called `kpanic`, which never returns. -/
inductive Handled where
  | returned (tf : TrapFrame) (log : List Line)
  | panicked (log : List Line)

/-- `SCAUSE_INTERRUPT_BIT`. -/
def scauseInterruptBit : Word := 1#64 <<< 63

/-- `SCAUSE_CAUSE_MASK`. -/
def scauseCauseMask : Word := ~~~ scauseInterruptBit

/-- `SSTATUS_SPP`. -/
def sstatusSpp : Word := 1#64 <<< 8

/-- `trap_interrupt_name`. -/
def trapInterruptName (cause : Word) : String :=
  if cause = 1 then "supervisor software interrupt"
  else if cause = 5 then "supervisor timer interrupt"
  else if cause = 9 then "supervisor external interrupt"
  else "unknown supervisor interrupt"

/-- `trap_exception_name`. -/
def trapExceptionName (cause : Word) : String :=
  if cause = 0 then "instruction address misaligned"
  else if cause = 1 then "instruction access fault"
  else if cause = 2 then "illegal instruction"
  else if cause = 3 then "breakpoint"
  else if cause = 4 then "load address misaligned"
  else if cause = 5 then "load access fault"
  else if cause = 6 then "store/AMO address misaligned"
  else if cause = 7 then "store/AMO access fault"
  else if cause = 8 then "environment call from U-mode"
  else if cause = 9 then "environment call from S-mode"
  else if cause = 12 then "instruction page fault"
  else if cause = 13 then "load page fault"
  else if cause = 15 then "store/AMO page fault"
  else "unknown exception"

/-- `trap_mode_name`. -/
def trapModeName (tf : TrapFrame) : String :=
  if tf (Field.csr Csr.sstatus) &&& sstatusSpp ≠ 0 then "S-mode" else "U-mode"

/-- A line of registers. -/
def regLine (tf : TrapFrame) (fmt : String) (rs : List Reg) : Line :=
  ⟨fmt, rs.map (fun r => Printk.Arg.long (tf (Field.reg r)))⟩

/-- `trap_dump_frame`. -/
def trapDumpFrame (tf : TrapFrame) : List Line :=
  [⟨"mode:    %s", [literal (trapModeName tf)]⟩,
    ⟨"sepc:    0x%016lx", [Printk.Arg.long (tf (Field.csr Csr.sepc))]⟩,
    ⟨"sstatus: 0x%016lx", [Printk.Arg.long (tf (Field.csr Csr.sstatus))]⟩,
    ⟨"scause:  0x%016lx", [Printk.Arg.long (tf (Field.csr Csr.scause))]⟩,
    ⟨"stval:   0x%016lx", [Printk.Arg.long (tf (Field.csr Csr.stval))]⟩,
    regLine tf "ra: 0x%016lx  sp: 0x%016lx  gp: 0x%016lx  tp: 0x%016lx"
      [Reg.ra, Reg.sp, Reg.gp, Reg.tp],
    regLine tf "t0: 0x%016lx  t1: 0x%016lx  t2: 0x%016lx" [Reg.t0, Reg.t1, Reg.t2],
    regLine tf "s0: 0x%016lx  s1: 0x%016lx" [Reg.s0, Reg.s1],
    regLine tf "a0: 0x%016lx  a1: 0x%016lx  a2: 0x%016lx  a3: 0x%016lx"
      [Reg.a0, Reg.a1, Reg.a2, Reg.a3],
    regLine tf "a4: 0x%016lx  a5: 0x%016lx  a6: 0x%016lx  a7: 0x%016lx"
      [Reg.a4, Reg.a5, Reg.a6, Reg.a7],
    regLine tf "s2: 0x%016lx  s3: 0x%016lx  s4: 0x%016lx  s5: 0x%016lx"
      [Reg.s2, Reg.s3, Reg.s4, Reg.s5],
    regLine tf "s6: 0x%016lx  s7: 0x%016lx  s8: 0x%016lx  s9: 0x%016lx"
      [Reg.s6, Reg.s7, Reg.s8, Reg.s9],
    regLine tf "s10:0x%016lx  s11:0x%016lx" [Reg.s10, Reg.s11],
    regLine tf "t3: 0x%016lx  t4: 0x%016lx  t5: 0x%016lx  t6: 0x%016lx"
      [Reg.t3, Reg.t4, Reg.t5, Reg.t6]]

/-- `kpanic`, called with a frame. -/
def kpanic (tf : TrapFrame) (line : Line) : Handled :=
  let raw := tf (Field.csr Csr.scause)
  let isInterrupt := raw &&& scauseInterruptBit
  let cause := raw &&& scauseCauseMask
  Handled.panicked ([⟨"", []⟩, ⟨"------------[ kernel panic ]------------", []⟩, line,
    ⟨"trap: %s cause=%lu <%s>",
      [literal (if isInterrupt ≠ 0 then "interrupt" else "exception"), Printk.Arg.long cause,
        literal (if isInterrupt ≠ 0 then trapInterruptName cause
          else trapExceptionName cause)]⟩]
    ++ trapDumpFrame tf ++ [⟨"----------------------------------------", []⟩])

/-- `handle_interrupt`. -/
def handleInterrupt (tf : TrapFrame) (cause : Word) : Handled :=
  if cause = 5 then Handled.returned tf []
  else Handled.returned tf
    [⟨"trap: ignoring unhandled interrupt cause=%lu <%s> sepc=0x%lx stval=0x%lx",
      [Printk.Arg.long cause, literal (trapInterruptName cause),
        Printk.Arg.long (tf (Field.csr Csr.sepc)), Printk.Arg.long (tf (Field.csr Csr.stval))]⟩]

/-- `tf->sepc += 4`. -/
def skipEcall (tf : TrapFrame) : TrapFrame :=
  Function.update tf (Field.csr Csr.sepc) (tf (Field.csr Csr.sepc) + 4)

/-- `handle_exception`. -/
def handleException (tf : TrapFrame) (cause : Word) : Handled :=
  let sepc := Printk.Arg.long (tf (Field.csr Csr.sepc))
  if cause = 8 then kpanic (skipEcall tf) ⟨"U-mode ecall", []⟩
  else if cause = 9 then kpanic (skipEcall tf) ⟨"S-mode ecall", []⟩
  else if cause = 3 then kpanic tf ⟨"breakpoint", []⟩
  else if cause = 2 then kpanic tf ⟨"illegal instruction at sepc=0x%lx", [sepc]⟩
  else if cause = 12 ∨ cause = 13 ∨ cause = 15 then
    kpanic tf ⟨"page fault at sepc=0x%lx fault=0x%lx",
      [sepc, Printk.Arg.long (tf (Field.csr Csr.stval))]⟩
  else if cause = 0 ∨ cause = 1 ∨ cause = 4 ∨ cause = 5 ∨ cause = 6 ∨ cause = 7 then
    kpanic tf ⟨"%s", [literal (trapExceptionName cause)]⟩
  else kpanic tf ⟨"unhandled exception cause=%lu", [Printk.Arg.long cause]⟩

/-- **`trap_handler`**. -/
def trapHandler (tf : TrapFrame) : Handled :=
  let raw := tf (Field.csr Csr.scause)
  let isInterrupt := raw &&& scauseInterruptBit
  let cause := raw &&& scauseCauseMask
  if isInterrupt ≠ 0 then handleInterrupt tf cause else handleException tf cause

/-- An interrupt leaves the frame as it is. -/
theorem handleInterrupt_eq (tf : TrapFrame) (cause : Word) :
    ∃ log, handleInterrupt tf cause = Handled.returned tf log := by
  unfold handleInterrupt
  split <;> exact ⟨_, rfl⟩

/-- No exception is survived. -/
theorem handleException_eq (tf : TrapFrame) (cause : Word) :
    ∃ log, handleException tf cause = Handled.panicked log := by
  simp only [handleException, kpanic]
  split_ifs <;> exact ⟨_, rfl⟩

/-- **A frame that the handler returns is the frame that it was passed.** -/
theorem eq_of_trapHandler {tf tf' : TrapFrame} {log : List Line}
    (h : trapHandler tf = Handled.returned tf' log) : tf' = tf := by
  simp only [trapHandler] at h
  split_ifs at h
  · obtain ⟨log', hlog⟩ := handleInterrupt_eq tf (tf (Field.csr Csr.scause) &&& scauseCauseMask)
    rw [hlog] at h
    cases h
    rfl
  · obtain ⟨log', hlog⟩ := handleException_eq tf (tf (Field.csr Csr.scause) &&& scauseCauseMask)
    rw [hlog] at h
    exact Handled.noConfusion h

/-- **The handler returns from every interrupt.** -/
theorem trapHandler_of_interrupt {tf : TrapFrame}
    (h : (tf (Field.csr Csr.scause)).getLsbD 63 = true) :
    ∃ log, trapHandler tf = Handled.returned tf log := by
  have hbit : tf (Field.csr Csr.scause) &&& scauseInterruptBit ≠ 0 := fun hzero => by
    have hbits := congrArg (fun v => BitVec.getLsbD v 63) hzero
    rw [show BitVec.getLsbD (_ &&& _) 63 = _ from BitVec.getLsbD_and, h] at hbits
    exact Bool.noConfusion hbits
  rw [trapHandler, if_pos hbit]
  exact handleInterrupt_eq tf _

/-- **The compiled handler**: a function that follows the calling convention, returns
where `trap_handler` does and writes to the frame at `a0` what `trap_handler` does. -/
structure CompiledHandler extends Callee where
  frame : ∀ m m', returns m m' → ∃ log, trapHandler (frameAt m.mem (m.reg Reg.a0))
    = Handled.returned (frameAt m'.mem (m.reg Reg.a0)) log
  total : ∀ m tf log, trapHandler (frameAt m.mem (m.reg Reg.a0)) = Handled.returned tf log →
    ∃ m', returns m m'

/-! ## The stub -/

/-- `trap_entry` up to `call trap_handler`. -/
def trapEntrySave : List Instr :=
  [Instr.addi Reg.sp Reg.sp (-tfSize),
    Instr.sd Reg.ra (tfReg Reg.ra) Reg.sp,
    Instr.sd Reg.sp (tfReg Reg.sp) Reg.sp,
    Instr.sd Reg.gp (tfReg Reg.gp) Reg.sp,
    Instr.sd Reg.tp (tfReg Reg.tp) Reg.sp,
    Instr.sd Reg.t0 (tfReg Reg.t0) Reg.sp,
    Instr.sd Reg.t1 (tfReg Reg.t1) Reg.sp,
    Instr.sd Reg.t2 (tfReg Reg.t2) Reg.sp,
    Instr.sd Reg.s0 (tfReg Reg.s0) Reg.sp,
    Instr.sd Reg.s1 (tfReg Reg.s1) Reg.sp,
    Instr.sd Reg.a0 (tfReg Reg.a0) Reg.sp,
    Instr.sd Reg.a1 (tfReg Reg.a1) Reg.sp,
    Instr.sd Reg.a2 (tfReg Reg.a2) Reg.sp,
    Instr.sd Reg.a3 (tfReg Reg.a3) Reg.sp,
    Instr.sd Reg.a4 (tfReg Reg.a4) Reg.sp,
    Instr.sd Reg.a5 (tfReg Reg.a5) Reg.sp,
    Instr.sd Reg.a6 (tfReg Reg.a6) Reg.sp,
    Instr.sd Reg.a7 (tfReg Reg.a7) Reg.sp,
    Instr.sd Reg.s2 (tfReg Reg.s2) Reg.sp,
    Instr.sd Reg.s3 (tfReg Reg.s3) Reg.sp,
    Instr.sd Reg.s4 (tfReg Reg.s4) Reg.sp,
    Instr.sd Reg.s5 (tfReg Reg.s5) Reg.sp,
    Instr.sd Reg.s6 (tfReg Reg.s6) Reg.sp,
    Instr.sd Reg.s7 (tfReg Reg.s7) Reg.sp,
    Instr.sd Reg.s8 (tfReg Reg.s8) Reg.sp,
    Instr.sd Reg.s9 (tfReg Reg.s9) Reg.sp,
    Instr.sd Reg.s10 (tfReg Reg.s10) Reg.sp,
    Instr.sd Reg.s11 (tfReg Reg.s11) Reg.sp,
    Instr.sd Reg.t3 (tfReg Reg.t3) Reg.sp,
    Instr.sd Reg.t4 (tfReg Reg.t4) Reg.sp,
    Instr.sd Reg.t5 (tfReg Reg.t5) Reg.sp,
    Instr.sd Reg.t6 (tfReg Reg.t6) Reg.sp,
    Instr.csrr Reg.t0 Csr.sstatus,
    Instr.sd Reg.t0 (tfCsr Csr.sstatus) Reg.sp,
    Instr.csrr Reg.t0 Csr.sepc,
    Instr.sd Reg.t0 (tfCsr Csr.sepc) Reg.sp,
    Instr.csrr Reg.t0 Csr.scause,
    Instr.sd Reg.t0 (tfCsr Csr.scause) Reg.sp,
    Instr.csrr Reg.t0 Csr.stval,
    Instr.sd Reg.t0 (tfCsr Csr.stval) Reg.sp,
    Instr.mv Reg.a0 Reg.sp]

/-- `trap_entry` from the return of `trap_handler` to `sret`, which is left out. -/
def trapEntryRestore : List Instr :=
  [Instr.ld Reg.t0 (tfCsr Csr.sstatus) Reg.sp,
    Instr.csrw Csr.sstatus Reg.t0,
    Instr.ld Reg.t0 (tfCsr Csr.sepc) Reg.sp,
    Instr.csrw Csr.sepc Reg.t0,
    Instr.ld Reg.ra (tfReg Reg.ra) Reg.sp,
    Instr.ld Reg.gp (tfReg Reg.gp) Reg.sp,
    Instr.ld Reg.tp (tfReg Reg.tp) Reg.sp,
    Instr.ld Reg.t0 (tfReg Reg.t0) Reg.sp,
    Instr.ld Reg.t1 (tfReg Reg.t1) Reg.sp,
    Instr.ld Reg.t2 (tfReg Reg.t2) Reg.sp,
    Instr.ld Reg.s0 (tfReg Reg.s0) Reg.sp,
    Instr.ld Reg.s1 (tfReg Reg.s1) Reg.sp,
    Instr.ld Reg.a0 (tfReg Reg.a0) Reg.sp,
    Instr.ld Reg.a1 (tfReg Reg.a1) Reg.sp,
    Instr.ld Reg.a2 (tfReg Reg.a2) Reg.sp,
    Instr.ld Reg.a3 (tfReg Reg.a3) Reg.sp,
    Instr.ld Reg.a4 (tfReg Reg.a4) Reg.sp,
    Instr.ld Reg.a5 (tfReg Reg.a5) Reg.sp,
    Instr.ld Reg.a6 (tfReg Reg.a6) Reg.sp,
    Instr.ld Reg.a7 (tfReg Reg.a7) Reg.sp,
    Instr.ld Reg.s2 (tfReg Reg.s2) Reg.sp,
    Instr.ld Reg.s3 (tfReg Reg.s3) Reg.sp,
    Instr.ld Reg.s4 (tfReg Reg.s4) Reg.sp,
    Instr.ld Reg.s5 (tfReg Reg.s5) Reg.sp,
    Instr.ld Reg.s6 (tfReg Reg.s6) Reg.sp,
    Instr.ld Reg.s7 (tfReg Reg.s7) Reg.sp,
    Instr.ld Reg.s8 (tfReg Reg.s8) Reg.sp,
    Instr.ld Reg.s9 (tfReg Reg.s9) Reg.sp,
    Instr.ld Reg.s10 (tfReg Reg.s10) Reg.sp,
    Instr.ld Reg.s11 (tfReg Reg.s11) Reg.sp,
    Instr.ld Reg.t3 (tfReg Reg.t3) Reg.sp,
    Instr.ld Reg.t4 (tfReg Reg.t4) Reg.sp,
    Instr.ld Reg.t5 (tfReg Reg.t5) Reg.sp,
    Instr.ld Reg.t6 (tfReg Reg.t6) Reg.sp,
    Instr.addi Reg.sp Reg.sp tfSize]

/-- The state in which `trap_handler` is called. -/
def called (m : Hart) : Hart := run trapEntrySave m

/-- **An execution of `trap_entry`**, which is determined by the state that
`trap_handler` returns in. -/
structure Execution (handler : CompiledHandler) (m : Hart) where
  returned : Hart
  call : handler.Call (called m) returned

/-- The state before `sret`. -/
def Execution.restored {handler : CompiledHandler} {m : Hart} (e : Execution handler m) : Hart :=
  run trapEntryRestore e.returned

/-- **The state after `sret`.** -/
def Execution.resumed {handler : CompiledHandler} {m : Hart} (e : Execution handler m) : Hart :=
  Instr.sret.exec e.restored

/-! ## Saving -/

/-- The stack pointer while the handler runs. -/
def frameBase (m : Hart) : Word := m.reg Reg.sp + BitVec.ofInt 64 (-tfSize)

/-- The general registers in the order in which they are saved. -/
def saveOrder : List Reg :=
  [Reg.ra, Reg.sp, Reg.gp, Reg.tp, Reg.t0, Reg.t1, Reg.t2, Reg.s0, Reg.s1,
    Reg.a0, Reg.a1, Reg.a2, Reg.a3, Reg.a4, Reg.a5, Reg.a6, Reg.a7,
    Reg.s2, Reg.s3, Reg.s4, Reg.s5, Reg.s6, Reg.s7, Reg.s8, Reg.s9, Reg.s10, Reg.s11,
    Reg.t3, Reg.t4, Reg.t5, Reg.t6]

theorem mem_saveOrder (r : Reg) : r ∈ saveOrder := by
  cases r <;> decide

/-- What the stub stores, and where: the stack pointer is the one that it has
already moved. -/
def saved (m : Hart) : List (ℕ × Word) :=
  saveOrder.map (fun r => (tfReg r, (m.setReg Reg.sp (frameBase m)).reg r))
    ++ [Csr.sstatus, Csr.sepc, Csr.scause, Csr.stval].map (fun c => (tfCsr c, m.csr c))

/-- **The stub is a block of stores.** -/
theorem called_mem (m : Hart) : (called m).mem = storeAll (frameBase m) m.mem (saved m) := rfl

theorem called_a0 (m : Hart) : (called m).reg Reg.a0 = frameBase m := rfl

/-- The offsets of the stores. -/
def savedOffsets : List ℕ :=
  saveOrder.map tfReg ++ [Csr.sstatus, Csr.sepc, Csr.scause, Csr.stval].map tfCsr

theorem saved_offsets (m : Hart) : (saved m).map Prod.fst = savedOffsets := rfl

/-- **No two stores overlap**, and all are inside the frame. -/
theorem savedOffsets_apart : savedOffsets.Pairwise Apart := by decide

theorem savedOffsets_le : ∀ o ∈ savedOffsets, o + 8 ≤ tfSize := by decide

/-- What is stored is in the frame. -/
theorem load_called {m : Hart} {o : ℕ} {v : Word} (h : (o, v) ∈ saved m) :
    load (called m).mem (frameBase m + BitVec.ofNat 64 o) = v := by
  rw [called_mem]
  refine load_storeAll ?_ (fun o ho => ?_) h
  · rw [saved_offsets]
    exact savedOffsets_apart
  · rw [saved_offsets] at ho
    exact lt_of_le_of_lt (savedOffsets_le o ho |> Nat.le_of_add_right_le) (by decide)

theorem called_frame_reg {m : Hart} {r : Reg} (hr : r ≠ Reg.sp) :
    frameAt (called m).mem (frameBase m) (Field.reg r) = m.reg r := by
  rw [frameAt, offsetof_reg]
  refine load_called (List.mem_append_left _ (List.mem_map.mpr ⟨r, mem_saveOrder r, ?_⟩))
  rw [Hart.setReg_reg, Function.update_of_ne hr]

/-- **The stack pointer of the frame is the frame's own address.** -/
theorem called_frame_sp (m : Hart) :
    frameAt (called m).mem (frameBase m) (Field.reg Reg.sp) = frameBase m := by
  rw [frameAt, offsetof_reg]
  refine load_called (List.mem_append_left _ (List.mem_map.mpr ⟨_, mem_saveOrder Reg.sp, ?_⟩))
  rw [Hart.setReg_reg, Function.update_self]

theorem called_frame_csr (m : Hart) (c : Csr) :
    frameAt (called m).mem (frameBase m) (Field.csr c) = m.csr c := by
  rw [frameAt, offsetof_csr]
  refine load_called (List.mem_append_right _ (List.mem_map.mpr ⟨c, ?_, rfl⟩))
  cases c <;> decide

/-- The stub stores to the frame only. -/
theorem called_mem_of_le {m : Hart} {x : Word} (h : tfSize ≤ (x - frameBase m).toNat) :
    (called m).mem x = m.mem x := by
  rw [called_mem]
  refine storeAll_of_le (fun o ho => savedOffsets_le o ?_) (by decide) h
  rwa [saved_offsets] at ho

/-- **Saving changes nothing above the stack pointer and nothing below the frame.** -/
theorem called_mem_outside {m : Hart} {x : Word} (hsp : tfSize ≤ (m.reg Reg.sp).toNat)
    (hx : ¬ ((m.reg Reg.sp).toNat - tfSize ≤ x.toNat ∧ x.toNat < (m.reg Reg.sp).toNat)) :
    (called m).mem x = m.mem x := by
  refine called_mem_of_le ?_
  have hdiff : x - frameBase m = x - m.reg Reg.sp + 288#64 := by
    unfold frameBase tfSize
    bv_omega
  have hsp' := (m.reg Reg.sp).isLt
  have hx' := x.isLt
  rw [hdiff, BitVec.toNat_add, BitVec.toNat_sub, BitVec.toNat_ofNat]
  unfold tfSize at hsp hx ⊢
  omega

/-! ## Restoring -/

/-- The registers that are loaded after the handler returns, and from where. -/
def restoreSlots : List (Reg × ℕ) := (saveOrder.erase Reg.sp).map (fun r => (r, tfReg r))

/-- The code that restores `sstatus` and `sepc`, by way of `t0`. -/
def restoreCsrs : List Instr :=
  [Instr.ld Reg.t0 (tfCsr Csr.sstatus) Reg.sp, Instr.csrw Csr.sstatus Reg.t0,
    Instr.ld Reg.t0 (tfCsr Csr.sepc) Reg.sp, Instr.csrw Csr.sepc Reg.t0]

theorem trapEntryRestore_eq :
    trapEntryRestore
      = restoreCsrs ++ (loads Reg.sp restoreSlots ++ [Instr.addi Reg.sp Reg.sp tfSize]) := rfl

theorem mem_restoreSlots {r : Reg} (hr : r ≠ Reg.sp) : (r, tfReg r) ∈ restoreSlots :=
  List.mem_map.mpr ⟨r, (List.mem_erase_of_ne hr).mpr (mem_saveOrder r), rfl⟩

theorem restoreCsrs_mem (m : Hart) : (run restoreCsrs m).mem = m.mem := rfl

theorem restoreCsrs_sp (m : Hart) : (run restoreCsrs m).reg Reg.sp = m.reg Reg.sp := rfl

theorem restoreCsrs_sstatus (m : Hart) : (run restoreCsrs m).csr Csr.sstatus
    = frameAt m.mem (m.reg Reg.sp) (Field.csr Csr.sstatus) := by
  rw [frameAt, offsetof_csr]
  rfl

theorem restoreCsrs_sepc (m : Hart) : (run restoreCsrs m).csr Csr.sepc
    = frameAt m.mem (m.reg Reg.sp) (Field.csr Csr.sepc) := by
  rw [frameAt, offsetof_csr]
  rfl

/-- **What restoring does**: every register but the stack pointer, `sstatus` and
`sepc` are loaded from the frame, and the stack pointer moves back. -/
theorem run_trapEntryRestore (m : Hart) :
    (∀ r, r ≠ Reg.sp → (run trapEntryRestore m).reg r
        = frameAt m.mem (m.reg Reg.sp) (Field.reg r))
      ∧ (run trapEntryRestore m).reg Reg.sp = m.reg Reg.sp + BitVec.ofInt 64 tfSize
      ∧ (run trapEntryRestore m).csr Csr.sstatus
        = frameAt m.mem (m.reg Reg.sp) (Field.csr Csr.sstatus)
      ∧ (run trapEntryRestore m).csr Csr.sepc
        = frameAt m.mem (m.reg Reg.sp) (Field.csr Csr.sepc)
      ∧ (run trapEntryRestore m).mem = m.mem := by
  have hmem := restoreCsrs_mem m
  have hsp := restoreCsrs_sp m
  have hstatus := restoreCsrs_sstatus m
  have hepc := restoreCsrs_sepc m
  rw [trapEntryRestore_eq, run_append, run_append, run_cons, run_nil]
  generalize run restoreCsrs m = m' at hmem hsp hstatus hepc ⊢
  have hloaded : (run (loads Reg.sp restoreSlots) m').reg Reg.sp = m.reg Reg.sp := by
    rw [run_loads_of_notMem (by decide), hsp]
  refine ⟨fun r hr => ?_, ?_, ?_, ?_, ?_⟩
  · rw [Instr.addi_reg, Function.update_of_ne hr,
      run_loads_of_mem (by decide) (by decide) (mem_restoreSlots hr), hmem, hsp, frameAt,
      offsetof_reg]
  · rw [Instr.addi_reg, Function.update_self, hloaded]
  · rw [Instr.addi_csr, run_loads_eq, hstatus]
  · rw [Instr.addi_csr, run_loads_eq, hepc]
  · rw [Instr.addi_mem, run_loads_eq, hmem]

/-! ## Interrupts -/

section Interrupt

variable {handler : CompiledHandler} {m : Hart}

/-- The frame as the handler is passed it. -/
theorem frameAt_called (m : Hart) (link : Word) :
    frameAt ((called m).setReg Reg.ra link).mem (((called m).setReg Reg.ra link).reg Reg.a0)
      = frameAt (called m).mem (frameBase m) := by
  rw [Hart.setReg_mem, Hart.setReg_reg, Function.update_of_ne (by decide), called_a0]

/-- **The handler leaves the frame as it is.** -/
theorem Execution.frame_eq (e : Execution handler m) :
    frameAt e.returned.mem (frameBase m) = frameAt (called m).mem (frameBase m) := by
  obtain ⟨link, hreturns⟩ := e.call
  obtain ⟨log, hlog⟩ := handler.frame _ _ hreturns
  have heq := eq_of_trapHandler hlog
  rw [frameAt_called, Hart.setReg_reg, Function.update_of_ne (by decide), called_a0] at heq
  exact heq

/-- The handler leaves the stack pointer as it is. -/
theorem Execution.returned_sp (e : Execution handler m) :
    e.returned.reg Reg.sp = frameBase m :=
  e.call.reg_eq rfl

/-- The handler returns from an interrupt. -/
theorem exists_execution (hint : (m.csr Csr.scause).getLsbD 63 = true) :
    Nonempty (Execution handler m) := by
  rw [← called_frame_csr] at hint
  obtain ⟨log, hlog⟩ := trapHandler_of_interrupt hint
  rw [← frameAt_called m 0] at hlog
  obtain ⟨m', hm'⟩ := handler.total _ _ _ hlog
  exact ⟨⟨m', 0, hm'⟩⟩

theorem Execution.resumed_pc (e : Execution handler m) :
    e.resumed.pc = e.restored.csr Csr.sepc := Instr.sret_pc e.restored

theorem Execution.resumed_mem (e : Execution handler m) : e.resumed.mem = e.restored.mem :=
  Instr.sret_mem e.restored

/-- **Every register is restored.** -/
theorem Execution.resumed_reg (e : Execution handler m) : e.resumed.reg = m.reg := by
  obtain ⟨hreg, hsp, -⟩ := run_trapEntryRestore e.returned
  rw [Execution.resumed, Instr.sret_reg, Execution.restored]
  funext r
  by_cases hr : r = Reg.sp
  · rw [hr, hsp, e.returned_sp, frameBase, BitVec.add_assoc]
    exact BitVec.add_zero _
  · rw [hreg r hr, e.returned_sp, e.frame_eq, called_frame_reg hr]

/-- **An interrupt is transparent.** The handler returns, and the interrupted code
goes on with its registers, its program counter and its status; the stub has stored to
the frame only. -/
theorem interrupt_transparent (handler : CompiledHandler) (m : Hart)
    (hint : (m.csr Csr.scause).getLsbD 63 = true) (hsp : tfSize ≤ (m.reg Reg.sp).toNat) :
    Nonempty (Execution handler m)
      ∧ (∀ e : Execution handler m, e.resumed.reg = m.reg
        ∧ e.resumed.pc = m.csr Csr.sepc
        ∧ e.restored.csr Csr.sstatus = m.csr Csr.sstatus
        ∧ e.resumed.mem = e.returned.mem)
      ∧ ∀ x : Word,
        ¬ ((m.reg Reg.sp).toNat - tfSize ≤ x.toNat ∧ x.toNat < (m.reg Reg.sp).toNat) →
        (called m).mem x = m.mem x := by
  refine ⟨exists_execution hint, fun e => ?_, fun x hx => called_mem_outside hsp hx⟩
  obtain ⟨-, -, hstatus, hepc, hmem⟩ := run_trapEntryRestore e.returned
  rw [← Execution.restored] at hstatus hepc hmem
  rw [e.returned_sp, e.frame_eq, called_frame_csr] at hstatus hepc
  exact ⟨e.resumed_reg, e.resumed_pc.trans hepc, hstatus, e.resumed_mem.trans hmem⟩

/-- A handler that does nothing but return. -/
def quietHandler : CompiledHandler where
  returns := fun m m' => m' = m ∧ ∃ tf log,
    trapHandler (frameAt m.mem (m.reg Reg.a0)) = Handled.returned tf log
  saved := fun m m' h r _ => h.1 ▸ rfl
  frame := by
    rintro m m' ⟨rfl, tf, log, h⟩
    exact ⟨log, by rw [h, eq_of_trapHandler h]⟩
  total := fun m tf log h => ⟨m, rfl, tf, log, h⟩

/-- A hart with every register `sp`, in a timer interrupt. -/
def timerHart (sp : Word) : Hart where
  reg := fun _ => sp
  csr := Function.update (fun _ => 0) Csr.scause (scauseInterruptBit ||| 5)
  mem := fun _ => 0
  pc := 0
  supervisor := true

theorem interrupt_transparent_timer :
    (timerHart 4096).csr Csr.scause = 0x8000000000000005#64
      ∧ ∀ e : Execution quietHandler (timerHart 4096),
        e.resumed.reg = (timerHart 4096).reg :=
  ⟨rfl, fun e => ((interrupt_transparent quietHandler (timerHart 4096) (by decide)
    (by decide)).2.1 e).1⟩

end Interrupt

/-! ## The record of the interrupted context -/

/-- **The frame that the handler is passed records the interrupted context.** -/
def Records (m : Hart) : Prop :=
  (∀ r, frameAt (called m).mem ((called m).reg Reg.a0) (Field.reg r) = m.reg r)
    ∧ ∀ c, frameAt (called m).mem ((called m).reg Reg.a0) (Field.csr c) = m.csr c

/-- **The frame never records the stack pointer**, though it records everything else:
the stub moves the stack pointer before it stores it. -/
theorem not_records (m : Hart) :
    ¬ Records m
      ∧ (∀ r, frameAt (called m).mem ((called m).reg Reg.a0) (Field.reg r)
        = if r = Reg.sp then m.reg Reg.sp - 288#64 else m.reg r)
      ∧ ∀ c, frameAt (called m).mem ((called m).reg Reg.a0) (Field.csr c) = m.csr c := by
  have hbase : frameBase m = m.reg Reg.sp - 288#64 := by
    unfold frameBase tfSize
    bv_omega
  refine ⟨fun h => ?_, fun r => ?_, fun c => called_frame_csr m c⟩
  · have hsp := (called_frame_sp m).symm.trans (h.1 Reg.sp)
    rw [hbase] at hsp
    bv_omega
  · split
    · next hr => rw [hr, called_a0, called_frame_sp, hbase]
    · next hr => exact called_frame_reg hr

theorem not_records_timer : ¬ Records (timerHart 4096) := fun h => by
  have hsp : frameBase (timerHart 4096) = 4096#64 :=
    (called_frame_sp (timerHart 4096)).symm.trans (h.1 Reg.sp)
  exact absurd hsp (by decide)

end Trap
