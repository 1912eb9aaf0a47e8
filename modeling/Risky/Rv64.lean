import Mathlib.Tactic

/-!
# RV64 code that saves and restores registers

The general registers but `x0`, by their ABI names, some control and status
registers, byte-addressed little-endian memory, and the instructions of straight-line
code that stores registers and loads them again. What a block of stores at distinct
offsets leaves in memory is `Rv64.load_storeAll` and `Rv64.storeAll_of_notMem`; a
function that follows the calling convention is a `Rv64.Callee`. Every access is taken
to be permitted, a misaligned one, too.
-/

namespace Rv64

/-- A doubleword. -/
abbrev Word := BitVec 64

/-- Memory, byte by byte. -/
abbrev Mem := Word → BitVec 8

/-- **The general registers**, `x1` to `x31` in order. -/
inductive Reg where
  | ra | sp | gp | tp
  | t0 | t1 | t2
  | s0 | s1
  | a0 | a1 | a2 | a3 | a4 | a5 | a6 | a7
  | s2 | s3 | s4 | s5 | s6 | s7 | s8 | s9 | s10 | s11
  | t3 | t4 | t5 | t6
  deriving DecidableEq, Repr

/-- The control and status registers of a trap. -/
inductive Csr where
  | sstatus | sepc | scause | stval
  deriving DecidableEq, Repr

/-! ## Memory -/

/-- The doubleword at an address, its last byte the most significant. -/
def load (mem : Mem) (a : Word) : Word :=
  mem (a + 7#64) ++ mem (a + 6#64) ++ mem (a + 5#64) ++ mem (a + 4#64) ++ mem (a + 3#64)
    ++ mem (a + 2#64) ++ mem (a + 1#64) ++ mem a

/-- Memory after a doubleword is stored. -/
def store (mem : Mem) (a v : Word) : Mem := fun x =>
  if (x - a).toNat < 8 then v.extractLsb' (8 * (x - a).toNat) 8 else mem x

theorem store_of_le {mem : Mem} {a v x : Word} (h : 8 ≤ (x - a).toNat) :
    store mem a v x = mem x := if_neg (not_lt.mpr h)

/-- A byte of a doubleword that is stored. -/
theorem store_add (mem : Mem) (a v : Word) {k : ℕ} (hk : k < 8) :
    store mem a v (a + BitVec.ofNat 64 k) = v.extractLsb' (8 * k) 8 := by
  have hdiff : (a + BitVec.ofNat 64 k - a).toNat = k := by
    rw [BitVec.add_comm, BitVec.add_sub_cancel, BitVec.toNat_ofNat]
    exact Nat.mod_eq_of_lt (by omega)
  rw [store, hdiff, if_pos hk]

/-- **What is stored is loaded.** -/
theorem load_store (mem : Mem) (a v : Word) : load (store mem a v) a = v := by
  have hbyte := fun k hk => store_add mem a v (k := k) hk
  have hzero := hbyte 0 (by omega)
  rw [BitVec.add_zero] at hzero
  rw [load, hbyte 7 (by omega), hbyte 6 (by omega), hbyte 5 (by omega), hbyte 4 (by omega),
    hbyte 3 (by omega), hbyte 2 (by omega), hbyte 1 (by omega), hzero]
  refine BitVec.eq_of_getLsbD_eq (fun i hi => ?_)
  simp only [BitVec.getLsbD_append, BitVec.getLsbD_extractLsb']
  split_ifs <;> simp <;> grind

/-- Bytes that are not changed are loaded as they were. -/
theorem load_congr {mem mem' : Mem} {a : Word}
    (h : ∀ k < 8, mem' (a + BitVec.ofNat 64 k) = mem (a + BitVec.ofNat 64 k)) :
    load mem' a = load mem a := by
  have hzero := h 0 (by omega)
  rw [BitVec.add_zero] at hzero
  rw [load, h 7 (by omega), h 6 (by omega), h 5 (by omega), h 4 (by omega), h 3 (by omega),
    h 2 (by omega), h 1 (by omega), hzero, ← load]

/-! ## Blocks of stores -/

/-- Doublewords stored at offsets from a base, one after the other. -/
def storeAll (base : Word) (mem : Mem) : List (ℕ × Word) → Mem
  | [] => mem
  | (offset, v) :: stores => storeAll base (store mem (base + BitVec.ofNat 64 offset) v) stores

section StoreAll

variable {base x v : Word} {mem : Mem} {stores : List (ℕ × Word)} {offset size : ℕ}

/-- **Stores keep to their block**: at offsets below `size - 7` they change no byte
outside the `size` bytes from the base on. -/
theorem storeAll_of_le (hsize : ∀ o ∈ stores.map Prod.fst, o + 8 ≤ size) (hbound : size ≤ 2 ^ 64)
    (hx : size ≤ (x - base).toNat) : storeAll base mem stores x = mem x := by
  induction stores generalizing mem with
  | nil => rfl
  | cons s stores ih =>
    have hs : s.1 + 8 ≤ size := hsize s.1 (by simp)
    rw [storeAll, ih (fun o ho => hsize o (List.mem_cons_of_mem _ ho)), store_of_le]
    have hsub : x - (base + BitVec.ofNat 64 s.1) = (x - base) - BitVec.ofNat 64 s.1 := by
      bv_omega
    have hlt := (x - base).isLt
    rw [hsub, BitVec.toNat_sub, BitVec.toNat_ofNat]
    omega

/-- Two doublewords that do not overlap. -/
def Apart (o o' : ℕ) : Prop := o + 8 ≤ o' ∨ o' + 8 ≤ o

instance : DecidableRel Apart := fun o o' => inferInstanceAs (Decidable (o + 8 ≤ o' ∨ o' + 8 ≤ o))

/-- A store leaves the doublewords it does not overlap. -/
theorem load_store_of_apart {o o' : ℕ} (h : Apart o o') (ho : o < 2 ^ 63) (ho' : o' < 2 ^ 63) :
    load (store mem (base + BitVec.ofNat 64 o) v) (base + BitVec.ofNat 64 o')
      = load mem (base + BitVec.ofNat 64 o') := by
  refine load_congr (fun k hk => store_of_le ?_)
  have hdiff : base + BitVec.ofNat 64 o' + BitVec.ofNat 64 k - (base + BitVec.ofNat 64 o)
      = BitVec.ofNat 64 (o' + k) - BitVec.ofNat 64 o := by
    rw [BitVec.ofNat_add]
    bv_omega
  rw [hdiff, BitVec.toNat_sub, BitVec.toNat_ofNat, BitVec.toNat_ofNat]
  rcases h with h | h <;> omega

theorem load_storeAll_of_apart (h : ∀ o ∈ stores.map Prod.fst, Apart o offset)
    (hlt : ∀ o ∈ stores.map Prod.fst, o < 2 ^ 63) (hoffset : offset < 2 ^ 63) :
    load (storeAll base mem stores) (base + BitVec.ofNat 64 offset)
      = load mem (base + BitVec.ofNat 64 offset) := by
  induction stores generalizing mem with
  | nil => rfl
  | cons s stores ih =>
    rw [storeAll, ih (fun o ho => h o (List.mem_cons_of_mem _ ho))
      (fun o ho => hlt o (List.mem_cons_of_mem _ ho)),
      load_store_of_apart (h s.1 (by simp)) (hlt s.1 (by simp)) hoffset]

/-- **Every doubleword of a block is loaded as it was stored**, if no two overlap. -/
theorem load_storeAll (hapart : (stores.map Prod.fst).Pairwise Apart)
    (hlt : ∀ o ∈ stores.map Prod.fst, o < 2 ^ 63) (hmem : (offset, v) ∈ stores) :
    load (storeAll base mem stores) (base + BitVec.ofNat 64 offset) = v := by
  induction stores generalizing mem with
  | nil => exact absurd hmem List.not_mem_nil
  | cons s stores ih =>
    rw [List.map_cons, List.pairwise_cons] at hapart
    have hlt' : ∀ o ∈ stores.map Prod.fst, o < 2 ^ 63 :=
      fun o ho => hlt o (List.mem_cons_of_mem _ ho)
    rcases List.mem_cons.mp hmem with rfl | hmem
    · rw [storeAll, load_storeAll_of_apart (fun o ho => (hapart.1 o ho).symm) hlt'
        (hlt offset (by simp)), load_store]
    · exact ih hapart.2 hlt' hmem

end StoreAll

/-! ## Instructions -/

/-- **The state of a hart**. The program counter and the privilege mode are those
that the last `sret` has set: between jumps, straight-line code goes on to its next
instruction. -/
structure Hart where
  reg : Reg → Word
  csr : Csr → Word
  mem : Mem
  pc : Word
  supervisor : Bool

namespace Hart

variable (m : Hart)

/-- Write a register. -/
def setReg (r : Reg) (v : Word) : Hart := { m with reg := Function.update m.reg r v }

/-- Write a control and status register. -/
def setCsr (c : Csr) (v : Word) : Hart := { m with csr := Function.update m.csr c v }

@[simp] theorem setReg_reg (r : Reg) (v : Word) :
    (m.setReg r v).reg = Function.update m.reg r v := rfl

@[simp] theorem setReg_csr (r : Reg) (v : Word) : (m.setReg r v).csr = m.csr := rfl

@[simp] theorem setReg_mem (r : Reg) (v : Word) : (m.setReg r v).mem = m.mem := rfl

@[simp] theorem setCsr_reg (c : Csr) (v : Word) : (m.setCsr c v).reg = m.reg := rfl

@[simp] theorem setCsr_csr (c : Csr) (v : Word) :
    (m.setCsr c v).csr = Function.update m.csr c v := rfl

@[simp] theorem setCsr_mem (c : Csr) (v : Word) : (m.setCsr c v).mem = m.mem := rfl

end Hart

/-- **Instructions.** -/
inductive Instr where
  | addi (rd rs : Reg) (imm : ℤ)
  | mv (rd rs : Reg)
  /-- `sd rs2, offset(rs1)`. -/
  | sd (rs2 : Reg) (offset : ℕ) (rs1 : Reg)
  /-- `ld rd, offset(rs1)`. -/
  | ld (rd : Reg) (offset : ℕ) (rs1 : Reg)
  | csrr (rd : Reg) (c : Csr)
  | csrw (c : Csr) (rs : Reg)
  | sret
  deriving DecidableEq, Repr

/-- What `sret` makes of `sstatus`: `SIE` is `SPIE`, `SPIE` is set and `SPP` is
cleared. -/
def sretStatus (sstatus : Word) : Word :=
  let sie := if sstatus.getLsbD 5 then sstatus ||| 0x2#64 else sstatus &&& ~~~ 0x2#64
  (sie ||| 0x20#64) &&& ~~~ 0x100#64

/-- **The effect of an instruction.** -/
def Instr.exec (i : Instr) (m : Hart) : Hart :=
  match i with
  | addi rd rs imm => m.setReg rd (m.reg rs + BitVec.ofInt 64 imm)
  | mv rd rs => m.setReg rd (m.reg rs)
  | sd rs2 offset rs1 =>
    { m with mem := store m.mem (m.reg rs1 + BitVec.ofNat 64 offset) (m.reg rs2) }
  | ld rd offset rs1 => m.setReg rd (load m.mem (m.reg rs1 + BitVec.ofNat 64 offset))
  | csrr rd c => m.setReg rd (m.csr c)
  | csrw c rs => m.setCsr c (m.reg rs)
  | sret =>
    { m.setCsr Csr.sstatus (sretStatus (m.csr Csr.sstatus)) with
      pc := m.csr Csr.sepc
      supervisor := (m.csr Csr.sstatus).getLsbD 8 }

@[simp] theorem Instr.addi_reg (rd rs : Reg) (imm : ℤ) (m : Hart) :
    ((Instr.addi rd rs imm).exec m).reg
      = Function.update m.reg rd (m.reg rs + BitVec.ofInt 64 imm) := rfl

@[simp] theorem Instr.addi_csr (rd rs : Reg) (imm : ℤ) (m : Hart) :
    ((Instr.addi rd rs imm).exec m).csr = m.csr := rfl

@[simp] theorem Instr.addi_mem (rd rs : Reg) (imm : ℤ) (m : Hart) :
    ((Instr.addi rd rs imm).exec m).mem = m.mem := rfl

@[simp] theorem Instr.sret_reg (m : Hart) : (Instr.sret.exec m).reg = m.reg := rfl

@[simp] theorem Instr.sret_pc (m : Hart) : (Instr.sret.exec m).pc = m.csr Csr.sepc := rfl

@[simp] theorem Instr.sret_mem (m : Hart) : (Instr.sret.exec m).mem = m.mem := rfl

/-- Straight-line code. -/
def run (code : List Instr) (m : Hart) : Hart := code.foldl (fun m i => i.exec m) m

@[simp] theorem run_nil (m : Hart) : run [] m = m := rfl

@[simp] theorem run_cons (i : Instr) (code : List Instr) (m : Hart) :
    run (i :: code) m = run code (i.exec m) := rfl

theorem run_append (code code' : List Instr) (m : Hart) :
    run (code ++ code') m = run code' (run code m) := List.foldl_append

/-! ## Blocks of loads -/

/-- Code that loads registers. -/
def loads (base : Reg) (slots : List (Reg × ℕ)) : List Instr :=
  slots.map (fun s => Instr.ld s.1 s.2 base)

section Loads

variable {base r : Reg} {slots : List (Reg × ℕ)} {offset : ℕ} {m : Hart}

/-- Code that loads registers writes no others. -/
theorem run_loads_of_notMem (h : r ∉ slots.map Prod.fst) :
    (run (loads base slots) m).reg r = m.reg r := by
  induction slots generalizing m with
  | nil => rfl
  | cons s slots ih =>
    rw [List.map_cons, List.mem_cons, not_or] at h
    rw [loads, List.map_cons, run_cons, ← loads, ih h.2]
    exact Function.update_of_ne h.1 _ _

/-- Code that loads registers writes nothing else. -/
theorem run_loads_eq (base : Reg) (slots : List (Reg × ℕ)) (m : Hart) :
    run (loads base slots) m = { m with reg := (run (loads base slots) m).reg } := by
  induction slots generalizing m with
  | nil => rfl
  | cons s slots ih =>
    rw [loads, List.map_cons, run_cons, ← loads, ih]
    rfl

/-- **Every register gets its doubleword**, if each is loaded once and the base is
not loaded. -/
theorem run_loads_of_mem (hnodup : (slots.map Prod.fst).Nodup)
    (hbase : base ∉ slots.map Prod.fst) (h : (r, offset) ∈ slots) :
    (run (loads base slots) m).reg r = load m.mem (m.reg base + BitVec.ofNat 64 offset) := by
  induction slots generalizing m with
  | nil => exact absurd h List.not_mem_nil
  | cons s slots ih =>
    rw [List.map_cons, List.nodup_cons] at hnodup
    rw [List.map_cons, List.mem_cons, not_or] at hbase
    rw [loads, List.map_cons, run_cons, ← loads]
    rcases List.mem_cons.mp h with rfl | h
    · rw [run_loads_of_notMem hnodup.1]
      exact Function.update_self _ _ _
    · rw [ih hnodup.2 hbase.2 h]
      show load m.mem (Function.update m.reg s.1 _ base + _) = _
      rw [Function.update_of_ne hbase.1]

end Loads

/-! ## Calls -/

/-- The registers that a function may change: the return address, the temporaries and
the arguments. -/
def Reg.callerSaved : Reg → Bool
  | ra | t0 | t1 | t2 | t3 | t4 | t5 | t6 | a0 | a1 | a2 | a3 | a4 | a5 | a6 | a7 => true
  | _ => false

/-- **Compiled functions**, as what is true between the states in which they are
entered and left: the other registers are as they were. -/
structure Callee where
  returns : Hart → Hart → Prop
  saved : ∀ m m', returns m m' → ∀ r : Reg, r.callerSaved = false → m'.reg r = m.reg r

/-- **A call**. The address that it leaves in `ra` depends on where the code is. -/
def Callee.Call (f : Callee) (m m' : Hart) : Prop :=
  ∃ link, f.returns (m.setReg Reg.ra link) m'

theorem Callee.Call.reg_eq {f : Callee} {m m' : Hart} (h : f.Call m m') {r : Reg}
    (hr : r.callerSaved = false) : m'.reg r = m.reg r := by
  obtain ⟨link, h⟩ := h
  have hne : r ≠ Reg.ra := fun heq => by
    rw [heq] at hr
    exact Bool.noConfusion hr
  rw [f.saved _ _ h r hr]
  exact Function.update_of_ne hne _ _

end Rv64
