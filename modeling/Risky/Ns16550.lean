import Mathlib.Tactic

/-!
# A 16550 serial port

The device that a driver of such a port talks to: its registers, the two queues behind
them, and the line. A character that is written waits in the transmitter until it goes
out, and one that comes in waits in the receiver until it is read. When characters go out
and come in is up to the line (`Ns16550.Event`).

Only as much of a register is fixed as a driver can rely on: of the line status these are
the two bits for the queues.
-/

namespace Ns16550

/-- **The device.** -/
structure Device where
  ier : BitVec 8
  lcr : BitVec 8
  dll : BitVec 8
  dlm : BitVec 8
  fifo : Bool
  /-- The transmitter, oldest first. -/
  tx : List (BitVec 8)
  /-- The receiver, oldest first. -/
  rx : List (BitVec 8)
  /-- What has gone out on the line. -/
  sent : List (BitVec 8)
  /-- What came in and found room. -/
  arrived : List (BitVec 8)
  deriving DecidableEq, Repr

/-- **What happens on the line.** -/
inductive Event where
  /-- The oldest character goes out. -/
  | shift
  /-- A character comes in. -/
  | receive (c : BitVec 8)
  deriving DecidableEq, Repr

namespace Device

/-- The divisor latch access bit. -/
def dlab (d : Device) : Bool := d.lcr.getLsbD 7

/-- How many characters each queue takes. -/
def depth (d : Device) : ℕ := if d.fifo then 16 else 1

/-- An event. A character that finds no room is lost. -/
def event (d : Device) : Event → Device
  | Event.shift =>
    match d.tx with
    | [] => d
    | c :: tx => { d with tx := tx, sent := d.sent ++ [c] }
  | Event.receive c =>
    if d.rx.length < d.depth then { d with rx := d.rx ++ [c], arrived := d.arrived ++ [c] }
    else d

/-- Events one after the other. -/
def events (d : Device) (es : List Event) : Device := es.foldl event d

/-- **A register is written.** -/
def write (d : Device) (reg : ℕ) (val : BitVec 8) : Device :=
  match reg with
  | 0 =>
    if d.dlab then { d with dll := val }
    else if d.tx.length < d.depth then { d with tx := d.tx ++ [val] }
    else d
  | 1 => if d.dlab then { d with dlm := val } else { d with ier := val }
  | 2 =>
    -- turning the queues on or off clears both
    { d with
      fifo := val.getLsbD 0
      tx := if val.getLsbD 0 = d.fifo ∧ (val.getLsbD 0 && val.getLsbD 2) = false then d.tx else []
      rx := if val.getLsbD 0 = d.fifo ∧ (val.getLsbD 0 && val.getLsbD 1) = false then d.rx else [] }
  | 3 => { d with lcr := val }
  | _ => d

/-- What is left when a register has been read. -/
def read (d : Device) (reg : ℕ) : Device :=
  match reg with
  | 0 => if d.dlab then d else { d with rx := d.rx.tail }
  | _ => d

/-- **The device may answer a read with this value.** -/
def answers (d : Device) (reg : ℕ) (val : BitVec 8) : Bool :=
  match reg with
  | 0 => if d.dlab then val == d.dll else d.rx.head?.all (· == val)
  | 1 => val == if d.dlab then d.dlm else d.ier
  | 3 => val == d.lcr
  | 5 => val.getLsbD 0 == !d.rx.isEmpty && val.getLsbD 5 == d.tx.isEmpty
  | _ => true

/-- All that has been given to the transmitter and not been cleared from it. -/
def output (d : Device) : List (BitVec 8) := d.sent ++ d.tx

end Device

/-! ## The line between two accesses -/

/-- **From one state of the device to another** in which the driver has written some
characters and read others: the rest of the registers is as before, what is in the output
are some of the characters written, in order, and what was in the receiver or came in has
been read in order or is still there. -/
structure Moves (d d' : Device) (written taken : List (BitVec 8)) : Prop where
  ier : d'.ier = d.ier
  lcr : d'.lcr = d.lcr
  dll : d'.dll = d.dll
  dlm : d'.dlm = d.dlm
  fifo : d'.fifo = d.fifo
  output : ∃ out, out.Sublist written ∧ d'.output = d.output ++ out
  input : ∃ new, d'.arrived = d.arrived ++ new ∧ d.rx ++ new = taken ++ d'.rx

/-- **No character that is written gets lost**, from a transmitter with at most one
character on. -/
def Lossless (d d' : Device) (written : List (BitVec 8)) : Prop :=
  d.tx.length ≤ 1 → d'.tx.length ≤ 1 ∧ d'.output = d.output ++ written

variable {d d' d'' : Device} {ws ws' ts ts' : List (BitVec 8)}

theorem Moves.refl (d : Device) : Moves d d [] [] :=
  ⟨rfl, rfl, rfl, rfl, rfl, ⟨[], List.Sublist.slnil, (List.append_nil _).symm⟩,
    ⟨[], (List.append_nil _).symm, List.append_nil _⟩⟩

/-- **One after the other.** -/
theorem Moves.trans (h : Moves d d' ws ts) (h' : Moves d' d'' ws' ts') :
    Moves d d'' (ws ++ ws') (ts ++ ts') := by
  obtain ⟨out, hout, houtput⟩ := h.output
  obtain ⟨out', hout', houtput'⟩ := h'.output
  obtain ⟨new, harrived, hrx⟩ := h.input
  obtain ⟨new', harrived', hrx'⟩ := h'.input
  refine ⟨h'.ier.trans h.ier, h'.lcr.trans h.lcr, h'.dll.trans h.dll, h'.dlm.trans h.dlm,
    h'.fifo.trans h.fifo, ⟨out ++ out', hout.append hout', ?_⟩, ⟨new ++ new', ?_, ?_⟩⟩
  · rw [houtput', houtput, List.append_assoc]
  · rw [harrived', harrived, List.append_assoc]
  · rw [← List.append_assoc, hrx, List.append_assoc, hrx', ← List.append_assoc]

theorem Moves.dlab (h : Moves d d' ws ts) : d'.dlab = d.dlab := by
  unfold Device.dlab
  rw [h.lcr]

theorem Moves.output_eq (h : Moves d d' [] ts) : d'.output = d.output := by
  obtain ⟨out, hout, houtput⟩ := h.output
  rw [houtput, List.sublist_nil.mp hout, List.append_nil]

theorem Moves.arrived_le (h : Moves d d' ws ts) : d.arrived <+: d'.arrived := by
  obtain ⟨new, harrived, -⟩ := h.input
  exact ⟨new, harrived.symm⟩

theorem Lossless.refl (d : Device) : Lossless d d [] :=
  fun h => ⟨h, (List.append_nil _).symm⟩

theorem Lossless.trans (h : Lossless d d' ws) (h' : Lossless d' d'' ws') :
    Lossless d d'' (ws ++ ws') := by
  intro hd
  obtain ⟨hd', hout⟩ := h hd
  obtain ⟨hd'', hout'⟩ := h' hd'
  exact ⟨hd'', by rw [hout', hout, List.append_assoc]⟩

namespace Device

theorem event_output (d : Device) (e : Event) : (d.event e).output = d.output := by
  cases e with
  | shift =>
    unfold event output
    cases htx : d.tx with
    | nil => simp [htx]
    | cons c tx => simp
  | receive c =>
    unfold event output
    dsimp only
    split <;> rfl

/-- An event reads and writes nothing. -/
theorem event_moves (d : Device) (e : Event) : Moves d (d.event e) [] [] := by
  have hsame : ∃ out, out.Sublist [] ∧ (d.event e).output = d.output ++ out :=
    ⟨[], List.Sublist.slnil, by rw [event_output, List.append_nil]⟩
  cases e with
  | shift =>
    unfold event at *
    cases htx : d.tx with
    | nil => exact Moves.refl d
    | cons c tx =>
      simp only [htx] at hsame
      exact ⟨rfl, rfl, rfl, rfl, rfl, hsame, ⟨[], (List.append_nil _).symm, List.append_nil _⟩⟩
  | receive c =>
    unfold event at *
    dsimp only at hsame ⊢
    by_cases hroom : d.rx.length < d.depth
    · rw [if_pos hroom] at hsame ⊢
      exact ⟨rfl, rfl, rfl, rfl, rfl, hsame, ⟨[c], rfl, rfl⟩⟩
    · rw [if_neg hroom]
      exact Moves.refl d

theorem event_lossless (d : Device) (e : Event) : Lossless d (d.event e) [] := by
  intro hd
  refine ⟨?_, by rw [event_output, List.append_nil]⟩
  cases e with
  | shift =>
    unfold event
    cases htx : d.tx with
    | nil => simp [htx]
    | cons c tx =>
      rw [htx, List.length_cons] at hd
      exact Nat.le_of_succ_le hd
  | receive c =>
    unfold event
    dsimp only
    split <;> exact hd

@[simp] theorem events_nil (d : Device) : d.events [] = d := rfl

@[simp] theorem events_cons (d : Device) (e : Event) (es : List Event) :
    d.events (e :: es) = (d.event e).events es := rfl

theorem events_moves (d : Device) (es : List Event) : Moves d (d.events es) [] [] := by
  induction es generalizing d with
  | nil => exact Moves.refl d
  | cons e es ih => exact (d.event_moves e).trans (ih (d.event e))

theorem events_lossless (d : Device) (es : List Event) : Lossless d (d.events es) [] := by
  induction es generalizing d with
  | nil => exact Lossless.refl d
  | cons e es ih => exact (d.event_lossless e).trans (ih (d.event e))

/-- **A transmitter stays empty** until a character is written. -/
theorem event_tx_nil (htx : d.tx = []) (e : Event) : (d.event e).tx = [] := by
  cases e with
  | shift =>
    unfold event
    rw [htx]
    exact htx
  | receive c =>
    unfold event
    dsimp only
    split <;> exact htx

theorem events_tx_nil (htx : d.tx = []) (es : List Event) : (d.events es).tx = [] := by
  induction es generalizing d with
  | nil => exact htx
  | cons e es ih => exact ih (event_tx_nil htx e)

/-- **A transmitter with one character is empty** when that has gone out. -/
theorem events_tx_of_shift (hd : d.tx.length ≤ 1) {es : List Event} (hes : Event.shift ∈ es) :
    (d.events es).tx = [] := by
  induction es generalizing d with
  | nil => exact absurd hes List.not_mem_nil
  | cons e es ih =>
    rcases List.mem_cons.mp hes with rfl | hes
    · refine events_tx_nil ?_ es
      unfold event
      cases htx : d.tx with
      | nil => exact htx
      | cons c tx =>
        rw [htx, List.length_cons] at hd
        exact List.eq_nil_of_length_eq_zero (Nat.le_zero.mp (Nat.le_of_succ_le_succ hd))
    · exact ih (d.event_lossless e hd).1 hes

/-- **A character waits** until it is read. -/
theorem events_rx_ne_nil (hrx : d.rx ≠ []) (es : List Event) : (d.events es).rx ≠ [] := by
  obtain ⟨new, -, h⟩ := (d.events_moves es).input
  rw [List.nil_append] at h
  rw [← h]
  exact List.append_ne_nil_of_left_ne_nil hrx new

/-! ## The accesses of a driver -/

theorem write_thr (hdlab : d.dlab = false) (c : BitVec 8) :
    d.write 0 c = if d.tx.length < d.depth then { d with tx := d.tx ++ [c] } else d :=
  if_neg (by simp [hdlab])

/-- **A character is written** to the transmitter. -/
theorem write_thr_moves (hdlab : d.dlab = false) (c : BitVec 8) : Moves d (d.write 0 c) [c] [] := by
  have hinput : ∃ new, d.arrived = d.arrived ++ new ∧ d.rx ++ new = [] ++ d.rx :=
    ⟨[], (List.append_nil _).symm, List.append_nil _⟩
  rw [write_thr hdlab]
  split
  · exact ⟨rfl, rfl, rfl, rfl, rfl, ⟨[c], List.Sublist.refl _, (List.append_assoc _ _ _).symm⟩,
      hinput⟩
  · exact ⟨rfl, rfl, rfl, rfl, rfl, ⟨[], List.nil_sublist _, (List.append_nil _).symm⟩, hinput⟩

/-- It is not lost if the transmitter is empty. -/
theorem write_thr_output (hdlab : d.dlab = false) (htx : d.tx = []) (c : BitVec 8) :
    (d.write 0 c).tx.length ≤ 1 ∧ (d.write 0 c).output = d.output ++ [c] := by
  have hdepth : d.tx.length < d.depth := by
    rw [htx]
    unfold depth
    split <;> decide
  rw [write_thr hdlab, if_pos hdepth]
  exact ⟨by rw [htx]; rfl, (List.append_assoc _ _ _).symm⟩

/-- **A character is read** from the receiver. -/
theorem read_rbr_moves (hdlab : d.dlab = false) (hrx : d.rx ≠ []) {c : BitVec 8}
    (hc : d.answers 0 c = true) : Moves d (d.read 0) [] [c] := by
  unfold answers at hc
  unfold read
  cases h : d.rx with
  | nil => exact absurd h hrx
  | cons c' rx =>
    simp only [hdlab, h, List.head?_cons, Option.all_some, beq_iff_eq, Bool.false_eq_true,
      if_false] at hc ⊢
    subst hc
    refine ⟨rfl, rfl, rfl, rfl, rfl, ⟨[], List.Sublist.slnil, (List.append_nil _).symm⟩,
      ⟨[], (List.append_nil _).symm, ?_⟩⟩
    rw [h, List.append_nil]
    rfl

/-- Reading a register does not touch the transmitter. -/
theorem read_lossless (d : Device) (reg : ℕ) : Lossless d (d.read reg) [] := by
  intro hd
  unfold read output
  split
  · split <;> exact ⟨hd, (List.append_nil _).symm⟩
  · exact ⟨hd, (List.append_nil _).symm⟩

/-- Reading the line status changes nothing, and tells how the queues are. -/
@[simp] theorem read_lsr (d : Device) : d.read 5 = d := rfl

theorem answers_lsr {val : BitVec 8} : d.answers 5 val = true
    ↔ (val.getLsbD 0 = true ↔ d.rx ≠ []) ∧ (val.getLsbD 5 = true ↔ d.tx = []) := by
  unfold answers
  cases d.rx <;> cases d.tx <;> simp

theorem write_dll (hdlab : d.dlab = true) (val : BitVec 8) :
    d.write 0 val = { d with dll := val } :=
  if_pos hdlab

theorem write_dlm (hdlab : d.dlab = true) (val : BitVec 8) :
    d.write 1 val = { d with dlm := val } :=
  if_pos hdlab

theorem write_ier (hdlab : d.dlab = false) (val : BitVec 8) :
    d.write 1 val = { d with ier := val } :=
  if_neg (by simp [hdlab])

/-- The queues are turned on and cleared. -/
theorem write_fcr (d : Device) : d.write 2 0x07 = { d with fifo := true, tx := [], rx := [] } := by
  unfold write
  simp

end Device

/-! ## Nothing written to the transmitter -/

/-- **From one state of the device to another** with nothing written to the transmitter. -/
def Holds (d d' : Device) : Prop := d'.output = d.output ∧ d.arrived <+: d'.arrived

theorem Holds.trans (h : Holds d d') (h' : Holds d' d'') : Holds d d'' :=
  ⟨h'.1.trans h.1, h.2.trans h'.2⟩

theorem Moves.holds (h : Moves d d' [] ts) : Holds d d' := ⟨h.output_eq, h.arrived_le⟩

end Ns16550
