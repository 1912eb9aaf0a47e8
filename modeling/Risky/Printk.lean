import Risky.CString

/-!
# Formatted output

The model of `lib/printk.c`. The format string and the strings among the arguments
are memory from a pointer on, as in `Risky.CString`, so that reading past them is a
fault; an argument that is missing or has another type than its conversion is a
fault, too. `printk_putc` appends to the output, and `ktime_get_ms` takes the next
value of a clock.

`vprintk_internal` is a loop over the format string: a turn emits an ordinary
character or carries out a conversion, whose specification it reads from left to
right.
-/

namespace Printk

/-- The code of a character. -/
abbrev ascii (c : Char) : UInt8 := UInt8.ofNat c.toNat

/-- `enum printk_length`. -/
inductive Length where
  | default
  | char
  | short
  | long
  | llong
  | size
  | ptrdiff
  deriving DecidableEq, Repr

/-- **A variadic argument**, by its type. -/
inductive Arg where
  /-- An `int` or `unsigned int`. -/
  | int (v : BitVec 32)
  /-- A `long`, `long long`, `size_t`, `ptrdiff_t` or their other-signed type. -/
  | long (v : BitVec 64)
  /-- A pointer and the memory it points to. -/
  | ptr (addr : BitVec 64) (mem : List UInt8)
  deriving DecidableEq, Repr

/-! ## Arguments -/

/-- `va_arg(*args, int)`. -/
def vaInt : List Arg → Outcome (BitVec 32 × List Arg)
  | Arg.int v :: args => Outcome.ok (v, args)
  | _ => Outcome.fault

/-- `va_arg(*args, long)`. -/
def vaLong : List Arg → Outcome (BitVec 64 × List Arg)
  | Arg.long v :: args => Outcome.ok (v, args)
  | _ => Outcome.fault

/-- `va_arg(*args, void *)`. -/
def vaPtr : List Arg → Outcome ((BitVec 64 × List UInt8) × List Arg)
  | Arg.ptr addr mem :: args => Outcome.ok ((addr, mem), args)
  | _ => Outcome.fault

/-- `get_unsigned_arg`. -/
def getUnsignedArg (args : List Arg) : Length → Outcome (BitVec 64 × List Arg)
  | Length.char => Prod.map (fun v => (v.setWidth 8).setWidth 64) id <$> vaInt args
  | Length.short => Prod.map (fun v => (v.setWidth 16).setWidth 64) id <$> vaInt args
  | Length.long => vaLong args
  | Length.llong => vaLong args
  | Length.size => vaLong args
  | Length.ptrdiff => vaLong args
  | Length.default => Prod.map (fun v => v.setWidth 64) id <$> vaInt args

/-- `get_signed_arg`. -/
def getSignedArg (args : List Arg) : Length → Outcome (BitVec 64 × List Arg)
  | Length.char => Prod.map (fun v => (v.setWidth 8).signExtend 64) id <$> vaInt args
  | Length.short => Prod.map (fun v => (v.setWidth 16).signExtend 64) id <$> vaInt args
  | Length.long => vaLong args
  | Length.llong => vaLong args
  | Length.size => vaLong args
  | Length.ptrdiff => vaLong args
  | Length.default => Prod.map (fun v => v.signExtend 64) id <$> vaInt args

/-! ## Emitting -/

/-- **`struct printk_state`**, with the output and the clock. -/
structure State where
  prefixEnabled : Bool
  atLineStart : Bool
  written : ℕ
  /-- The characters passed to `printk_putc`. -/
  out : List UInt8
  /-- The values that `ktime_get_ms` returns from now on. -/
  clock : ℕ → BitVec 64

namespace State

/-- `emit_raw_char`. -/
def emitRawChar (s : State) (c : UInt8) : State :=
  if c = ascii '\n' then
    { s with
      out := s.out ++ [ascii '\r', ascii '\n']
      written := s.written + 2
      atLineStart := true }
  else { s with out := s.out ++ [c], written := s.written + 1 }

/-- A digit. -/
def digit (uppercase : Bool) (d : ℕ) : UInt8 :=
  (asciiBytes (if uppercase then "0123456789ABCDEF" else "0123456789abcdef")).getD d 0

/-- The loop that fills `buffer` with the digits of a value, which is given the
number of free entries; the buffer is listed from its last entry on. -/
def digitsLoop (base : ℕ) (uppercase : Bool) : ℕ → ℕ → List UInt8 → Outcome (List UInt8)
  | 0, _, _ => Outcome.fault
  | room + 1, value, buffer =>
    if value / base ≠ 0 then
      digitsLoop base uppercase room (value / base) (digit uppercase (value % base) :: buffer)
    else Outcome.ok (digit uppercase (value % base) :: buffer)

/-- `emit_raw_unsigned`. -/
def emitRawUnsigned (s : State) (value : BitVec 64) (base : ℕ) (uppercase : Bool) :
    Outcome State :=
  if base < 2 ∨ 16 < base then Outcome.ok s
  else
    (fun buffer => buffer.foldl emitRawChar s) <$> digitsLoop base uppercase 64 value.toNat []

/-- `emit_log_prefix`. -/
def emitLogPrefix (s : State) : Outcome State :=
  if !s.prefixEnabled || !s.atLineStart then Outcome.ok s
  else do
    let uptimeMs := s.clock 0
    let seconds := uptimeMs / 1000
    let millis := uptimeMs.toNat % 1000
    let s := { s with clock := fun n => s.clock (n + 1) }
    let s ← (s.emitRawChar (ascii '[')).emitRawUnsigned seconds 10 false
    let s := s.emitRawChar (ascii '.')
    let s := s.emitRawChar (ascii '0' + UInt8.ofNat (millis / 100 % 10))
    let s := s.emitRawChar (ascii '0' + UInt8.ofNat (millis / 10 % 10))
    let s := s.emitRawChar (ascii '0' + UInt8.ofNat (millis % 10))
    let s := (s.emitRawChar (ascii ']')).emitRawChar (ascii ' ')
    Outcome.ok { s with atLineStart := false }

/-- `emit_char`. -/
def emitChar (s : State) (c : UInt8) : Outcome State := do
  let s ← s.emitLogPrefix
  let s := s.emitRawChar c
  Outcome.ok (if c ≠ ascii '\n' then { s with atLineStart := false } else s)

/-- The loop `while (*s != '\0') emit_char(state, *s++)`, which is the rest of
`emit_string` after its check for `NULL`. -/
def emitString (state : State) : List UInt8 → Outcome State
  | [] => Outcome.fault
  | c :: s => if c = 0 then Outcome.ok state else do
    let state ← state.emitChar c
    emitString state s

/-- The padding loop of `emit_padded_string` and `emit_unsigned`. -/
def padLoop (pad : UInt8) (len : ℕ) : ℕ → State → Outcome State
  | 0, s => Outcome.ok s
  | width + 1, s =>
    if len < width + 1 then do
      let s ← s.emitChar pad
      padLoop pad len width s
    else Outcome.ok s

/-- `emit_padded_string`. -/
def emitPaddedString (state : State) (s : BitVec 64 × List UInt8) (width : BitVec 32)
    (pad : UInt8) : Outcome State := do
  let mem := if s.1 = 0 then asciiBytes "(null)" ++ [0] else s.2
  let len ← Outcome.access (strlen mem)
  let state ← padLoop pad len width.toNat state
  state.emitString mem

/-- `emit_unsigned`. -/
def emitUnsigned (s : State) (value : BitVec 64) (base : ℕ) (uppercase : Bool)
    (width : BitVec 32) (pad : UInt8) : Outcome State :=
  if base < 2 ∨ 16 < base then Outcome.ok s
  else do
    let buffer ← digitsLoop base uppercase 64 value.toNat []
    let s ← padLoop pad buffer.length width.toNat s
    buffer.foldlM emitChar s

end State

/-! ## Conversion specifications -/

/-- **What precedes the conversion character**. -/
structure Spec where
  pad : UInt8
  width : BitVec 32
  length : Length
  deriving DecidableEq, Repr

/-- The `0` flag. -/
def zeroFlag : List UInt8 → Outcome (UInt8 × List UInt8)
  | [] => Outcome.fault
  | c :: fmt =>
    if c = ascii '0' then Outcome.ok (ascii '0', fmt) else Outcome.ok (ascii ' ', c :: fmt)

/-- The loop that reads the width. -/
def widthLoop : BitVec 32 → List UInt8 → Outcome (BitVec 32 × List UInt8)
  | _, [] => Outcome.fault
  | width, c :: fmt =>
    if ascii '0' ≤ c ∧ c ≤ ascii '9' then
      widthLoop (width * 10 + BitVec.ofNat 32 (c - ascii '0').toNat) fmt
    else Outcome.ok (width, c :: fmt)

/-- A length modifier of one letter or two. -/
def doubled (letter : UInt8) (once twice : Length) : List UInt8 → Outcome (Length × List UInt8)
  | [] => Outcome.fault
  | c :: fmt => if c = letter then Outcome.ok (twice, fmt) else Outcome.ok (once, c :: fmt)

/-- The length modifier. -/
def lengthModifier : List UInt8 → Outcome (Length × List UInt8)
  | [] => Outcome.fault
  | c :: fmt =>
    if c = ascii 'h' then doubled (ascii 'h') Length.short Length.char fmt
    else if c = ascii 'l' then doubled (ascii 'l') Length.long Length.llong fmt
    else if c = ascii 'z' then Outcome.ok (Length.size, fmt)
    else if c = ascii 't' then Outcome.ok (Length.ptrdiff, fmt)
    else Outcome.ok (Length.default, c :: fmt)

/-- The specification that follows `%`. -/
def parseSpec (fmt : List UInt8) : Outcome (Spec × List UInt8) := do
  let (pad, fmt) ← zeroFlag fmt
  let (width, fmt) ← widthLoop 0 fmt
  let (length, fmt) ← lengthModifier fmt
  Outcome.ok (⟨pad, width, length⟩, fmt)

/-! ## The loop -/

/-- **The variables of the loop**. -/
structure Cursor where
  fmt : List UInt8
  args : List Arg
  state : State

/-- `case 'd': case 'i':`. -/
def convertSigned (spec : Spec) (args : List Arg) (state : State) :
    Outcome (List Arg × State) := do
  let (value, args) ← getSignedArg args spec.length
  if value.toInt < 0 then do
    let magnitude := -(value + 1) + 1
    let state ← state.emitChar (ascii '-')
    let state ← state.emitUnsigned magnitude 10 false spec.width spec.pad
    Outcome.ok (args, state)
  else do
    let state ← state.emitUnsigned value 10 false spec.width spec.pad
    Outcome.ok (args, state)

/-- `case 'u':`, `case 'x':` and `case 'X':`. -/
def convertUnsigned (spec : Spec) (base : ℕ) (uppercase : Bool) (args : List Arg)
    (state : State) : Outcome (List Arg × State) := do
  let (value, args) ← getUnsignedArg args spec.length
  let state ← state.emitUnsigned value base uppercase spec.width spec.pad
  Outcome.ok (args, state)

/-- The `switch` over the conversion character. -/
def convert (spec : Spec) (c : UInt8) (args : List Arg) (state : State) :
    Outcome (List Arg × State) :=
  if c = ascii '%' then do
    let state ← state.emitChar (ascii '%')
    Outcome.ok (args, state)
  else if c = ascii 'c' then do
    let (v, args) ← vaInt args
    let state ← state.emitChar (UInt8.ofBitVec (v.setWidth 8))
    Outcome.ok (args, state)
  else if c = ascii 's' then do
    let (s, args) ← vaPtr args
    let state ← state.emitPaddedString s spec.width spec.pad
    Outcome.ok (args, state)
  else if c = ascii 'd' ∨ c = ascii 'i' then convertSigned spec args state
  else if c = ascii 'u' then convertUnsigned spec 10 false args state
  else if c = ascii 'x' then convertUnsigned spec 16 false args state
  else if c = ascii 'X' then convertUnsigned spec 16 true args state
  else if c = ascii 'p' then do
    let (value, args) ← vaPtr args
    let state ← state.emitString (asciiBytes "0x" ++ [0])
    let state ← state.emitUnsigned value.1 16 false 16 (ascii '0')
    Outcome.ok (args, state)
  else do
    let state ← state.emitChar (ascii '%')
    let state ← state.emitChar c
    Outcome.ok (args, state)

/-- A conversion, its specification included. -/
def conversion (fmt : List UInt8) (args : List Arg) (state : State) : Outcome Cursor := do
  let (spec, fmt) ← parseSpec fmt
  match fmt with
  | [] => Outcome.fault
  | c :: fmt => do
    let (args, state) ← convert spec c args state
    Outcome.ok ⟨fmt, args, state⟩

/-- One turn of the loop of `vprintk_internal`. -/
def turn (cur : Cursor) : Outcome (Cursor ⊕ State) :=
  match cur.fmt with
  | [] => Outcome.fault
  | c :: fmt =>
    if c = 0 then Outcome.ok (Sum.inr cur.state)
    else if c ≠ ascii '%' then do
      let state ← cur.state.emitChar c
      Outcome.ok (Sum.inl ⟨fmt, cur.args, state⟩)
    else
      match fmt with
      | [] => Outcome.fault
      | d :: _ =>
        if d = 0 then Outcome.ok (Sum.inr cur.state)
        else Sum.inl <$> conversion fmt cur.args cur.state

theorem zeroFlag_length {fmt fmt' : List UInt8} {pad : UInt8}
    (h : zeroFlag fmt = Outcome.ok (pad, fmt')) : fmt'.length ≤ fmt.length := by
  cases fmt with
  | nil => exact absurd h (by simp [zeroFlag])
  | cons c fmt =>
    rw [zeroFlag] at h
    split at h <;> cases h <;> simp

theorem widthLoop_length {fmt fmt' : List UInt8} {width width' : BitVec 32}
    (h : widthLoop width fmt = Outcome.ok (width', fmt')) : fmt'.length ≤ fmt.length := by
  induction fmt generalizing width with
  | nil => exact absurd h (by simp [widthLoop])
  | cons c fmt ih =>
    rw [widthLoop] at h
    split at h
    · exact le_trans (ih h) (by simp)
    · cases h
      exact le_refl _

theorem doubled_length {fmt fmt' : List UInt8} {letter : UInt8} {once twice length : Length}
    (h : doubled letter once twice fmt = Outcome.ok (length, fmt')) :
    fmt'.length ≤ fmt.length := by
  cases fmt with
  | nil => exact absurd h (by simp [doubled])
  | cons c fmt =>
    rw [doubled] at h
    split at h <;> cases h <;> simp

theorem lengthModifier_length {fmt fmt' : List UInt8} {length : Length}
    (h : lengthModifier fmt = Outcome.ok (length, fmt')) : fmt'.length ≤ fmt.length := by
  cases fmt with
  | nil => exact absurd h (by simp [lengthModifier])
  | cons c fmt =>
    rw [lengthModifier] at h
    split at h
    · exact le_trans (doubled_length h) (by simp)
    split at h
    · exact le_trans (doubled_length h) (by simp)
    split at h
    · cases h
      simp
    split at h <;> cases h <;> simp

/-- **A specification is read from left to right.** -/
theorem parseSpec_length {fmt fmt' : List UInt8} {spec : Spec}
    (h : parseSpec fmt = Outcome.ok (spec, fmt')) : fmt'.length ≤ fmt.length := by
  obtain ⟨⟨pad, fmt₁⟩, h₁, h⟩ := Outcome.bind_eq_ok.mp h
  obtain ⟨⟨width, fmt₂⟩, h₂, h⟩ := Outcome.bind_eq_ok.mp h
  obtain ⟨⟨length, fmt₃⟩, h₃, h⟩ := Outcome.bind_eq_ok.mp h
  cases h
  exact (lengthModifier_length h₃).trans ((widthLoop_length h₂).trans (zeroFlag_length h₁))

theorem conversion_length {fmt : List UInt8} {args : List Arg} {state : State} {cur : Cursor}
    (h : conversion fmt args state = Outcome.ok cur) : cur.fmt.length < fmt.length := by
  obtain ⟨⟨spec, fmt₁⟩, hspec, h⟩ := Outcome.bind_eq_ok.mp h
  have hle := parseSpec_length hspec
  cases fmt₁ with
  | nil => exact absurd h (by simp)
  | cons c fmt₁ =>
    obtain ⟨⟨args₁, state₁⟩, -, h⟩ := Outcome.bind_eq_ok.mp h
    cases h
    exact hle

theorem turn_length {cur cur' : Cursor} (h : turn cur = Outcome.ok (Sum.inl cur')) :
    cur'.fmt.length < cur.fmt.length := by
  unfold turn at h
  split at h
  · exact absurd h (by simp)
  next c fmt hfmt =>
  rw [hfmt]
  split at h
  · exact absurd h (by simp)
  split at h
  · obtain ⟨state, -, h⟩ := Outcome.bind_eq_ok.mp h
    cases h
    exact Nat.lt_succ_self _
  split at h
  · exact absurd h (by simp)
  split at h
  · exact absurd h (by simp)
  · obtain ⟨cur₁, hcur, h⟩ := Outcome.map_eq_ok.mp h
    cases h
    exact (conversion_length hcur).trans (Nat.lt_succ_self _)

/-- The loop of `vprintk_internal`. -/
def loop : Loop Cursor State where
  more := fun _ => true
  turn := turn
  fuel := fun cur => cur.fmt.length
  fuel_lt := fun _ _ _ h => turn_length h

/-- **`vprintk_internal`**. -/
def vprintkInternal (prefixEnabled : Bool) (fmt : List UInt8) (args : List Arg)
    (clock : ℕ → BitVec 64) : Outcome State :=
  loop.run ⟨fmt, args, ⟨prefixEnabled, true, 0, [], clock⟩⟩

/-- **A call of `klog`**: the format and the arguments. -/
structure Line where
  fmt : String
  args : List Arg
  deriving DecidableEq, Repr

/-- A string literal, at an address of its own that is not `NULL`. -/
def literal (s : String) : Arg := Arg.ptr 1 (asciiBytes s ++ [0])

end Printk
