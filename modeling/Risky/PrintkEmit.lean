import Risky.PrintkDigits

/-!
# What is emitted

The functions of `lib/printk.c` that emit characters never fail on a state: each
emits a list of characters that does not depend on the state, one after the other
(`State.emits`), and only where the log prefix goes and what it says is up to the
state. Hence a whole run of `vprintk_internal` emits the same characters with the
prefix and without (`run_cases`).
-/

namespace Printk

open CPrintf

/-! ## The prefix -/

/-- **The log prefix** of a line that is begun at an uptime in milliseconds. -/
def stamp (ms : BitVec 64) : List UInt8 :=
  ascii '[' :: (numeral 10 false (ms / 1000).toNat
    ++ ascii '.' :: [100, 10, 1].map (fun k => ascii '0' + UInt8.ofNat (ms.toNat % 1000 / k % 10))
    ++ asciiBytes "] ")

theorem decimal_ne (d : ℕ) :
    ascii '0' + UInt8.ofNat (d % 10) ≠ 0 ∧ ascii '0' + UInt8.ofNat (d % 10) ≠ ascii '\n' := by
  have hd : d % 10 < 10 := Nat.mod_lt d (by omega)
  interval_cases d % 10 <;> decide

/-- The prefix contains neither NUL nor a newline. -/
theorem stamp_ne {ms : BitVec 64} {c : UInt8} (h : c ∈ stamp ms) : c ≠ 0 ∧ c ≠ ascii '\n' := by
  rw [stamp, List.mem_cons, List.mem_append, List.mem_append, List.mem_cons, List.mem_map] at h
  rcases h with rfl | (h | rfl | ⟨k, -, rfl⟩) | h
  · decide
  · exact numeral_ne (by omega) (by omega) h
  · decide
  · exact decimal_ne _
  · have hclose : ∀ c ∈ asciiBytes "] ", c ≠ 0 ∧ c ≠ ascii '\n' := by simp [asciiBytes]
    exact hclose c h

namespace State

variable {s : State} {t : CString} {mem : List UInt8}

theorem emitRawChar_of_ne {c : UInt8} (hc : c ≠ ascii '\n') (s : State) :
    s.emitRawChar c = { s with out := s.out ++ [c], written := s.written + 1 } :=
  if_neg hc

theorem foldl_emitRawChar {cs : List UInt8} (hcs : ∀ c ∈ cs, c ≠ ascii '\n') (s : State) :
    cs.foldl emitRawChar s = { s with out := s.out ++ cs, written := s.written + cs.length } := by
  induction cs generalizing s with
  | nil => rw [List.foldl_nil, List.append_nil, List.length_nil, Nat.add_zero]
  | cons c cs ih =>
    have hcs := List.forall_mem_cons.mp hcs
    rw [List.foldl_cons, emitRawChar_of_ne hcs.1, ih hcs.2, List.append_assoc, List.length_cons,
      Nat.add_assoc, Nat.add_comm 1]
    rfl

/-- `emit_raw_unsigned` emits the characters of a numeral. -/
theorem emitRawUnsigned_eq_foldl (s : State) (value : BitVec 64) {base : ℕ} (hbase : 1 < base)
    (hbase' : base ≤ 16) (uppercase : Bool) :
    s.emitRawUnsigned value base uppercase
      = Outcome.ok ((numeral base uppercase value.toNat).foldl emitRawChar s) := by
  rw [emitRawUnsigned, if_neg (by omega), digitsLoop_value hbase hbase', Outcome.map_ok]

/-- The state after `emit_log_prefix`. -/
def stamped (s : State) : State :=
  if s.prefixEnabled && s.atLineStart then
    { s with
      out := s.out ++ stamp (s.clock 0)
      written := s.written + (stamp (s.clock 0)).length
      clock := fun n => s.clock (n + 1)
      atLineStart := false }
  else s

/-- **`emit_log_prefix` writes the prefix** at the start of a line. -/
theorem emitLogPrefix_eq (s : State) : s.emitLogPrefix = Outcome.ok s.stamped := by
  unfold emitLogPrefix stamped
  rw [← Bool.not_and]
  cases s.prefixEnabled && s.atLineStart with
  | false => rfl
  | true =>
    set t : State := { s with clock := fun n => s.clock (n + 1) } with ht
    have hfold := foldl_emitRawChar (fun c (h : c ∈ stamp (s.clock 0)) => (stamp_ne h).2) t
    rw [stamp, List.foldl_cons, List.foldl_append, List.foldl_append] at hfold
    show (emitRawUnsigned (t.emitRawChar (ascii '[')) (s.clock 0 / 1000) 10 false >>= _) = _
    rw [emitRawUnsigned_eq_foldl _ _ (by omega) (by omega), Outcome.ok_bind]
    refine congrArg Outcome.ok ((congrArg (fun u : State => { u with atLineStart := false })
      ?_).trans (congrArg (fun u : State => { u with atLineStart := false }) hfold))
    simp only [List.foldl_cons, List.map_cons, List.map_nil, List.foldl_nil, Nat.div_one]
    rfl

/-! ## Characters -/

/-- The state after `emit_char`. -/
def emit (s : State) (c : UInt8) : State :=
  { s.stamped.emitRawChar c with atLineStart := decide (c = ascii '\n') }

/-- Characters are emitted. -/
def emits (s : State) (cs : List UInt8) : State := cs.foldl emit s

theorem emits_cons (s : State) (c : UInt8) (cs : List UInt8) :
    s.emits (c :: cs) = (s.emit c).emits cs :=
  rfl

theorem emits_append (s : State) (cs ds : List UInt8) :
    s.emits (cs ++ ds) = (s.emits cs).emits ds :=
  List.foldl_append

theorem emitChar_eq_emit (s : State) (c : UInt8) : s.emitChar c = Outcome.ok (s.emit c) := by
  rw [emitChar, emitLogPrefix_eq, Outcome.ok_bind]
  refine congrArg Outcome.ok ?_
  by_cases hc : c = ascii '\n'
  · refine (if_neg (not_not_intro hc)).trans ?_
    rw [emit, decide_eq_true hc, emitRawChar, if_pos hc]
  · refine (if_pos hc).trans ?_
    rw [emit, decide_eq_false hc]

theorem foldlM_emitChar_eq (s : State) (cs : List UInt8) :
    cs.foldlM emitChar s = Outcome.ok (s.emits cs) := by
  induction cs generalizing s with
  | nil => rfl
  | cons c cs ih =>
    rw [List.foldlM_cons, emitChar_eq_emit, Outcome.ok_bind, ih]
    rfl

theorem emitString_eq_emits (s : State) (ht : t.bytes <+: mem) :
    s.emitString mem = Outcome.ok (s.emits t.chars) := by
  induction mem generalizing s t with
  | nil => exact absurd (List.prefix_nil.mp ht) (by simp [CString.bytes])
  | cons c mem ih =>
    rw [emitString]
    rcases CString.bytes_prefix_cons.mp ht with ⟨hc, hchars⟩ | ⟨hc, u, hchars, hu⟩
    · rw [if_pos hc, hchars]
      rfl
    · rw [if_neg hc, emitChar_eq_emit, Outcome.ok_bind, ih _ hu, hchars]
      rfl

theorem padLoop_eq_emits (pad : UInt8) (len width : ℕ) (s : State) :
    padLoop pad len width s = Outcome.ok (s.emits (List.replicate (width - len) pad)) := by
  induction width generalizing s with
  | zero =>
    rw [padLoop, Nat.zero_sub]
    rfl
  | succ width ih =>
    rw [padLoop]
    split
    · next hlt =>
      rw [emitChar_eq_emit, Outcome.ok_bind, ih, Nat.succ_sub (Nat.le_of_lt_succ hlt),
        List.replicate_succ]
      rfl
    · next hle =>
      rw [Nat.sub_eq_zero_of_le (not_lt.mp hle)]
      rfl

/-- What `emit_char` writes. -/
theorem out_emit (s : State) (c : UInt8) :
    (s.emit c).out = s.out
      ++ ((if s.prefixEnabled && s.atLineStart then stamp (s.clock 0) else []) ++ expand [c]) := by
  have hout : ∀ t : State, (t.emitRawChar c).out = t.out ++ expand [c] := by
    intro t
    unfold emitRawChar
    rw [expand, List.flatMap_singleton]
    split <;> split <;> first | rfl | contradiction
  show (s.stamped.emitRawChar c).out = _
  rw [hout, ← List.append_assoc, stamped]
  split
  · rfl
  · rw [List.append_nil]

/-- `emit_char` counts what it writes. -/
theorem written_emit (hs : s.written = s.out.length) (c : UInt8) :
    (s.emit c).written = (s.emit c).out.length := by
  have hraw : ∀ t : State, t.written = t.out.length →
      (t.emitRawChar c).written = (t.emitRawChar c).out.length := by
    intro t ht
    unfold emitRawChar
    split
    · show t.written + 2 = (t.out ++ [ascii '\r', ascii '\n']).length
      rw [ht, List.length_append]
      rfl
    · show t.written + 1 = (t.out ++ [c]).length
      rw [ht, List.length_append]
      rfl
  refine hraw s.stamped ?_
  unfold stamped
  split
  · show s.written + _ = (s.out ++ stamp (s.clock 0)).length
    rw [hs, List.length_append]
  · exact hs

/-- **The characters written are counted.** -/
theorem written_emits (hs : s.written = s.out.length) (cs : List UInt8) :
    (s.emits cs).written = (s.emits cs).out.length := by
  induction cs generalizing s with
  | nil => exact hs
  | cons c cs ih => exact ih (written_emit hs c)

/-- **No NUL is written that is not emitted.** -/
theorem count_out_emits (s : State) (cs : List UInt8) :
    (s.emits cs).out.count 0 = s.out.count 0 + cs.count 0 := by
  induction cs generalizing s with
  | nil => rfl
  | cons c cs ih =>
    have hstamp : (if s.prefixEnabled && s.atLineStart then stamp (s.clock 0) else []).count 0
        = 0 := by
      split
      · exact List.count_eq_zero.mpr (fun h => (stamp_ne h).1 rfl)
      · rfl
    have hcons : ([c] ++ cs).count 0 = [c].count 0 + cs.count 0 := List.count_append
    rw [List.singleton_append] at hcons
    have hexpand : (expand [c]).count 0 = [c].count 0 := by
      rw [expand, List.flatMap_singleton]
      split
      · next hc =>
        rw [hc]
        rfl
      · rfl
    rw [emits_cons, ih, out_emit, List.count_append, List.count_append, hstamp, hexpand, hcons,
      Nat.zero_add, Nat.add_assoc]

/-- Characters that are padded to a width. -/
def padded (width : BitVec 32) (pad : UInt8) (cs : List UInt8) : List UInt8 :=
  List.replicate (width.toNat - cs.length) pad ++ cs

theorem emitUnsigned_eq_emits (s : State) (value : BitVec 64) {base : ℕ} (hbase : 1 < base)
    (hbase' : base ≤ 16) (uppercase : Bool) (width : BitVec 32) (pad : UInt8) :
    s.emitUnsigned value base uppercase width pad
      = Outcome.ok (s.emits (padded width pad (numeral base uppercase value.toNat))) := by
  rw [emitUnsigned, if_neg (by omega), digitsLoop_value hbase hbase', Outcome.ok_bind,
    padLoop_eq_emits, Outcome.ok_bind, foldlM_emitChar_eq, ← emits_append, padded]

/-- The string that `emit_padded_string` prints. -/
theorem emitPaddedString_eq_emits (s : State) {addr : BitVec 64}
    (ht : t.bytes <+: if addr = 0 then asciiBytes "(null)" ++ [0] else mem) (width : BitVec 32)
    (pad : UInt8) :
    s.emitPaddedString (addr, mem) width pad = Outcome.ok (s.emits (padded width pad t.chars)) := by
  rw [emitPaddedString, CString.strlen_eq ht, Outcome.access_some, Outcome.ok_bind,
    padLoop_eq_emits, Outcome.ok_bind, emitString_eq_emits _ ht, ← emits_append, padded]
  rfl

/-- Padding fills up to the width. -/
theorem length_padded (width : BitVec 32) (pad : UInt8) (cs : List UInt8) :
    (padded width pad cs).length = max width.toNat cs.length := by
  rw [padded, List.length_append, List.length_replicate]
  omega

theorem emitRawUnsigned_eq (s : State) (value : BitVec 64) {base : ℕ} (hbase : 1 < base)
    (hbase' : base ≤ 16) (uppercase : Bool) :
    s.emitRawUnsigned value base uppercase
      = Outcome.ok { s with
        out := s.out ++ numeral base uppercase value.toNat
        written := s.written + (numeral base uppercase value.toNat).length } := by
  have hne : ∀ c ∈ numeral base uppercase value.toNat, c ≠ ascii '\n' :=
    fun c hc => (numeral_ne hbase hbase' hc).2
  rw [emitRawUnsigned_eq_foldl s value hbase hbase', foldl_emitRawChar hne]

end State

/-- **`emit_unsigned` emits the digits of a value behind its padding, and
`emit_raw_unsigned` emits the same digits**; there is room for them in the buffer. -/
theorem emitUnsigned_digits (s : State) (value : BitVec 64) {base : ℕ} (hbase : 2 ≤ base)
    (hbase' : base ≤ 16) (uppercase : Bool) (width : BitVec 32) (pad : UInt8) :
    ∃ padding ds : List UInt8,
      IsNumeral base uppercase value.toNat ds
        ∧ ds.length ≤ 64
        ∧ State.digitsLoop base uppercase 64 value.toNat [] = Outcome.ok ds
        ∧ (∀ c ∈ padding, c = pad)
        ∧ (padding ++ ds).length = max width.toNat ds.length
        ∧ s.emitUnsigned value base uppercase width pad = (padding ++ ds).foldlM State.emitChar s
        ∧ (∃ s', s.emitUnsigned value base uppercase width pad = Outcome.ok s')
        ∧ s.emitRawUnsigned value base uppercase
          = Outcome.ok { s with out := s.out ++ ds, written := s.written + ds.length } := by
  have hemits := State.emitUnsigned_eq_emits s value hbase hbase' uppercase width pad
  refine ⟨List.replicate (width.toNat - (numeral base uppercase value.toNat).length) pad,
    numeral base uppercase value.toNat, isNumeral_numeral hbase hbase' uppercase value.toNat,
    length_numeral_le hbase hbase' uppercase value,
    State.digitsLoop_value hbase hbase' uppercase value,
    fun c hc => List.eq_of_mem_replicate hc, State.length_padded width pad _, ?_, ⟨_, hemits⟩,
    s.emitRawUnsigned_eq value hbase hbase' uppercase⟩
  rw [hemits, State.foldlM_emitChar_eq]
  rfl

/-- For a value of four digits and a width of eight, too. -/
theorem emitUnsigned_digits_hex :
    ∃ padding ds : List UInt8,
      IsNumeral 16 true 43981 ds
        ∧ (∀ c ∈ padding, c = ascii '0')
        ∧ (padding ++ ds).length = max 8 ds.length
        ∧ State.emitUnsigned ⟨true, false, 0, [], fun _ => 0⟩ 43981 16 true 8 (ascii '0')
          = (padding ++ ds).foldlM State.emitChar ⟨true, false, 0, [], fun _ => 0⟩
        ∧ State.emitRawUnsigned ⟨true, false, 0, [], fun _ => 0⟩ 43981 16 true
          = Outcome.ok ⟨true, false, ds.length, ds, fun _ => 0⟩ := by
  have hbase : 2 ≤ 16 := by decide
  obtain ⟨padding, ds, hnumeral, -, -, hpadding, hlen, hrun, -, hraw⟩ :=
    emitUnsigned_digits ⟨true, false, 0, [], fun _ => 0⟩ 43981 hbase le_rfl true 8 (ascii '0')
  refine ⟨padding, ds, hnumeral, hpadding, hlen, hrun, ?_⟩
  rw [hraw, List.nil_append, Nat.zero_add]

/-! ## Conversions -/

theorem vaInt_cases (args : List Arg) :
    (∃ v args', args = Arg.int v :: args') ∨ vaInt args = Outcome.fault := by
  unfold vaInt
  split
  · exact Or.inl ⟨_, _, rfl⟩
  · exact Or.inr rfl

theorem vaLong_cases (args : List Arg) :
    (∃ v args', args = Arg.long v :: args') ∨ vaLong args = Outcome.fault := by
  unfold vaLong
  split
  · exact Or.inl ⟨_, _, rfl⟩
  · exact Or.inr rfl

theorem vaPtr_cases (args : List Arg) :
    (∃ addr mem args', args = Arg.ptr addr mem :: args') ∨ vaPtr args = Outcome.fault := by
  unfold vaPtr
  split
  · exact Or.inl ⟨_, _, _, rfl⟩
  · exact Or.inr rfl

theorem map_vaInt_cases (g : BitVec 32 → BitVec 64) (args : List Arg) :
    (∃ v args', Prod.map g id <$> vaInt args = Outcome.ok (v, args'))
      ∨ Prod.map g id <$> vaInt args = Outcome.fault := by
  rcases vaInt_cases args with ⟨v, args', rfl⟩ | h
  · exact Or.inl ⟨g v, args', rfl⟩
  · exact Or.inr (by rw [h]; rfl)

theorem vaLong_ok_cases (args : List Arg) :
    (∃ v args', vaLong args = Outcome.ok (v, args')) ∨ vaLong args = Outcome.fault := by
  rcases vaLong_cases args with ⟨v, args', rfl⟩ | h
  · exact Or.inl ⟨v, args', rfl⟩
  · exact Or.inr h

theorem getSignedArg_cases (args : List Arg) (length : Length) :
    (∃ v args', getSignedArg args length = Outcome.ok (v, args'))
      ∨ getSignedArg args length = Outcome.fault := by
  cases length with
  | default => exact map_vaInt_cases _ args
  | char => exact map_vaInt_cases _ args
  | short => exact map_vaInt_cases _ args
  | long => exact vaLong_ok_cases args
  | llong => exact vaLong_ok_cases args
  | size => exact vaLong_ok_cases args
  | ptrdiff => exact vaLong_ok_cases args

theorem getUnsignedArg_cases (args : List Arg) (length : Length) :
    (∃ v args', getUnsignedArg args length = Outcome.ok (v, args'))
      ∨ getUnsignedArg args length = Outcome.fault := by
  cases length with
  | default => exact map_vaInt_cases _ args
  | char => exact map_vaInt_cases _ args
  | short => exact map_vaInt_cases _ args
  | long => exact vaLong_ok_cases args
  | llong => exact vaLong_ok_cases args
  | size => exact vaLong_ok_cases args
  | ptrdiff => exact vaLong_ok_cases args

section Convert

variable {spec : Spec} {c : UInt8} {args args' : List Arg}

/-- The number that a signed conversion prints. -/
def signed (spec : Spec) (value : BitVec 64) : List UInt8 :=
  if value.toInt < 0 then
    ascii '-' :: State.padded spec.width spec.pad (numeral 10 false (-(value + 1) + 1).toNat)
  else State.padded spec.width spec.pad (numeral 10 false value.toNat)

theorem convertSigned_emits {value : BitVec 64}
    (h : getSignedArg args spec.length = Outcome.ok (value, args')) (state : State) :
    convertSigned spec args state = Outcome.ok (args', state.emits (signed spec value)) := by
  rw [convertSigned, h, Outcome.ok_bind, signed]
  show (if value.toInt < 0 then _ else _) = _
  split
  · rw [State.emitChar_eq_emit, Outcome.ok_bind,
      State.emitUnsigned_eq_emits _ _ (by omega) (by omega)]
    rfl
  · rw [State.emitUnsigned_eq_emits _ _ (by omega) (by omega)]
    rfl

theorem convertUnsigned_emits {value : BitVec 64} {base : ℕ} (hbase : 1 < base)
    (hbase' : base ≤ 16) (uppercase : Bool)
    (h : getUnsignedArg args spec.length = Outcome.ok (value, args')) (state : State) :
    convertUnsigned spec base uppercase args state = Outcome.ok (args', state.emits
      (State.padded spec.width spec.pad (numeral base uppercase value.toNat))) := by
  rw [convertUnsigned, h, Outcome.ok_bind]
  show (State.emitUnsigned _ _ _ _ _ _ >>= _) = _
  rw [State.emitUnsigned_eq_emits _ _ hbase hbase']
  rfl

theorem convert_percent (spec : Spec) (args : List Arg) (state : State) :
    convert spec (ascii '%') args state = Outcome.ok (args, state.emits [ascii '%']) := by
  show (state.emitChar (ascii '%') >>= _) = _
  rw [State.emitChar_eq_emit]
  rfl

theorem convert_char (spec : Spec) (v : BitVec 32) (args : List Arg) (state : State) :
    convert spec (ascii 'c') (Arg.int v :: args) state
      = Outcome.ok (args, state.emits [UInt8.ofBitVec (v.setWidth 8)]) := by
  show (state.emitChar _ >>= _) = _
  rw [State.emitChar_eq_emit]
  rfl

theorem convert_string (spec : Spec) {addr : BitVec 64} {mem : List UInt8} {t : CString}
    (ht : t.bytes <+: if addr = 0 then asciiBytes "(null)" ++ [0] else mem) (args : List Arg)
    (state : State) :
    convert spec (ascii 's') (Arg.ptr addr mem :: args) state
      = Outcome.ok (args, state.emits (State.padded spec.width spec.pad t.chars)) := by
  show (state.emitPaddedString (addr, mem) spec.width spec.pad >>= _) = _
  rw [State.emitPaddedString_eq_emits state ht]
  rfl

theorem convert_pointer (spec : Spec) (addr : BitVec 64) (mem : List UInt8) (args : List Arg)
    (state : State) :
    convert spec (ascii 'p') (Arg.ptr addr mem :: args) state
      = Outcome.ok (args, state.emits
          (asciiBytes "0x" ++ State.padded 16 (ascii '0') (numeral 16 false addr.toNat))) := by
  have hzerox : state.emitString (asciiBytes "0x" ++ [0])
      = Outcome.ok (state.emits (asciiBytes "0x")) :=
    State.emitString_eq_emits (t := ⟨asciiBytes "0x", by decide⟩) state (List.prefix_refl _)
  show (state.emitString (asciiBytes "0x" ++ [0]) >>= _) = _
  rw [hzerox, Outcome.ok_bind, State.emitUnsigned_eq_emits _ _ (by omega) (by omega),
    State.emits_append]
  rfl

/-- A character that is not a conversion. -/
theorem convert_other (spec : Spec) (hc : c ∉ asciiBytes "%csdiuxXp") (args : List Arg)
    (state : State) :
    convert spec c args state = Outcome.ok (args, state.emits [ascii '%', c]) := by
  have hne : ∀ d ∈ asciiBytes "%csdiuxXp", c ≠ d := fun d hd h => hc (h ▸ hd)
  unfold convert
  rw [if_neg (hne _ (by decide)), if_neg (hne _ (by decide)), if_neg (hne _ (by decide)),
    if_neg (not_or_intro (hne _ (by decide)) (hne _ (by decide))), if_neg (hne _ (by decide)),
    if_neg (hne _ (by decide)), if_neg (hne _ (by decide)), if_neg (hne _ (by decide)),
    State.emitChar_eq_emit, Outcome.ok_bind, State.emitChar_eq_emit]
  rfl

theorem convertSigned_cases (spec : Spec) (args : List Arg) :
    (∃ args' cs, ∀ state, convertSigned spec args state = Outcome.ok (args', state.emits cs))
      ∨ ∀ state, convertSigned spec args state = Outcome.fault := by
  rcases getSignedArg_cases args spec.length with ⟨v, args', h⟩ | h
  · exact Or.inl ⟨args', _, convertSigned_emits h⟩
  · exact Or.inr (fun state => by rw [convertSigned, h]; rfl)

theorem convertUnsigned_cases (spec : Spec) {base : ℕ} (hbase : 1 < base) (hbase' : base ≤ 16)
    (uppercase : Bool) (args : List Arg) :
    (∃ args' cs, ∀ state,
        convertUnsigned spec base uppercase args state = Outcome.ok (args', state.emits cs))
      ∨ ∀ state, convertUnsigned spec base uppercase args state = Outcome.fault := by
  rcases getUnsignedArg_cases args spec.length with ⟨v, args', h⟩ | h
  · exact Or.inl ⟨args', _, convertUnsigned_emits hbase hbase' uppercase h⟩
  · exact Or.inr (fun state => by rw [convertUnsigned, h]; rfl)

/-- **A conversion emits the same in every state**, or it fails in every state. -/
theorem convert_cases (spec : Spec) (c : UInt8) (args : List Arg) :
    (∃ args' cs, ∀ state, convert spec c args state = Outcome.ok (args', state.emits cs))
      ∨ ∀ state, convert spec c args state = Outcome.fault := by
  by_cases hc : c ∈ asciiBytes "%csdiuxXp"
  · have hletter : ∀ c ∈ asciiBytes "%csdiuxXp", c = ascii '%' ∨ c = ascii 'c' ∨ c = ascii 's'
        ∨ c = ascii 'd' ∨ c = ascii 'i' ∨ c = ascii 'u' ∨ c = ascii 'x' ∨ c = ascii 'X'
        ∨ c = ascii 'p' := by simp [asciiBytes]
    rcases hletter c hc with rfl | rfl | rfl | rfl | rfl | rfl | rfl | rfl | rfl
    · exact Or.inl ⟨args, _, convert_percent spec args⟩
    · rcases vaInt_cases args with ⟨v, args', rfl⟩ | h
      · exact Or.inl ⟨args', _, convert_char spec v args'⟩
      · exact Or.inr (fun state => by show (vaInt args >>= _) = _; rw [h]; rfl)
    · rcases vaPtr_cases args with ⟨addr, mem, args', rfl⟩ | h
      · -- `strlen` runs out of the memory if there is no NUL
        by_cases hnul : 0 ∈ if addr = 0 then asciiBytes "(null)" ++ [0] else mem
        · obtain ⟨t, ht⟩ := CString.exists_prefix hnul
          exact Or.inl ⟨args', _, convert_string spec ht args'⟩
        · refine Or.inr (fun state => ?_)
          show (state.emitPaddedString (addr, mem) spec.width spec.pad >>= _) = _
          rw [State.emitPaddedString, CString.strlen_eq_none_iff.mpr hnul]
          rfl
      · exact Or.inr (fun state => by show (vaPtr args >>= _) = _; rw [h]; rfl)
    · exact convertSigned_cases spec args
    · exact convertSigned_cases spec args
    · exact convertUnsigned_cases spec (by omega) (by omega) false args
    · exact convertUnsigned_cases spec (by omega) (by omega) false args
    · exact convertUnsigned_cases spec (by omega) (by omega) true args
    · rcases vaPtr_cases args with ⟨addr, mem, args', rfl⟩ | h
      · exact Or.inl ⟨args', _, convert_pointer spec addr mem args'⟩
      · exact Or.inr (fun state => by show (vaPtr args >>= _) = _; rw [h]; rfl)
  · exact Or.inl ⟨args, _, convert_other spec hc args⟩

end Convert

/-! ## Runs -/

theorem parseSpec_ne_refused (fmt : List UInt8) : parseSpec fmt ≠ Outcome.refused := by
  have hflag : ∀ fmt, zeroFlag fmt ≠ Outcome.refused := by
    intro fmt
    unfold zeroFlag
    split
    · simp
    · split <;> simp
  have hwidth : ∀ fmt width, widthLoop width fmt ≠ Outcome.refused := by
    intro fmt
    induction fmt with
    | nil => simp [widthLoop]
    | cons c fmt ih =>
      intro width
      rw [widthLoop]
      split
      · exact ih _
      · simp
  have hdoubled : ∀ letter once twice fmt, doubled letter once twice fmt ≠ Outcome.refused := by
    intro letter once twice fmt
    unfold doubled
    split
    · simp
    · split <;> simp
  have hmodifier : ∀ fmt, lengthModifier fmt ≠ Outcome.refused := by
    intro fmt
    unfold lengthModifier
    split
    · simp
    · split_ifs <;> first | exact hdoubled _ _ _ _ | simp
  refine Outcome.bind_ne_refused (hflag fmt) (fun x => ?_)
  refine Outcome.bind_ne_refused (hwidth _ _) (fun y => ?_)
  exact Outcome.bind_ne_refused (hmodifier _) (fun z => by simp)

/-- What stands behind `%` is read and carried out. -/
theorem conversion_cases (fmt : List UInt8) (args : List Arg) :
    (∃ fmt' args' cs, ∀ state, conversion fmt args state
        = Outcome.ok ⟨fmt', args', state.emits cs⟩)
      ∨ ∀ state, conversion fmt args state = Outcome.fault := by
  cases hspec : parseSpec fmt with
  | refused => exact absurd hspec (parseSpec_ne_refused fmt)
  | fault => exact Or.inr (fun state => by rw [conversion, hspec]; rfl)
  | ok x =>
    obtain ⟨spec, rest⟩ := x
    cases rest with
    | nil => exact Or.inr (fun state => by rw [conversion, hspec]; rfl)
    | cons c rest =>
      have hconv : ∀ state, conversion fmt args state
          = (fun x : List Arg × State => ⟨rest, x.1, x.2⟩) <$> convert spec c args state := by
        intro state
        rw [conversion, hspec]
        rfl
      rcases convert_cases spec c args with ⟨args', cs, h⟩ | h
      · exact Or.inl ⟨rest, args', cs, fun state => by rw [hconv, h]; rfl⟩
      · exact Or.inr (fun state => by rw [hconv, h]; rfl)

/-- **A turn emits the same in every state**, or it fails in every state. -/
theorem turn_cases (fmt : List UInt8) (args : List Arg) :
    (∃ fmt' args' cs, fmt'.length < fmt.length ∧ ∀ state,
        turn ⟨fmt, args, state⟩ = Outcome.ok (Sum.inl ⟨fmt', args', state.emits cs⟩))
      ∨ (∀ state, turn ⟨fmt, args, state⟩ = Outcome.ok (Sum.inr state))
      ∨ ∀ state, turn ⟨fmt, args, state⟩ = Outcome.fault := by
  have hnext : ∀ {fmt' args' cs}, (∀ state,
      turn ⟨fmt, args, state⟩ = Outcome.ok (Sum.inl ⟨fmt', args', state.emits cs⟩)) →
      fmt'.length < fmt.length := fun h => turn_length (h ⟨false, true, 0, [], fun _ => 0⟩)
  cases fmt with
  | nil => exact Or.inr (Or.inr (fun state => rfl))
  | cons c fmt =>
    by_cases hnul : c = 0
    · exact Or.inr (Or.inl (fun state => if_pos hnul))
    by_cases hpercent : c = ascii '%'
    · cases fmt with
      | nil => exact Or.inr (Or.inr (fun state =>
          (if_neg hnul).trans (if_neg (not_not_intro hpercent))))
      | cons d fmt =>
        by_cases hd : d = 0
        · exact Or.inr (Or.inl (fun state =>
            (if_neg hnul).trans ((if_neg (not_not_intro hpercent)).trans (if_pos hd))))
        -- behind `%` a conversion is read, whatever it begins with
        have hturn : ∀ state, turn ⟨c :: d :: fmt, args, state⟩
            = Sum.inl <$> conversion (d :: fmt) args state := fun state =>
          (if_neg hnul).trans ((if_neg (not_not_intro hpercent)).trans (if_neg hd))
        rcases conversion_cases (d :: fmt) args with ⟨rest, args', cs, h⟩ | h
        · have hall : ∀ state, turn ⟨c :: d :: fmt, args, state⟩
              = Outcome.ok (Sum.inl ⟨rest, args', state.emits cs⟩) := by
            intro state
            rw [hturn, h]
            rfl
          exact Or.inl ⟨rest, args', cs, hnext hall, hall⟩
        · refine Or.inr (Or.inr (fun state => ?_))
          rw [hturn, h]
          rfl
    · have hall : ∀ state, turn ⟨c :: fmt, args, state⟩
          = Outcome.ok (Sum.inl ⟨fmt, args, state.emits [c]⟩) := by
        intro state
        refine (if_neg hnul).trans ((if_pos hpercent).trans ?_)
        rw [State.emitChar_eq_emit]
        rfl
      exact Or.inl ⟨fmt, args, [c], hnext hall, hall⟩

/-- **A run emits the same in every state**, or it fails in every state. -/
theorem run_cases (fmt : List UInt8) (args : List Arg) :
    (∃ cs, ∀ state, loop.run ⟨fmt, args, state⟩ = Outcome.ok (state.emits cs))
      ∨ ∀ state, loop.run ⟨fmt, args, state⟩ = Outcome.fault := by
  induction h : fmt.length using Nat.strong_induction_on generalizing fmt args with
  | _ n ih =>
    subst h
    rcases turn_cases fmt args with ⟨fmt', args', cs, hlt, hturn⟩ | hturn | hturn
    · have hnext : ∀ state, loop.run ⟨fmt, args, state⟩
          = loop.run ⟨fmt', args', state.emits cs⟩ := fun state =>
        Loop.run_of_next rfl (hturn state)
      rcases ih _ hlt fmt' args' rfl with ⟨ds, h⟩ | h
      · refine Or.inl ⟨cs ++ ds, fun state => ?_⟩
        rw [hnext, h, State.emits_append]
      · exact Or.inr (fun state => (hnext state).trans (h _))
    · exact Or.inl ⟨[], fun state => Loop.run_of_result rfl (hturn state)⟩
    · exact Or.inr (fun state => Loop.run_of_fault rfl (hturn state))

end Printk
