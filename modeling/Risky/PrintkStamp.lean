import Risky.PrintkLog
import Risky.Kmain

/-!
# Time stamps

The log prefix shows an uptime in milliseconds (`IsStamp`, `isStamp_stamp`), and an
output of `vklog` consists of lines with such a time in front and of empty lines
(`LogLines`). Whether the time is the time elapsed is up to `ktime_get_ms`, which
multiplies the ticks by 1000 in 64 bits before it divides: it is exactly as long as
the product does not overflow, and over a run of which that is true the times never
decrease (`writesTime_iff`).
-/

namespace Printk

open CPrintf

/-! ## What a prefix shows -/

/-- The value of a numeral. -/
theorem value_numeral (n : ℕ) :
    (numeral 10 false n).foldl (fun v c => 10 * v + (c.toNat - 48)) 0 = n := by
  have hdigit : ∀ d < 10, (State.digit false d).toNat - 48 = d := by decide
  rw [numeral_eq_map (by omega) (by omega), List.foldl_map]
  refine Eq.trans ?_ (foldl_baseDigits 10 n)
  refine List.foldl_ext _ _ 0 (fun v d hd => ?_)
  rw [hdigit d (lt_base_of_mem (by omega) hd)]

/-- What follows a numeral and a dot can be told from the two. -/
theorem numeral_dot_inj {a b : ℕ} {xs ys : List UInt8}
    (h : numeral 10 false a ++ ascii '.' :: xs = numeral 10 false b ++ ascii '.' :: ys) :
    a = b ∧ xs = ys := by
  have htake : ∀ n zs, (numeral 10 false n ++ ascii '.' :: zs).takeWhile (· ≠ ascii '.')
      = numeral 10 false n := by
    intro n zs
    have hdot : ∀ d < 16, State.digit false d ≠ ascii '.' := by decide
    rw [List.takeWhile_append_of_pos, List.takeWhile_cons_of_neg (by simp), List.append_nil]
    intro c hc
    obtain ⟨d, hd, rfl⟩ := exists_digit_of_mem_numeral (by omega) (by omega) hc
    simpa using hdot d hd
  have hnumeral : numeral 10 false a = numeral 10 false b := by
    rw [← htake a xs, h, htake]
  refine ⟨?_, ?_⟩
  · rw [← value_numeral a, hnumeral, value_numeral]
  · rw [hnumeral] at h
    exact (List.cons.inj (List.append_cancel_left h)).2

/-- **A time in milliseconds**: the seconds as a decimal number and three decimals. -/
def IsStamp (text : List UInt8) (ms : ℕ) : Prop :=
  ∃ (seconds : ℕ) (d₁ d₂ d₃ : Fin 10),
    text = ascii '[' :: (numeral 10 false seconds
        ++ ascii '.' :: digitCode d₁ :: digitCode d₂ :: digitCode d₃ :: asciiBytes "] ")
      ∧ 1000 * seconds + (100 * d₁.val + 10 * d₂.val + d₃.val) = ms

/-- **A time is read in one way.** -/
theorem IsStamp.unique {text : List UInt8} {ms ms' : ℕ} (h : IsStamp text ms)
    (h' : IsStamp text ms') : ms = ms' := by
  obtain ⟨seconds, d₁, d₂, d₃, rfl, rfl⟩ := h
  obtain ⟨seconds', e₁, e₂, e₃, heq, rfl⟩ := h'
  have hinj : ∀ d e : Fin 10, digitCode d = digitCode e → d = e := by decide
  obtain ⟨rfl, hdigits⟩ := numeral_dot_inj (List.cons.inj heq).2
  simp only [List.cons.injEq] at hdigits
  rw [hinj _ _ hdigits.1, hinj _ _ hdigits.2.1, hinj _ _ hdigits.2.2.1]

/-- **The prefix shows the uptime.** -/
theorem isStamp_stamp (ms : BitVec 64) : IsStamp (stamp ms) ms.toNat := by
  have hdigit : ∀ d : Fin 10, ascii '0' + UInt8.ofNat d.val = digitCode d := by decide
  have hdiv : (ms / 1000).toNat = ms.toNat / 1000 := BitVec.toNat_udiv
  refine ⟨ms.toNat / 1000, ⟨ms.toNat % 1000 / 100 % 10, by omega⟩,
    ⟨ms.toNat % 1000 / 10 % 10, by omega⟩, ⟨ms.toNat % 1000 / 1 % 10, by omega⟩, ?_, ?_⟩
  · rw [stamp, hdiv, List.append_assoc, ← hdigit, ← hdigit, ← hdigit]
    rfl
  · show 1000 * (ms.toNat / 1000) + (100 * (ms.toNat % 1000 / 100 % 10)
      + 10 * (ms.toNat % 1000 / 10 % 10) + ms.toNat % 1000 / 1 % 10) = ms.toNat
    omega

/-! ## Log lines -/

/-- **An output of log lines**, with the times in front of them, and of empty lines. -/
inductive LogLines : List ℕ → List UInt8 → Prop where
  | nil : LogLines [] []
  | line {text body out : List UInt8} {ms : ℕ} {times : List ℕ} (htext : IsStamp text ms)
      (hbody : ascii '\n' ∉ body) (hout : LogLines times out) :
      LogLines (ms :: times) (text ++ (body ++ (asciiBytes "\r\n" ++ out)))
  | blank {out : List UInt8} {times : List ℕ} (hout : LogLines times out) :
      LogLines times (asciiBytes "\r\n" ++ out)

/-- The number of prefixes with which characters are printed. -/
def lineStarts : Bool → List UInt8 → ℕ
  | _, [] => 0
  | start, c :: cs => lineStarts (c = ascii '\n') cs + if start then 1 else 0

/-- The first times of a clock. -/
def times (clock : ℕ → BitVec 64) (n : ℕ) : List ℕ :=
  (List.range n).map (fun i => (clock i).toNat)

theorem times_succ (clock : ℕ → BitVec 64) (n : ℕ) :
    times clock (n + 1) = (clock 0).toNat :: times (fun n => clock (n + 1)) n := by
  rw [times, List.range_succ_eq_map, List.map_cons, List.map_map]
  rfl

theorem times_add (clock : ℕ → BitVec 64) (m n : ℕ) :
    times clock (m + n) = times clock m ++ times (fun n => clock (n + m)) n := by
  induction m generalizing clock with
  | zero =>
    rw [Nat.zero_add]
    rfl
  | succ m ih =>
    rw [Nat.succ_add, times_succ, times_succ, ih, List.cons_append]
    rfl

theorem State.clock_emits {s : State} (hs : s.prefixEnabled = true) (cs : List UInt8) :
    (s.emits cs).clock = fun n => s.clock (n + lineStarts s.atLineStart cs) := by
  induction cs generalizing s with
  | nil => rfl
  | cons c cs ih =>
    have hline : (s.emit c).atLineStart = decide (c = ascii '\n') := rfl
    rw [emits_cons, ih (by rw [prefixEnabled_emit, hs]), clock_emit, hline, hs, Bool.true_and,
      lineStarts]
    cases s.atLineStart with
    | true => rfl
    | false => rfl

/-- **Characters are printed as log lines**: at the start of a line, or within one. -/
theorem logLines_logged (cs : List UInt8) {ts : List ℕ} {out : List UInt8}
    (hout : LogLines ts out) (clock : ℕ → BitVec 64) :
    LogLines (times clock (lineStarts true cs) ++ ts)
        (logged clock true (expand cs) ++ (asciiBytes "\r\n" ++ out))
      ∧ ∃ body out', ascii '\n' ∉ body
        ∧ logged clock false (expand cs) ++ (asciiBytes "\r\n" ++ out)
          = body ++ (asciiBytes "\r\n" ++ out')
        ∧ LogLines (times clock (lineStarts false cs) ++ ts) out' := by
  induction cs generalizing clock with
  | nil => exact ⟨.blank hout, [], out, List.not_mem_nil, rfl, hout⟩
  | cons c cs ih =>
    rw [logged_expand, logged_expand]
    have htimes : times clock (lineStarts true (c :: cs)) = (clock 0).toNat
        :: times (fun n => clock (n + 1)) (lineStarts (c = ascii '\n') cs) := times_succ _ _
    rw [htimes]
    by_cases hc : c = ascii '\n'
    · -- a newline ends the line that it is in, and the next one begins behind it
      have hexpand : expand [c] = asciiBytes "\r\n" := by
        rw [hc]
        rfl
      rw [hexpand, List.append_assoc, List.append_assoc, List.append_assoc, List.append_assoc,
        lineStarts, decide_eq_true hc]
      have hline := LogLines.line (isStamp_stamp (clock 0)) (List.not_mem_nil (a := ascii '\n'))
        (ih (fun n => clock (n + 1))).1
      exact ⟨hline, [], _, List.not_mem_nil, rfl, (ih clock).1⟩
    · -- any other character belongs to the body of its line
      have hexpand : expand [c] = [c] := by
        rw [expand, List.flatMap_singleton]
        exact if_neg hc
      rw [hexpand, List.append_assoc, List.append_assoc, List.append_assoc, List.append_assoc,
        lineStarts, decide_eq_false hc]
      have hbody : ∀ {body : List UInt8}, ascii '\n' ∉ body → ascii '\n' ∉ c :: body :=
        fun hbody h => (List.mem_cons.mp h).elim (fun h => hc h.symm) hbody
      constructor
      · obtain ⟨body, out', hnewline, heq, hlines⟩ := (ih (fun n => clock (n + 1))).2
        have hline := LogLines.line (isStamp_stamp (clock 0)) (hbody hnewline) hlines
        rw [List.cons_append, ← heq] at hline
        exact hline
      · obtain ⟨body, out', hnewline, heq, hlines⟩ := (ih clock).2
        exact ⟨c :: body, out', hbody hnewline, congrArg (List.cons c) heq, hlines⟩

/-! ## Runs -/

/-- Calls of `vklog` one after the other, and what they print. -/
def vklogs : List (List UInt8 × List Arg) → (ℕ → BitVec 64) → Outcome (List UInt8)
  | [], _ => Outcome.ok []
  | (fmt, args) :: lines, clock => do
    let s ← vklog fmt args clock
    let out ← vklogs lines s.clock
    Outcome.ok (s.out ++ out)

/-- **Whatever is logged consists of log lines**, whose times are the first of the
clock. -/
theorem exists_logLines {lines : List (List UInt8 × List Arg)} {clock : ℕ → BitVec 64}
    {out : List UInt8} (h : vklogs lines clock = Outcome.ok out) :
    ∃ n, LogLines (times clock n) out := by
  induction lines generalizing clock out with
  | nil =>
    cases h
    exact ⟨0, .nil⟩
  | cons line lines ih =>
    obtain ⟨fmt, args⟩ := line
    obtain ⟨s, hs, h⟩ := Outcome.bind_eq_ok.mp h
    obtain ⟨out', hout', h⟩ := Outcome.bind_eq_ok.mp h
    cases h
    rcases vklog_cases fmt args with ⟨cs, hall⟩ | hall
    · obtain ⟨t, ht, -, hout, hclock⟩ := (hall clock).2
      rw [ht] at hs
      cases hs
      rw [hclock, State.clock_emits rfl] at hout'
      obtain ⟨n, hlines⟩ := ih hout'
      refine ⟨lineStarts true cs + n, ?_⟩
      rw [times_add, hout, List.append_assoc]
      exact (logLines_logged cs hlines clock).1
    · rw [(hall clock).2] at hs
      cases hs

/-! ## The time elapsed -/

variable {k : Kmain.Ktime}

/-- **`emit_log_prefix` writes a time.** -/
def WritesTime (s : State) (ms : ℕ) : Prop :=
  ∃ s' text, s.emitLogPrefix = Outcome.ok s' ∧ s'.out = s.out ++ text ∧ IsStamp text ms

/-- At the start of a line it writes what the clock says, and nothing else. -/
theorem writesTime_iff_clock {s : State} (henabled : s.prefixEnabled = true)
    (hline : s.atLineStart = true) (ms : ℕ) : WritesTime s ms ↔ (s.clock 0).toNat = ms := by
  have hout : s.stamped.out = s.out ++ stamp (s.clock 0) := by
    rw [State.stamped, henabled, hline]
    rfl
  constructor
  · rintro ⟨s', text, hs', htext, hms⟩
    rw [State.emitLogPrefix_eq] at hs'
    cases hs'
    rw [hout] at htext
    rw [← List.append_cancel_left htext] at hms
    exact (isStamp_stamp _).unique hms
  · rintro rfl
    exact ⟨s.stamped, stamp (s.clock 0), s.emitLogPrefix_eq, hout, isStamp_stamp _⟩

/-- **Milliseconds from ticks**: the product with 1000 is taken modulo 2^64. -/
theorem toNat_ktimeGetMs (hf : k.tickFreq ≠ 0) (now : BitVec 64) :
    (k.ktimeGetMs now).toNat = 1000 * (k.ktimeGetTicks now).toNat % 2 ^ 64 / k.tickFreq.toNat := by
  have hfreq := k.tickFreq.isLt
  rw [Kmain.Ktime.ktimeGetMs, Kmain.Ktime.ktimeGetFreq, if_neg hf, BitVec.toNat_udiv, BitVec.toNat_mul,
    BitVec.toNat_setWidth, Nat.mod_eq_of_lt (lt_trans hfreq (by decide)), mul_comm]
  rfl

/-- A quotient is right exactly if its dividend did not overflow. -/
theorem mod_div_eq_div_iff {n f : ℕ} (hf : 0 < f) (hf' : f < 2 ^ 64) :
    n % 2 ^ 64 / f = n / f ↔ n < 2 ^ 64 := by
  constructor
  · intro h
    by_contra hlt
    have hle : n % 2 ^ 64 + 2 ^ 64 ≤ n := by omega
    have hstep : n % 2 ^ 64 / f + 1 = (n % 2 ^ 64 + f) / f := (Nat.add_div_right _ hf).symm
    have hmono : (n % 2 ^ 64 + f) / f ≤ n / f := Nat.div_le_div_right (by omega)
    omega
  · intro h
    rw [Nat.mod_eq_of_lt h]

/-- **The times of a run** in which the time counter never decreases never decrease, if
no product overflows. -/
theorem pairwise_times (hready : k.ready = true) (hf : k.tickFreq ≠ 0) {now : ℕ → BitVec 64}
    (hnow : ∀ n, k.bootTicks ≤ now n ∧ now n ≤ now (n + 1))
    (hlt : ∀ n, 1000 * (k.ktimeGetTicks (now n)).toNat < 2 ^ 64) (n : ℕ) :
    (times (fun n => k.ktimeGetMs (now n)) n).Pairwise (· ≤ ·) := by
  have hticks : ∀ n, (k.ktimeGetTicks (now n)).toNat = (now n).toNat - k.bootTicks.toNat := by
    intro n
    rw [Kmain.Ktime.ktimeGetTicks, hready]
    exact BitVec.toNat_sub_of_le (hnow n).1
  have hmono : Monotone (fun n => (k.ktimeGetMs (now n)).toNat) := by
    refine monotone_nat_of_le_succ (fun n => ?_)
    have hle : (now n).toNat ≤ (now (n + 1)).toNat := (hnow n).2
    show (k.ktimeGetMs (now n)).toNat ≤ (k.ktimeGetMs (now (n + 1))).toNat
    rw [toNat_ktimeGetMs hf, toNat_ktimeGetMs hf, Nat.mod_eq_of_lt (hlt n),
      Nat.mod_eq_of_lt (hlt (n + 1)), hticks, hticks]
    exact Nat.div_le_div_right (Nat.mul_le_mul_left _ (Nat.sub_le_sub_right hle _))
  rw [times, List.pairwise_map]
  exact List.pairwise_le_range.imp (fun h => hmono h)

/-- **The prefix shows the time elapsed exactly if the product of the ticks and 1000
does not overflow.** Over a run of which that is true, and in which the time counter
never decreases, the times in front of the lines never decrease. -/
theorem writesTime_iff (hready : k.ready = true) (hf : k.tickFreq ≠ 0) :
    (∀ (t : BitVec 64) (s : State), s.prefixEnabled = true → s.atLineStart = true →
        s.clock 0 = k.ktimeGetMs (k.bootTicks + t) →
        (WritesTime s (1000 * t.toNat / k.tickFreq.toNat) ↔ 1000 * t.toNat < 2 ^ 64))
      ∧ ∀ (now : ℕ → BitVec 64) (lines : List (List UInt8 × List Arg)) (out : List UInt8),
        (∀ n, k.bootTicks ≤ now n ∧ now n ≤ now (n + 1)) →
        (∀ n, 1000 * (k.ktimeGetTicks (now n)).toNat < 2 ^ 64) →
        vklogs lines (fun n => k.ktimeGetMs (now n)) = Outcome.ok out →
        ∃ ts, LogLines ts out ∧ ts.Pairwise (· ≤ ·) := by
  constructor
  · intro t s henabled hline hclock
    have hticks : k.ktimeGetTicks (k.bootTicks + t) = t := by
      rw [Kmain.Ktime.ktimeGetTicks, hready, BitVec.add_comm]
      exact BitVec.add_sub_cancel t k.bootTicks
    have hpos : 0 < k.tickFreq.toNat :=
      Nat.pos_of_ne_zero (fun h => hf (BitVec.eq_of_toNat_eq h))
    have hfreq := k.tickFreq.isLt
    rw [writesTime_iff_clock henabled hline, hclock, toNat_ktimeGetMs hf, hticks]
    exact mod_div_eq_div_iff hpos (by omega)
  · intro now lines out hnow hlt h
    obtain ⟨n, hlines⟩ := exists_logLines h
    exact ⟨_, hlines, pairwise_times hready hf hnow hlt n⟩

/-- A clock of 10 MHz that is started at zero. -/
def tenMHz : Kmain.Ktime := ⟨0, 10000000, true⟩

/-- A line is begun after the given number of ticks. -/
def atTicks (t : BitVec 64) : State :=
  ⟨true, true, 0, [], fun _ => tenMHz.ktimeGetMs (tenMHz.bootTicks + t)⟩

/-- A time counter that reaches one second and a half after the first reading. -/
def countTo (n : ℕ) : BitVec 64 := if n = 0 then 0 else 15000000

theorem countTo_mono (n : ℕ) : countTo n ≤ countTo (n + 1) := by
  unfold countTo
  split
  · exact BitVec.le_def.mpr (Nat.zero_le _)
  · exact BitVec.le_refl _

theorem countTo_lt (n : ℕ) : 1000 * (tenMHz.ktimeGetTicks (countTo n)).toNat < 2 ^ 64 := by
  unfold countTo
  split <;> decide

/-- For a line 1.234 seconds after the start, and for two lines, the second of which is
1.5 seconds behind the first. -/
theorem writesTime_iff_tenMHz :
    (WritesTime (atTicks 12345678) (1000 * 12345678 / 10000000) ↔ 1000 * 12345678 < 2 ^ 64)
      ∧ ∃ ts, LogLines ts (asciiBytes "[0.000] a\r\n[1.500] b\r\n") ∧ ts.Pairwise (· ≤ ·) := by
  have h := writesTime_iff (k := tenMHz) rfl (by decide)
  exact ⟨h.1 12345678 (atTicks 12345678) rfl rfl rfl,
    h.2 countTo [(asciiBytes "a" ++ [0], []), (asciiBytes "b" ++ [0], [])] _
      (fun n => ⟨BitVec.le_def.mpr (Nat.zero_le _), countTo_mono n⟩) countTo_lt (by decide +kernel)⟩

/-- **After 58 years and a half the time begins anew.** -/
theorem not_writesTime_tenMHz :
    (∃ s', (atTicks 18446744073709551).emitLogPrefix = Outcome.ok s'
        ∧ s'.out = asciiBytes "[1844674407.370] ")
      ∧ (∃ s', (atTicks 18446744073709552).emitLogPrefix = Outcome.ok s'
        ∧ s'.out = asciiBytes "[0.000] ")
      ∧ ¬ WritesTime (atTicks 18446744073709552) (1000 * 18446744073709552 / 10000000) := by
  refine ⟨⟨_, State.emitLogPrefix_eq _, by decide +kernel⟩,
    ⟨_, State.emitLogPrefix_eq _, by decide +kernel⟩, fun h => ?_⟩
  have hclock := (writesTime_iff_clock rfl rfl _).mp h
  have hzero : (atTicks 18446744073709552).clock 0 = 0 := by decide
  rw [hzero] at hclock
  exact absurd hclock (by decide)

end Printk
