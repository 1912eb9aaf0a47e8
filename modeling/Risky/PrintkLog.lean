import Risky.PrintkFormat

/-!
# Log lines

`vklog` prints what `vkprintf` prints, with the time in front of each line, and ends
the last line itself. The prefix stands before the first character and before each
that follows a newline, wherever the newline comes from (`logged`): the characters
are the same with the prefix and without (`run_cases`), and only a newline brings
the state back to the start of a line.
-/

namespace Printk

open CPrintf

/-- `vkprintf`: the characters that it prints, with the number of them that it returns
in `written`. -/
def vkprintf (fmt : List UInt8) (args : List Arg) (clock : ℕ → BitVec 64) : Outcome State :=
  vprintkInternal false fmt args clock

/-- `vklog`, likewise. -/
def vklog (fmt : List UInt8) (args : List Arg) (clock : ℕ → BitVec 64) : Outcome State := do
  let s ← vprintkInternal true fmt args clock
  let t ← vkprintf (asciiBytes "\n" ++ [0]) [] s.clock
  Outcome.ok { t with written := s.written + t.written, out := s.out ++ t.out }

/-- **An output with the log prefix** before each character that begins a line: before
the first, if that is at the start of a line, and before each that follows a newline. -/
def logged : (ℕ → BitVec 64) → Bool → List UInt8 → List UInt8
  | _, _, [] => []
  | clock, true, c :: out =>
    stamp (clock 0) ++ c :: logged (fun n => clock (n + 1)) (c = ascii '\n') out
  | clock, false, c :: out => c :: logged clock (c = ascii '\n') out

variable {fmt : List UInt8} {args : List Arg} {clock : ℕ → BitVec 64}

/-- A character keeps its place when newlines are expanded. -/
theorem logged_expand (clock : ℕ → BitVec 64) (start : Bool) (c : UInt8) (cs : List UInt8) :
    logged clock start (expand (c :: cs))
      = (if start then stamp (clock 0) else []) ++ expand [c]
        ++ logged (if start then fun n => clock (n + 1) else clock) (c = ascii '\n')
          (expand cs) := by
  have hexpand : expand (c :: cs) = expand [c] ++ expand cs := expand_append [c] cs
  rw [hexpand]
  by_cases hc : c = ascii '\n'
  · subst hc
    cases start with
    | true =>
      show stamp (clock 0) ++ ascii '\r' :: ascii '\n' :: logged _ _ (expand cs) = _
      rw [List.append_assoc]
      rfl
    | false => rfl
  · have hsingle : expand [c] = [c] := by
      rw [expand, List.flatMap_singleton]
      exact if_neg hc
    rw [hsingle]
    cases start with
    | true =>
      show stamp (clock 0) ++ c :: logged _ _ (expand cs) = _
      rw [List.append_assoc]
      rfl
    | false => rfl

namespace State

variable {s : State}

theorem prefixEnabled_emit (s : State) (c : UInt8) : (s.emit c).prefixEnabled = s.prefixEnabled := by
  unfold emit stamped emitRawChar
  split <;> split <;> rfl

/-- A prefix takes a value of the clock. -/
theorem clock_emit (s : State) (c : UInt8) :
    (s.emit c).clock
      = if s.prefixEnabled && s.atLineStart then fun n => s.clock (n + 1) else s.clock := by
  unfold emit stamped emitRawChar
  split <;> split <;> rfl

/-- **With the prefix** the characters are printed as log lines. -/
theorem out_emits_of_prefixEnabled (hs : s.prefixEnabled = true) (cs : List UInt8) :
    (s.emits cs).out = s.out ++ logged s.clock s.atLineStart (expand cs) := by
  induction cs generalizing s with
  | nil => exact (List.append_nil _).symm
  | cons c cs ih =>
    have hline : (s.emit c).atLineStart = decide (c = ascii '\n') := rfl
    rw [emits_cons, ih (by rw [prefixEnabled_emit, hs]), out_emit, clock_emit, logged_expand,
      hline, hs, Bool.true_and, List.append_assoc]

/-- **Without the prefix** they are printed as they are. -/
theorem out_emits_of_not_prefixEnabled (hs : s.prefixEnabled = false) (cs : List UInt8) :
    (s.emits cs).out = s.out ++ expand cs := by
  rw [emits_eq_puts hs, out_puts]

end State

/-- The newline behind a log line. -/
theorem vkprintf_newline (clock : ℕ → BitVec 64) :
    vkprintf (asciiBytes "\n" ++ [0]) [] clock
      = Outcome.ok ((⟨false, true, 0, [], clock⟩ : State).emits [ascii '\n']) := by
  set s : State := ⟨false, true, 0, [], clock⟩ with hs
  have hnext : loop.run ⟨asciiBytes "\n" ++ [0], [], s⟩
      = loop.run ⟨[0], [], s.emits [ascii '\n']⟩ := by
    refine Loop.run_of_next rfl ?_
    show (s.emitChar (ascii '\n') >>= _) = _
    rw [State.emitChar_eq_emit]
    rfl
  exact hnext.trans (Loop.run_of_result rfl rfl)

/-- **A call of `vklog`** succeeds where the call of `vkprintf` does, and prints the
same characters. -/
theorem vklog_cases (fmt : List UInt8) (args : List Arg) :
    (∃ cs, ∀ clock,
        vkprintf fmt args clock = Outcome.ok ((⟨false, true, 0, [], clock⟩ : State).emits cs)
        ∧ ∃ t, vklog fmt args clock = Outcome.ok t ∧ t.written = t.out.length
          ∧ t.out = logged clock true (expand cs) ++ asciiBytes "\r\n"
          ∧ t.clock = ((⟨true, true, 0, [], clock⟩ : State).emits cs).clock)
      ∨ ∀ clock, vkprintf fmt args clock = Outcome.fault
        ∧ vklog fmt args clock = Outcome.fault := by
  rcases run_cases fmt args with ⟨cs, h⟩ | h
  · refine Or.inl ⟨cs, fun clock => ⟨h _, ?_⟩⟩
    set s : State := ⟨true, true, 0, [], clock⟩ with hs
    have hvklog : vklog fmt args clock = Outcome.ok
        { (⟨false, true, 0, [], (s.emits cs).clock⟩ : State).emits [ascii '\n'] with
          written := (s.emits cs).written + 2
          out := (s.emits cs).out ++ asciiBytes "\r\n" } := by
      show (loop.run ⟨fmt, args, s⟩ >>= _) = _
      rw [h, Outcome.ok_bind, vkprintf_newline]
      rfl
    refine ⟨_, hvklog, ?_, ?_, rfl⟩
    · show (s.emits cs).written + 2 = ((s.emits cs).out ++ asciiBytes "\r\n").length
      rw [State.written_emits rfl, List.length_append]
      rfl
    · show (s.emits cs).out ++ asciiBytes "\r\n" = _
      rw [State.out_emits_of_prefixEnabled rfl]
      rfl
  · refine Or.inr (fun clock => ⟨h _, ?_⟩)
    show (loop.run ⟨fmt, args, ⟨true, true, 0, [], clock⟩⟩ >>= _) = _
    rw [h]
    rfl

/-- **`vklog` prints the log lines of what `vkprintf` prints**, and CR LF without a
prefix, for every format, all arguments and all clocks. Both return the number of
characters that they print. They succeed on every format that is not unfinished, if
the arguments supply what it needs. -/
theorem vklog_eq_logged (fmt : List UInt8) (args : List Arg) (clock clock' : ℕ → BitVec 64) :
    State.out <$> vklog fmt args clock
        = (fun out => logged clock true out ++ asciiBytes "\r\n")
          <$> (State.out <$> vkprintf fmt args clock')
      ∧ (∀ s, vkprintf fmt args clock' = Outcome.ok s → s.written = s.out.length)
      ∧ (∀ t, vklog fmt args clock = Outcome.ok t → t.written = t.out.length)
      ∧ ∀ F : Format, F.spell ++ [0] = fmt → ¬ F.Unfinished → F.Supplied args →
        ∃ s t, vkprintf fmt args clock' = Outcome.ok s ∧ vklog fmt args clock = Outcome.ok t := by
  rcases vklog_cases fmt args with ⟨cs, h⟩ | h
  · obtain ⟨t, ht, hwritten, hout, -⟩ := (h clock).2
    rw [(h clock').1, ht]
    refine ⟨?_, ?_, ?_, fun _ _ _ _ => ⟨_, t, rfl, rfl⟩⟩
    · rw [Outcome.map_ok, Outcome.map_ok, Outcome.map_ok, hout,
        State.out_emits_of_not_prefixEnabled rfl]
      rfl
    · intro s hs
      cases hs
      exact State.written_emits rfl cs
    · intro s hs
      cases hs
      exact hwritten
  · rw [(h clock').1, (h clock).2]
    refine ⟨rfl, fun s hs => ?_, fun s hs => ?_, fun F hF hfinished hargs => ?_⟩
    · cases hs
    · cases hs
    · -- a format that is not unfinished does not fault
      subst hF
      obtain ⟨cs, -, hrun⟩ := (run_format F hargs).2 hfinished
      have hfault := (h clock').1
      rw [show vkprintf (F.spell ++ [0]) args clock' = _ from hrun _] at hfault
      cases hfault

/-- `"%c!"`, which prints a newline as its argument. -/
def charBang : Format :=
  .conversion [] .none (ascii 'c') (by decide) (by decide)
    (.ordinary (ascii '!') (by decide) (by decide) .done)

/-- Two lines, the second begun by what follows the argument. -/
theorem vklog_eq_logged_charBang :
    State.out <$> vklog (charBang.spell ++ [0]) [Arg.int 10] (fun n => BitVec.ofNat 64 (1500 * n))
        = Outcome.ok (asciiBytes "[0.000] \r\n[1.500] !\r\n")
      ∧ ∃ s t, vkprintf (charBang.spell ++ [0]) [Arg.int 10] (fun _ => 0) = Outcome.ok s
        ∧ vklog (charBang.spell ++ [0]) [Arg.int 10] (fun n => BitVec.ofNat 64 (1500 * n))
          = Outcome.ok t :=
  ⟨by decide +kernel, (vklog_eq_logged _ _ _ _).2.2.2 charBang rfl (fun h => h) ⟨⟨10, rfl⟩, trivial⟩⟩

end Printk
