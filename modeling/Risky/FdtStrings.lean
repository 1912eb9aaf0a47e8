import Mathlib.Data.List.TakeWhile
import Risky.FdtRoundTrip

/-!
# Strings for the caller

`fdt_get_stdout_path` and `fdt_resolve_alias` look a property up, check that it ends
in NUL, cut it and copy what is left to a buffer of the caller. Here the buffer is
passed through the calls, so that it is in the result of those that return `false`,
too. Both obey one law (`CopiesString`): the string is copied if it fits, and nothing
is written otherwise.
-/

/-! ## Cutting a string -/

/-- **A string that is cut** at the first of some characters. -/
def cutAt (stops : List UInt8) (bytes : List UInt8) : List UInt8 :=
  bytes.takeWhile (fun c => decide (c ∉ stops))

section Cut

variable {stops mem bytes rest : List UInt8}

theorem cutAt_cons (stops : List UInt8) (c : UInt8) (bytes : List UInt8) :
    cutAt stops (c :: bytes) = if c ∈ stops then [] else c :: cutAt stops bytes := by
  unfold cutAt
  by_cases h : c ∈ stops
  · rw [List.takeWhile_cons_of_neg (by simpa using h), if_pos h]
  · rw [List.takeWhile_cons_of_pos (by simpa using h), if_neg h]

theorem cutAt_prefix (stops bytes : List UInt8) : cutAt stops bytes <+: bytes :=
  List.takeWhile_prefix _

theorem notMem_cutAt {c : UInt8} (hc : c ∈ stops) (bytes : List UInt8) :
    c ∉ cutAt stops bytes := by
  intro h
  have hstop := List.mem_takeWhile_imp (p := fun c => decide (c ∉ stops)) h
  exact of_decide_eq_true hstop hc

/-- What follows the first stop does not matter. -/
theorem cutAt_append {c : UInt8} (hc : c ∈ stops) (h : c ∈ bytes) (rest : List UInt8) :
    cutAt stops (bytes ++ rest) = cutAt stops bytes := by
  induction bytes with
  | nil => exact absurd h List.not_mem_nil
  | cons d bytes ih =>
    rw [List.cons_append, cutAt_cons, cutAt_cons]
    by_cases hd : d ∈ stops
    · rw [if_pos hd, if_pos hd]
    · have hne : c ≠ d := fun hcd => hd (hcd ▸ hc)
      rw [if_neg hd, if_neg hd, ih ((List.mem_cons.mp h).resolve_left hne)]

/-- `strlen` cuts at NUL. -/
theorem strlen_eq_cutAt (h : 0 ∈ mem) : strlen mem = some (cutAt [0] mem).length := by
  induction mem with
  | nil => exact absurd h List.not_mem_nil
  | cons c mem ih =>
    rw [strlen, cutAt_cons]
    by_cases hc : c = 0
    · rw [if_pos hc, if_pos (List.mem_singleton.mpr hc)]
      rfl
    · rw [if_neg hc, if_neg (mt List.mem_singleton.mp hc),
        ih ((List.mem_cons.mp h).resolve_left (Ne.symm hc))]
      rfl

/-- The path to the console is cut at NUL or `':'`. -/
theorem fdtStdoutLen_eq (h : 0 ∈ mem) :
    Fdt.fdtStdoutLen mem = Outcome.ok (cutAt [0, 0x3a] mem).length := by
  induction mem with
  | nil => exact absurd h List.not_mem_nil
  | cons c mem ih =>
    rw [cutAt_cons]
    by_cases hcolon : c = 0x3a
    · rw [if_pos (List.mem_cons_of_mem 0 (List.mem_singleton.mpr hcolon)), Fdt.fdtStdoutLen, strchr,
        if_pos hcolon]
      rfl
    by_cases hc : c = 0
    · rw [if_pos (List.mem_cons.mpr (Or.inl hc)), Fdt.fdtStdoutLen, strchr, if_neg hcolon, if_pos hc,
        strlen, if_pos hc]
      rfl
    · have hstop : c ∉ ([0, 0x3a] : List UInt8) := by simp [hc, hcolon]
      have hstep : Fdt.fdtStdoutLen (c :: mem) = (· + 1) <$> Fdt.fdtStdoutLen mem := by
        rw [Fdt.fdtStdoutLen, Fdt.fdtStdoutLen, strchr, if_neg hcolon, if_neg hc, strlen, if_neg hc]
        cases strchr mem 0x3a with
        | none => rfl
        | some colon =>
          cases colon with
          | some n => rfl
          | none => cases strlen mem <;> rfl
      rw [if_neg hstop, hstep, ih ((List.mem_cons.mp h).resolve_left (Ne.symm hc))]
      rfl

end Cut

/-! ## Copying a string -/

/-- `fdt_copy_string`, with what it returns and the buffer after it. -/
def fdtCopyStringTo (buffer : List UInt8) (bufferSize : ℕ) (s : List UInt8) (len : ℕ) :
    Outcome (Bool × List UInt8) :=
  if bufferSize = 0 ∨ len + 1 > bufferSize then Outcome.ok (false, buffer)
  else do
    let buffer ← memcpy buffer 0 s len
    let buffer ← store buffer len 0
    Outcome.ok (true, buffer)

/-- **A string is copied if it fits**, and its NUL. -/
theorem fdtCopyStringTo_eq {buffer s : List UInt8} {bufferSize len : ℕ}
    (hbuffer : bufferSize ≤ buffer.length) (hlen : len ≤ s.length) :
    fdtCopyStringTo buffer bufferSize s len
      = Outcome.ok (if len < bufferSize then (true, s.take len ++ 0 :: buffer.drop (len + 1))
        else (false, buffer)) := by
  unfold fdtCopyStringTo
  by_cases hfits : len < bufferSize
  · have hstore : store (s.take len ++ buffer.drop len) len 0
        = Outcome.ok (s.take len ++ 0 :: buffer.drop (len + 1)) := by
      have htake : (s.take len).length = len := List.length_take_of_le hlen
      rw [store, if_pos (by rw [List.length_append, List.length_drop]; omega),
        List.set_append_right _ _ htake.le, htake, Nat.sub_self, List.drop_eq_getElem_cons (by omega)]
      rfl
    rw [if_neg (by omega), if_pos hfits, memcpy_eq hlen (by omega), List.take_zero, List.nil_append,
      Nat.zero_add, Outcome.ok_bind, hstore]
    rfl
  · rw [if_pos (by omega), if_neg hfits]

namespace Fdt

open Outcome

variable {fdt : Fdt} {prop : FdtProp} {buffer : List UInt8} {bufferSize : ℕ} {stops : List UInt8}
  {lookup : Outcome FdtProp}

/-- The property that `fdt_get_stdout_path` copies. -/
def stdoutLookup (fdt : Fdt) : Outcome FdtProp := do
  let chosen ← fdt.fdtFindNodeByPath chosenPath
  fdt.fdtStdoutProp chosen

/-- The property that `fdt_resolve_alias` copies. -/
def aliasLookup (fdt : Fdt) (name : CString) : Outcome FdtProp := do
  let aliases ← fdt.fdtFindNodeByPath aliasesPath
  fdt.fdtGetProperty aliases name

/-- What the two calls have in common: a property is looked up, checked, measured and
copied. -/
def fdtCopyPropTo (fdt : Fdt) (lookup : Outcome FdtProp) (lenOf : List UInt8 → Outcome ℕ)
    (buffer : List UInt8) (bufferSize : ℕ) : Outcome (Bool × List UInt8) := do
  let path ← attempt (do
    let prop ← lookup
    fdt.fdtPropIsString prop
    ok prop)
  match path with
  | none => ok (false, buffer)
  | some prop => do
    let len ← lenOf (fdt.mem.drop prop.data)
    fdtCopyStringTo buffer bufferSize (fdt.mem.drop prop.data) len

/-- `fdt_get_stdout_path`, with what it returns and the buffer after it. -/
def fdtGetStdoutPathTo (fdt : Fdt) (buffer : List UInt8) (bufferSize : ℕ) :
    Outcome (Bool × List UInt8) :=
  fdt.fdtCopyPropTo fdt.stdoutLookup fdtStdoutLen buffer bufferSize

/-- `fdt_resolve_alias`, with what it returns and the buffer after it. -/
def fdtResolveAliasTo (fdt : Fdt) (name : CString) (buffer : List UInt8) (bufferSize : ℕ) :
    Outcome (Bool × List UInt8) :=
  fdt.fdtCopyPropTo (fdt.aliasLookup name) (fun path => access (strlen path)) buffer bufferSize

/-- The last byte of a property, if it has one in memory. -/
def lastByte (fdt : Fdt) (prop : FdtProp) : Option UInt8 := fdt.mem[prop.data + (prop.len - 1)]?

/-- **The property ends in NUL.** -/
def EndsInNul (fdt : Fdt) (prop : FdtProp) : Prop := 0 < prop.len ∧ fdt.lastByte prop = some 0

/-- **The law of the two calls.** The property that is looked up is cut, and copied with
a NUL behind it if it ends in NUL and fits; otherwise the buffer is left as it was. -/
structure CopiesString (fdt : Fdt) (lookup : Outcome FdtProp) (stops buffer : List UInt8)
    (bufferSize : ℕ) (run : Outcome (Bool × List UInt8)) : Prop where
  returns_true : ∀ buffer', run = ok (true, buffer') ↔ ∃ prop, lookup = ok prop
    ∧ fdt.EndsInNul prop ∧ (cutAt stops (fdt.propBytes prop)).length < bufferSize
    ∧ buffer' = cutAt stops (fdt.propBytes prop)
      ++ 0 :: buffer.drop ((cutAt stops (fdt.propBytes prop)).length + 1)
  returns_false : ∀ buffer', run = ok (false, buffer') ↔ buffer' = buffer ∧ (lookup = refused
    ∨ ∃ prop, lookup = ok prop
      ∧ (prop.len = 0 ∨ (∃ c, fdt.lastByte prop = some c ∧ c ≠ 0)
        ∨ fdt.EndsInNul prop ∧ bufferSize ≤ (cutAt stops (fdt.propBytes prop)).length))
  /-- Nothing is written behind the buffer. -/
  writes : ∀ b buffer', run = ok (b, buffer') →
    buffer'.length = buffer.length ∧ buffer'.drop bufferSize = buffer.drop bufferSize
  /-- It faults where the lookup does, or where the property leads out of the memory. -/
  faults : run = fault ↔ lookup = fault
    ∨ ∃ prop, lookup = ok prop ∧ 0 < prop.len ∧ fdt.lastByte prop = none

/-- What a property in memory ends in does not matter behind its NUL. -/
theorem cutAt_propBytes (hstops : 0 ∈ stops) (h : fdt.EndsInNul prop) :
    0 ∈ fdt.mem.drop prop.data
      ∧ cutAt stops (fdt.mem.drop prop.data) = cutAt stops (fdt.propBytes prop) := by
  have hlast : (fdt.propBytes prop)[prop.len - 1]? = some 0 := by
    rw [propBytes, List.getElem?_take_of_lt (Nat.sub_lt h.1 Nat.one_pos), List.getElem?_drop]
    exact h.2
  have hnul : 0 ∈ fdt.propBytes prop := List.mem_of_getElem? hlast
  refine ⟨List.mem_of_mem_take hnul, ?_⟩
  rw [← List.take_append_drop prop.len (fdt.mem.drop prop.data)]
  exact cutAt_append hstops hnul _

/-- **The call in all cases.** -/
theorem fdtCopyPropTo_eq (hbuffer : bufferSize ≤ buffer.length) (hstops : 0 ∈ stops)
    {lenOf : List UInt8 → Outcome ℕ}
    (hlen : ∀ mem, 0 ∈ mem → lenOf mem = ok (cutAt stops mem).length) :
    fdt.fdtCopyPropTo lookup lenOf buffer bufferSize
      = match lookup with
        | refused => ok (false, buffer)
        | fault => fault
        | ok prop =>
          if prop.len = 0 then ok (false, buffer)
          else match fdt.lastByte prop with
            | none => fault
            | some c => ok (if c = 0 ∧ (cutAt stops (fdt.propBytes prop)).length < bufferSize then
                (true, cutAt stops (fdt.propBytes prop)
                  ++ 0 :: buffer.drop ((cutAt stops (fdt.propBytes prop)).length + 1))
              else (false, buffer)) := by
  unfold fdtCopyPropTo
  cases lookup with
  | refused => rfl
  | fault => rfl
  | ok prop =>
    rw [ok_bind, fdtPropIsString]
    dsimp only
    by_cases hzero : prop.len = 0
    · rw [if_pos hzero, require_of_neg (by omega)]
      rfl
    rw [if_neg hzero, require_of_pos (Nat.pos_of_ne_zero hzero), ok_bind]
    show (attempt ((access (fdt.lastByte prop) >>= _) >>= _) >>= _) = _
    cases hlast : fdt.lastByte prop with
    | none => rfl
    | some c =>
      rw [access_some, ok_bind]
      dsimp only
      by_cases hc : c = 0
      · have hends : fdt.EndsInNul prop := ⟨Nat.pos_of_ne_zero hzero, by rw [hlast, hc]⟩
        obtain ⟨hnul, hcut⟩ := cutAt_propBytes hstops hends
        -- the string is measured in the memory, which the NUL of the property cuts
        have hprefix := cutAt_prefix stops (fdt.mem.drop prop.data)
        rw [require_of_pos hc]
        show (lenOf (fdt.mem.drop prop.data) >>= _) = _
        rw [hlen _ hnul, ok_bind, fdtCopyStringTo_eq hbuffer hprefix.length_le,
          ← List.prefix_iff_eq_take.mp hprefix, hcut]
        simp only [hc, true_and]
      · rw [require_of_neg hc, if_neg (fun h => hc h.1)]
        rfl

/-! ### The law, by what a call does -/

section Why

variable (hwhy : prop.len = 0 ∨ (∃ c, fdt.lastByte prop = some c ∧ c ≠ 0)
  ∨ fdt.EndsInNul prop ∧ bufferSize ≤ (cutAt stops (fdt.propBytes prop)).length)

include hwhy

/-- A string that is not copied although it ends in NUL is too long. -/
theorem EndsInNul.too_long (hends : fdt.EndsInNul prop) :
    bufferSize ≤ (cutAt stops (fdt.propBytes prop)).length := by
  rcases hwhy with hzero | ⟨c, hc, hne⟩ | ⟨-, hlong⟩
  · exact absurd hzero hends.1.ne'
  · exact absurd (Option.some.inj (hc.symm.trans hends.2)) hne
  · exact hlong

/-- The last byte was looked at. -/
theorem lastByte_ne_none (hpos : 0 < prop.len) : fdt.lastByte prop ≠ none := by
  intro hnone
  rcases hwhy with hzero | ⟨c, hc, -⟩ | ⟨hends, -⟩
  · exact hpos.ne' hzero
  · cases hnone.symm.trans hc
  · cases hnone.symm.trans hends.2

end Why

/-- A call that copies the string. -/
theorem CopiesString.copied (hlookup : lookup = ok prop) (hends : fdt.EndsInNul prop)
    (hfits : (cutAt stops (fdt.propBytes prop)).length < bufferSize)
    (hbuffer : bufferSize ≤ buffer.length) :
    fdt.CopiesString lookup stops buffer bufferSize (ok (true, cutAt stops (fdt.propBytes prop)
      ++ 0 :: buffer.drop ((cutAt stops (fdt.propBytes prop)).length + 1))) where
  returns_true := by
    intro buffer'
    constructor
    · intro h
      cases h
      exact ⟨prop, hlookup, hends, hfits, rfl⟩
    · rintro ⟨prop', hprop', -, -, rfl⟩
      cases hlookup.symm.trans hprop'
      rfl
  returns_false := by
    intro buffer'
    refine iff_of_false (by simp) ?_
    rintro ⟨-, hrefused | ⟨prop', hprop', hwhy⟩⟩
    · cases hlookup.symm.trans hrefused
    · cases hlookup.symm.trans hprop'
      exact (hends.too_long hwhy).not_gt hfits
  writes := by
    intro b buffer' h
    cases h
    constructor
    · simp only [List.length_append, List.length_cons, List.length_drop]
      omega
    · -- the copy and its NUL end before `bufferSize`
      rw [List.drop_append, List.drop_of_length_le hfits.le, List.nil_append,
        show bufferSize - (cutAt stops (fdt.propBytes prop)).length
          = bufferSize - (cutAt stops (fdt.propBytes prop)).length - 1 + 1 by omega,
        List.drop_succ_cons, List.drop_drop]
      congr 1
      omega
  faults := by
    refine iff_of_false (by simp) ?_
    rintro (hfault | ⟨prop', hprop', -, hnone⟩)
    · cases hlookup.symm.trans hfault
    · cases hlookup.symm.trans hprop'
      cases hends.2.symm.trans hnone

/-- A call that leaves the buffer as it was. -/
theorem CopiesString.untouched (hwhy : lookup = refused ∨ ∃ prop, lookup = ok prop
      ∧ (prop.len = 0 ∨ (∃ c, fdt.lastByte prop = some c ∧ c ≠ 0)
        ∨ fdt.EndsInNul prop ∧ bufferSize ≤ (cutAt stops (fdt.propBytes prop)).length)) :
    fdt.CopiesString lookup stops buffer bufferSize (ok (false, buffer)) where
  returns_true := by
    intro buffer'
    refine iff_of_false (by simp) ?_
    rintro ⟨prop, hlookup, hends, hfits, -⟩
    obtain hrefused | ⟨prop', hprop', hwhy⟩ := hwhy
    · cases hlookup.symm.trans hrefused
    · cases hlookup.symm.trans hprop'
      exact (hends.too_long hwhy).not_gt hfits
  returns_false := by
    intro buffer'
    constructor
    · intro h
      cases h
      exact ⟨rfl, hwhy⟩
    · rintro ⟨rfl, -⟩
      rfl
  writes := by
    intro b buffer' h
    cases h
    exact ⟨rfl, rfl⟩
  faults := by
    refine iff_of_false (by simp) ?_
    rintro (hfault | ⟨prop, hlookup, hpos, hnone⟩)
    · obtain hrefused | ⟨prop', hprop', -⟩ := hwhy
      · cases hfault.symm.trans hrefused
      · cases hfault.symm.trans hprop'
    · obtain hrefused | ⟨prop', hprop', hwhy⟩ := hwhy
      · cases hlookup.symm.trans hrefused
      · cases hlookup.symm.trans hprop'
        exact lastByte_ne_none hwhy hpos hnone

/-- A call that faults. -/
theorem CopiesString.faulted (hwhy : lookup = fault
      ∨ ∃ prop, lookup = ok prop ∧ 0 < prop.len ∧ fdt.lastByte prop = none) :
    fdt.CopiesString lookup stops buffer bufferSize fault where
  returns_true := by
    intro buffer'
    refine iff_of_false (by simp) ?_
    rintro ⟨prop, hlookup, hends, -⟩
    obtain hfault | ⟨prop', hprop', -, hnone⟩ := hwhy
    · cases hlookup.symm.trans hfault
    · cases hlookup.symm.trans hprop'
      cases hends.2.symm.trans hnone
  returns_false := by
    intro buffer'
    refine iff_of_false (by simp) ?_
    obtain hfault | ⟨prop, hprop, hpos, hnone⟩ := hwhy
    · rintro ⟨-, hrefused | ⟨prop, hprop, -⟩⟩
      · cases hfault.symm.trans hrefused
      · cases hfault.symm.trans hprop
    · rintro ⟨-, hrefused | ⟨prop', hprop', hwhy⟩⟩
      · cases hprop.symm.trans hrefused
      · cases hprop.symm.trans hprop'
        exact lastByte_ne_none hwhy hpos hnone
  writes := by
    intro b buffer' h
    cases h
  faults := iff_of_true rfl hwhy

/-- **The calls obey the law**, with any way to measure the string that cuts it. -/
theorem copiesString_fdtCopyPropTo (hbuffer : bufferSize ≤ buffer.length) (hstops : 0 ∈ stops)
    {lenOf : List UInt8 → Outcome ℕ}
    (hlen : ∀ mem, 0 ∈ mem → lenOf mem = ok (cutAt stops mem).length) :
    fdt.CopiesString lookup stops buffer bufferSize
      (fdt.fdtCopyPropTo lookup lenOf buffer bufferSize) := by
  rw [fdtCopyPropTo_eq hbuffer hstops hlen]
  cases lookup with
  | refused => exact CopiesString.untouched (Or.inl rfl)
  | fault => exact CopiesString.faulted (Or.inl rfl)
  | ok prop =>
    dsimp only
    by_cases hzero : prop.len = 0
    · rw [if_pos hzero]
      exact CopiesString.untouched (Or.inr ⟨prop, rfl, Or.inl hzero⟩)
    rw [if_neg hzero]
    have hpos : 0 < prop.len := Nat.pos_of_ne_zero hzero
    cases hlast : fdt.lastByte prop with
    | none => exact CopiesString.faulted (Or.inr ⟨prop, rfl, hpos, hlast⟩)
    | some c =>
      dsimp only
      by_cases hc : c = 0
      · have hends : fdt.EndsInNul prop := ⟨hpos, hlast.trans (congrArg some hc)⟩
        by_cases hfits : (cutAt stops (fdt.propBytes prop)).length < bufferSize
        · rw [if_pos ⟨hc, hfits⟩]
          exact CopiesString.copied rfl hends hfits hbuffer
        · rw [if_neg (fun h => hfits h.2)]
          exact CopiesString.untouched
            (Or.inr ⟨prop, rfl, Or.inr (Or.inr ⟨hends, not_lt.mp hfits⟩)⟩)
      · rw [if_neg (fun h => hc h.1)]
        exact CopiesString.untouched (Or.inr ⟨prop, rfl, Or.inr (Or.inl ⟨c, hlast, hc⟩)⟩)

/-- **`fdt_get_stdout_path` and `fdt_resolve_alias`** obey the law, for every blob and
every buffer of the size that is passed. -/
theorem copiesString (fdt : Fdt) (name : CString) (hbuffer : bufferSize ≤ buffer.length) :
    fdt.CopiesString fdt.stdoutLookup [0, 0x3a] buffer bufferSize
        (fdt.fdtGetStdoutPathTo buffer bufferSize)
      ∧ fdt.CopiesString (fdt.aliasLookup name) [0] buffer bufferSize
        (fdt.fdtResolveAliasTo name buffer bufferSize) :=
  ⟨copiesString_fdtCopyPropTo hbuffer (by decide) (fun _ => fdtStdoutLen_eq),
    copiesString_fdtCopyPropTo hbuffer (by decide) (fun mem h => by
      rw [strlen_eq_cutAt h, access_some])⟩

/-- A blob whose console is `"uart:115200"`. -/
def chosenBlob : List UInt8 :=
  FdtHeader.bytes ⟨108, 40, 96, 40, 17, 16, 0, 12, 56⟩
    ++ structText [FdtToken.beginNode ⟨[], nul_notMem_nil⟩,
      FdtToken.beginNode ⟨asciiBytes "chosen", by decide⟩,
      FdtToken.prop 0 ⟨stdoutPath, asciiBytes "uart:115200" ++ [0]⟩,
      FdtToken.endNode, FdtToken.endNode]
    ++ stdoutPath.bytes

/-- What `fdt_init` makes of it. -/
def chosenFdt : Fdt := ⟨chosenBlob, 4096, 40, 96, 96, 12⟩

/-- A buffer of five bytes takes the path without its options, one of four does not. -/
theorem copiesString_chosenFdt :
    fdtInit chosenBlob 4096 = ok chosenFdt
      ∧ chosenFdt.fdtGetStdoutPathTo [1, 1, 1, 1, 1, 1] 5 = ok (true, asciiBytes "uart" ++ [0, 1])
      ∧ chosenFdt.fdtGetStdoutPathTo [1, 1, 1, 1, 1, 1] 4 = ok (false, [1, 1, 1, 1, 1, 1]) := by
  have hlookup : chosenFdt.stdoutLookup = ok ⟨72, 12⟩ := by decide +kernel
  have hends : chosenFdt.EndsInNul ⟨72, 12⟩ := ⟨by decide, by decide +kernel⟩
  have hcut : cutAt [0, 0x3a] (chosenFdt.propBytes ⟨72, 12⟩) = asciiBytes "uart" := by
    decide +kernel
  refine ⟨rfl, ?_, ?_⟩
  · refine ((copiesString chosenFdt stdoutPath (by decide)).1.returns_true _).mpr
      ⟨⟨72, 12⟩, hlookup, hends, ?_, ?_⟩
    · rw [hcut]
      decide
    · rw [hcut]
      decide
  · refine ((copiesString chosenFdt stdoutPath (by decide)).1.returns_false _).mpr
      ⟨rfl, Or.inr ⟨⟨72, 12⟩, hlookup, Or.inr (Or.inr ⟨hends, ?_⟩)⟩⟩
    rw [hcut]
    decide

/-- The copy without the buffer of the calls that return `false`. -/
theorem fdtCopyString_eq (buffer : List UInt8) (bufferSize : ℕ) (s : List UInt8) (len : ℕ) :
    fdtCopyString buffer bufferSize s len = (do
      let r ← fdtCopyStringTo buffer bufferSize s len
      require (r.1 = true)
      ok r.2) := by
  unfold fdtCopyString fdtCopyStringTo
  by_cases hfits : bufferSize = 0 ∨ len + 1 > bufferSize
  · rw [require_of_neg (not_not_intro hfits), if_pos hfits]
    rfl
  · rw [require_of_pos hfits, if_neg hfits, ok_bind]
    cases memcpy buffer 0 s len with
    | refused => rfl
    | fault => rfl
    | ok buffer =>
      rw [ok_bind, ok_bind]
      cases store buffer len 0 <;> rfl

theorem fdtCopyPropTo_bind (lookup : Outcome FdtProp) (lenOf : List UInt8 → Outcome ℕ)
    (hlen : ∀ mem, lenOf mem ≠ refused) :
    (do
      let prop ← lookup
      fdt.fdtPropIsString prop
      let len ← lenOf (fdt.mem.drop prop.data)
      fdtCopyString buffer bufferSize (fdt.mem.drop prop.data) len) = (do
      let r ← fdt.fdtCopyPropTo lookup lenOf buffer bufferSize
      require (r.1 = true)
      ok r.2) := by
  unfold fdtCopyPropTo
  cases lookup with
  | refused => rfl
  | fault => rfl
  | ok prop =>
    rw [ok_bind, ok_bind]
    cases fdt.fdtPropIsString prop with
    | refused => rfl
    | fault => rfl
    | ok u =>
      show (lenOf (fdt.mem.drop prop.data) >>= _) = ((lenOf (fdt.mem.drop prop.data) >>= _) >>= _)
      cases hrun : lenOf (fdt.mem.drop prop.data) with
      | refused => exact absurd hrun (hlen _)
      | fault => rfl
      | ok len => exact fdtCopyString_eq buffer bufferSize _ len

/-- **The calls that pass the buffer through** return `true` where the others succeed,
with the same buffer. -/
theorem fdtGetStdoutPath_eq_to (fdt : Fdt) (buffer : List UInt8) (bufferSize : ℕ) :
    fdt.fdtGetStdoutPath buffer bufferSize = (do
      let r ← fdt.fdtGetStdoutPathTo buffer bufferSize
      require (r.1 = true)
      ok r.2) := by
  have hlen : ∀ mem, fdtStdoutLen mem ≠ refused := by
    intro mem
    refine bind_ne_refused access_ne_refused (fun colon => ?_)
    cases colon with
    | none => exact access_ne_refused
    | some n => simp
  rw [fdtGetStdoutPathTo, ← fdtCopyPropTo_bind _ _ hlen, fdtGetStdoutPath, stdoutLookup]
  cases fdt.fdtFindNodeByPath chosenPath <;> rfl

theorem fdtResolveAlias_eq_to (fdt : Fdt) (name : CString) (buffer : List UInt8)
    (bufferSize : ℕ) :
    fdt.fdtResolveAlias name buffer bufferSize = (do
      let r ← fdt.fdtResolveAliasTo name buffer bufferSize
      require (r.1 = true)
      ok r.2) := by
  rw [fdtResolveAliasTo, ← fdtCopyPropTo_bind _ _ (fun _ => access_ne_refused), fdtResolveAlias,
    aliasLookup]
  cases fdt.fdtFindNodeByPath aliasesPath <;> rfl

end Fdt
