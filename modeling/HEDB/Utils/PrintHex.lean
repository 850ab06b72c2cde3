import HEDB.Foundations.CStrings

/-!
# The hex dump

`print_hex` of `debug.cpp` builds a dump in an array of 512 bytes: a head, and for every 16 bytes a
line with their hex digits, in two groups, and with their characters. It appends without looking at
the length, so that it is defined exactly when the dump and its terminator fit
(`printHex_ne_none_iff`). The length of a dump is that of a line of 71 characters for each 16 bytes
and of a shorter one for the rest (`dumpLength`), whatever the bytes are.
-/

namespace HEDB

namespace PrintHex

open CStrings

/-! ## The function -/

/-- The size of `tmp`. -/
def tmpSize : ℕ := 512

/-- A digit of `%x`. -/
def hexDigit (n : ℕ) : UInt8 := if n < 10 then UInt8.ofNat (0x30 + n) else UInt8.ofNat (0x57 + n)

/-- `%02x` with a space. -/
def hexByte (b : UInt8) : List UInt8 := [hexDigit (b.toNat / 16), hexDigit (b.toNat % 16), 0x20]

/-- `isgraph`. -/
def isgraph (b : UInt8) : Bool := 0x21 ≤ b && b ≤ 0x7e

/-- What is shown of a byte on the right. -/
def graphOrDot (b : UInt8) : List UInt8 := if isgraph b then [b] else lit "."

/-- The last line is filled up by `z` bytes. -/
def pad (z : ℕ) (tmp : List UInt8) : Option (List UInt8) :=
  (if 8 ≤ z then strcat tmp (lit " ") else some tmp).bind fun tmp =>
    (List.range z).foldlM (fun tmp _ => strcat tmp (lit "   ")) tmp

/-- The byte at `y`, on the right. -/
def printChar (p tmp : List UInt8) (y : ℕ) : Option (List UInt8) :=
  (if y % 8 = 0 then strcat tmp (lit " ") else some tmp).bind fun tmp =>
    strcat tmp (graphOrDot (p.getD y 0))

/-- The end of the line with the bytes from `y` to `x`. -/
def endLine (p : List UInt8) (y x : ℕ) (tmp : List UInt8) : Option (List UInt8) :=
  (if x % 16 ≠ 0 then pad (16 - x % 16) tmp else some tmp).bind fun tmp =>
    (strcat tmp (lit " | ")).bind fun tmp =>
      ((List.range' y (x - y)).foldlM (printChar p) tmp).bind fun tmp => strcat tmp (lit "\n")

/-- What follows the digits of a byte, after `x` bytes: the end of the line, or the gap in it. -/
def afterByte (p : List UInt8) (y x : ℕ) (tmp : List UInt8) : Option (List UInt8) :=
  if x % 16 = 0 ∨ x = p.length then endLine p y x tmp
  else if x % 8 = 0 then strcat tmp (lit " ") else some tmp

/-- The iteration at `x`, with the variable `y`. -/
def iteration (p : List UInt8) (s : List UInt8 × ℕ) (x : ℕ) : Option (List UInt8 × ℕ) := do
  let tmp ← strcat s.1 (hexByte (p.getD x 0))
  let tmp ← afterByte p s.2 (x + 1) tmp
  some (tmp, if (x + 1) % 16 = 0 ∨ x + 1 = p.length then x + 1 else s.2)

/-- `print_hex`: what it leaves in `tmp`, from what the array holds before. -/
def printHex (what p tmp : List UInt8) : Option (List UInt8) := do
  let tmp ← sprintf tmp (what ++ lit " contents: \n")
  let s ← (List.range p.length).foldlM (iteration p) (tmp, 0)
  some s.1

/-! ## The dump -/

/-- The texts of `pad`, `printChar`, `endLine` and `afterByte`. -/
def padText (z : ℕ) : List UInt8 :=
  (if 8 ≤ z then lit " " else []) ++ (List.range z).flatMap fun _ => lit "   "

@[inherit_doc padText]
def charText (p : List UInt8) (y : ℕ) : List UInt8 :=
  (if y % 8 = 0 then lit " " else []) ++ graphOrDot (p.getD y 0)

@[inherit_doc padText]
def endText (p : List UInt8) (y x : ℕ) : List UInt8 :=
  (if x % 16 ≠ 0 then padText (16 - x % 16) else []) ++
    (lit " | " ++ ((List.range' y (x - y)).flatMap (charText p) ++ lit "\n"))

@[inherit_doc padText]
def afterText (p : List UInt8) (y x : ℕ) : List UInt8 :=
  if x % 16 = 0 ∨ x = p.length then endText p y x else if x % 8 = 0 then lit " " else []

/-- The lines of the dump. -/
def dump (p : List UInt8) : List UInt8 :=
  loopText (fun y x => if (x + 1) % 16 = 0 ∨ x + 1 = p.length then x + 1 else y)
    (fun y x => hexByte (p.getD x 0) ++ afterText p y (x + 1)) 0 (List.range p.length)

theorem hexDigit_ne_zero {n : ℕ} (h : n < 16) : hexDigit n ≠ 0 := by
  revert n
  decide

theorem zero_not_mem_hexByte (b : UInt8) : 0 ∉ hexByte b := by
  have hb := b.toNat_lt
  have hhigh := hexDigit_ne_zero (n := b.toNat / 16) (by omega)
  have hlow := hexDigit_ne_zero (n := b.toNat % 16) (by omega)
  simp only [hexByte, List.mem_cons, List.not_mem_nil, or_false, not_or]
  exact ⟨hhigh.symm, hlow.symm, by decide⟩

theorem zero_not_mem_graphOrDot (b : UInt8) : 0 ∉ graphOrDot b := by
  unfold graphOrDot
  split_ifs with h
  · rintro h0
    rw [← List.mem_singleton.1 h0] at h
    exact absurd h (by decide)
  · decide

variable {p : List UInt8} {y x z : ℕ}

theorem appends_pad : Appends (pad z) (padText z) :=
  (appends_ite (appends_strcat (by decide))).bind
    (appends_foldlM fun _ _ => appends_strcat (by decide))

theorem appends_printChar : Appends (fun tmp => printChar p tmp y) (charText p y) :=
  (appends_ite (appends_strcat (by decide))).bind (appends_strcat (zero_not_mem_graphOrDot _))

theorem appends_endLine : Appends (endLine p y x) (endText p y x) :=
  (appends_ite appends_pad).bind <| (appends_strcat (by decide)).bind <|
    (appends_foldlM fun _ _ => appends_printChar).bind (appends_strcat (by decide))

theorem appends_afterByte : Appends (afterByte p y x) (afterText p y x) := by
  unfold afterByte afterText
  split_ifs
  · exact appends_endLine
  · exact appends_strcat (by decide)
  · exact appends_some

/-- **The loop appends the dump.** -/
theorem appends_dump (p : List UInt8) : Appends
    (fun tmp => ((List.range p.length).foldlM (iteration p) (tmp, 0)).map Prod.fst) (dump p) := by
  refine appends_loop (fun y x => ?_) _ _
  refine ⟨_, (appends_strcat (zero_not_mem_hexByte _)).bind appends_afterByte, fun tmp => ?_⟩
  simp only [iteration, Option.bind_eq_bind, Option.map_eq_bind, Option.bind_assoc]
  rfl

/-! ## Its length -/

/-- The length of the lines for `l` bytes. -/
def dumpLength (l : ℕ) : ℕ :=
  71 * (l / 16) + if l % 16 = 0 then 0 else 53 + l % 16 + if l % 16 ≤ 8 then 1 else 2

/-- A line starts at a multiple of 16, so that its characters have a space before each eight. -/
theorem length_chars (hy : y % 8 = 0) (n : ℕ) :
    ((List.range' y n).flatMap (charText p)).length = n + (n + 7) / 8 := by
  induction n with
  | zero => rfl
  | succ n ih =>
    have hgraph (b : UInt8) : (graphOrDot b).length = 1 := by
      unfold graphOrDot
      split_ifs <;> rfl
    have hchar : (charText p (y + n)).length = (if n % 8 = 0 then 1 else 0) + 1 := by
      rw [charText, List.length_append, hgraph, show (y + n) % 8 = n % 8 by omega]
      split_ifs <;> rfl
    rw [List.range'_concat, List.flatMap_append, List.length_append, ih, List.flatMap_singleton,
      Nat.one_mul, hchar]
    split_ifs <;> omega

theorem length_padText (z : ℕ) : (padText z).length = (if 8 ≤ z then 1 else 0) + 3 * z := by
  have hspaces : ((List.range z).flatMap fun _ => lit "   ").length = 3 * z := by
    rw [List.length_flatMap, show (lit "   ").length = 3 by decide]
    simp [Nat.mul_comm]
  rw [padText, List.length_append, hspaces]
  split_ifs <;> rfl

theorem length_endText (hy : y % 8 = 0) : (endText p y x).length =
    (if x % 16 ≠ 0 then (if 8 ≤ 16 - x % 16 then 1 else 0) + 3 * (16 - x % 16) else 0) +
      (3 + (x - y + (x - y + 7) / 8) + 1) := by
  rw [endText, List.length_append, List.length_append, List.length_append, length_chars hy,
    show (lit " | ").length = 3 by decide, show (lit "\n").length = 1 by decide, Nat.add_assoc 3]
  by_cases hx : x % 16 ≠ 0
  · rw [if_pos hx, if_pos hx, length_padText]
  · rw [if_neg hx, if_neg hx, List.length_nil]

/-- The rest of the dump, from the byte at `x` on. What stands before it is 71 characters for each
full line, and the digits of the bytes in the line of `x`. -/
theorem length_loopText {n : ℕ} (hn : x + (n + 1) = p.length) :
    (loopText (fun y x => if (x + 1) % 16 = 0 ∨ x + 1 = p.length then x + 1 else y)
      (fun y x => hexByte (p.getD x 0) ++ afterText p y (x + 1)) (x / 16 * 16)
        (List.range' x (n + 1))).length +
      (71 * (x / 16) + 3 * (x % 16) + if 8 ≤ x % 16 then 1 else 0) = dumpLength p.length := by
  have hhex (b : UInt8) : (hexByte b).length = 3 := rfl
  induction n generalizing x with
  | zero =>
    have hlast : afterText p (x / 16 * 16) (x + 1) = endText p (x / 16 * 16) (x + 1) :=
      if_pos (.inr hn)
    rw [List.range'_one, loopText, loopText, List.append_nil, List.length_append, hhex, hlast,
      length_endText (by omega), dumpLength, ← hn]
    split_ifs <;> omega
  | succ n ih =>
    have hnot : x + 1 ≠ p.length := by omega
    have ih := ih (x := x + 1) (by omega)
    rw [List.range'_succ, loopText, List.length_append, List.length_append, hhex]
    by_cases hline : (x + 1) % 16 = 0
    · rw [if_pos (.inl hline), afterText, if_pos (.inl hline), length_endText (by omega)]
      rw [show (x + 1) / 16 * 16 = x + 1 by omega] at ih
      rw [← ih]
      split_ifs <;> omega
    · have hcond : ¬ ((x + 1) % 16 = 0 ∨ x + 1 = p.length) := not_or.2 ⟨hline, hnot⟩
      rw [if_neg hcond, afterText, if_neg hcond]
      rw [show (x + 1) / 16 * 16 = x / 16 * 16 by omega] at ih
      rw [← ih]
      split_ifs <;> simp only [show (lit " ").length = 1 by decide, List.length_nil] <;> omega

/-- **The length of the dump does not depend on the bytes.** -/
theorem length_dump (p : List UInt8) : (dump p).length = dumpLength p.length := by
  cases hp : p.length with
  | zero =>
    rw [dump, hp]
    rfl
  | succ n =>
    have hloop := length_loopText (p := p) (x := 0) (n := n) (by omega)
    rw [dump, List.range_eq_range', hp]
    rw [hp] at hloop
    exact hloop

/-- **`print_hex` is defined exactly when the head, the dump and the terminator fit**, whatever the
array holds before. -/
theorem printHex_ne_none_iff {what tmp : List UInt8} (hwhat : 0 ∉ what) (p : List UInt8) :
    printHex what p tmp ≠ none ↔ what.length + 12 + dumpLength p.length < tmp.length := by
  have hhead : (what ++ lit " contents: \n").length = what.length + 12 := List.length_append
  have hzero : 0 ∉ what ++ lit " contents: \n" := by
    rw [List.mem_append, not_or]
    exact ⟨hwhat, by decide⟩
  rcases Nat.lt_or_ge (what.length + 12) tmp.length with hlt | hle
  · have hfits : (what ++ lit " contents: \n").length < tmp.length := by rwa [hhead]
    obtain ⟨tmp', htmp', hlen, hholds⟩ := sprintf_of_lt hzero hfits
    have hdump := (appends_dump p).ne_none_iff hholds
    rw [hhead, hlen, length_dump] at hdump
    rw [← hdump, printHex, htmp', Option.bind_eq_bind, Option.bind_some]
    cases (List.range p.length).foldlM (iteration p) (tmp', 0) <;> simp
  · rw [printHex, sprintf_of_le (by rwa [hhead])]
    exact iff_of_false (not_not.2 rfl) (by omega)

/-- Into its own array: 105 bytes fit behind the longer head, and 106 do not. -/
example : dumpLength 105 = 490 ∧ dumpLength 106 = 491 := by decide

end PrintHex

end HEDB
