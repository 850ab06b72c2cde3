import HEDB.Types.Request

/-!
# Base64

`base64.cpp`. `toBase64` turns three bytes into four characters, and pads the last group; it writes
a NUL after the text. `fromBase64` reads groups of four characters. It skips what is no digit before
a group, and a pad character, white space or another character in a group makes its result shorter.

The text that `toBase64` writes has no other characters than digits and padding at its end, and
`fromBase64` turns it back into the bytes (`exists_encodes`). Both work with shifts and masks; a
group is a number of 24 bits on both sides (`encodeGroup_eq`, `bytes_qv`).
-/

namespace HEDB

namespace Base64

/-! ## The tables -/

/-- `PC`, a pad character. -/
def pc : ℕ := 0x80

/-- `WS`, white space. -/
def ws : ℕ := 0x81

/-- `ND`, no digit and none of the above. -/
def nd : ℕ := 0x82

/-- `PAD_CHAR`. -/
def padChar : UInt8 := 0x3d

/-- `b64DigitValues`. -/
def b64DigitValues : List ℕ :=
  List.replicate 9 nd ++ List.replicate 5 ws ++ List.replicate 2 nd ++
  List.replicate 16 nd ++
  [ws] ++ List.replicate 10 nd ++ [62] ++ List.replicate 3 nd ++ [63] ++
  List.range' 52 10 ++ List.replicate 3 nd ++ [pc] ++ List.replicate 2 nd ++
  [nd] ++ List.range 26 ++ List.replicate 5 nd ++
  [nd] ++ List.range' 26 26 ++ List.replicate 5 nd

/-- `b64Numerals`: the capital letters, the small ones, the decimal digits, `+` and `/`. -/
def b64Numerals : List UInt8 :=
  (List.range' 0x41 26 ++ List.range' 0x61 26 ++ List.range' 0x30 10 ++ [0x2b, 0x2f]).map
    UInt8.ofNat

example : b64DigitValues.length = 128 ∧ b64Numerals.length = 64 := ⟨rfl, rfl⟩

/-- `BX_DV_PROTO`. -/
def digitValue (c : UInt8) : ℕ := if c.toNat < 0x80 then b64DigitValues.getD c.toNat 0 else 0x80

/-- `IS_BX_DIGIT`. -/
def IsDigit (bdp : ℕ) : Prop := bdp < 0x80

instance (bdp : ℕ) : Decidable (IsDigit bdp) := inferInstanceAs (Decidable (_ < _))

/-- `BX_NUMERAL`. -/
def numeral (dv : ℕ) : UInt8 := b64Numerals.getD (dv % 256) 0

/-! ## Encoding -/

/-- A group of three bytes. -/
def encodeGroup (a b c : ℕ) : List UInt8 :=
  [numeral (a >>> 2), numeral (((a <<< 4) ||| (b >>> 4)) &&& 0x3f),
    numeral (((b &&& 0xf) <<< 2) ||| (c >>> 6)), numeral (c &&& 0x3f)]

/-- The last group, of one or two bytes. The characters are filled in from the last one on. -/
def encodeLast (bs : List UInt8) : List UInt8 :=
  let nco := bs.length + 1
  let qv := [1, 2].foldl (fun qv nbe =>
    if nbe < bs.length then (qv <<< 8) ||| (bs.getD nbe 0).toNat else qv <<< 8) (bs.headD 0).toNat
  ([3, 2, 1, 0].foldl (fun (qv, out) nbe =>
    (qv >>> 6, (if nbe < nco then numeral (qv &&& 0x3f) else padChar) :: out)) (qv, [])).2

/-- `toBase64`: what it writes. -/
def toBase64 : List UInt8 → List UInt8
  | a :: b :: c :: bs => encodeGroup a.toNat b.toNat c.toNat ++ toBase64 bs
  | [] => [0]
  | bs => encodeLast bs ++ [0]

/-! ## Decoding -/

/-- `skipNonB64`. -/
def skipNonB64 : List UInt8 → ℕ → List UInt8
  | c :: s, nc + 1 => if c ≠ 0 ∧ ¬ IsDigit (digitValue c) then skipNonB64 s nc else c :: s
  | s, _ => s

/-- A group that is being decoded: the text that is left and how much of it is to be read, the
number of characters of the group, the number of bytes that it makes and their bits. -/
structure Group where
  pIn : List UInt8
  ncIn : ℕ
  nti : ℕ
  nbo : ℤ
  qv : ℕ

/-- One character of a group. Characters that the text does not have are taken for zero digits. -/
def Group.char (s : Group) (nac : ℕ) : Group :=
  let c := if nac < s.nti then s.pIn.headD 0 else numeral 0
  let pIn := if nac < s.nti then s.pIn.tail else s.pIn
  let bdp := digitValue c
  if bdp = nd then ⟨pIn, 0, nac, s.nbo - 1, s.qv <<< 6⟩
  else if bdp = ws then ⟨pIn, s.ncIn, nac, s.nbo - 1, s.qv <<< 6⟩
  else if bdp = pc then ⟨pIn, s.ncIn, s.nti, s.nbo - 1, s.qv <<< 6⟩
  else ⟨pIn, s.ncIn, s.nti, s.nbo, s.qv <<< 6 ||| bdp⟩

/-- The bytes of a group that has been decoded. -/
def Group.bytes (s : Group) : List UInt8 :=
  [UInt8.ofNat (s.qv >>> 16), UInt8.ofNat (s.qv >>> 8), UInt8.ofNat s.qv].take s.nbo.toNat

/-- The loop of `fromBase64`. A group takes two characters or more, so there are no more groups than
characters. It is undefined when a group would move the output pointer back. -/
def fromBase64Loop : ℕ → List UInt8 → ℕ → Option (List UInt8)
  | 0, _, _ => some []
  | fuel + 1, pIn, ncIn =>
    if ncIn = 0 ∨ pIn.headD 0 = padChar then some []
    else
      let pUse := skipNonB64 pIn ncIn
      let ncIn := ncIn - (pIn.length - pUse.length)
      let nti := min ncIn 4
      -- `nboi`: the bytes of a group of so many characters
      let nbo : ℤ := [0, 0, 1, 2, 3].getD nti 0
      if nbo = 0 then some []
      else
        let s := [0, 1, 2, 3].foldl Group.char ⟨pUse, ncIn - nti, nti, nbo, 0⟩
        if s.nbo < 0 then none else (fromBase64Loop fuel s.pIn s.ncIn).map (s.bytes ++ ·)

/-- `fromBase64`: what it writes, from the first `ncIn` characters of the text. -/
def fromBase64 (pIn : List UInt8) (ncIn : ℕ) : Option (List UInt8) :=
  let ncIn := if 0 < ncIn ∧ pIn.getD (ncIn - 1) 0 = 0x0a then ncIn - 1 else ncIn
  fromBase64Loop ncIn pIn ncIn

/-! ## Digits -/

/-- A numeral is a digit of its value, and none of the other characters. -/
theorem numeral_spec {d : ℕ} (hd : d < 64) : digitValue (numeral d) = d ∧ numeral d ≠ padChar ∧
    numeral d ≠ 0 ∧ numeral d ≠ 0x0a := by
  have hall : ∀ d : Fin 64, digitValue (numeral d) = d ∧ numeral d ≠ padChar ∧ numeral d ≠ 0 ∧
      numeral d ≠ 0x0a := by decide
  exact hall ⟨d, hd⟩

theorem char_digit {nac d nti : ℕ} (hd : d < 64) (hnac : nac < nti) (pIn : List UInt8) (ncIn : ℕ)
    (nbo : ℤ) (qv : ℕ) :
    Group.char ⟨numeral d :: pIn, ncIn, nti, nbo, qv⟩ nac = ⟨pIn, ncIn, nti, nbo, qv * 64 + d⟩ := by
  have hnd : d ≠ nd := by
    unfold nd
    omega
  have hws : d ≠ ws := by
    unfold ws
    omega
  have hpc : d ≠ pc := by
    unfold pc
    omega
  have hor : qv <<< 6 ||| d = qv * 64 + d := by
    rw [← Nat.shiftLeft_add_eq_or_of_lt (show d < 2 ^ 6 by omega), Nat.shiftLeft_eq]
  simp only [Group.char, if_pos hnac, List.headD_cons, List.tail_cons, (numeral_spec hd).1,
    if_neg hnd, if_neg hws, if_neg hpc, hor]

theorem char_pad {nac nti : ℕ} (hnac : nac < nti) (pIn : List UInt8) (ncIn : ℕ) (nbo : ℤ) (qv : ℕ) :
    Group.char ⟨padChar :: pIn, ncIn, nti, nbo, qv⟩ nac = ⟨pIn, ncIn, nti, nbo - 1, qv * 64⟩ := by
  have hvalue : digitValue padChar = pc := by decide
  have hnd : pc ≠ nd := by decide
  have hws : pc ≠ ws := by decide
  have hshift : qv <<< 6 = qv * 64 := Nat.shiftLeft_eq ..
  simp only [Group.char, if_pos hnac, List.headD_cons, List.tail_cons, hvalue, if_neg hnd,
    if_neg hws, if_true, hshift]

/-! ## Groups as numbers -/

/-- The characters of a group are the digits of a number of 24 bits. -/
theorem encodeGroup_eq (a : ℕ) {b c : ℕ} (hb : b < 256) (hc : c < 256) :
    encodeGroup a b c = [numeral (a / 4), numeral (a % 4 * 16 + b / 16),
      numeral (b % 16 * 4 + c / 64), numeral (c % 64)] := by
  have h₁ : ((a <<< 4) ||| (b >>> 4)) &&& 0x3f = a % 4 * 16 + b / 16 := by
    rw [show (0x3f : ℕ) = 2 ^ 6 - 1 from rfl, Nat.and_two_pow_sub_one_eq_mod,
      Nat.shiftRight_eq_div_pow,
      ← Nat.shiftLeft_add_eq_or_of_lt (by omega), Nat.shiftLeft_eq]
    omega
  have h₂ : ((b &&& 0xf) <<< 2) ||| (c >>> 6) = b % 16 * 4 + c / 64 := by
    rw [show (0xf : ℕ) = 2 ^ 4 - 1 from rfl, Nat.and_two_pow_sub_one_eq_mod,
      Nat.shiftRight_eq_div_pow,
      ← Nat.shiftLeft_add_eq_or_of_lt (by omega), Nat.shiftLeft_eq]
  have h₃ : c &&& 0x3f = c % 64 := Nat.and_two_pow_sub_one_eq_mod c 6
  have h₀ : a >>> 2 = a / 4 := Nat.shiftRight_eq_div_pow a 2
  rw [encodeGroup, h₀, h₁, h₂, h₃]

/-- The last group of one byte. -/
theorem encodeLast_one (a : UInt8) : encodeLast [a] =
    [numeral (a.toNat / 4), numeral (a.toNat % 4 * 16), padChar, padChar] := by
  have h₀ : (a.toNat <<< 8 <<< 8) >>> 6 >>> 6 >>> 6 &&& 0x3f = a.toNat / 4 := by
    rw [show (0x3f : ℕ) = 2 ^ 6 - 1 from rfl, Nat.and_two_pow_sub_one_eq_mod]
    simp only [Nat.shiftLeft_eq, Nat.shiftRight_eq_div_pow]
    have := a.toNat_lt
    omega
  have h₁ : (a.toNat <<< 8 <<< 8) >>> 6 >>> 6 &&& 0x3f = a.toNat % 4 * 16 := by
    rw [show (0x3f : ℕ) = 2 ^ 6 - 1 from rfl, Nat.and_two_pow_sub_one_eq_mod]
    simp only [Nat.shiftLeft_eq, Nat.shiftRight_eq_div_pow]
    omega
  rw [← h₀, ← h₁]
  rfl

/-- The last group of two bytes. -/
theorem encodeLast_two (a b : UInt8) : encodeLast [a, b] =
    [numeral (a.toNat / 4), numeral (a.toNat % 4 * 16 + b.toNat / 16), numeral (b.toNat % 16 * 4),
      padChar] := by
  have ha := a.toNat_lt
  have hb := b.toNat_lt
  have hqv : (a.toNat <<< 8 ||| b.toNat) <<< 8 = (a.toNat * 256 + b.toNat) * 256 := by
    rw [← Nat.shiftLeft_add_eq_or_of_lt hb, Nat.shiftLeft_eq, Nat.shiftLeft_eq]
  have h₀ : (a.toNat <<< 8 ||| b.toNat) <<< 8 >>> 6 >>> 6 >>> 6 &&& 0x3f = a.toNat / 4 := by
    rw [hqv, show (0x3f : ℕ) = 2 ^ 6 - 1 from rfl, Nat.and_two_pow_sub_one_eq_mod]
    simp only [Nat.shiftRight_eq_div_pow]
    omega
  have h₁ : (a.toNat <<< 8 ||| b.toNat) <<< 8 >>> 6 >>> 6 &&& 0x3f =
      a.toNat % 4 * 16 + b.toNat / 16 := by
    rw [hqv, show (0x3f : ℕ) = 2 ^ 6 - 1 from rfl, Nat.and_two_pow_sub_one_eq_mod]
    simp only [Nat.shiftRight_eq_div_pow]
    omega
  have h₂ : (a.toNat <<< 8 ||| b.toNat) <<< 8 >>> 6 &&& 0x3f = b.toNat % 16 * 4 := by
    rw [hqv, show (0x3f : ℕ) = 2 ^ 6 - 1 from rfl, Nat.and_two_pow_sub_one_eq_mod]
    simp only [Nat.shiftRight_eq_div_pow]
    omega
  rw [← h₀, ← h₁, ← h₂]
  rfl

/-! ## The round trip -/

/-- A group of four characters that begins with a digit. -/
theorem loop_group {d : ℕ} (hd : d < 64) {x y z : UInt8} {rest bs : List UInt8} {s : Group}
    (fuel : ℕ)
    (hs : [0, 1, 2, 3].foldl Group.char ⟨numeral d :: x :: y :: z :: rest, rest.length, 4, 3, 0⟩ =
    s)
    (hpIn : s.pIn = rest) (hncIn : s.ncIn = rest.length) (hnbo : 0 ≤ s.nbo)
    (hrest : fromBase64Loop fuel rest rest.length = some bs) :
    fromBase64Loop (fuel + 1) (numeral d :: x :: y :: z :: rest) (rest.length + 4) =
      some (s.bytes ++ bs) := by
  obtain ⟨hvalue, hpad, -, -⟩ := numeral_spec hd
  have hdigit : IsDigit (digitValue (numeral d)) := by
    rw [hvalue]
    exact hd.trans (by decide)
  have hskip : skipNonB64 (numeral d :: x :: y :: z :: rest) (rest.length + 4) =
      numeral d :: x :: y :: z :: rest := if_neg fun h => h.2 hdigit
  have hnti : min (rest.length + 4) 4 = 4 := by omega
  have hthree : ([0, 0, 1, 2, 3] : List ℤ).getD 4 0 = 3 := rfl
  have hfirst : ¬ (rest.length + 4 = 0 ∨ (numeral d :: x :: y :: z :: rest).headD 0 = padChar) := by
    rintro (h | h)
    · omega
    · exact hpad h
  rw [fromBase64Loop, if_neg hfirst]
  simp only [hskip, Nat.sub_self, Nat.sub_zero, hnti, Nat.add_sub_cancel, hthree]
  rw [if_neg (by decide), hs, if_neg (not_lt.mpr hnbo), hpIn, hncIn, hrest]
  rfl

/-- The text is the encoding of the bytes. -/
structure Encodes (bs text : List UInt8) : Prop where
  toBase64_eq : toBase64 bs = text ++ [0]
  length_eq : text.length = 4 * ((bs.length + 2) / 3)
  noNul : 0 ∉ text
  noNewline : 0x0a ∉ text
  decodes : ∀ fuel, text.length ≤ fuel → fromBase64Loop fuel text text.length = some bs

theorem loop_nil (fuel : ℕ) : fromBase64Loop fuel [] 0 = some [] := by
  cases fuel <;> rfl

theorem encodes_nil : Encodes [] [] := by
  refine ⟨rfl, rfl, List.not_mem_nil, List.not_mem_nil, fun fuel _ => loop_nil fuel⟩

/-- The bytes of a number of 24 bits. -/
theorem bytes_qv {qv : ℕ} {a b c : UInt8} (h : qv = (a.toNat * 256 + b.toNat) * 256 + c.toNat)
    (pIn : List UInt8) (ncIn nti : ℕ) (nbo : ℤ) :
    Group.bytes ⟨pIn, ncIn, nti, nbo, qv⟩ = [a, b, c].take nbo.toNat := by
  have ha := a.toNat_lt
  have hb := b.toNat_lt
  have hc := c.toNat_lt
  have h₀ : UInt8.ofNat (qv >>> 16) = a := by
    apply UInt8.toNat_inj.mp
    rw [UInt8.toNat_ofNat', Nat.shiftRight_eq_div_pow]
    omega
  have h₁ : UInt8.ofNat (qv >>> 8) = b := by
    apply UInt8.toNat_inj.mp
    rw [UInt8.toNat_ofNat', Nat.shiftRight_eq_div_pow]
    omega
  have h₂ : UInt8.ofNat qv = c := by
    apply UInt8.toNat_inj.mp
    rw [UInt8.toNat_ofNat']
    omega
  rw [Group.bytes, h₀, h₁, h₂]

theorem encodes_group (a b c : UInt8) {bs text : List UInt8} (h : Encodes bs text) :
    Encodes (a :: b :: c :: bs) (encodeGroup a.toNat b.toNat c.toNat ++ text) := by
  have ha := a.toNat_lt
  have hb := b.toNat_lt
  have hc := c.toNat_lt
  have h₀ : a.toNat / 4 < 64 := by omega
  have h₁ : a.toNat % 4 * 16 + b.toNat / 16 < 64 := by omega
  have h₂ : b.toNat % 16 * 4 + c.toNat / 64 < 64 := by omega
  have h₃ : c.toNat % 64 < 64 := by omega
  have heq := encodeGroup_eq a.toNat hb hc
  refine ⟨?_, ?_, ?_, ?_, fun fuel hfuel => ?_⟩
  · rw [toBase64, h.toBase64_eq, List.append_assoc]
  · rw [heq, List.length_append, h.length_eq]
    simp only [List.length_cons, List.length_nil]
    omega
  · rw [heq]
    simp [h.noNul, (numeral_spec h₀).2.2.1.symm, (numeral_spec h₁).2.2.1.symm,
      (numeral_spec h₂).2.2.1.symm, (numeral_spec h₃).2.2.1.symm]
  · rw [heq]
    simp [h.noNewline, (numeral_spec h₀).2.2.2.symm, (numeral_spec h₁).2.2.2.symm,
      (numeral_spec h₂).2.2.2.symm, (numeral_spec h₃).2.2.2.symm]
  · rw [heq] at hfuel ⊢
    obtain ⟨fuel, rfl⟩ : ∃ n, fuel = n + 1 := ⟨fuel - 1, by simp at hfuel; omega⟩
    have hrest := h.decodes fuel (by simp at hfuel; omega)
    refine (loop_group h₀ fuel rfl ?_ ?_ ?_ hrest).trans ?_
    all_goals
      simp only [List.foldl_cons, List.foldl_nil, char_digit h₀ (show 0 < 4 by decide),
        char_digit h₁ (show 1 < 4 by decide), char_digit h₂ (show 2 < 4 by decide),
        char_digit h₃ (show 3 < 4 by decide)]
    · decide
    · rw [bytes_qv (a := a) (b := b) (c := c) (by omega)]
      rfl

/-- A last group that ends with padding. -/
theorem encodes_last {bs text : List UInt8} {d : ℕ} {x y z : UInt8} {s : Group} (hd : d < 64)
    (hbs : toBase64 bs = encodeLast bs ++ [0])
    (htext : encodeLast bs = numeral d :: x :: y :: z :: [])
    (hlength : (bs.length + 2) / 3 = 1) (hx : x ≠ 0 ∧ x ≠ 0x0a) (hy : y ≠ 0 ∧ y ≠ 0x0a)
    (hz : z ≠ 0 ∧ z ≠ 0x0a)
    (hs : [0, 1, 2, 3].foldl Group.char ⟨[numeral d, x, y, z], 0, 4, 3, 0⟩ = s) (hpIn : s.pIn = [])
    (hncIn : s.ncIn = 0) (hnbo : 0 ≤ s.nbo) (hbytes : s.bytes = bs) (h : text = encodeLast bs) :
    Encodes bs text := by
  obtain ⟨-, -, hd₀, hd₁⟩ := numeral_spec hd
  rw [htext] at h
  subst h
  refine ⟨hbs.trans (by rw [htext]), by rw [hlength]; rfl, ?_, ?_, fun fuel hfuel => ?_⟩
  · simp [hd₀.symm, hx.1.symm, hy.1.symm, hz.1.symm]
  · simp [hd₁.symm, hx.2.symm, hy.2.symm, hz.2.symm]
  · obtain ⟨fuel, rfl⟩ : ∃ n, fuel = n + 1 := ⟨fuel - 1, by simp at hfuel; omega⟩
    have hloop := loop_group hd fuel hs hpIn hncIn hnbo (loop_nil fuel)
    rw [hbytes, List.append_nil] at hloop
    exact hloop

theorem encodes_one (a : UInt8) : Encodes [a] (encodeLast [a]) := by
  have ha := a.toNat_lt
  have h₀ : a.toNat / 4 < 64 := by omega
  have h₁ : a.toNat % 4 * 16 < 64 := by omega
  refine encodes_last h₀ rfl (encodeLast_one a) (by simp) (numeral_spec h₁).2.2 (by decide)
    (by decide) rfl ?_ ?_ ?_ ?_ rfl
  all_goals
    simp only [List.foldl_cons, List.foldl_nil, char_digit h₀ (show 0 < 4 by decide),
      char_digit h₁ (show 1 < 4 by decide), char_pad (show 2 < 4 by decide),
      char_pad (show 3 < 4 by decide)]
  · decide
  · rw [bytes_qv (a := a) (b := 0) (c := 0) (by simp; omega)]
    rfl

theorem encodes_two (a b : UInt8) : Encodes [a, b] (encodeLast [a, b]) := by
  have ha := a.toNat_lt
  have hb := b.toNat_lt
  have h₀ : a.toNat / 4 < 64 := by omega
  have h₁ : a.toNat % 4 * 16 + b.toNat / 16 < 64 := by omega
  have h₂ : b.toNat % 16 * 4 < 64 := by omega
  refine encodes_last h₀ rfl (encodeLast_two a b) (by simp) (numeral_spec h₁).2.2
    (numeral_spec h₂).2.2 (by decide) rfl ?_ ?_ ?_ ?_ rfl
  all_goals
    simp only [List.foldl_cons, List.foldl_nil, char_digit h₀ (show 0 < 4 by decide),
      char_digit h₁ (show 1 < 4 by decide), char_digit h₂ (show 2 < 4 by decide),
      char_pad (show 3 < 4 by decide)]
  · decide
  · rw [bytes_qv (a := a) (b := b) (c := 0) (by simp; omega)]
    rfl

/-- **Every byte string has an encoding**, which is read back as the byte string. -/
theorem exists_encodes (bs : List UInt8) : ∃ text, Encodes bs text := by
  induction bs using toBase64.induct with
  | case1 a b c bs ih =>
    obtain ⟨text, h⟩ := ih
    exact ⟨_, encodes_group a b c h⟩
  | case2 => exact ⟨[], encodes_nil⟩
  | case3 bs hthree hnil =>
    match bs with
    | [] => exact absurd rfl hnil
    | [a] => exact ⟨_, encodes_one a⟩
    | [a, b] => exact ⟨_, encodes_two a b⟩
    | a :: b :: c :: bs => exact absurd rfl (hthree a b c bs)

theorem Encodes.fromBase64 {bs text : List UInt8} (h : Encodes bs text) :
    fromBase64 text text.length = some bs := by
  have hlast : ¬ (0 < text.length ∧ text.getD (text.length - 1) 0 = 0x0a) := by
    rintro ⟨hpos, hnl⟩
    have hlt : text.length - 1 < text.length := by omega
    rw [List.getD_eq_getElem?_getD, List.getElem?_eq_getElem hlt, Option.getD_some] at hnl
    exact h.noNewline (hnl ▸ List.getElem_mem hlt)
  rw [Base64.fromBase64, if_neg hlast]
  exact h.decodes _ le_rfl

end Base64

end HEDB
