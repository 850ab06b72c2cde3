import HEDB.Pipeline.Calls

/-!
# Calls on text

What the branches of the handler for text do with ciphertexts of given strings. The lengths decide:
a ciphertext of the empty string is refused by `decrypt_bytes`, and a string of `STRING_LENGTH`
bytes has no room for the zero after it in a local array.
-/

namespace HEDB

open Layout

variable {g : Gcm} {F : FloatOps}

/-- The `EncStr` is a ciphertext of the string. -/
structure Gcm.IsCipher (g : Gcm) (c : EncStr) (s : List UInt8) : Prop where
  decrypts : g.Decrypts c.cstr s
  length_eq : c.cstr.length = s.length + ivSize + tagSize

theorem Gcm.IsCipher.length_le {c : EncStr} {s : List UInt8} (h : g.IsCipher c s) :
    s.length ≤ stringLength := by
  have h₁ := h.length_eq
  have h₂ := c.len_le
  simp only [encStringLength] at h₂
  omega

/-- The `EncStr` that holds what `encrypt_bytes` wrote. -/
theorem Gcm.isCipher_gcmEncrypt (iv : Bytes ivSize) {s : List UInt8} (order : UInt32)
    (h : (g.gcmEncrypt iv s).length ≤ encStringLength) :
    g.IsCipher ⟨order, g.gcmEncrypt iv s, h⟩ s :=
  ⟨Gcm.decrypts_gcmEncrypt iv s, Gcm.length_gcmEncrypt iv s⟩

/-- Every string that fits has a ciphertext. -/
theorem Gcm.exists_isCipher (g : Gcm) {s : List UInt8} (h : s.length ≤ stringLength) :
    ∃ c, g.IsCipher c s ∧ c.order = 0 := by
  have hle : (g.gcmEncrypt ⟨List.replicate ivSize 0, rfl⟩ s).length ≤ encStringLength := by
    rw [Gcm.length_gcmEncrypt, encStringLength]
    omega
  exact ⟨⟨0, _, hle⟩, Gcm.isCipher_gcmEncrypt _ 0 hle, rfl⟩

/-! ## Operands -/

/-- The length and the ciphertext of a text operand. -/
theorem Request.In.encStr {q : Request} {m : Mem} (h : q.In m) {o : ℕ} {c : EncStr}
    (hc : copyEnc o c ⊆ q.body) : m.uint (o + strLen) = c.len ∧ encCstr m o = c.cstr := by
  have hlen : m.uint (o + strLen) = c.len := by
    have hle : c.len ≤ 284 := c.len_le
    rw [Mem.uint, h.field (hc List.mem_cons_self) (length_leBytes 4 _), leNat_leBytes]
    exact Nat.mod_eq_of_lt (by omega)
  refine ⟨hlen, ?_⟩
  rw [encCstr, hlen]
  exact h.field (hc (List.mem_cons_of_mem _ List.mem_cons_self)) rfl

theorem plainLen_add (n : ℕ) (h : n ≤ stringLength) : plainLen (n + ivSize + tagSize) = n := by
  have hn : ((n + ivSize + tagSize : ℕ) : ℤ) - ivSize - tagSize = n := by
    push_cast
    omega
  rw [plainLen, hn, toUnsigned, Int.emod_eq_of_lt (by omega)]
  · exact Int.toNat_natCast n
  · simp only [stringLength] at h
    omega

section Operand

variable {m : Mem} {o : ℕ} {c : EncStr} {s : List UInt8}

/-- `decrypt_bytes` on a ciphertext of a string. An empty one is refused. -/
theorem Gcm.IsCipher.decryptBytes (hc : g.IsCipher c s) : g.decryptBytes c.cstr =
    (if s = [] then -1 else 0, if s = [] then none else some s) := by
  split_ifs with hs
  · exact Gcm.decryptBytes_of_le (by rw [hc.length_eq, hs]; simp)
  · exact Gcm.decryptBytes_of_decrypts hc.decrypts hs

theorem Gcm.IsCipher.reported (hc : g.IsCipher c s) : g.Reported c.cstr := by
  by_cases hs : s = []
  · exact .inr (by rw [hc.length_eq, hs]; decide)
  · exact .inl (by rw [hc.decryptBytes, if_neg hs])

/-- Decrypting a ciphertext of a string to a local array. -/
theorem decryptStr_eq (hm : encCstr m o = c.cstr) (hc : g.IsCipher c s) :
    decryptStr g m o = some (if s = [] then -1 else 0, s) := by
  have hplain : (if s = [] then none else some s : Option (List UInt8)).getD [] = s := by
    split_ifs with hs
    · exact hs.symm
    · rfl
  rw [decryptStr_eq_ite, hm, hc.decryptBytes, hplain, if_pos ⟨hc.reported, hc.length_le⟩]

theorem terminate_eq (hm : m.uint (o + strLen) = c.len) (hc : g.IsCipher c s) :
    terminate m o = if s.length < stringLength then some () else none := by
  rw [terminate, hm, EncStr.len, hc.length_eq, plainLen_add _ hc.length_le]

end Operand

/-! ## Substrings -/

section Substrings

variable {s : List UInt8}

theorem mapM_range_eq_some {α : Type} {f : ℕ → Option α} {n : ℕ} {u : List α} :
    (List.range n).mapM f = some u ↔ u.length = n ∧ ∀ i < n, f i = u[i]? := by
  induction n generalizing u with
  | zero =>
    rw [List.range_zero, List.mapM_nil]
    constructor
    · intro h
      cases h
      exact ⟨rfl, fun i hi => absurd hi (Nat.not_lt_zero i)⟩
    · intro h
      rw [List.length_eq_zero_iff.1 h.1]
      rfl
  | succ n ih =>
    rw [List.range_succ, List.mapM_append]
    simp only [List.mapM_cons, List.mapM_nil, Option.bind_eq_bind, Option.bind_eq_some_iff,
      Option.pure_def, Option.some.injEq]
    constructor
    · rintro ⟨v, hv, w, ⟨x, hx, y, rfl, rfl⟩, rfl⟩
      obtain ⟨hlen, hall⟩ := ih.1 hv
      refine ⟨by simp [hlen], fun i hi => ?_⟩
      rcases Nat.lt_succ_iff_lt_or_eq.1 hi with hi | rfl
      · rw [hall i hi, List.getElem?_append_left (by omega)]
      · rw [hx, ← hlen, List.getElem?_append_right le_rfl]
        simp
    · rintro ⟨hlen, hall⟩
      have hn : n < u.length := by omega
      refine ⟨u.take n, ih.2 ⟨by simp [hlen], fun i hi => ?_⟩, [u[n]],
        ⟨u[n], ?_, [], rfl, rfl⟩, ?_⟩
      · rw [hall i (by omega), List.getElem?_take_of_lt hi]
      · rw [hall n (by omega), List.getElem?_eq_getElem hn]
      · rw [List.take_concat_get' u n hn, List.take_of_length_le (by omega)]

/-- `SubText` within the array of the source. -/
theorem subText_of_le {start length : ℤ} (hstart : 1 ≤ start) (hlength : 0 ≤ length)
    (hlt : length < stringLength) (hsum : start + length ≤ s.length + 1) :
    subText s start length = some ((s.drop (start - 1).toNat).take length.toNat) := by
  rw [subText, if_pos ⟨hlength, hlt⟩, mapM_range_eq_some]
  constructor
  · simp only [List.length_take, List.length_drop]
    omega
  · intro i hi
    rw [if_pos (by omega), List.getElem?_take_of_lt hi, List.getElem?_drop]
    congr 1
    omega

/-- `SubText` reads nothing else. -/
theorem subText_bounds {start length : ℤ} {u : List UInt8} (h : subText s start length = some u) :
    0 ≤ length ∧ length < stringLength ∧ u.length = length.toNat ∧
      (1 ≤ length → 1 ≤ start ∧ start + length ≤ s.length + 1) := by
  unfold subText at h
  split_ifs at h with hlen
  obtain ⟨hu, hall⟩ := mapM_range_eq_some.1 h
  have hget : ∀ i, i < length.toNat → 0 ≤ start + i - 1 ∧ (start + i - 1).toNat < s.length := by
    intro i hi
    have hi' := hall i hi
    have hiu : i < u.length := by omega
    have hui : u[i]? = some u[i] := List.getElem?_eq_getElem hiu
    rw [hui] at hi'
    split_ifs at hi' with hpos
    obtain ⟨hbound, -⟩ := List.getElem?_eq_some_iff.1 hi'
    exact ⟨hpos, hbound⟩
  refine ⟨hlen.1, hlen.2, hu, fun hpos => ?_⟩
  have hfirst := hget 0 (by omega)
  have hlast := hget (length.toNat - 1) (by omega)
  omega

end Substrings

/-! ## Branches -/

section Branches

variable {r : OpsProcess} {a b : EncStr} {s t : List UInt8}

/-- What `enc_text_cmp` does with ciphertexts of two strings. It takes an empty left operand, but
not an empty right one. -/
theorem encTextCmp_eq (h : (Request.strCmp a b).In r.mem) (ha : g.IsCipher a s)
    (hb : g.IsCipher b t) :
    encTextCmp g r =
      if t = [] then some (-1, r)
      else if s.length < stringLength ∧ t.length < stringLength then
        some (0, r.write (cmpCmp sizeofEncStr) (intBytes (plainTextCmp s t)))
      else none := by
  have hl := h.encStr (List.subset_append_left _ _)
  have hr := h.encStr (List.subset_append_right _ _)
  unfold encTextCmp
  rw [decryptStr_eq hl.2 ha, decryptStr_eq hr.2 hb, terminate_eq hl.1 ha, terminate_eq hr.1 hb]
  by_cases ht : t = []
  · simp [ht]
  · by_cases hs : s.length < stringLength <;> by_cases ht' : t.length < stringLength
    all_goals simp only [ht, hs, ht', if_true, if_false, and_true, and_false, and_self]
    all_goals rfl

/-- What `enc_text_like` does with ciphertexts of two strings. It writes the zero behind the left
one before it decrypts the right one. -/
theorem encTextLike_eq (h : (Request.strLike a b).In r.mem) (ha : g.IsCipher a s)
    (hb : g.IsCipher b t) :
    encTextLike g r =
      if s.length < stringLength then
        if t = [] then some (-1, r)
        else if t.length < stringLength then
          some (0, r.write (cmpCmp sizeofEncStr) (intBytes (Like.plainTextLike s t)))
        else none
      else none := by
  have hl := h.encStr (List.subset_append_left _ _)
  have hr := h.encStr (List.subset_append_right _ _)
  unfold encTextLike
  rw [decryptStr_eq hl.2 ha, decryptStr_eq hr.2 hb, terminate_eq hl.1 ha, terminate_eq hr.1 hb]
  by_cases hs : s.length < stringLength
  · by_cases ht : t = []
    · simp only [hs, ht, if_true]
      rfl
    · by_cases ht' : t.length < stringLength
      all_goals simp only [ht, hs, ht', if_true, if_false]
      all_goals rfl
  · simp only [hs, if_false]
    rfl

theorem encTextConcatenate_eq (h : (Request.concat a b).In r.mem) (ha : g.IsCipher a s)
    (hb : g.IsCipher b t) :
    encTextConcatenate g r =
      if s = [] then some (-1, r)
      else if s.length = stringLength then none
      else if t = [] then some (-1, r)
      else if t.length = stringLength then none
      else (plainTextConcat s t).bind fun res => encryptStrInto g r res (calcRes sizeofEncStr) := by
  have hl := h.encStr (o := calcLeft) (c := a) (by simp [Request.body])
  have hr := h.encStr (o := calcRight sizeofEncStr) (c := b) (by simp [Request.body])
  unfold encTextConcatenate
  rw [decryptStr_eq hl.2 ha, decryptStr_eq hr.2 hb, terminate_eq hl.1 ha, terminate_eq hr.1 hb]
  by_cases hs : s = []
  · simp [hs]
  rcases ha.length_le.lt_or_eq with hs' | hs'
  · by_cases ht : t = []
    · simp only [hs, hs', ht, hs'.ne, if_true, if_false]
      rfl
    rcases hb.length_le.lt_or_eq with ht' | ht'
    · simp only [hs, hs', ht, ht', hs'.ne, ht'.ne, if_true, if_false]
      rfl
    · simp only [hs, hs', ht, ht', hs'.ne, lt_irrefl, if_true, if_false]
      rfl
  · simp only [hs, hs', if_true, if_false]
    rfl

/-- What `enc_text_substring` does with ciphertexts of a string and two numbers. -/
theorem encTextSubstring_eq {start length : Bytes encInt32Length} {i n : ℤ}
    (h : (Request.substring a start length).In r.mem) (ha : g.IsCipher a s)
    (hstart : g.Decrypts start.bytes (intBytes i)) (hi : IsInt i)
    (hlength : g.Decrypts length.bytes (intBytes n)) (hn : IsInt n) :
    encTextSubstring g F r =
      if s = [] then some (-1, r)
      else if s.length = stringLength then none
      else (plainTextSubstring (strData F r s) i n).bind fun sub =>
        encryptStrInto g r sub subRes := by
  have hl := h.encStr (List.subset_append_left _ _)
  have hs₁ := decryptBytes_field h.substring.1 hstart (by decide)
  have hs₂ := decryptBytes_field h.substring.2 hlength (by decide)
  unfold encTextSubstring
  rw [decryptStr_eq hl.2 ha, terminate_eq hl.1 ha, hs₁, hs₂]
  by_cases hs : s = []
  · simp [hs]
  rcases ha.length_le.lt_or_eq with hs' | hs'
  · simp only [hs, hs', hs'.ne, if_true, if_false]
    show (plainTextSubstring (strData F r s) (bytesInt (intBytes i))
      (bytesInt (intBytes n))).bind _ = _
    rw [bytesInt_intBytes hi, bytesInt_intBytes hn]
  · simp only [hs, hs', if_true, if_false]
    rfl

/-- A result string: its length and its ciphertext. -/
theorem encryptStrInto_eq {src : List UInt8} {o : ℕ} (h : src.length ≤ stringLength) :
    ∃ served, encryptStrInto g r src o = some (0, served) ∧
      served.mem.uint (o + strLen) = src.length + ivSize + tagSize ∧
      encCstr served.mem o = g.gcmEncrypt (increment r.iv) src := by
  refine ⟨_, encryptInto_eq rfl, ?_⟩
  have hlen : ((r.mem.setUint (o + strLen) (src.length + ivSize + tagSize)).write (o + strCstr)
      (g.gcmEncrypt (increment r.iv) src)).uint (o + strLen) = src.length + ivSize + tagSize := by
    rw [Mem.uint, Mem.read_write_of_disjoint _ (.inl (by simp)), ← Mem.uint, Mem.uint_setUint]
    simp only [stringLength] at h
    simp only [ivSize, tagSize]
    omega
  refine ⟨hlen, ?_⟩
  rw [encCstr, hlen]
  exact Mem.read_write_of_length _ _ _ _ (Gcm.length_gcmEncrypt _ _)

/-- `CMD_STRING_ENC` encrypts the plaintext. -/
theorem encStringEnc_eq {p : Str} (h : (Request.strEnc p).In r.mem) :
    encStringEnc g r = encryptStrInto g r p.data strEncCipher := by
  have hp : p.data.length ≤ 256 := p.len_le
  have hlen : r.mem.uint strEncPlain = p.data.length := by
    rw [Mem.uint, h.field List.mem_cons_self (length_leBytes 4 _), leNat_leBytes]
    exact Nat.mod_eq_of_lt (by simp only [Str.len]; omega)
  have hdata : r.mem.read (strEncPlain + 4) p.data.length = p.data :=
    h.field (List.mem_cons_of_mem _ List.mem_cons_self) rfl
  have hcipher : (toUnsigned ((p.data.length : ℤ) + ivSize + tagSize)).toNat =
      p.data.length + ivSize + tagSize := by
    simp only [toUnsigned, ivSize, tagSize]
    omega
  unfold encStringEnc encryptStrInto
  simp only [hlen, hcipher]
  rw [Mem.setUint, Mem.read_write_of_disjoint _ (.inl ?_), hdata]
  simp only [strEncPlain, strEncCipher, strLen, sizeofStr, stringLength]
  omega

/-- What `CMD_STRING_DEC` does with any ciphertext. The zero after the plaintext of a ciphertext
that is too short would lie far outside the region. -/
theorem encStringDec_of_in (h : (Request.strDec a).In r.mem) :
    encStringDec g r =
      if g.Reported a.cstr ∧ ivSize + tagSize ≤ a.len then
        some ((g.decryptBytes a.cstr).1,
          ⟨((g.decryptBytes a.cstr).2.elim (r.mem.setUint strDecPlain (a.len - (ivSize + tagSize)))
              ((r.mem.setUint strDecPlain (a.len - (ivSize + tagSize))).write
                (strDecPlain + 4))).write
            (strDecPlain + 4 + (a.len - (ivSize + tagSize))) [0], r.iv⟩)
      else none := by
  have ha : a.len ≤ 284 := a.len_le
  have hl := h.encStr (List.Subset.refl _)
  -- The length of the plaintext is written before the ciphertext is read.
  have hcstr : ∀ n, encCstr (r.mem.setUint strDecPlain n) strDecCipher = a.cstr := by
    intro n
    have huint : (r.mem.setUint strDecPlain n).uint (strDecCipher + strLen) = a.len := by
      rw [← hl.1, Mem.uint, Mem.setUint, Mem.read_write_of_disjoint _ (.inl (by simp)), Mem.uint]
    rw [encCstr, huint, Mem.setUint, Mem.read_write_of_disjoint _ (.inl ?_), ← hl.1]
    · exact hl.2
    · simp only [strDecCipher, strCstr, strDecPlain, sizeofEncStr, encStringLength, stringLength,
        ivSize, tagSize]
      omega
  unfold encStringDec
  simp only [hl.1, hcstr, Gcm.decryptBytesReporting_eq_ite, ite_and]
  by_cases hrep : g.Reported a.cstr
  swap
  · rw [if_neg hrep, if_neg hrep]
    rfl
  rw [if_pos hrep, if_pos hrep]
  simp only [Option.bind_eq_bind, Option.bind_some]
  by_cases hle : ivSize + tagSize ≤ a.len
  · have hlen : plainLen a.len = a.len - (ivSize + tagSize) := by
      obtain ⟨n, hn⟩ := Nat.exists_eq_add_of_le' hle
      rw [hn, ← Nat.add_assoc,
        plainLen_add n (by simp only [stringLength, ivSize, tagSize] at *; omega)]
      omega
    rw [hlen, if_pos hle, if_pos]
    simp only [strDecPlain, sizeofEncStr, encStringLength, stringLength, ivSize, tagSize,
      reqRegionSize]
    omega
  · rw [if_neg hle, if_neg]
    simp only [strDecPlain, sizeofEncStr, encStringLength, stringLength, ivSize, tagSize,
      reqRegionSize, plainLen, toUnsigned] at hle ⊢
    omega

/-- What is written behind the length of the plaintext leaves it. -/
theorem uint_strDecPlain (m : Mem) {n k : ℕ} (hn : n < 2 ^ 32) (x : Option (List UInt8)) :
    ((x.elim (m.setUint strDecPlain n) ((m.setUint strDecPlain n).write (strDecPlain + 4))).write
      (strDecPlain + 4 + k) [0]).uint strDecPlain = n := by
  rw [Mem.uint, Mem.read_write_of_disjoint _ (.inl (by simp))]
  cases x with
  | none => exact m.uint_setUint strDecPlain hn
  | some p =>
    rw [Option.elim_some, Mem.read_write_of_disjoint _ (.inl le_rfl)]
    exact m.uint_setUint strDecPlain hn

/-- `CMD_STRING_DEC` on a ciphertext of a string. An empty one is refused. -/
theorem encStringDec_eq (h : (Request.strDec a).In r.mem) (ha : g.IsCipher a s) :
    ∃ served, encStringDec g r = some (if s = [] then -1 else 0, served) ∧
      served.mem.uint strDecPlain = s.length ∧
      served.mem.read (strDecPlain + 4) s.length = s := by
  have hs : s.length ≤ 256 := ha.length_le
  have hlen : a.len = s.length + (ivSize + tagSize) := ha.length_eq
  rw [encStringDec_of_in h, if_pos ⟨ha.reported, by omega⟩, ha.decryptBytes, hlen,
    Nat.add_sub_cancel]
  refine ⟨_, rfl, uint_strDecPlain r.mem (by omega) _, ?_⟩
  rw [Mem.read_write_of_disjoint _ (.inl le_rfl)]
  by_cases hnil : s = []
  · simp [hnil]
  · simp only [if_neg hnil, Option.elim_some]
    exact Mem.read_write _ _ _

end Branches

end HEDB
