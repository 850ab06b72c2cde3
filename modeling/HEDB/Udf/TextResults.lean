import HEDB.Udf.EncText

/-!
# Results of functions on `enc_text`

Concatenation and substring build new strings in the privacy zone. A result can be read back and
compared when the operands and the result are neither empty nor of 256 bytes; the limits are
`concatUsable_iff` and `substringUsable_iff`. Beyond them a function that fails is not always
harmless: the client copies the result before it looks at the return code, with whatever length an
older result left in the region (`callEncStr_stale`).
-/

namespace HEDB

namespace Udf

open Layout

variable {g : Gcm} {F : FloatOps} {s t : List UInt8} {a b : EncStr}

/-! ## Concatenation -/

/-- A region in which every byte is set, so that the lengths of stale results are as large as can
be. -/
def OpsProcess.stale : OpsProcess := ⟨fun _ => 0xFF, OpsProcess.zero.iv⟩

/-- **The sum of two strings can be used again**, unless an error is raised. -/
def ConcatUsable (g : Gcm) (F : FloatOps) (s t : List UInt8) : Prop :=
  ∀ a b, g.IsCipher a s → g.IsCipher b t → ∀ r,
    (∃ e r', encTextConcatenate g F a b r = some (.error e, r')) ∨
      ∃ c r', encTextConcatenate g F a b r = some (.ok c, r') ∧ Usable g F c (s ++ t)

/-- An error of a call on text leaves the length of an older result, which is then copied. -/
theorem callEncStr_stale {q : Request} {o room : ℕ} {resp : ℤ} {e : Except ℤ EncStr}
    {r' : OpsProcess}
    (hint : IsInt resp)
    (hcmd : handleCmd g F q.cmd (sent q OpsProcess.stale) =
      setResp (some (resp, sent q OpsProcess.stale)))
    (hcopy : ∀ m, q.copyResultFrom m = encCstr m o)
    (ho : ∀ w ∈ q.body, w.1 + w.2.length ≤ o + strLen)
    (h12 : 8 ≤ o + strLen)
    (hroom : room < 2 ^ 32 - 1) : callEncStr g F q room OpsProcess.stale ≠ some (e, r') := by
  obtain ⟨reply, hsend, -, hresult⟩ := sendRequest_eq hint hcmd
  have huint : (sent q OpsProcess.stale).mem.uint (o + strLen) = 2 ^ 32 - 1 := by
    have hdisj : ∀ w ∈ q.writes, o + strLen + 4 ≤ w.1 ∨ w.1 + w.2.length ≤ o + strLen := by
      intro w hw
      rcases List.mem_cons.1 hw with rfl | hw
      · exact .inr (by rw [length_intBytes]; exact h12)
      · exact .inr (ho w hw)
    rw [Mem.uint, sent, Mem.setInt, Mem.read_write_of_disjoint _ (.inr ?_), Request.serializeTo,
      Mem.read_writeAll_of_disjoint _ hdisj]
    · show leNat [0xFF, 0xFF, 0xFF, 0xFF] = 2 ^ 32 - 1
      decide
    · rw [length_intBytes]
      exact le_trans (by decide : status + 4 ≤ 8) h12
  have hlen : reply.result.length = 2 ^ 32 - 1 := by
    rw [hresult, hcopy, encCstr, Mem.length_read, huint]
  rw [callEncStr, hsend]
  simp only [Option.bind_eq_bind, Option.bind_some]
  rw [dif_neg]
  · simp
  · rw [hlen]
    omega

theorem handleCmd_concat (a b : EncStr) (r : OpsProcess) :
    handleCmd g F (Request.concat a b).cmd (sent (.concat a b) r) =
      setResp (HEDB.encTextConcatenate g (sent (.concat a b) r)) := rfl

/-- A concatenation that fails, on a region with a stale result. -/
theorem concat_stale (hcat : HEDB.encTextConcatenate g (sent (.concat a b) OpsProcess.stale) =
      some (-1, sent (.concat a b) OpsProcess.stale)) (e : Except ℤ EncStr) (r' : OpsProcess) :
    encTextConcatenate g F a b OpsProcess.stale ≠ some (e, r') := by
  have ha : a.cstr.length ≤ 284 := a.len_le
  have hb : b.cstr.length ≤ 284 := b.len_le
  have hcmd := handleCmd_concat (g := g) (F := F) a b OpsProcess.stale
  rw [hcat] at hcmd
  refine callEncStr_stale (o := calcRes sizeofEncStr) (by decide) hcmd (fun m => rfl) ?_
    (by decide) ?_
  · intro w hw
    simp only [Request.body, copyEnc, List.mem_cons, List.mem_append, List.not_mem_nil,
      or_false] at hw
    rcases hw with rfl | (rfl | rfl) | rfl | rfl <;> simp <;> omega
  · simp only [EncStr.len]
    omega

/-- A concatenation that succeeds. -/
theorem encTextConcatenate_cipher (ha : g.IsCipher a s) (hb : g.IsCipher b t) (hs : s ≠ [])
    (ht : t ≠ [])
    (hsum : s.length + t.length < stringLength) (r : OpsProcess) :
    ∃ c r', encTextConcatenate g F a b r = some (.ok c, r') ∧ g.IsCipher c (s ++ t) ∧
      c.order = orderNone := by
  have hcat := encTextConcatenate_eq (in_sent (.concat a b) r) ha hb
  rw [if_neg hs, if_neg (by omega), if_neg ht, if_neg (by omega), plainTextConcat, if_pos hsum,
    Option.bind_some] at hcat
  have hcmd := handleCmd_concat (g := g) (F := F) a b r
  rw [hcat] at hcmd
  have hlen : (s ++ t).length < stringLength := by rwa [List.length_append]
  have hroom : (s ++ t).length + ivSize + tagSize ≤ a.len + b.len - (ivSize + tagSize) := by
    rw [EncStr.len, EncStr.len, ha.length_eq, hb.length_eq, List.length_append]
    omega
  exact callEncStr_eq hcmd (fun m => rfl) hlen.le hroom

theorem concatUsable_of_lt (hs0 : 0 ∉ s) (ht0 : 0 ∉ t) (hs : s ≠ []) (ht : t ≠ [])
    (hsum : s.length + t.length < stringLength) : ConcatUsable g F s t := by
  intro a b ha hb r
  obtain ⟨c, r', hcall, hc, horder⟩ := encTextConcatenate_cipher ha hb hs ht hsum r
  have h0 : 0 ∉ s ++ t := by simp [hs0, ht0]
  refine .inr ⟨c, r', hcall, ?_⟩
  rw [← cString_eq h0]
  exact usable_of_isCipher hc horder (by simp [hs]) (by rwa [List.length_append])

theorem concatUsable_iff (hs : s.length ≤ stringLength) (ht : t.length ≤ stringLength)
    (hs0 : 0 ∉ s) (ht0 : 0 ∉ t) :
    ConcatUsable g F s t ↔ s ≠ [] ∧ t ≠ [] ∧ s.length + t.length < stringLength := by
  constructor
  · intro h
    obtain ⟨a, ha, -⟩ := g.exists_isCipher hs
    obtain ⟨b, hb, -⟩ := g.exists_isCipher ht
    have hcat := encTextConcatenate_eq (in_sent (.concat a b) OpsProcess.stale) ha hb
    obtain ⟨e, r', hdef⟩ : ∃ e r', encTextConcatenate g F a b OpsProcess.stale = some (e, r') := by
      rcases h a b ha hb OpsProcess.stale with ⟨e, r', h⟩ | ⟨c, r', h, -⟩
      · exact ⟨_, _, h⟩
      · exact ⟨_, _, h⟩
    have hnone : HEDB.encTextConcatenate g (sent (.concat a b) OpsProcess.stale) ≠ none := by
      intro hnone
      have hcmd := handleCmd_concat (g := g) (F := F) a b OpsProcess.stale
      rw [hnone] at hcmd
      rw [encTextConcatenate, callEncStr_none hcmd] at hdef
      cases hdef
    have hs1 : s ≠ [] := fun hnil =>
      concat_stale (by rw [hcat, if_pos hnil]) e r' hdef
    have hs2 : s.length ≠ stringLength := fun hfull =>
      hnone (by rw [hcat, if_neg hs1, if_pos hfull])
    have ht1 : t ≠ [] := fun hnil =>
      concat_stale (by rw [hcat, if_neg hs1, if_neg hs2, if_pos hnil]) e r' hdef
    refine ⟨hs1, ht1, ?_⟩
    by_contra hsum
    apply hnone
    rw [hcat, if_neg hs1, if_neg hs2, if_neg ht1, plainTextConcat, if_neg hsum]
    exact ite_self _
  · rintro ⟨hs1, ht1, hsum⟩
    exact concatUsable_of_lt hs0 ht0 hs1 ht1 hsum

/-! ## Substrings -/

/-- The C string of an array ends before its first zero. -/
theorem cString_take {n : ℕ} {rest : List UInt8} (h0 : 0 ∉ s) :
    cString ((s ++ 0 :: rest).take n) = s.take n := by
  rcases Nat.lt_or_ge s.length n with hlt | hle
  · have hall : ∀ b ∈ s, decide (b ≠ 0) = true := fun b hb =>
      decide_eq_true fun hb0 => h0 (hb0 ▸ hb)
    rw [List.take_append, List.take_of_length_le hlt.le,
      List.take_cons (by omega : 0 < n - s.length), cString, List.takeWhile_append_of_pos hall]
    simp
  · rw [List.take_append_of_le_length hle]
    exact cString_eq fun h => h0 (List.mem_of_mem_take h)

/-- The substring of a string that starts at position `start`, counted from one. -/
def sub (s : List UInt8) (start length : ℤ) : List UInt8 :=
  (s.drop (start - 1).toNat).take length.toNat

/-- **A substring can be used again**, unless an error is raised, whatever is on the stack of the
privacy zone. -/
def SubstringUsable (g : Gcm) (F : FloatOps) (s : List UInt8) (start length : ℤ) : Prop :=
  ∀ residue a, g.IsCipher a s → ∀ i n : Bytes encInt32Length, g.Decrypts i.bytes (intBytes start) →
    g.Decrypts n.bytes (intBytes length) → ∀ r,
      (∃ e r', substring g { F with residue } a i n r = some (.error e, r')) ∨
        ∃ c r', substring g { F with residue } a i n r = some (.ok c, r') ∧
          Usable g { F with residue } c (sub s start length)

theorem handleCmd_substring (a : EncStr) (i n : Bytes encInt32Length) (r : OpsProcess) :
    handleCmd g F (Request.substring a i n).cmd (sent (.substring a i n) r) =
      setResp (encTextSubstring g F (sent (.substring a i n) r)) := rfl

/-- A substring that fails, on a region with a stale result. -/
theorem substring_stale {i n : Bytes encInt32Length}
    (hsub : encTextSubstring g F (sent (.substring a i n) OpsProcess.stale) =
      some (-1, sent (.substring a i n) OpsProcess.stale)) (e : Except ℤ EncStr) (r' : OpsProcess) :
    substring g F a i n OpsProcess.stale ≠ some (e, r') := by
  have ha : a.cstr.length ≤ 284 := a.len_le
  have hi := i.size
  have hn := n.size
  have hcmd := handleCmd_substring (g := g) (F := F) a i n OpsProcess.stale
  rw [hsub] at hcmd
  refine callEncStr_stale (o := subRes) (by decide) hcmd (fun m => rfl) ?_ (by decide) ?_
  · intro w hw
    simp only [Request.body, copyEnc, List.mem_cons, List.mem_append, List.not_mem_nil,
      or_false] at hw
    rcases hw with (rfl | rfl) | rfl | rfl <;> simp at hi hn ⊢ <;> omega
  · simp only [EncStr.len]
    omega

section Operands

variable {start length : ℤ} {i n : Bytes encInt32Length}

/-- A substring that succeeds. Behind the end of the string it has what the array holds there. -/
theorem substring_cipher (ha : g.IsCipher a s)
    (hdi : g.Decrypts i.bytes (intBytes start)) (hdn : g.Decrypts n.bytes (intBytes length))
    (hs : s ≠ []) (hlt : s.length < stringLength) (hi : IsInt start) (hn : IsInt length)
    (hstart : 1 ≤ start) (hlength : 0 ≤ length) (hle : length ≤ s.length)
    (hsum : start + length ≤ stringLength + 1) (r : OpsProcess) :
    ∃ c r' u, substring g F a i n r = some (.ok c, r') ∧ g.IsCipher c u ∧ c.order = orderNone ∧
      u = ((strData F (sent (.substring a i n) r) s).drop (start - 1).toNat).take length.toNat ∧
      u.length = length.toNat := by
  have hsub := encTextSubstring_eq (F := F) (in_sent (.substring a i n) r) ha hdi hi hdn hn
  have harray := length_strData (F := F) hlt (sent (.substring a i n) r)
  set u := ((strData F (sent (.substring a i n) r) s).drop (start - 1).toNat).take length.toNat
    with hu
  have hulen : u.length = length.toNat := by
    rw [hu, List.length_take, List.length_drop, harray]
    omega
  rw [if_neg hs, if_neg hlt.ne, plainTextSubstring,
    subText_of_le hstart hlength (by omega) (by rwa [harray]), Option.bind_some, ← hu] at hsub
  have hcmd := handleCmd_substring (g := g) (F := F) a i n r
  rw [hsub] at hcmd
  have hroom : u.length + ivSize + tagSize ≤ a.len := by
    rw [EncStr.len, ha.length_eq]
    omega
  obtain ⟨c, r', hcall, hc, horder⟩ := callEncStr_eq hcmd (fun m => rfl) (by omega) hroom
  exact ⟨c, r', u, hcall, hc, horder, hu, hulen⟩

theorem substring_none (hs : s ≠ []) (hlt : s.length < stringLength) (ha : g.IsCipher a s)
    (hdi : g.Decrypts i.bytes (intBytes start)) (hi : IsInt start)
    (hdn : g.Decrypts n.bytes (intBytes length)) (hn : IsInt length) {r : OpsProcess}
    (hsub : subText (strData F (sent (.substring a i n) r) s) start length = none) :
    substring g F a i n r = none := by
  have hcmd := handleCmd_substring (g := g) (F := F) a i n r
  rw [encTextSubstring_eq (in_sent (.substring a i n) r) ha hdi hi hdn hn, if_neg hs,
    if_neg hlt.ne, plainTextSubstring, hsub] at hcmd
  exact callEncStr_none hcmd

/-- A substring that is returned is a ciphertext of what `SubText` has copied, and that is not
longer than the string. -/
theorem substring_eq_some (hs : s ≠ []) (hlt : s.length < stringLength) (ha : g.IsCipher a s)
    (hdi : g.Decrypts i.bytes (intBytes start)) (hi : IsInt start)
    (hdn : g.Decrypts n.bytes (intBytes length)) (hn : IsInt length)
    {r r' : OpsProcess} {x : Except ℤ EncStr} (h : substring g F a i n r = some (x, r')) :
    ∃ u, subText (strData F (sent (.substring a i n) r) s) start length = some u ∧
      u.length ≤ s.length ∧ ∃ c, x = .ok c ∧ g.IsCipher c u := by
  cases hsub : subText (strData F (sent (.substring a i n) r) s) start length with
  | none => simp [substring_none hs hlt ha hdi hi hdn hn hsub] at h
  | some u =>
    obtain ⟨-, hbound, hulen, -⟩ := subText_bounds hsub
    have hcmd := handleCmd_substring (g := g) (F := F) a i n r
    rw [encTextSubstring_eq (in_sent (.substring a i n) r) ha hdi hi hdn hn, if_neg hs,
      if_neg hlt.ne, plainTextSubstring, hsub, Option.bind_some] at hcmd
    obtain ⟨hx, hroom⟩ := callEncStr_of_encrypt hcmd (fun m => rfl) (by omega) h
    rw [EncStr.len, ha.length_eq] at hroom
    exact ⟨u, rfl, by omega, hx⟩

/-- A string from which a substring is returned, when the region holds a stale result. -/
theorem length_lt_of_substring (hle : s.length ≤ stringLength) (ha : g.IsCipher a s)
    (hdi : g.Decrypts i.bytes (intBytes start)) (hi : IsInt start)
    (hdn : g.Decrypts n.bytes (intBytes length)) (hn : IsInt length) {r' : OpsProcess}
    {x : Except ℤ EncStr} (h : substring g F a i n OpsProcess.stale = some (x, r')) :
    s ≠ [] ∧ s.length < stringLength := by
  have hsub := encTextSubstring_eq (F := F) (in_sent (.substring a i n) OpsProcess.stale) ha hdi hi
    hdn hn
  have hs : s ≠ [] := fun hnil => substring_stale (by rw [hsub, if_pos hnil]) x r' h
  refine ⟨hs, lt_of_le_of_ne hle fun hfull => ?_⟩
  have hcmd := handleCmd_substring (g := g) (F := F) a i n OpsProcess.stale
  rw [hsub, if_neg hs, if_pos hfull] at hcmd
  rw [substring, callEncStr_none hcmd] at h
  cases h

theorem substringUsable_of_le (hs0 : 0 ∉ s) (hs : s ≠ [])
    (hlt : s.length < stringLength) (hi : IsInt start) (hn : IsInt length) (hstart : 1 ≤ start)
    (hstart' : start ≤ s.length + 1) (hlength : 1 ≤ length) (hle : length ≤ s.length)
    (hsum : start + length ≤ stringLength + 1) : SubstringUsable g F s start length := by
  intro residue a ha i n hdi hdn r
  obtain ⟨c, r', u, hcall, hc, horder, hu, hulen⟩ := substring_cipher (F := { F with residue }) ha
    hdi hdn hs hlt hi hn hstart (by omega) hle hsum r
  have hcstring : cString u = sub s start length := by
    rw [hu, strData, List.drop_append_of_le_length (by omega), cString_take, sub]
    exact fun h => hs0 (List.mem_of_mem_drop h)
  refine .inr ⟨c, r', hcall, ?_⟩
  rw [← hcstring]
  exact usable_of_isCipher hc horder (List.ne_nil_of_length_pos (by omega)) (by omega)

/-- Numbers have ciphertexts. -/
theorem exists_cipher_int (g : Gcm) (v : ℤ) :
    ∃ i : Bytes encInt32Length, g.Decrypts i.bytes (intBytes v) :=
  g.exists_cipher (by rw [length_intBytes]; rfl)

/-- Behind the zero of the string the array holds what the stack held. -/
theorem mem_drop_strData {r : OpsProcess} {k : ℕ} {x : UInt8} (hk : s.length < k)
    (h : x ∈ (strData F r s).drop k) : ∃ j, x = F.residue r.mem r.iv.bytes j := by
  rw [strData, List.drop_append, List.drop_of_length_le hk.le, List.nil_append,
    show k - s.length = k - s.length - 1 + 1 by omega, List.drop_succ_cons] at h
  obtain ⟨j, -, rfl⟩ := List.mem_map.1 (List.mem_of_mem_drop h)
  exact ⟨_, rfl⟩

theorem substringUsable_iff (hle : s.length ≤ stringLength) (hs0 : 0 ∉ s) (hi : IsInt start)
    (hn : IsInt length) :
    SubstringUsable g F s start length ↔ s ≠ [] ∧ s.length < stringLength ∧ 1 ≤ start ∧
      start ≤ s.length + 1 ∧ 1 ≤ length ∧ length ≤ s.length ∧
      start + length ≤ stringLength + 1 := by
  constructor
  · intro h
    obtain ⟨a, ha, -⟩ := g.exists_isCipher hle
    obtain ⟨i, hdi⟩ := exists_cipher_int g start
    obtain ⟨n, hdn⟩ := exists_cipher_int g length
    -- a stack without a zero, so that stale bytes show
    set F' : FloatOps := { F with residue := fun _ _ _ => 1 } with hF'
    have hcase := h (fun _ _ _ => 1) a ha i n hdi hdn OpsProcess.stale
    obtain ⟨x, r', hdef⟩ : ∃ x r', substring g F' a i n OpsProcess.stale = some (x, r') := by
      rcases hcase with ⟨e, r', h⟩ | ⟨c, r', h, -⟩
      · exact ⟨_, _, h⟩
      · exact ⟨_, _, h⟩
    obtain ⟨hs, hlt⟩ := length_lt_of_substring hle ha hdi hi hdn hn hdef
    obtain ⟨u, hsub, hule, c, rfl, hc⟩ := substring_eq_some hs hlt ha hdi hi hdn hn hdef
    obtain ⟨hune, hcstring⟩ : u ≠ [] ∧ cString u = sub s start length := by
      rcases hcase with ⟨e, r'', h⟩ | ⟨c', r'', h, hdec, -⟩
      · cases h.symm.trans hdef
      · cases h.symm.trans hdef
        exact (decryptable_iff hc _).1 hdec
    obtain ⟨hl0, hl1, hulen, hbounds⟩ := subText_bounds hsub
    have hpos : 1 ≤ length := by
      have := List.length_pos_of_ne_nil hune
      omega
    obtain ⟨hstart, hsum⟩ := hbounds hpos
    rw [length_strData hlt] at hsum
    refine ⟨hs, hlt, hstart, ?_, hpos, by omega, hsum⟩
    by_contra hover
    rw [subText_of_le hstart hl0 hl1 (by rwa [length_strData hlt])] at hsub
    have hu0 : 0 ∉ u := by
      intro hmem
      cases hsub
      obtain ⟨j, hj⟩ := mem_drop_strData (by omega) (List.mem_of_mem_take hmem)
      cases hj
    rw [cString_eq hu0, sub, List.drop_of_length_le (by omega), List.take_nil] at hcstring
    exact hune hcstring
  · rintro ⟨hs, hlt, hstart, hstart', hlength, hle', hsum⟩
    exact substringUsable_of_le hs0 hs hlt hi hn hstart hstart' hlength hle' hsum

end Operands

/-- **Strings survive encryption** exactly within these lengths. -/
theorem text_round_trip (g : Gcm) (F : FloatOps) :
    (∀ s, 0 ∉ s → (RoundTrips g F s ↔ s ≠ [] ∧ s.length ≤ stringLength)) ∧
    (∀ s t, s.length ≤ stringLength → t.length ≤ stringLength → 0 ∉ s → 0 ∉ t →
      (ConcatUsable g F s t ↔ s ≠ [] ∧ t ≠ [] ∧ s.length + t.length < stringLength)) ∧
    ∀ s start length, s.length ≤ stringLength → 0 ∉ s → IsInt start → IsInt length →
      (SubstringUsable g F s start length ↔ s ≠ [] ∧ s.length < stringLength ∧ 1 ≤ start ∧
        start ≤ s.length + 1 ∧ 1 ≤ length ∧ length ≤ s.length ∧
        start + length ≤ stringLength + 1) :=
  ⟨fun _ h0 => roundTrips_iff h0, fun _ _ hs ht hs0 ht0 => concatUsable_iff hs ht hs0 ht0,
    fun _ _ _ hle hs0 hi hn => substringUsable_iff hle hs0 hi hn⟩

/-- The strings `"ab"` and `"c"`, their sum, and three bytes from the last one of `"hedb"` on. -/
theorem text_round_trip_abc :
    RoundTrips Gcm.identity FloatOps.null [0x61, 0x62] ∧
      ConcatUsable Gcm.identity FloatOps.null [0x61, 0x62] [0x63] ∧
      SubstringUsable Gcm.identity FloatOps.null [0x68, 0x65, 0x64, 0x62] 4 3 := by
  obtain ⟨hround, hconcat, hsub⟩ := text_round_trip Gcm.identity FloatOps.null
  exact ⟨(hround _ (by decide)).2 (by decide),
    (hconcat _ _ (by decide) (by decide) (by decide) (by decide)).2 (by decide),
    (hsub _ _ _ (by decide) (by decide) (by decide) (by decide)).2 (by decide)⟩

/-- The empty string is stored, but reading it back raises an error. -/
theorem empty_text_lost :
    ∃ c r', cstringToEnctextWithLen Gcm.identity FloatOps.null [] OpsProcess.zero =
        some (.ok c, r') ∧
      ∃ r'', encTextDecrypt Gcm.identity FloatOps.null c r' = some (.error (-1), r'') := by
  have hempty : ([] : List UInt8).length ≤ stringLength := Nat.zero_le _
  obtain ⟨c, r', hstore, hc, -⟩ := cstringToEnctextWithLen_eq (g := Gcm.identity)
    (F := FloatOps.null) hempty OpsProcess.zero
  obtain ⟨r'', hdec⟩ := encTextDecrypt_eq (F := FloatOps.null) hc r'
  exact ⟨c, r', hstore, r'', hdec⟩

end Udf

end HEDB
