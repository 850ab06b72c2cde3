import HEDB.Udf.TextResults

/-!
# Substrings as SQL has them

SQL cuts the positions that are asked for down to those of the string, and refuses a negative
length. `SubText` does neither: it copies `length` bytes from `start` on, wherever they are, and
the length of the result is the one that was asked for.

The two agree on the substrings that lie inside the string and have a byte
(`sqlSubstring_iff`). Further on there are the zero behind the string and the rest of its array, and
the ciphertext of an empty substring is one that `decrypt_bytes` refuses.
-/

namespace HEDB

namespace Udf

variable {g : Gcm} {F : FloatOps} {s : List UInt8} {start length : ℤ}

/-- The bytes of a string at the positions, counted from one, from `start` on that are less than
`start + length`. -/
def sqlSub (s : List UInt8) (start length : ℤ) : List UInt8 :=
  (s.take (min (start + length - 1) s.length).toNat).drop (max start 1 - 1).toNat

/-- A substring that lies inside the string. -/
theorem sqlSub_of_le (hstart : 1 ≤ start) (hlength : 0 ≤ length)
    (hsum : start + length ≤ s.length + 1) : sqlSub s start length = sub s start length := by
  have hend : (min (start + length - 1) s.length).toNat = (start - 1).toNat + length.toNat := by
    omega
  have hfirst : (max start 1 - 1).toNat = (start - 1).toNat := by omega
  rw [sqlSub, sub, hend, hfirst, List.drop_take, Nat.add_sub_cancel_left]

/-- **The substring of a text**: an error for a negative length, and otherwise a ciphertext that
decrypts to the bytes that SQL gives. -/
def SqlSubstring (g : Gcm) (F : FloatOps) (s : List UInt8) (start length : ℤ) : Prop :=
  ∀ a, g.IsCipher a s → ∀ i n : Bytes encInt32Length, g.Decrypts i.bytes (intBytes start) →
    g.Decrypts n.bytes (intBytes length) → ∀ r,
      (length < 0 ∧ ∃ e r', substring g F a i n r = some (.error e, r')) ∨
        ∃ c r', substring g F a i n r = some (.ok c, r') ∧
          g.decryptBytes c.cstr = (0, some (sqlSub s start length))

theorem sqlSubstring_of_inside (hs : s ≠ []) (hlt : s.length < stringLength) (hi : IsInt start)
    (hn : IsInt length) (hstart : 1 ≤ start) (hlength : 1 ≤ length)
    (hsum : start + length ≤ s.length + 1) : SqlSubstring g F s start length := by
  intro a ha i n hdi hdn r
  obtain ⟨c, r', u, hcall, hc, -, hu, hulen⟩ := substring_cipher (F := F) ha hdi hdn hs hlt hi hn
    hstart (by omega) (by omega) (by omega) r
  have hsub : u = sqlSub s start length := by
    rw [hu, sqlSub_of_le hstart (by omega) hsum, sub, strData,
      List.drop_append_of_le_length (by omega),
      List.take_append_of_le_length (by rw [List.length_drop]; omega)]
  refine .inr ⟨c, r', hcall, ?_⟩
  rw [← hsub]
  exact Gcm.decryptBytes_of_decrypts hc.decrypts (List.ne_nil_of_length_pos (by omega))

/-- **The substrings that SQL gives**: for a string of 1 to 255 bytes and any two 32-bit numbers,
those that lie inside the string and have a byte. -/
theorem sqlSubstring_iff (g : Gcm) (F : FloatOps) (s : List UInt8) (start length : ℤ) (hs : s ≠ [])
    (hle : s.length ≤ 255) (hi : IsInt start) (hn : IsInt length) :
    SqlSubstring g F s start length ↔
      1 ≤ start ∧ 1 ≤ length ∧ start + length ≤ s.length + 1 := by
  have hlt : s.length < stringLength := Nat.lt_succ_of_le hle
  constructor
  · intro h
    obtain ⟨a, ha, -⟩ := g.exists_isCipher hlt.le
    obtain ⟨i, hdi⟩ := exists_cipher_int g start
    obtain ⟨n, hdn⟩ := exists_cipher_int g length
    rcases h a ha i n hdi hdn OpsProcess.zero with ⟨hneg, e, r', herr⟩ | ⟨c, r', hok, hdec⟩
    · obtain ⟨u, hsub, -⟩ := substring_eq_some hs hlt ha hdi hi hdn hn herr
      have := (subText_bounds hsub).1
      omega
    · obtain ⟨u, hsub, -, c', hc', hcu⟩ := substring_eq_some hs hlt ha hdi hi hdn hn hok
      cases hc'
      obtain ⟨-, -, hulen, hbounds⟩ := subText_bounds hsub
      rw [hcu.decryptBytes] at hdec
      split_ifs at hdec with hnil
      · cases hdec
      · -- a result that reaches the zero behind the string is longer than that of SQL
        obtain rfl : u = sqlSub s start length := by simpa using hdec
        have hpos := List.length_pos_of_ne_nil hnil
        obtain ⟨hstart, -⟩ := hbounds (by omega)
        have hlength : 1 ≤ length := by omega
        simp only [sqlSub, List.length_drop, List.length_take] at hulen
        exact ⟨hstart, hlength, by omega⟩
  · rintro ⟨hstart, hlength, hsum⟩
    exact sqlSubstring_of_inside hs hlt hi hn hstart hlength hsum

/-- The substring `"edb"` of `"hedb"`. -/
theorem sqlSubstring_edb :
    SqlSubstring Gcm.identity FloatOps.null [0x68, 0x65, 0x64, 0x62] 2 3 ∧
      sqlSub [0x68, 0x65, 0x64, 0x62] 2 3 = [0x65, 0x64, 0x62] :=
  ⟨(sqlSubstring_iff _ _ _ _ _ (by decide) (by decide) (by decide) (by decide)).mpr (by decide),
    by decide⟩

/-- **A substring of `"hedb"` that goes over its end has the zero behind it as well**, where SQL
gives `"b"`. -/
theorem substring_over_end : ∃ a i n c r',
    Gcm.identity.IsCipher a [0x68, 0x65, 0x64, 0x62] ∧
      Gcm.identity.Decrypts i.bytes (intBytes 4) ∧ Gcm.identity.Decrypts n.bytes (intBytes 2) ∧
      substring Gcm.identity FloatOps.null a i n OpsProcess.zero = some (.ok c, r') ∧
      Gcm.identity.decryptBytes c.cstr = (0, some [0x62, 0]) ∧
      sqlSub [0x68, 0x65, 0x64, 0x62] 4 2 = [0x62] := by
  have hle : ([0x68, 0x65, 0x64, 0x62] : List UInt8).length ≤ stringLength := by decide
  obtain ⟨a, ha, -⟩ := Gcm.identity.exists_isCipher hle
  obtain ⟨i, hi⟩ := exists_cipher_int Gcm.identity 4
  obtain ⟨n, hn⟩ := exists_cipher_int Gcm.identity 2
  obtain ⟨c, r', u, hcall, hc, -, hu, -⟩ := substring_cipher (F := FloatOps.null) ha hi hn
    (by decide) (by decide) (by decide) (by decide) (by decide) (by decide) (by decide) (by decide)
    OpsProcess.zero
  obtain rfl : u = [0x62, 0] := hu
  exact ⟨a, i, n, c, r', ha, hi, hn, hcall, hc.decryptBytes, by decide⟩

end Udf

end HEDB
