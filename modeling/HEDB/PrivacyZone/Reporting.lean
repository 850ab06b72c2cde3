import HEDB.PrivacyZone.Crypto
import HEDB.Utils.PrintHex

/-!
# Reports of failed decryptions

When a ciphertext does not authenticate, `decrypt_bytes` hands the source and the destination to
`print_hex`, which builds a dump of each on the stack. The dump of the source is the longer one. It
fits into its array exactly when the source has at most 105 bytes (`report_iff`); with a longer one
the behaviour is undefined. Ciphertexts of numbers and timestamps are shorter, those of texts need
not be (`long_report_overruns`).
-/

namespace HEDB

namespace Gcm

open CStrings PrintHex

variable (g : Gcm)

/-- The calls of `print_hex`, from what the stack holds where their arrays are. -/
def report (src out : List UInt8) (tmp tmp' : Bytes tmpSize) : Option Unit := do
  let _ ← printHex (lit "dec from ") src tmp.bytes
  let _ ← printHex (lit "dec to ") out tmp'.bytes

/-- `decrypt_bytes` with its report. -/
def decryptBytesReporting (src : List UInt8) (tmp tmp' : Bytes tmpSize) :
    Option (ℤ × Option (List UInt8)) :=
  if src.length ≤ ivSize + tagSize then some (-1, none)
  else
    let x := g.gcmDecrypt src
    if x.1 ≠ 0 then (report src x.2 tmp tmp').map fun _ => (x.1, some x.2)
    else some (x.1, some x.2)

/-- The longest source whose report fits. -/
def reportMax : ℕ := 105

/-- `decrypt_bytes` returns: it succeeds, or its report fits. -/
def Reported (src : List UInt8) : Prop := (g.decryptBytes src).1 = 0 ∨ src.length ≤ reportMax

instance (src : List UInt8) : Decidable (g.Reported src) := inferInstanceAs (Decidable (_ ∨ _))

/-- A stack of zeros. -/
def zeroStack : Bytes tmpSize := ⟨List.replicate tmpSize 0, List.length_replicate⟩

variable {g} {src out : List UInt8} {tmp tmp' : Bytes tmpSize}

theorem length_gcmDecrypt_le (src : List UInt8) :
    (g.gcmDecrypt src).2.length ≤ src.length := by
  rw [gcmDecrypt, g.length_output, List.length_drop]
  exact Nat.sub_le ..

/-- The dump of the source fits exactly up to 105 bytes. -/
theorem printHex_source_ne_none_iff :
    printHex (lit "dec from ") src tmp.bytes ≠ none ↔ src.length ≤ reportMax := by
  rw [printHex_ne_none_iff (by decide), tmp.size, show (lit "dec from ").length = 9 by decide,
    dumpLength, reportMax, tmpSize]
  split_ifs <;> omega

/-- The dump of the destination fits whenever that of the source does. -/
theorem printHex_destination_ne_none (h : src.length ≤ reportMax) (hout : out.length ≤ src.length) :
    printHex (lit "dec to ") out tmp.bytes ≠ none := by
  have hlen : out.length ≤ reportMax := hout.trans h
  rw [printHex_ne_none_iff (by decide), tmp.size, show (lit "dec to ").length = 7 by decide,
    dumpLength, tmpSize]
  rw [reportMax] at hlen
  split_ifs <;> omega

theorem report_eq (h : src.length ≤ reportMax) (hout : out.length ≤ src.length) :
    report src out tmp tmp' = some () := by
  have hsource : printHex (lit "dec from ") src tmp.bytes ≠ none :=
    printHex_source_ne_none_iff.2 h
  have hdestination : printHex (lit "dec to ") out tmp'.bytes ≠ none :=
    printHex_destination_ne_none h hout
  obtain ⟨a, ha⟩ := Option.ne_none_iff_exists'.1 hsource
  obtain ⟨b, hb⟩ := Option.ne_none_iff_exists'.1 hdestination
  rw [report, ha, hb]
  rfl

theorem report_eq_none (h : reportMax < src.length) :
    report src out tmp tmp' = none := by
  have hnone : printHex (lit "dec from ") src tmp.bytes = none := by
    by_contra hne
    exact absurd (printHex_source_ne_none_iff.1 hne) (not_le.2 h)
  rw [report, hnone]
  rfl

/-- Without a report, and with one that fits, `decrypt_bytes` is what `decryptBytes` says. -/
theorem decryptBytesReporting_eq (h : (g.gcmDecrypt src).1 = 0 ∨ src.length ≤ reportMax) :
    g.decryptBytesReporting src tmp tmp' = some (g.decryptBytes src) := by
  unfold decryptBytesReporting decryptBytes
  by_cases hshort : src.length ≤ ivSize + tagSize
  · rw [if_pos hshort, if_pos hshort]
  · rw [if_neg hshort, if_neg hshort]
    by_cases hresp : (g.gcmDecrypt src).1 = 0
    · exact if_neg (not_not.2 hresp)
    · rw [if_pos hresp, report_eq (h.resolve_left hresp) (length_gcmDecrypt_le src),
        Option.map_some]

/-- A report that does not fit is undefined behaviour. -/
theorem decryptBytesReporting_eq_none (h : (g.gcmDecrypt src).1 ≠ 0)
    (hlong : reportMax < src.length) : g.decryptBytesReporting src tmp tmp' = none := by
  have hmin : ¬ src.length ≤ ivSize + tagSize := by
    simp only [reportMax, ivSize, tagSize] at hlong ⊢
    omega
  rw [decryptBytesReporting, if_neg hmin]
  dsimp only
  rw [if_pos h, report_eq_none hlong, Option.map_none]

/-- What `decrypt_bytes` does does not depend on what the stack holds. -/
theorem decryptBytesReporting_eq_ite : g.decryptBytesReporting src tmp tmp' =
    if g.Reported src then some (g.decryptBytes src) else none := by
  by_cases hshort : src.length ≤ ivSize + tagSize
  · have hle : src.length ≤ reportMax := hshort.trans (by decide)
    rw [decryptBytesReporting_eq (.inr hle), if_pos (.inr hle)]
  · have hcode : (g.decryptBytes src).1 = (g.gcmDecrypt src).1 := by
      rw [decryptBytes, if_neg hshort]
    by_cases h : g.Reported src
    · rw [if_pos h]
      rw [Reported, hcode] at h
      exact decryptBytesReporting_eq h
    · rw [if_neg h]
      rw [Reported, hcode] at h
      exact decryptBytesReporting_eq_none (not_or.1 h).1 (not_le.1 (not_or.1 h).2)

/-- **A bad ciphertext is reported safely exactly when it has at most 105 bytes**: then
`decrypt_bytes` returns the error code, and the dumps of the source and of the destination fit into
their arrays, whatever the stack holds. -/
theorem report_iff (g : Gcm) {src : List UInt8} (hmin : 29 ≤ src.length)
    (hfail : (g.gcmDecrypt src).1 ≠ 0) (tmp tmp' : Bytes tmpSize) :
    (g.decryptBytesReporting src tmp tmp' =
        some ((g.gcmDecrypt src).1, some (g.gcmDecrypt src).2) ↔ src.length ≤ reportMax) ∧
      (printHex (lit "dec from ") src tmp.bytes ≠ none ∧
        printHex (lit "dec to ") (g.gcmDecrypt src).2 tmp'.bytes ≠ none ↔
          src.length ≤ reportMax) := by
  have hreturns : g.decryptBytes src = ((g.gcmDecrypt src).1, some (g.gcmDecrypt src).2) :=
    if_neg (not_le.2 hmin)
  refine ⟨⟨fun h => ?_, fun h => ?_⟩, fun h => printHex_source_ne_none_iff.1 h.1, fun h => ?_⟩
  · by_contra hlong
    rw [decryptBytesReporting_eq_none hfail (not_le.1 hlong)] at h
    exact nomatch h
  · rw [decryptBytesReporting_eq (.inr h), hreturns]
  · exact ⟨printHex_source_ne_none_iff.2 h,
      printHex_destination_ne_none h (length_gcmDecrypt_le src)⟩

theorem report_forged : (identity.gcmDecrypt (List.replicate reportMax 1)).1 ≠ 0 ∧
    identity.decryptBytesReporting (List.replicate reportMax 1) zeroStack zeroStack =
      some (-0x12, some (List.replicate 77 1)) := by
  have hfail : (identity.gcmDecrypt (List.replicate reportMax 1)).1 ≠ 0 := by decide +kernel
  refine ⟨hfail, ((report_iff identity ?_ hfail zeroStack zeroStack).1.2 ?_).trans ?_⟩
  · decide +kernel
  · decide +kernel
  · decide +kernel

/-- **A forged text ciphertext of 106 bytes is not reported**: the dump of the source does not fit
into its array. -/
theorem long_report_overruns : (identity.gcmDecrypt (List.replicate 106 1)).1 = -0x12 ∧
    printHex (lit "dec from ") (List.replicate 106 1) zeroStack.bytes = none ∧
    identity.decryptBytesReporting (List.replicate 106 1) zeroStack zeroStack = none := by
  have hcode : (identity.gcmDecrypt (List.replicate 106 1)).1 = -0x12 := by decide +kernel
  refine ⟨hcode, ?_, ?_⟩
  · by_contra hne
    exact absurd (printHex_source_ne_none_iff.1 hne) (by decide)
  · refine decryptBytesReporting_eq_none ?_ (by decide)
    rw [hcode]
    decide

end Gcm

end HEDB
