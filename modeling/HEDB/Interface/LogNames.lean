import HEDB.Interface.Discovery

/-!
# Names of logs as strings

The model of a backend keeps names as strings and says when they fit (`ModeCall.Fits`). On the bytes
of the strings, `enable_record_mode` and `enable_replay_mode` leave an array exactly when the
backend faults, and otherwise they find the names that the backend has (`fault_record_iff`,
`fault_replay_iff`, `filenames_of_modeCall`).
-/

namespace HEDB

namespace Discovery

open CStrings

/-! ## The bytes of a string -/

theorem lit_append (a b : String) : lit (a ++ b) = lit a ++ lit b := by simp [lit]

theorem length_lit (a : String) : (lit a).length = a.utf8ByteSize := by simp [lit]

theorem lit_inj {a b : String} : lit a = lit b ↔ a = b := by
  refine ⟨fun h => ?_, congrArg lit⟩
  exact String.toByteArray_inj.1 (ByteArray.ext (Array.toList_inj.1 h))

/-- Prefixes of strings are prefixes of their bytes. -/
theorem lit_prefix_lit_iff (a b : String) : lit a <+: lit b ↔ a.toList <+: b.toList := by
  constructor
  · rintro ⟨rest, h⟩
    refine List.isPrefix_of_utf8Encode_append_eq_utf8Encode ⟨rest.toArray⟩ ?_
    rw [String.utf8Encode_toList, String.utf8Encode_toList]
    refine ByteArray.ext (Array.toList_inj.1 ?_)
    rw [ByteArray.data_append, Array.toList_append]
    exact h
  · rintro ⟨rest, h⟩
    have hb : b = a ++ String.ofList rest := String.toList_inj.1 (by simp [h])
    rw [hb, lit_append]
    exact List.prefix_append _ _

theorem lit_dirArg (dir : String) : lit (ModeCall.dirArg dir) = dirArg (lit dir) := by
  have hnil : lit dir = [] ↔ dir = "" := lit_inj (b := "")
  rw [ModeCall.dirArg, dirArg]
  split_ifs <;> simp_all

/-! ## The paths of the backend -/

theorem lit_recordPath (s dir : String) :
    lit (ModeCall.recordPath s dir) = recordPath (lit s) (lit dir) := by
  rw [ModeCall.recordPath, recordPath, lit_append, lit_append, lit_dirArg]

theorem map_lit_recordNames (s dir : String) (entries : List String) :
    (ModeCall.recordNames s dir (some entries)).map lit =
      logPaths (lit s) (lit dir) (entries.map lit) := by
  have hmatch : ∀ entry : String, decide ((s ++ "-").toList <+: entry.toList) =
      decide (lit s ++ lit "-" <+: lit entry) := fun entry => by
    rw [← lit_append, decide_eq_decide, lit_prefix_lit_iff]
  rw [logPaths, logs, List.filter_map, List.map_map, ModeCall.recordNames, List.map_map]
  simp only [hmatch, Function.comp_def, lit_append, lit_dirArg]

/-- Small numbers have as many digits in both models. -/
theorem length_lit_toString {n : ℕ} (h : n ≤ maxRecordsNum) :
    (lit (toString n)).length = (Printf.printD n).length := by
  have hall : ∀ n : ℕ, n < 18 → (lit (toString n)).length = (Printf.printD n).length := by
    decide +kernel
  exact hall n (Nat.lt_succ_of_le h)

theorem lit_join (l : List String) : lit (String.join l) = l.flatMap lit := by
  induction l with
  | nil => rfl
  | cons a l ih => rw [String.join_cons, lit_append, ih, List.flatMap_cons]

/-- The message has the same length in both models. -/
theorem length_lit_infoText {names : List String} (h : names.length ≤ maxRecordsNum) :
    (lit (ModeCall.infoText names)).length = infoLength (names.map lit) := by
  have h5 : (lit "find ").length = 5 := by decide
  have h13 : (lit " log file(s)\n").length = 13 := by decide
  have h2 : (lit ": ").length = 2 := by decide
  have h1 : (lit "\n").length = 1 := by decide
  have hlines : (names.zipIdx.map fun x => (lit (toString x.2 ++ ": " ++ x.1 ++ "\n")).length) =
      (List.range (names.map lit).length).map fun i : ℕ =>
        (Printf.printD i).length + 3 + ((names.map lit).getD i []).length := by
    refine List.ext_getElem (by simp) fun i hi _ => ?_
    have hi' : i < names.length := by simpa using hi
    have hdigits : (lit i.repr).length = _ := length_lit_toString (n := i) (by omega)
    simp [lit_append, hdigits, h2, h1, hi']
    omega
  rw [ModeCall.infoText, lit_append, lit_append, lit_append, lit_join, infoLength,
    List.length_append, List.length_append, List.length_append, List.length_flatMap, h5, h13,
    length_lit_toString h, List.map_map, Function.comp_def, hlines, List.length_map]
  omega

/-- **The names fit in both models at once.** -/
theorem fits_replay_iff (s dir mode : String) (entries : Option (List String)) :
    (ModeCall.replay s dir mode entries).Fits ↔
      Fits (lit s) (lit dir) (entries.map (·.map lit)) := by
  have hdash : (s ++ "-").utf8ByteSize = (lit s).length + 1 := by
    rw [← length_lit, lit_append, List.length_append]
    rfl
  rw [ModeCall.Fits, hdash]
  cases entries with
  | none =>
    refine ⟨fun h => ⟨h.1, nofun, nofun⟩, fun h => ⟨h.name_lt, Nat.zero_le _, nofun, ?_⟩⟩
    show (ModeCall.infoText []).utf8ByteSize < 256
    decide
  | some entries =>
    have hpaths := map_lit_recordNames s dir entries
    have hcnt : (ModeCall.recordNames s dir (some entries)).length =
        (logs (lit s) (entries.map lit)).length := by
      rw [← List.length_map lit, hpaths, logPaths, List.length_map]
    constructor
    · rintro ⟨hname, hle, -, hinfo⟩
      refine ⟨hname, ?_, ?_⟩ <;> rintro _ ⟨⟩
      · rwa [← hcnt]
      · rwa [← hpaths, ← length_lit_infoText hle, length_lit]
    · intro h
      have hle := hcnt ▸ h.length_le _ rfl
      have hinfo := h.info_lt _ rfl
      refine ⟨h.name_lt, hle, fun name hname => ?_, ?_⟩
      · rw [← length_lit]
        refine (length_lt_infoLength ?_).trans hinfo
        rw [← hpaths]
        exact List.mem_map_of_mem hname
      · rwa [← length_lit, length_lit_infoText hle, hpaths]

/-! ## Mode calls of the backend -/

variable {b : Backend} {s dir mode : String} {entries : Option (List String)}

/-- A call of `enable_record_mode` faults in the backend when it leaves its array. -/
theorem fault_record_iff (hs : 0 ∉ lit s) (hdir : 0 ∉ lit dir) :
    (b.modeCall (.record s dir)).1 = .fault ↔ enableRecordMode (lit s) (lit dir) = none := by
  have hfits : (ModeCall.record s dir).Fits ↔ enableRecordMode (lit s) (lit dir) ≠ none := by
    rw [enableRecordMode_ne_none_iff hs hdir, ← lit_recordPath, length_lit]
    rfl
  rw [Backend.modeCall]
  split_ifs with h
  · exact iff_of_false nofun (hfits.1 h)
  · exact iff_of_true rfl (not_not.1 (mt hfits.2 h))

section Replay

variable {tmp : List UInt8} (hs : 0 ∉ lit s) (hdir : 0 ∉ lit dir)
  (hentries : ∀ files, entries.map (·.map lit) = some files → ∀ entry ∈ files, 0 ∉ entry)
  (htmp : tmp.length = 256)

include hs hdir hentries htmp

/-- A call of `enable_replay_mode` faults in the backend when it leaves an array. -/
theorem fault_replay_iff : (b.modeCall (.replay s dir mode entries)).1 = .fault ↔
    enableReplayMode tmp (lit s) (lit dir) (entries.map (·.map lit)) = none := by
  obtain ⟨hfits, hfull⟩ := enableReplayMode_cases hs hdir hentries htmp
  rw [← fits_replay_iff s dir mode] at hfits hfull
  rw [Backend.modeCall]
  split_ifs with h
  · obtain ⟨result, hresult, -⟩ := hfits h
    rw [hresult]
    refine iff_of_false (fun hfault => ?_) (Option.some_ne_none _)
    cases entries <;> cases hfault
  · exact iff_of_true rfl (hfull h)

/-- **The replayer is given the names that the backend has.** -/
theorem filenames_of_modeCall {b' : Backend} {st : Names}
    (hcall : (b.modeCall (.replay s dir mode entries)).2 = some b')
    (hst : enableReplayMode tmp (lit s) (lit dir) (entries.map (·.map lit)) = some (.ok st)) :
    filenames st = b'.recordNames.map lit := by
  obtain ⟨hfits, -⟩ := enableReplayMode_cases hs hdir hentries htmp
  rw [← fits_replay_iff s dir mode] at hfits
  rw [Backend.modeCall] at hcall
  split_ifs at hcall with h
  obtain ⟨result, hresult, hok⟩ := hfits h
  rw [hst] at hresult
  cases hresult
  obtain ⟨files, hfiles, hcollected⟩ := hok st rfl
  cases entries with
  | none => cases hfiles
  | some entries =>
    cases hfiles
    cases hcall
    rw [hcollected.filenames_eq, ← map_lit_recordNames]
    rfl

end Replay

end Discovery

end HEDB
