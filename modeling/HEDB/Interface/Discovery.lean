import HEDB.Foundations.CStrings
import HEDB.Foundations.Printf
import HEDB.Interface.Backend

/-!
# The names of logs

`enable_record_mode` puts the path of a log into `record_name_prefix`, and `enable_replay_mode`
collects the paths of the logs of a directory in `record_names` and reports them in a message of 256
bytes. None of the arrays is checked. The names, the directory and its entries are strings of C, on
bytes.

`enable_replay_mode` finds exactly the logs of the name when this fits with its dash, there are no
more than `MAX_RECORDS_NUM` of them and the message fits; otherwise it leaves an array
(`discovery_iff`). A path that does not fit does not fit the message either.
-/

namespace HEDB

namespace Discovery

open CStrings Printf

/-! ## The functions -/

/-- `dir_arg`, with its default. -/
def dirArg (dir : List UInt8) : List UInt8 := if dir = [] then lit "/tmp" else dir

/-- An array of names after `memset`. -/
def zeros : List UInt8 := List.replicate maxNameLength 0

/-- `enable_record_mode`: the contents of `record_name_prefix`. -/
def enableRecordMode (s dir : List UInt8) : Option (List UInt8) := do
  let buf ← strcat zeros (dirArg dir)
  let buf ← strcat buf (lit "/")
  strcat buf s

/-- `record_name_prefix`, `record_names` and `records_cnt`. -/
structure Names where
  recordNamePrefix : List UInt8
  recordNames : List (List UInt8)
  recordsCnt : ℕ

/-- The path of an entry is written to a row. -/
def writePath (dir dName row : List UInt8) : Option (List UInt8) := do
  let row ← strncpy row dir
  let row ← strcat row (lit "/")
  strcat row dName

/-- The path of an entry is added to the list when the name matches. -/
def addRecord (dir : List UInt8) (st : Names) (dName : List UInt8) : Option Names :=
  if cString st.recordNamePrefix <+: dName then do
    let row ← st.recordNames[st.recordsCnt]?
    let row ← writePath dir dName row
    some { st with
      recordNames := st.recordNames.set st.recordsCnt row
      recordsCnt := st.recordsCnt + 1 }
  else some st

/-- A line of the message. -/
def infoLine (i : ℕ) (path : List UInt8) : List UInt8 := printD i ++ lit ": " ++ path ++ lit "\n"

/-- The first line of the message. -/
def infoHead (cnt : ℕ) : List UInt8 := lit "find " ++ printD cnt ++ lit " log file(s)\n"

/-- The message in `tmp`. -/
def info (tmp : List UInt8) (st : Names) : Option (List UInt8) := do
  let tmp ← sprintf tmp (infoHead st.recordsCnt)
  (List.range st.recordsCnt).foldlM (fun tmp i => do
    let row ← st.recordNames[i]?
    strcat tmp (infoLine i (cString row))) tmp

/-- The directory is searched. The entries are those that `readdir` returns; without them the
directory cannot be opened, and an error is raised. The array `tmp` is not initialised. -/
def searchDir (tmp dir : List UInt8) (entries : Option (List (List UInt8))) (buf : List UInt8) :
    Option (Except Unit Names) :=
  match entries with
  | none => some (.error ())
  | some entries => do
    let st ← entries.foldlM (addRecord dir) ⟨buf, List.replicate maxRecordsNum zeros, 0⟩
    let _ ← info tmp st
    some (.ok st)

/-- `enable_replay_mode`, up to the mode. -/
def enableReplayMode (tmp s dir : List UInt8) (entries : Option (List (List UInt8))) :
    Option (Except Unit Names) := do
  let buf ← strncpy zeros s
  let buf ← strcat buf (lit "-")
  searchDir tmp (dirArg dir) entries buf

/-- The `filenames` that `sendRequest` passes to the replayer. -/
def filenames (st : Names) : List (List UInt8) := (st.recordNames.take st.recordsCnt).map cString

/-! ## What they are for -/

/-- The path that `enable_record_mode` is to leave. -/
def recordPath (s dir : List UInt8) : List UInt8 := dirArg dir ++ lit "/" ++ s

/-- The entries that start with the name and a dash. -/
def logs (s : List UInt8) (entries : List (List UInt8)) : List (List UInt8) :=
  entries.filter fun entry => s ++ lit "-" <+: entry

/-- The paths of the logs of a name. -/
def logPaths (s dir : List UInt8) (entries : List (List UInt8)) : List (List UInt8) :=
  (logs s entries).map fun entry => dirArg dir ++ lit "/" ++ entry

/-- The length of the message about the paths. -/
def infoLength (paths : List (List UInt8)) : ℕ :=
  18 + (printD paths.length).length +
    ((List.range paths.length).map fun i : ℕ =>
      (printD i).length + 3 + (paths.getD i []).length).sum

/-- **The logs of the name are found**, without a store outside an array, unless an error is
raised. -/
def Finds (tmp s dir : List UInt8) (entries : Option (List (List UInt8))) : Prop :=
  ∃ result, enableReplayMode tmp s dir entries = some result ∧
    ∀ st, result = .ok st → ∃ files, entries = some files ∧ st.recordsCnt ≤ maxRecordsNum ∧
      filenames st = logPaths s dir files

/-- The names of a call of `enable_replay_mode` fit the arrays. -/
structure Fits (s dir : List UInt8) (entries : Option (List (List UInt8))) : Prop where
  name_lt : s.length + 1 < maxNameLength
  length_le : ∀ files, entries = some files → (logs s files).length ≤ maxRecordsNum
  info_lt : ∀ files, entries = some files → infoLength (logPaths s dir files) < 256

/-! ## Stores within the arrays -/

variable {s dir name : List UInt8}

theorem zero_not_mem_dirArg (h : 0 ∉ dir) : 0 ∉ dirArg dir := by
  unfold dirArg
  split_ifs
  · decide
  · exact h

theorem holds_zeros : Holds zeros [] := ⟨List.not_mem_nil, by decide⟩

/-- `enable_record_mode` stays within its array exactly when the path fits. -/
theorem enableRecordMode_ne_none_iff (hs : 0 ∉ s) (hdir : 0 ∉ dir) :
    enableRecordMode s dir ≠ none ↔ (recordPath s dir).length < maxNameLength := by
  have happ := (appends_strcat (zero_not_mem_dirArg hdir)).bind
    ((appends_strcat (by decide : 0 ∉ lit "/")).bind (appends_strcat hs))
  refine (happ.ne_none_iff holds_zeros).trans ?_
  rw [recordPath, List.append_assoc, List.length_nil, Nat.zero_add, zeros, List.length_replicate]

/-- What the loop has collected: the name with its dash, and the paths in the first rows of
`record_names`. The other rows are still zero. -/
structure Collected (name : List UInt8) (st : Names) (paths : List (List UInt8)) : Prop where
  holds : Holds st.recordNamePrefix name
  cnt_eq : st.recordsCnt = paths.length
  length_le : paths.length ≤ maxRecordsNum
  rows : ∃ rows, st.recordNames = rows ++ List.replicate (maxRecordsNum - paths.length) zeros ∧
    List.Forall₂ Holds rows paths

variable {st : Names} {paths : List (List UInt8)} {entry : List UInt8}

/-- The path of an entry. -/
def pathOf (dir entry : List UInt8) : List UInt8 := dir ++ (lit "/" ++ entry)

theorem Collected.cString_eq (h : Collected name st paths) :
    cString st.recordNamePrefix = name := h.holds.takeWhile_eq

theorem writePath_zeros (hdir : 0 ∉ dir) (hentry : 0 ∉ entry) :
    ((pathOf dir entry).length < maxNameLength →
      ∃ row, writePath dir entry zeros = some row ∧ Holds row (pathOf dir entry)) ∧
    (maxNameLength ≤ (pathOf dir entry).length → writePath dir entry zeros = none) := by
  have h := strncpy_bind (n := maxNameLength) hdir (by decide : 0 ∉ lit "/")
    (appends_strcat hentry)
  rw [← List.length_append, ← List.length_append, List.append_assoc] at h
  refine ⟨fun hlt => ?_, h.2⟩
  obtain ⟨row, hrow, -, hholds⟩ := h.1 hlt
  exact ⟨row, hrow, hholds⟩

theorem addRecord_of_not (h : Collected name st paths) (hentry : ¬ name <+: entry) :
    addRecord dir st entry = some st := by
  rw [addRecord, h.cString_eq, if_neg hentry]

/-- A row is left for another path, or all are used. -/
theorem Collected.next_row (h : Collected name st paths) :
    st.recordNames[st.recordsCnt]? = if paths.length < maxRecordsNum then some zeros else none := by
  obtain ⟨rows, hrows, hforall⟩ := h.rows
  rw [hrows, h.cnt_eq, ← hforall.length_eq, List.getElem?_append_right le_rfl, Nat.sub_self,
    List.getElem?_replicate]
  simp only [Nat.sub_pos_iff_lt]

/-- Another path is collected. -/
theorem Collected.push (h : Collected name st paths) (hlt : paths.length < maxRecordsNum)
    {row path : List UInt8} (hrow : Holds row path) :
    Collected name { st with
      recordNames := st.recordNames.set st.recordsCnt row
      recordsCnt := st.recordsCnt + 1 } (paths ++ [path]) := by
  obtain ⟨rows, hrows, hforall⟩ := h.rows
  obtain ⟨k, hk⟩ : ∃ k, maxRecordsNum - paths.length = k + 1 :=
    ⟨maxRecordsNum - paths.length - 1, by omega⟩
  have hk' : maxRecordsNum - (paths ++ [path]).length = k := by
    rw [List.length_append, List.length_singleton]
    omega
  refine ⟨h.holds, by simp [h.cnt_eq], by simpa using hlt, rows ++ [row], ?_,
    List.rel_append hforall (.cons hrow .nil)⟩
  show st.recordNames.set st.recordsCnt row = _
  rw [hrows, hk', h.cnt_eq, ← hforall.length_eq, List.set_append_right _ _ le_rfl, Nat.sub_self,
    hforall.length_eq, hk, List.replicate_succ, List.set_cons_zero, List.append_assoc,
    List.singleton_append]

/-- The path of an entry is added when there is a row for it and it fits the row. -/
theorem addRecord_of_matches (h : Collected name st paths) (hmatch : name <+: entry)
    (hdir : 0 ∉ dir) (hentry : 0 ∉ entry) :
    (paths.length < maxRecordsNum ∧ (pathOf dir entry).length < maxNameLength →
      ∃ st', addRecord dir st entry = some st' ∧
        Collected name st' (paths ++ [pathOf dir entry])) ∧
    (¬ (paths.length < maxRecordsNum ∧ (pathOf dir entry).length < maxNameLength) →
      addRecord dir st entry = none) := by
  obtain ⟨hfits, hfull⟩ := writePath_zeros hdir hentry
  rw [addRecord, h.cString_eq, if_pos hmatch, h.next_row]
  refine ⟨fun ⟨hlt, hpath⟩ => ?_, fun hnot => ?_⟩
  · obtain ⟨row, hrow, hholds⟩ := hfits hpath
    rw [if_pos hlt, Option.bind_eq_bind, Option.bind_some, hrow]
    exact ⟨_, rfl, h.push hlt hholds⟩
  · by_cases hlt : paths.length < maxRecordsNum
    · rw [if_pos hlt, Option.bind_eq_bind, Option.bind_some,
        hfull (not_lt.1 fun h => hnot ⟨hlt, h⟩)]
      rfl
    · rw [if_neg hlt]
      rfl

/-- The paths of the entries that match. -/
def pathsOf (name dir : List UInt8) (entries : List (List UInt8)) : List (List UInt8) :=
  (entries.filter fun entry => name <+: entry).map (pathOf dir)

/-- **The loop collects the paths of the logs**, as long as there are rows for them and they fit. -/
theorem foldlM_addRecord (hdir : 0 ∉ dir) {entries : List (List UInt8)}
    (hentries : ∀ entry ∈ entries, 0 ∉ entry) (h : Collected name st paths) :
    (paths.length + (pathsOf name dir entries).length ≤ maxRecordsNum ∧
        (∀ path ∈ pathsOf name dir entries, path.length < maxNameLength) →
      ∃ st', entries.foldlM (addRecord dir) st = some st' ∧
        Collected name st' (paths ++ pathsOf name dir entries)) ∧
    (¬ (paths.length + (pathsOf name dir entries).length ≤ maxRecordsNum ∧
        ∀ path ∈ pathsOf name dir entries, path.length < maxNameLength) →
      entries.foldlM (addRecord dir) st = none) := by
  induction entries generalizing st paths with
  | nil =>
    refine ⟨fun _ => ⟨st, rfl, by rwa [pathsOf, List.filter_nil, List.map_nil, List.append_nil]⟩,
      fun hnot => absurd ⟨h.length_le, fun path hpath => absurd hpath List.not_mem_nil⟩ hnot⟩
  | cons entry entries ih =>
    have hentry := hentries entry List.mem_cons_self
    have hrest : ∀ entry ∈ entries, 0 ∉ entry := fun e he => hentries e (List.mem_cons_of_mem _ he)
    rw [List.foldlM_cons]
    by_cases hmatch : name <+: entry
    · have hpaths : pathsOf name dir (entry :: entries) =
          pathOf dir entry :: pathsOf name dir entries := by
        rw [pathsOf, List.filter_cons_of_pos (by simpa using hmatch), List.map_cons, pathsOf]
      obtain ⟨hadd, hnone⟩ := addRecord_of_matches h hmatch hdir hentry
      rw [hpaths, List.length_cons, List.forall_mem_cons]
      by_cases hfits : paths.length < maxRecordsNum ∧ (pathOf dir entry).length < maxNameLength
      · obtain ⟨st', hst', hcollected⟩ := hadd hfits
        have ih := ih hrest hcollected
        rw [List.length_append, List.length_singleton, List.append_assoc, List.singleton_append]
          at ih
        rw [hst', Option.bind_eq_bind, Option.bind_some]
        exact ⟨fun hall => ih.1 ⟨by omega, hall.2.2⟩,
          fun hnot => ih.2 fun hall => hnot ⟨by omega, hfits.2, hall.2⟩⟩
      · rw [hnone hfits]
        exact ⟨fun hall => absurd ⟨by omega, hall.2.1⟩ hfits, fun _ => rfl⟩
    · have hpaths : pathsOf name dir (entry :: entries) = pathsOf name dir entries := by
        rw [pathsOf, List.filter_cons_of_neg (by simpa using hmatch), pathsOf]
      rw [addRecord_of_not h hmatch, hpaths, Option.bind_eq_bind, Option.bind_some]
      exact ih hrest h

/-! ## The message -/

theorem zero_not_mem_printD (n : ℤ) : 0 ∉ printD n := by
  intro h
  rcases mem_printD h with h | ⟨d, hd, h⟩
  · exact absurd h (by decide)
  · interval_cases d <;> exact absurd h (by decide)

theorem zero_not_mem_infoHead (cnt : ℕ) : 0 ∉ infoHead cnt := by
  simp only [infoHead, List.mem_append, not_or]
  exact ⟨⟨by decide, zero_not_mem_printD _⟩, by decide⟩

theorem zero_not_mem_infoLine {path : List UInt8} (h : 0 ∉ path) (i : ℕ) : 0 ∉ infoLine i path := by
  simp only [infoLine, List.mem_append, not_or]
  exact ⟨⟨⟨zero_not_mem_printD _, by decide⟩, h⟩, by decide⟩

theorem length_infoHead (cnt : ℕ) : (infoHead cnt).length = 18 + (printD cnt).length := by
  have h5 : (lit "find ").length = 5 := by decide
  have h13 : (lit " log file(s)\n").length = 13 := by decide
  rw [infoHead, List.length_append, List.length_append, h5, h13]
  omega

theorem length_infoLine (i : ℕ) (path : List UInt8) :
    (infoLine i path).length = (printD i).length + 3 + path.length := by
  have h2 : (lit ": ").length = 2 := by decide
  have h1 : (lit "\n").length = 1 := by decide
  rw [infoLine, List.length_append, List.length_append, List.length_append, h2, h1]
  omega

theorem length_infoHead_lt {cnt : ℕ} (h : cnt ≤ maxRecordsNum) : (infoHead cnt).length < 256 := by
  have hdigits := length_printD_le (v := cnt) (by rw [maxRecordsNum] at h; omega)
  rw [length_infoHead]
  omega

/-- The row of a path. -/
theorem Collected.getElem? (h : Collected name st paths) {i : ℕ} (hi : i < paths.length) :
    ∃ row, st.recordNames[i]? = some row ∧ Holds row (paths.get ⟨i, hi⟩) := by
  obtain ⟨rows, hrows, hforall⟩ := h.rows
  have hi' : i < rows.length := hforall.length_eq ▸ hi
  refine ⟨rows.get ⟨i, hi'⟩, ?_, hforall.get hi' hi⟩
  rw [hrows, List.getElem?_append_left hi', List.getElem?_eq_getElem hi']
  rfl

/-- The lines of the message. -/
def infoLines (paths : List (List UInt8)) : List UInt8 :=
  (List.range paths.length).flatMap fun i => infoLine i (paths.getD i [])

theorem infoLength_eq (paths : List (List UInt8)) :
    infoLength paths = (infoHead paths.length).length + (infoLines paths).length := by
  rw [infoLines, List.length_flatMap, length_infoHead, infoLength]
  simp only [length_infoLine]

/-- The message is written exactly when it fits. -/
theorem info_ne_none_iff (h : Collected name st paths) {tmp : List UInt8}
    (htmp : tmp.length = 256) : info tmp st ≠ none ↔ infoLength paths < 256 := by
  have hlines : Appends (fun tmp => (List.range paths.length).foldlM (fun tmp i => do
      let row ← st.recordNames[i]?
      strcat tmp (infoLine i (cString row))) tmp) (infoLines paths) := by
    refine appends_foldlM fun i hi => ?_
    have hi := List.mem_range.1 hi
    obtain ⟨row, hrow, hholds⟩ := h.getElem? hi
    have hpath : cString row = paths.getD i [] := by
      rw [List.getD_eq_getElem?_getD, List.getElem?_eq_getElem hi]
      exact hholds.takeWhile_eq
    have h0 : 0 ∉ paths.getD i [] := by
      rw [← hpath, show cString row = _ from hholds.takeWhile_eq]
      exact hholds.zero_not_mem
    simp only [hrow, Option.bind_eq_bind, Option.bind_some, hpath]
    exact appends_strcat (zero_not_mem_infoLine h0 i)
  have hhead : (infoHead paths.length).length < tmp.length := by
    rw [htmp]
    exact length_infoHead_lt h.length_le
  obtain ⟨tmp', htmp', hlen, hholds⟩ := sprintf_of_lt (zero_not_mem_infoHead _) hhead
  rw [info, h.cnt_eq, htmp']
  refine (hlines.ne_none_iff hholds).trans ?_
  rw [hlen, htmp, infoLength_eq]

/-! ## Finding the logs -/

theorem Collected.filenames_eq (h : Collected name st paths) : filenames st = paths := by
  obtain ⟨rows, hrows, hforall⟩ := h.rows
  rw [filenames, hrows, h.cnt_eq, ← hforall.length_eq, List.take_left]
  have hmap : List.Forall₂ (fun row path => cString row = path) rows paths :=
    hforall.imp fun _ _ hrow => hrow.takeWhile_eq
  rwa [← List.forall₂_map_left_iff, List.forall₂_eq_eq_eq] at hmap

theorem logPaths_eq (s dir : List UInt8) (entries : List (List UInt8)) :
    logPaths s dir entries = pathsOf (s ++ lit "-") (dirArg dir) entries := by
  rw [logPaths, logs, pathsOf]
  exact List.map_congr_left fun entry _ => List.append_assoc ..

/-- A path that fits the message fits its row. -/
theorem length_lt_infoLength {path : List UInt8} (h : path ∈ paths) :
    path.length < infoLength paths := by
  obtain ⟨i, hi, rfl⟩ := List.getElem_of_mem h
  have hmem : (printD i).length + 3 + (paths.getD i []).length ∈
      (List.range paths.length).map fun i : ℕ => (printD i).length + 3 + (paths.getD i []).length :=
    List.mem_map_of_mem (List.mem_range.2 hi)
  have hle := List.le_sum_of_mem hmem
  have hget : paths.getD i [] = paths[i] := by
    rw [List.getD_eq_getElem?_getD, List.getElem?_eq_getElem hi]
    rfl
  rw [hget] at hle
  rw [infoLength]
  omega

/-- The search of a directory succeeds exactly when the paths and the message fit, and then it has
collected the paths. -/
theorem searchDir_cases (hdir : 0 ∉ dir) {files : List (List UInt8)}
    (hfiles : ∀ entry ∈ files, 0 ∉ entry) {tmp buf : List UInt8} (htmp : tmp.length = 256)
    (hbuf : Holds buf name) :
    ((pathsOf name dir files).length ≤ maxRecordsNum ∧ infoLength (pathsOf name dir files) < 256 →
      ∃ st, searchDir tmp dir (some files) buf = some (.ok st) ∧
        Collected name st (pathsOf name dir files)) ∧
    (¬ ((pathsOf name dir files).length ≤ maxRecordsNum ∧
        infoLength (pathsOf name dir files) < 256) →
      searchDir tmp dir (some files) buf = none) := by
  have hstart : Collected name ⟨buf, List.replicate maxRecordsNum zeros, 0⟩ [] :=
    ⟨hbuf, rfl, Nat.zero_le _, [], rfl, .nil⟩
  obtain ⟨hsome, hnone⟩ := foldlM_addRecord hdir hfiles hstart
  rw [List.length_nil, Nat.zero_add, List.nil_append] at hsome
  rw [List.length_nil, Nat.zero_add] at hnone
  rw [searchDir]
  by_cases hrows : (pathsOf name dir files).length ≤ maxRecordsNum ∧
      ∀ path ∈ pathsOf name dir files, path.length < maxNameLength
  · obtain ⟨st, hst, hcollected⟩ := hsome hrows
    have hinfo := info_ne_none_iff hcollected htmp
    rw [hst, Option.bind_eq_bind, Option.bind_some]
    refine ⟨fun hfits => ?_, fun hnot => ?_⟩
    · obtain ⟨tmp', htmp'⟩ := Option.ne_none_iff_exists'.1 (hinfo.2 hfits.2)
      rw [htmp']
      exact ⟨st, rfl, hcollected⟩
    · have hnone : info tmp st = none := by
        by_contra hne
        exact hnot ⟨hrows.1, hinfo.1 hne⟩
      rw [hnone]
      rfl
  · refine ⟨fun hfits => absurd ?_ hrows, fun _ => ?_⟩
    · exact ⟨hfits.1, fun path hpath => (length_lt_infoLength hpath).trans hfits.2⟩
    · rw [hnone hrows]
      rfl

/-- **`enable_replay_mode` stays within its arrays exactly when the names fit**, and then it has
collected the paths of the logs. -/
theorem enableReplayMode_cases {tmp : List UInt8} {entries : Option (List (List UInt8))}
    (hs : 0 ∉ s) (hdir : 0 ∉ dir)
    (hentries : ∀ files, entries = some files → ∀ entry ∈ files, 0 ∉ entry)
    (htmp : tmp.length = 256) :
    (Fits s dir entries → ∃ result, enableReplayMode tmp s dir entries = some result ∧
      ∀ st, result = .ok st → ∃ files, entries = some files ∧
        Collected (s ++ lit "-") st (logPaths s dir files)) ∧
    (¬ Fits s dir entries → enableReplayMode tmp s dir entries = none) := by
  have hreplay : enableReplayMode tmp s dir entries =
      ((strncpy zeros s).bind fun buf => (strcat buf (lit "-")).bind some).bind
        (searchDir tmp (dirArg dir) entries) := by
    simp only [enableReplayMode, Option.bind_eq_bind, Option.bind_assoc, Option.bind_some]
  obtain ⟨hname, hnone⟩ := strncpy_bind (n := maxNameLength) hs (by decide : 0 ∉ lit "-")
    appends_some
  rw [List.append_nil, List.length_nil, Nat.add_zero] at hname
  rw [List.length_nil, Nat.add_zero] at hnone
  rw [hreplay, zeros]
  rcases Nat.lt_or_ge (s.length + 1) maxNameLength with hlt | hge
  · obtain ⟨buf, hbuf, -, hholds⟩ := hname hlt
    rw [hbuf, Option.bind_some]
    cases entries with
    | none =>
      exact ⟨fun _ => ⟨.error (), rfl, nofun⟩, fun hnot => absurd ⟨hlt, nofun, nofun⟩ hnot⟩
    | some files =>
      obtain ⟨hfits, hfull⟩ := searchDir_cases (zero_not_mem_dirArg hdir)
        (hentries files rfl) htmp hholds
      have hcnt : (pathsOf (s ++ lit "-") (dirArg dir) files).length = (logs s files).length :=
        List.length_map _
      rw [← logPaths_eq] at hfits hfull hcnt
      rw [hcnt] at hfits hfull
      refine ⟨fun h => ?_, fun hnot => hfull fun h => hnot ⟨hlt, ?_, ?_⟩⟩
      · obtain ⟨st, hst, hcollected⟩ := hfits ⟨h.length_le files rfl, h.info_lt files rfl⟩
        refine ⟨.ok st, hst, ?_⟩
        rintro _ ⟨⟩
        exact ⟨files, rfl, hcollected⟩
      · rintro _ ⟨⟩
        exact h.1
      · rintro _ ⟨⟩
        exact h.2
  · rw [hnone hge, Option.bind_none]
    exact ⟨fun h => absurd h.name_lt (not_lt.2 hge), fun _ => rfl⟩

/-- **The logs are found exactly when the names fit**, and `enable_record_mode` stays within its
array exactly when the path does. -/
theorem discovery_iff (s dir tmp : List UInt8) (entries : Option (List (List UInt8)))
    (hs : 0 ∉ s) (hdir : 0 ∉ dir)
    (hentries : ∀ files, entries = some files → ∀ entry ∈ files, 0 ∉ entry)
    (htmp : tmp.length = 256) :
    (enableRecordMode s dir ≠ none ↔ (dirArg dir).length + 1 + s.length < maxNameLength) ∧
    (Finds tmp s dir entries ↔ Fits s dir entries) := by
  constructor
  · rw [enableRecordMode_ne_none_iff hs hdir, recordPath, List.length_append, List.length_append]
    rfl
  obtain ⟨hfits, hfull⟩ := enableReplayMode_cases hs hdir hentries htmp
  constructor
  · rintro ⟨result, hresult, -⟩
    by_contra hnot
    rw [hfull hnot] at hresult
    cases hresult
  · intro h
    obtain ⟨result, hresult, hok⟩ := hfits h
    refine ⟨result, hresult, fun st hst => ?_⟩
    obtain ⟨files, hfiles, hcollected⟩ := hok st hst
    exact ⟨files, hfiles, hcollected.cnt_eq ▸ hcollected.length_le, hcollected.filenames_eq⟩

/-- Two logs and another file in `/tmp`. -/
theorem finds_two : Fits (lit "q1") [] (some [lit "q1-7.log", lit "q2-7.log", lit "q1-8.log"]) ∧
    Finds (List.replicate 256 0xff) (lit "q1") []
      (some [lit "q1-7.log", lit "q2-7.log", lit "q1-8.log"]) := by
  have hfits : Fits (lit "q1") [] (some [lit "q1-7.log", lit "q2-7.log", lit "q1-8.log"]) := by
    refine ⟨by decide, ?_, ?_⟩ <;> rintro _ ⟨⟩ <;> decide +kernel
  refine ⟨hfits, (discovery_iff (lit "q1") [] (List.replicate 256 0xff) _ (by decide) (by decide)
    ?_ List.length_replicate).2.2 hfits⟩
  rintro _ ⟨⟩
  decide

/-- **An eighteenth log is stored behind `record_names`**, the message about nine logs of usual
names leaves its array, and a long name leaves `record_name_prefix` in both functions. -/
theorem discovery_overruns :
    ¬ Finds (List.replicate 256 0) [] (lit "/")
      (some ((List.range 18).map fun i => lit "-" ++ [0x41 + UInt8.ofNat i])) ∧
    ¬ Finds (List.replicate 256 0) (lit "tpch-q1") []
      (some ((List.range 9).map fun i => lit "tpch-q1-10000" ++ [0x30 + UInt8.ofNat i] ++
        lit ".log")) ∧
    ¬ Finds (List.replicate 256 0) (List.replicate 255 0x61) [] (some []) ∧
    enableRecordMode (List.replicate 251 0x61) [] = none := by
  have hfault : ∀ {tmp s dir entries}, (enableReplayMode tmp s dir entries).isNone = true →
      ¬ Finds tmp s dir entries := by
    rintro tmp s dir entries hnone ⟨result, hresult, -⟩
    rw [hresult] at hnone
    cases hnone
  exact ⟨hfault (by decide +kernel), hfault (by decide +kernel), hfault (by decide +kernel),
    by decide +kernel⟩

end Discovery

end HEDB
