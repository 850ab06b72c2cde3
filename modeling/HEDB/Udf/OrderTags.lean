import HEDB.Foundations.Ranks
import HEDB.Foundations.Simulation
import HEDB.Foundations.System
import HEDB.Udf.Comparison

/-!
# Order tags in a database

`enc_text_add_order` ranks the distinct values of one column and stores in every row the rank of its
value as the order tag. Comparisons of two tagged values then look at the tags only.

A database is a family of columns, and its runs are sequences of insertions of fresh values and of
calls of `enc_text_add_order`. In every run the tags of a column are the ranks of its strings in the
last ranking of this column (`columnInv_of_follows`), so within a column tags never mislead. Two
columns are ranked apart: all comparisons are right exactly when the strings fit and of any two
rankings one is the beginning of the other (`comparesRight_iff`).
-/

namespace HEDB

namespace Udf

/-! ## The database -/

/-- The rows of every `enc_text` column of every table. -/
abbrev Db (κ : Type) : Type := κ → List EncStr

/-- What happens to a database. -/
inductive DbEvent (κ : Type)
  /-- A new row with a freshly encrypted string. -/
  | insert (k : κ) (s : List UInt8)
  /-- `enc_text_add_order` on a column, with the values of `o_res` in their order. -/
  | addOrder (k : κ) (res : List EncStr)

section Model

variable (g : Gcm) (F : FloatOps)

/-- The operator returns true. -/
def Holds (op : EncStr → EncStr → OpsProcess → Option (Outcome Bool)) (a b : EncStr) : Prop :=
  ∀ r, ∃ r', op a b r = some (.ok true, r')

/-- `o_res`: the distinct values of the column, ordered by the operators. A rank that is not an
`int4` raises an error. -/
structure IsRanking (col res : List EncStr) : Prop where
  subset : ∀ x ∈ res, x ∈ col
  covers : ∀ y ∈ col, ∃ x ∈ res, Holds (encTextEq g F) x y
  sorted : res.Pairwise (Holds (encTextLt g F))
  int4 : res.length < 2 ^ 31

/-- The new value of a row: an equal value of `o_res`, with its row number as the tag. -/
def Updates (res : List EncStr) (y y' : EncStr) : Prop :=
  ∃ (i : ℕ) (x : EncStr),
    res[i]? = some x ∧ Holds (encTextEq g F) x y ∧ y' = encTextSetOrder x (i + 1)

variable {κ : Type} [DecidableEq κ]

/-- The steps of a database. A call that raises an error changes nothing. -/
inductive DbStep : Db κ → DbEvent κ → Db κ → Prop
  | insert {db : Db κ} (k : κ) {s : List UInt8} {c : EncStr} {r r' : OpsProcess} (h0 : 0 ∉ s)
      (hc : cstringToEnctextWithLen g F s r = some (.ok c, r')) :
      DbStep db (.insert k s) (Function.update db k (db k ++ [c]))
  | addOrder {db : Db κ} (k : κ) {res rows : List EncStr} (hres : IsRanking g F (db k) res)
      (hrows : List.Forall₂ (Updates g F res) (db k) rows) :
      DbStep db (.addOrder k res) (Function.update db k rows)

/-- The string of a stored value. -/
def text (a : EncStr) : List UInt8 := (g.gcmDecrypt a.cstr).2

/-- What an event does to the last rankings of the columns. -/
def track (rank : κ → List (List UInt8)) : DbEvent κ → κ → List (List UInt8)
  | .insert _ _ => rank
  | .addOrder k res => Function.update rank k (res.map (text g))

/-- The strings of the last ranking of every column, in their order. -/
def ranking (es : List (DbEvent κ)) : κ → List (List UInt8) := es.foldl (track g) fun _ => []

/-- **All comparisons of stored values agree with their strings.** -/
def ComparesRight (db : Db κ) : Prop :=
  ∀ k l, ∀ a ∈ db k, ∀ b ∈ db l, ComparesAs g F a b (text g a) (text g b)

/-- The strings of all values can be compared by the privacy zone. -/
def AllFit (db : Db κ) : Prop :=
  ∀ k, ∀ a ∈ db k, text g a ≠ [] ∧ (text g a).length < stringLength

end Model

variable {g : Gcm} {F : FloatOps} {a b c : EncStr} {s t : List UInt8}

theorem text_eq (h : g.IsCipher a s) : text g a = s := congrArg Prod.snd h.decrypts

/-! ## One column -/

/-- The value stores its string, without a tag or with the rank of the string. -/
structure Stored (g : Gcm) (rank : List (List UInt8)) (a : EncStr) : Prop where
  isCipher : g.IsCipher a (text g a)
  noZero : 0 ∉ text g a
  tag : a.order ≠ orderNone → ∃ i : ℕ, rank[i]? = some (text g a) ∧ a.order.toNat = i + 1

/-- **The tags of a column are the ranks of its strings** in a sorted list of strings, all of which
are in the column. -/
structure ColumnInv (g : Gcm) (rows : List EncStr) (rank : List (List UInt8)) : Prop where
  stored : ∀ a ∈ rows, Stored g rank a
  sorted : rank.Pairwise (· < ·)
  fits : ∀ s ∈ rank, s ≠ [] ∧ s.length < stringLength
  present : ∀ (i : ℕ) (s : List UInt8), rank[i]? = some s → ∃ a ∈ rows,
    a.order.toNat = i + 1 ∧ text g a = s

theorem columnInv_nil : ColumnInv g [] [] where
  stored a ha := absurd ha List.not_mem_nil
  sorted := .nil
  fits s hs := absurd hs List.not_mem_nil
  present i s h := by simp at h

/-- Tags that are ranks in one sorted list are in the order of the strings. -/
theorem Stored.orders {rank : List (List UInt8)} (hrank : rank.Pairwise (· < ·))
    (ha : Stored g rank a) (hb : Stored g rank b) (htag : Tagged a b) :
    Orders (text g a) (text g b) (a.order < b.order) (a.order = b.order) (b.order < a.order) := by
  obtain ⟨i, hi, hia⟩ := ha.tag htag.1
  obtain ⟨j, hj, hjb⟩ := hb.tag htag.2
  constructor
  · rw [UInt32.lt_iff_toNat_lt, hia, hjb, ← rank_lt_iff hrank hi hj]
    omega
  · rw [← UInt32.toNat_inj, hia, hjb, ← rank_eq_iff hrank hi hj]
    omega
  · rw [UInt32.lt_iff_toNat_lt, hia, hjb, ← rank_lt_iff hrank hj hi]
    omega

section Column

variable {rows res : List EncStr} {rank : List (List UInt8)}

/-- A comparison within a column that returns true is right, and its right operand fits. -/
theorem ColumnInv.of_holds (h : ColumnInv g rows rank) (ha : a ∈ rows) (hb : b ∈ rows)
    {fast : UInt32 → UInt32 → Bool} {slow : ℤ → Bool} {P : Prop}
    (hop : Holds (compareBy g F fast slow) a b)
    (hfast : Orders (text g a) (text g b) (a.order < b.order) (a.order = b.order)
    (b.order < a.order) →
      (fast a.order b.order = true ↔ P))
    (hslow : ∀ ans : ℤ, Orders (text g a) (text g b) (ans < 0) (ans = 0) (0 < ans) →
      (slow ans = true ↔ P)) :
    P ∧ text g b ≠ [] ∧ (text g b).length < stringLength := by
  obtain ⟨r', hr'⟩ := hop OpsProcess.zero
  have hsa := h.stored a ha
  have hsb := h.stored b hb
  rcases compareBy_ok hsa.isCipher hsb.isCipher hr' with ⟨htag, hv⟩ | ⟨-, hfits, hv⟩
  · obtain ⟨j, hj, -⟩ := hsb.tag htag.2
    exact ⟨(hfast (hsa.orders h.sorted hsb htag)).1 hv.symm, h.fits _ (List.mem_of_getElem? hj)⟩
  · have ho := orders_strcmp hsa.noZero hsb.noZero
    rw [plainTextCmp_eq hsa.noZero hsb.noZero] at hv
    exact ⟨(hslow _ ho).1 hv.symm, hfits.right_ne, hfits.right_lt⟩

theorem ColumnInv.of_holds_eq (h : ColumnInv g rows rank) (ha : a ∈ rows) (hb : b ∈ rows)
    (hop : Holds (encTextEq g F) a b) :
    text g a = text g b ∧ text g b ≠ [] ∧ (text g b).length < stringLength :=
  h.of_holds ha hb hop (fun ho => by simp [ho.eq_iff]) fun ans ho => by simp [← ho.eq_iff]

theorem ColumnInv.of_holds_lt (h : ColumnInv g rows rank) (ha : a ∈ rows) (hb : b ∈ rows)
    (hop : Holds (encTextLt g F) a b) : text g a < text g b :=
  (h.of_holds ha hb hop (fun ho => by simp [ho.lt_iff]) fun ans ho => by simp [← ho.lt_iff]).1

/-- **A new row has no tag.** -/
theorem ColumnInv.insert (h : ColumnInv g rows rank) (h0 : 0 ∉ s) {r r' : OpsProcess}
    (hc : cstringToEnctextWithLen g F s r = some (.ok c, r')) : ColumnInv g (rows ++ [c]) rank := by
  have hlen : s.length ≤ stringLength := by
    by_contra hlen
    rw [cstringToEnctextWithLen, dif_neg hlen] at hc
    cases hc
  obtain ⟨c', r₁, hc', hcipher, horder⟩ := cstringToEnctextWithLen_eq (g := g) (F := F) hlen r
  rw [hc] at hc'
  cases hc'
  have htext := text_eq hcipher
  constructor
  case stored =>
    intro a ha
    rcases List.mem_append.1 ha with ha | ha
    · exact h.stored a ha
    · rw [List.mem_singleton.1 ha]
      exact ⟨htext ▸ hcipher, htext ▸ h0, fun hne => absurd horder hne⟩
  case sorted => exact h.sorted
  case fits => exact h.fits
  case present =>
    intro i s hs
    obtain ⟨a, ha, hai⟩ := h.present i s hs
    exact ⟨a, List.mem_append_left _ ha, hai⟩

/-- A rank is kept by the conversion to `uint32_t`. -/
theorem toNat_encTextSetOrder (x : EncStr) {i : ℕ} (hi : i < 2 ^ 31) :
    (encTextSetOrder x (i + 1)).order.toNat = i + 1 := by
  have hcast : ((i : ℤ) + 1) = ((i + 1 : ℕ) : ℤ) := by push_cast; rfl
  simp only [encTextSetOrder, UInt32.toNat_ofBitVec, hcast, BitVec.ofInt_natCast,
    BitVec.toNat_ofNat]
  omega

/-- **After `enc_text_add_order` the tags are the ranks of the new ranking.** -/
theorem ColumnInv.addOrder (h : ColumnInv g rows rank) (hres : IsRanking g F rows res)
    {rows' : List EncStr} (hrows : List.Forall₂ (Updates g F res) rows rows') :
    ColumnInv g rows' (res.map (text g)) := by
  have hsorted : (res.map (text g)).Pairwise (· < ·) := by
    rw [List.pairwise_map]
    exact hres.sorted.imp_of_mem fun hx hy hxy =>
      h.of_holds_lt (hres.subset _ hx) (hres.subset _ hy) hxy
  have hrank : ∀ {i : ℕ} {x : EncStr}, res[i]? = some x →
      (res.map (text g))[i]? = some (text g x) := by
    intro i x hx
    rw [List.getElem?_map, hx]
    rfl
  have hint4 : ∀ {i : ℕ} {x : EncStr}, res[i]? = some x → i < 2 ^ 31 := fun hx =>
    (List.getElem?_eq_some_iff.1 hx).1.trans hres.int4
  constructor
  case sorted => exact hsorted
  case stored =>
    intro a ha
    obtain ⟨y, hy, i, x, hx, -, rfl⟩ := exists_of_mem_right hrows ha
    have hsx := h.stored x (hres.subset x (List.mem_of_getElem? hx))
    exact ⟨⟨hsx.isCipher.decrypts, hsx.isCipher.length_eq⟩, hsx.noZero,
      fun _ => ⟨i, hrank (x := x) hx, toNat_encTextSetOrder x (hint4 hx)⟩⟩
  case fits =>
    intro s hs
    obtain ⟨x, hx, rfl⟩ := List.mem_map.1 hs
    obtain ⟨x', hx', heq⟩ := hres.covers x (hres.subset x hx)
    exact (h.of_holds_eq (hres.subset x' hx') (hres.subset x hx) heq).2
  case present =>
    intro i s hs
    obtain ⟨x, hx, rfl⟩ : ∃ x, res[i]? = some x ∧ text g x = s := by
      simpa [List.getElem?_map] using hs
    -- The row of the representative is updated to an equal one, which is itself.
    have hmem := hres.subset x (List.mem_of_getElem? hx)
    obtain ⟨y', hy', j, x', hx', heq, rfl⟩ := exists_of_mem_right hrows.flip hmem
    have htext := (h.of_holds_eq (hres.subset x' (List.mem_of_getElem? hx')) hmem heq).1
    obtain rfl : j = i := (rank_eq_iff hsorted (hrank hx') (hrank hx)).2 htext
    exact ⟨_, hy', toNat_encTextSetOrder x' (hint4 hx'), htext⟩

end Column

/-! ## Runs -/

section Runs

variable {κ : Type} [DecidableEq κ] {db db' : Db κ} {es : List (DbEvent κ)}

theorem ColumnInv.step {rank : κ → List (List UInt8)} (h : ∀ k, ColumnInv g (db k) (rank k))
    {e : DbEvent κ} (hstep : DbStep g F db e db') (k : κ) :
    ColumnInv g (db' k) (track g rank e k) := by
  cases hstep with
  | insert l h0 hc =>
    by_cases hk : k = l
    · subst hk
      rw [Function.update_self]
      exact (h k).insert h0 hc
    · rw [Function.update_of_ne hk]
      exact h k
  | addOrder l hres hrows =>
    by_cases hk : k = l
    · subst hk
      rw [Function.update_self, track, Function.update_self]
      exact (h k).addOrder hres hrows
    · rw [Function.update_of_ne hk, track, Function.update_of_ne hk]
      exact h k

/-- **In every run the tags of a column are the ranks of its last ranking.** -/
theorem columnInv_of_follows (h : Follows (DbStep g F) (fun _ => []) es db) (k : κ) :
    ColumnInv g (db k) (ranking g es k) := by
  -- The induction is over runs from any database, with any rankings before them.
  have hrun : ∀ {db db' : Db κ} {es : List (DbEvent κ)}, Follows (DbStep g F) db es db' →
      ∀ rank : κ → List (List UInt8), (∀ k, ColumnInv g (db k) (rank k)) →
        ∀ k, ColumnInv g (db' k) (es.foldl (track g) rank k) := by
    intro db db' es hfollows
    induction hfollows with
    | nil => exact fun rank hinv => hinv
    | cons hstep _ ih =>
      intro rank hinv
      exact ih _ (ColumnInv.step hinv hstep)
  exact hrun h _ (fun _ => columnInv_nil) k

/-- A comparison of a value with itself needs a string that fits. -/
theorem fits_of_comparesAs {rank : List (List UInt8)} {rows : List EncStr}
    (h : ColumnInv g rows rank) (ha : a ∈ rows)
    (hc : ComparesAs g F a a (text g a) (text g a)) :
    text g a ≠ [] ∧ (text g a).length < stringLength := by
  have hholds : Holds (encTextEq g F) a a := by
    intro r
    obtain ⟨r', hr'⟩ := hc.eq r
    exact ⟨r', by rw [hr', decide_eq_true rfl]⟩
  exact (h.of_holds_eq ha ha hholds).2

/-- **Order tags never change a comparison exactly when the strings fit and the rankings of any two
columns agree.** -/
theorem comparesRight_iff (h : Follows (DbStep g F) (fun _ => []) es db) :
    ComparesRight g F db ↔ AllFit g db ∧
      ∀ k l, ranking g es k <+: ranking g es l ∨ ranking g es l <+: ranking g es k := by
  have hinv := columnInv_of_follows h
  simp only [← ranksAgree_iff]
  constructor
  · intro hright
    refine ⟨fun k a ha => fits_of_comparesAs (hinv k) ha (hright k k a ha a ha), ?_⟩
    intro k l i s t hs ht
    obtain ⟨a, ha, hai, rfl⟩ := (hinv k).present i s hs
    obtain ⟨b, hb, hbi, rfl⟩ := (hinv l).present i t ht
    have heq : a.order = b.order := UInt32.toNat_inj.1 (hai.trans hbi.symm)
    have htag : Tagged a b := by
      constructor <;> intro h0
      · simp [h0, orderNone] at hai
      · simp [h0, orderNone] at hbi
    obtain ⟨r', hr'⟩ := (hright k l a ha b hb).eq OpsProcess.zero
    rw [encTextEq, compareBy_fast htag] at hr'
    simp only [heq, decide_true, Option.some.injEq, Prod.mk.injEq, Except.ok.injEq] at hr'
    exact of_decide_eq_true hr'.1.symm
  · intro ⟨hfit, hagree⟩ k l a ha b hb
    have hsa := (hinv k).stored a ha
    have hsb := (hinv l).stored b hb
    by_cases htag : Tagged a b
    · -- Both tags are ranks in the longer of the two rankings.
      obtain ⟨n, hn, hk, hl⟩ :=
        exists_common_ranking (hagree k l) (hinv k).sorted (hinv l).sorted
      have hsa' : Stored g n a := ⟨hsa.isCipher, hsa.noZero, fun hne =>
        (hsa.tag hne).imp fun i hi => ⟨hk i _ hi.1, hi.2⟩⟩
      have hsb' : Stored g n b := ⟨hsb.isCipher, hsb.noZero, fun hne =>
        (hsb.tag hne).imp fun i hi => ⟨hl i _ hi.1, hi.2⟩⟩
      exact comparesAs_of_tags htag (hsa'.orders hn hsb' htag)
    · exact comparesAs_of_strcmp htag hsa.isCipher hsb.isCipher hsa.noZero hsb.noZero
        ⟨(hfit k a ha).2, (hfit l b hb).1, (hfit l b hb).2⟩

end Runs

/-! ## Two columns -/

section Sample

variable {rows : List EncStr}

/-- A row of a column that has not been ranked. -/
structure Fresh (g : Gcm) (a : EncStr) : Prop where
  isCipher : g.IsCipher a (text g a)
  order : a.order = orderNone
  noZero : 0 ∉ text g a
  ne : text g a ≠ []
  lt : (text g a).length < stringLength

theorem Fresh.comparesAs (ha : Fresh g a) (hb : Fresh g b) :
    ComparesAs g F a b (text g a) (text g b) :=
  comparesAs_of_strcmp (fun h => h.1 ha.order) ha.isCipher hb.isCipher ha.noZero hb.noZero
    ⟨ha.lt, hb.ne, hb.lt⟩

theorem exists_insert {κ : Type} [DecidableEq κ] (db : Db κ) (k : κ) (h0 : 0 ∉ s) (hne : s ≠ [])
    (hlt : s.length < stringLength) :
    ∃ c, DbStep g F db (.insert k s) (Function.update db k (db k ++ [c])) ∧ Fresh g c ∧
      text g c = s := by
  obtain ⟨c, r', hc, hcipher, horder⟩ :=
    cstringToEnctextWithLen_eq (g := g) (F := F) hlt.le OpsProcess.zero
  have htext := text_eq hcipher
  subst htext
  exact ⟨c, .insert k h0 hc, ⟨hcipher, horder, h0, hne, hlt⟩, rfl⟩

/-- Rows that are in order are their own ranking. -/
theorem isRanking_self (hrows : ∀ a ∈ rows, Fresh g a)
    (hsorted : rows.Pairwise fun a b => text g a < text g b) (hlen : rows.length < 2 ^ 31) :
    IsRanking g F rows rows where
  subset _ := id
  covers y hy := by
    refine ⟨y, hy, fun r => ?_⟩
    obtain ⟨r', hr'⟩ := ((hrows y hy).comparesAs (hrows y hy)).eq r
    exact ⟨r', by rw [hr', decide_eq_true rfl]⟩
  sorted := by
    refine hsorted.imp_of_mem fun ha hb hab r => ?_
    obtain ⟨r', hr'⟩ := ((hrows _ ha).comparesAs (hrows _ hb)).lt r
    exact ⟨r', by rw [hr', decide_eq_true hab]⟩
  int4 := hlen

theorem updates_self {i : ℕ} (hrows : ∀ a ∈ rows, Fresh g a) (ha : rows[i]? = some a) :
    Updates g F rows a (encTextSetOrder a (i + 1)) := by
  have hfresh := hrows a (List.mem_of_getElem? ha)
  refine ⟨i, a, ha, fun r => ?_, rfl⟩
  obtain ⟨r', hr'⟩ := (hfresh.comparesAs hfresh).eq r
  exact ⟨r', by rw [hr', decide_eq_true rfl]⟩

/-- The strings `a` and `b`. -/
def textA : List UInt8 := [97]
def textB : List UInt8 := [98]

/-- A run that ranks `a` and `b` in one column and keeps `b` in another. -/
theorem exists_run (g : Gcm) (F : FloatOps) : ∃ ca cb cb' : EncStr,
    Follows (DbStep g F) (fun _ : Bool => [])
      [.insert false textA, .insert false textB, .addOrder false [ca, cb], .insert true textB]
      (Function.update (Function.update (fun _ => []) false
        [encTextSetOrder ca 1, encTextSetOrder cb 2]) true [cb']) ∧
      (text g ca = textA ∧ text g cb = textB ∧ text g cb' = textB) ∧ Fresh g cb' := by
  obtain ⟨ca, hca, hfa, hta⟩ := exists_insert (g := g) (F := F) (fun _ : Bool => []) false
    (s := textA) (by decide) (by decide) (by decide)
  obtain ⟨cb, hcb, hfb, htb⟩ := exists_insert (g := g) (F := F)
    (Function.update (fun _ : Bool => []) false [ca]) false (s := textB) (by decide) (by decide)
    (by decide)
  obtain ⟨cb', hcb', hfb', htb'⟩ := exists_insert (g := g) (F := F)
    (Function.update (fun _ : Bool => []) false [encTextSetOrder ca 1, encTextSetOrder cb 2]) true
    (s := textB) (by decide) (by decide) (by decide)
  have hfresh : ∀ x ∈ [ca, cb], Fresh g x := by simp [hfa, hfb]
  have hranking : IsRanking g F [ca, cb] [ca, cb] := by
    refine isRanking_self hfresh ?_ (by simp)
    simp only [List.pairwise_cons, List.mem_singleton, forall_eq, List.not_mem_nil, false_imp_iff,
      implies_true, List.Pairwise.nil, and_true, hta, htb]
    decide
  have hupdates : List.Forall₂ (Updates g F [ca, cb]) [ca, cb]
      [encTextSetOrder ca 1, encTextSetOrder cb 2] :=
    .cons (updates_self (i := 0) hfresh rfl) (.cons (updates_self (i := 1) hfresh rfl) .nil)
  have hadd : DbStep g F (Function.update (fun _ : Bool => []) false [ca, cb])
      (.addOrder false [ca, cb])
        (Function.update (Function.update (fun _ => []) false [ca, cb]) false
        [encTextSetOrder ca 1, encTextSetOrder cb 2]) :=
    .addOrder false (by rwa [Function.update_self]) (by rwa [Function.update_self])
  simp only [Function.update_idem, Function.update_self, List.nil_append, List.singleton_append]
    at hca hcb hadd
  exact ⟨ca, cb, cb', .cons hca (.cons hcb (.cons hadd (.cons hcb' (.nil _)))), ⟨hta, htb, htb'⟩,
    hfb'⟩

/-- With one ranked column all comparisons are right. -/
theorem comparesRight_ranked_column : ∃ (es : List (DbEvent Bool)) (db : Db Bool),
    Follows (DbStep Gcm.identity FloatOps.null) (fun _ => []) es db ∧
      ComparesRight Gcm.identity FloatOps.null db := by
  obtain ⟨ca, cb, cb', hrun, ⟨hta, htb, htb'⟩, -⟩ := exists_run Gcm.identity FloatOps.null
  refine ⟨_, _, hrun, (comparesRight_iff hrun).2 ⟨?_, ?_⟩⟩
  · have hset : ∀ (x : EncStr) (i : ℤ),
      text Gcm.identity (encTextSetOrder x i) = text Gcm.identity x :=
      fun _ _ => rfl
    intro k a ha
    cases k with
    | false =>
      simp only [Function.update_of_ne (by decide : false ≠ true), Function.update_self,
        List.mem_cons, List.not_mem_nil, or_false] at ha
      rcases ha with rfl | rfl
      · rw [hset, hta]
        decide
      · rw [hset, htb]
        decide
    | true =>
      rw [Function.update_self, List.mem_singleton] at ha
      rw [ha, htb']
      decide
  · intro k l
    cases k <;> cases l <;> simp [ranking, track]

/-- **Two columns that are ranked apart are compared wrongly.** -/
theorem columns_compared_wrongly : ∃ (es : List (DbEvent Bool)) (db : Db Bool),
    Follows (DbStep Gcm.identity FloatOps.null) (fun _ => []) es db ∧
      ∃ a ∈ db false, ∃ b ∈ db true, text Gcm.identity a = textB ∧ text Gcm.identity b = textB ∧
        ∀ r, encTextEq Gcm.identity FloatOps.null a b r = some (.ok false, r) := by
  obtain ⟨ca, cb, cb', hrun, ⟨hta, htb, htb'⟩, hfresh⟩ := exists_run Gcm.identity FloatOps.null
  have hrows : ∀ x ∈ [cb'], Fresh Gcm.identity x := by simp [hfresh]
  have hadd : DbStep Gcm.identity FloatOps.null _ (.addOrder true [cb'])
      (Function.update (Function.update (Function.update (fun _ => []) false
        [encTextSetOrder ca 1, encTextSetOrder cb 2]) true [cb']) true [encTextSetOrder cb' 1]) :=
    .addOrder true
      (by
        rw [Function.update_self]
        exact isRanking_self hrows (List.pairwise_singleton _ _) (by simp))
      (by
        rw [Function.update_self]
        exact .cons (updates_self (i := 0) hrows rfl) .nil)
  refine ⟨_, _, hrun.snoc hadd, encTextSetOrder cb 2, by simp, encTextSetOrder cb' 1, by simp, htb,
    htb', fun r => ?_⟩
  have htag : Tagged (encTextSetOrder cb 2) (encTextSetOrder cb' 1) :=
    ⟨show (2 : UInt32) ≠ 0 by decide, show (1 : UInt32) ≠ 0 by decide⟩
  exact compareBy_fast htag r

end Sample

end Udf

end HEDB
