import HEDB.Foundations.Files

/-!
# Text in fixed buffers

A buffer is a list of bytes, whose length does not change. `strcat` and `sprintf` write a text and
its terminator without looking at the length; a store outside the buffer and the search for a
terminator that is not there are undefined.

Code that appends a text to the one in a buffer is defined exactly when the text still fits
(`Appends`). Such code can be composed and repeated (`Appends.bind`, `appends_foldlM`).
-/

namespace HEDB

namespace CStrings

/-! ## Functions -/

/-- The bytes of a string literal. -/
def lit (s : String) : List UInt8 := s.toUTF8.data.toList

/-- A store into a buffer. -/
def store (buf : List UInt8) (o : ℕ) (bs : List UInt8) : Option (List UInt8) :=
  if o + bs.length ≤ buf.length then some (pwrite buf o bs) else none

/-- `strlen`. -/
def strlen (buf : List UInt8) : Option ℕ := if 0 ∈ buf then some (buf.idxOf 0) else none

/-- `strcat`, also `strncat` with the length of the text, and `sprintf` behind the text in the
buffer. -/
def strcat (buf text : List UInt8) : Option (List UInt8) := do
  let n ← strlen buf
  store buf n (text ++ [0])

/-- `strncpy` with the length of the text, which writes no terminator. -/
def strncpy (buf text : List UInt8) : Option (List UInt8) := store buf 0 text

/-- `sprintf`. -/
def sprintf (buf text : List UInt8) : Option (List UInt8) := store buf 0 (text ++ [0])

/-! ## What a buffer holds -/

variable {buf text t a b : List UInt8}

/-- The buffer holds the text and its terminator. -/
structure Holds (buf text : List UInt8) : Prop where
  zero_not_mem : 0 ∉ text
  stored : text ++ [0] <+: buf

theorem Holds.length_lt (h : Holds buf text) : text.length < buf.length := by
  have := h.stored.length_le
  rw [List.length_append, List.length_singleton] at this
  omega

theorem Holds.takeWhile_eq (h : Holds buf text) : buf.takeWhile (· ≠ 0) = text := by
  obtain ⟨rest, hrest⟩ := h.stored
  rw [← hrest, List.append_assoc, List.takeWhile_append_of_pos]
  · simp
  · intro c hc
    exact decide_eq_true fun h0 => h.zero_not_mem (h0 ▸ hc)

theorem Holds.strlen_eq (h : Holds buf text) : strlen buf = some text.length := by
  obtain ⟨rest, hrest⟩ := h.stored
  have hmem : 0 ∈ buf := by
    rw [← hrest]
    simp
  rw [strlen, if_pos hmem, ← hrest, List.append_assoc, List.idxOf_append_of_notMem h.zero_not_mem]
  simp

/-- Writing a text with its terminator behind a text. -/
theorem holds_pwrite (h : t <+: buf) (h0 : 0 ∉ t ++ text) :
    Holds (pwrite buf t.length (text ++ [0])) (t ++ text) := by
  refine ⟨h0, ?_⟩
  rw [pwrite, ← List.prefix_iff_eq_take.1 h, List.append_assoc t]
  exact List.prefix_append _ _

theorem store_of_lt {o : ℕ} (h : o + text.length < buf.length) :
    store buf o (text ++ [0]) = some (pwrite buf o (text ++ [0])) ∧
      (pwrite buf o (text ++ [0])).length = buf.length := by
  have hle : o + (text ++ [0]).length ≤ buf.length := by
    rw [List.length_append, List.length_singleton]
    omega
  exact ⟨if_pos hle, length_pwrite hle⟩

theorem store_of_le {o : ℕ} (h : buf.length ≤ o + text.length) :
    store buf o (text ++ [0]) = none := by
  refine if_neg ?_
  rw [List.length_append, List.length_singleton]
  omega

/-- `sprintf` puts the text at the start of the buffer. -/
theorem sprintf_of_lt (h0 : 0 ∉ text) (h : text.length < buf.length) :
    ∃ buf', sprintf buf text = some buf' ∧ buf'.length = buf.length ∧ Holds buf' text := by
  obtain ⟨hstore, hlen⟩ := store_of_lt (o := 0) (by rwa [Nat.zero_add])
  exact ⟨_, hstore, hlen, holds_pwrite (t := []) List.nil_prefix (by rwa [List.nil_append])⟩

theorem sprintf_of_le (h : buf.length ≤ text.length) : sprintf buf text = none :=
  store_of_le (by rwa [Nat.zero_add])

/-- `strncpy` into a buffer of zeros finds a terminator there. -/
theorem strncpy_of_lt {n : ℕ} (h0 : 0 ∉ text) (h : text.length < n) :
    ∃ buf', strncpy (List.replicate n 0) text = some buf' ∧ buf'.length = n ∧ Holds buf' text := by
  have hle : 0 + text.length ≤ (List.replicate n (0 : UInt8)).length := by
    rw [List.length_replicate]
    omega
  refine ⟨_, if_pos hle, by rw [length_pwrite hle, List.length_replicate], h0, ?_⟩
  rw [pwrite, List.take_zero, List.nil_append, List.drop_replicate]
  obtain ⟨k, hk⟩ : ∃ k, n - (0 + text.length) = k + 1 := ⟨n - text.length - 1, by omega⟩
  rw [hk, List.replicate_succ]
  exact (List.prefix_append_right_inj text).2 (List.prefix_append [0] _)

/-- A text that fills the buffer has no terminator, and then nothing can be appended. -/
theorem strncpy_bind_of_le {n : ℕ} (h0 : 0 ∉ text) (h : n ≤ text.length) :
    ((strncpy (List.replicate n 0) text).bind fun buf => strcat buf t) = none := by
  rw [strncpy, store]
  split_ifs with hle
  · rw [List.length_replicate] at hle
    have hfull : pwrite (List.replicate n 0) 0 text = text := by
      rw [pwrite, List.take_zero, List.nil_append, List.drop_replicate,
        show n - (0 + text.length) = 0 by omega, List.replicate_zero, List.append_nil]
    rw [Option.bind_some, hfull, strcat, strlen, if_neg h0]
    rfl
  · rfl

/-! ## Appending -/

/-- The code appends the text: when it fits, the buffer holds it, and otherwise the behaviour is
undefined. -/
def Appends (m : List UInt8 → Option (List UInt8)) (text : List UInt8) : Prop :=
  ∀ buf t, Holds buf t →
    (t.length + text.length < buf.length →
      ∃ buf', m buf = some buf' ∧ buf'.length = buf.length ∧ Holds buf' (t ++ text)) ∧
    (buf.length ≤ t.length + text.length → m buf = none)

variable {m m' : List UInt8 → Option (List UInt8)}

theorem appends_strcat (h0 : 0 ∉ text) : Appends (fun buf => strcat buf text) text := by
  intro buf t h
  have hcat : strcat buf text = store buf t.length (text ++ [0]) := by
    rw [strcat, h.strlen_eq]
    rfl
  refine ⟨fun hlt => ?_, fun hle => hcat.trans (store_of_le hle)⟩
  obtain ⟨hstore, hlen⟩ := store_of_lt hlt
  refine ⟨_, hcat.trans hstore, hlen, holds_pwrite ((List.prefix_append t [0]).trans h.stored) ?_⟩
  rw [List.mem_append]
  exact not_or.2 ⟨h.zero_not_mem, h0⟩

theorem appends_some : Appends some [] := by
  intro buf t h
  refine ⟨fun _ => ⟨buf, rfl, rfl, by rwa [List.append_nil]⟩, fun hle => ?_⟩
  exact absurd h.length_lt (by rw [List.length_nil] at hle; omega)

theorem Appends.bind (hm : Appends m a) (hm' : Appends m' b) :
    Appends (fun buf => (m buf).bind m') (a ++ b) := by
  intro buf t h
  rw [List.length_append]
  obtain ⟨hlt, hle⟩ := hm buf t h
  rcases Nat.lt_or_ge (t.length + a.length) buf.length with hfits | hfull
  · obtain ⟨buf₁, hbuf₁, hlen, hholds⟩ := hlt hfits
    obtain ⟨hlt', hle'⟩ := hm' buf₁ (t ++ a) hholds
    rw [List.length_append, hlen] at hlt' hle'
    simp only [hbuf₁, Option.bind_some]
    refine ⟨fun h => ?_, fun h => hle' (by omega)⟩
    obtain ⟨buf₂, hbuf₂, hlen₂, hholds₂⟩ := hlt' (by omega)
    exact ⟨buf₂, hbuf₂, hlen₂, by rwa [← List.append_assoc]⟩
  · simp only [hle hfull, Option.bind_none]
    exact ⟨fun h => absurd h (by omega), fun _ => trivial⟩

/-- **A loop appends the texts of its iterations.** -/
theorem appends_foldlM {α : Type} {f : List UInt8 → α → Option (List UInt8)}
    {texts : α → List UInt8} {l : List α} (h : ∀ x ∈ l, Appends (fun buf => f buf x) (texts x)) :
    Appends (fun buf => l.foldlM f buf) (l.flatMap texts) := by
  induction l with
  | nil => exact appends_some
  | cons x l ih =>
    exact (h x List.mem_cons_self).bind (ih fun y hy => h y (List.mem_cons_of_mem _ hy))

theorem appends_ite {c : Prop} [Decidable c] (hm : Appends m a) :
    Appends (fun buf => if c then m buf else some buf) (if c then a else []) := by
  split_ifs
  · exact hm
  · exact appends_some

/-- The text of a loop that has a further variable, which is `s` at first. -/
def loopText {α σ : Type} (next : σ → α → σ) (texts : σ → α → List UInt8) :
    σ → List α → List UInt8
  | _, [] => []
  | s, x :: l => texts s x ++ loopText next texts (next s x) l

/-- **A loop with a further variable appends the texts of its iterations.** -/
theorem appends_loop {α σ : Type} {f : List UInt8 × σ → α → Option (List UInt8 × σ)}
    {next : σ → α → σ} {texts : σ → α → List UInt8}
    (h : ∀ s x, ∃ m, Appends m (texts s x) ∧
      ∀ buf, f (buf, s) x = (m buf).map fun buf' => (buf', next s x)) (s : σ) (l : List α) :
    Appends (fun buf => (l.foldlM f (buf, s)).map Prod.fst) (loopText next texts s l) := by
  induction l generalizing s with
  | nil => exact appends_some
  | cons x l ih =>
    obtain ⟨m, hm, hf⟩ := h s x
    have hloop : (fun buf => ((x :: l).foldlM f (buf, s)).map Prod.fst) =
        fun buf => (m buf).bind fun buf' => (l.foldlM f (buf', next s x)).map Prod.fst := by
      funext buf
      rw [List.foldlM_cons, hf]
      cases m buf <;> rfl
    rw [hloop]
    exact hm.bind (ih (next s x))

/-- The code is defined exactly when the text fits. -/
theorem Appends.ne_none_iff (hm : Appends m text) (h : Holds buf t) :
    m buf ≠ none ↔ t.length + text.length < buf.length := by
  obtain ⟨hlt, hle⟩ := hm buf t h
  constructor
  · intro hne
    by_contra hge
    exact hne (hle (not_lt.1 hge))
  · intro hfits
    obtain ⟨buf', hbuf', -⟩ := hlt hfits
    rw [hbuf']
    exact Option.some_ne_none _

/-- A text is copied into a buffer of zeros, and more is appended to it. -/
theorem strncpy_bind {n : ℕ} (h0 : 0 ∉ text) (ht : 0 ∉ t) (hm : Appends m a) :
    (text.length + t.length + a.length < n →
      ∃ buf', ((strncpy (List.replicate n 0) text).bind fun buf => (strcat buf t).bind m) =
        some buf' ∧ buf'.length = n ∧ Holds buf' (text ++ (t ++ a))) ∧
    (n ≤ text.length + t.length + a.length →
      ((strncpy (List.replicate n 0) text).bind fun buf => (strcat buf t).bind m) = none) := by
  rcases Nat.lt_or_ge text.length n with hlt | hle
  · obtain ⟨buf, hbuf, hlen, hholds⟩ := strncpy_of_lt h0 hlt
    have happ := (appends_strcat ht).bind hm buf text hholds
    rw [List.length_append, hlen, ← Nat.add_assoc] at happ
    simpa only [hbuf, Option.bind_some] using happ
  · refine ⟨fun h => absurd h (by omega), fun _ => ?_⟩
    rw [← Option.bind_assoc, strncpy_bind_of_le h0 hle, Option.bind_none]

end CStrings

end HEDB
