import Mathlib.Data.List.DropRight
import Mathlib.Data.List.Infix

/-!
# UTF-8

Texts as lists of bytes. What is decoded from a part of an encoded text is a part of the text
(`prefix_of_decodeUtf8`), and only the ASCII characters have bytes below 128.
-/

/-- `s.encode("utf-8")`. -/
def utf8 (t : List Char) : List UInt8 :=
  t.flatMap String.utf8EncodeChar

/-- `b.decode("utf-8")`. -/
def decodeUtf8 (b : List UInt8) : Option (List Char) :=
  b.toByteArray.utf8Decode?.map Array.toList

@[simp] theorem utf8_nil : utf8 [] = [] := rfl

@[simp] theorem utf8_cons (c : Char) (t : List Char) :
    utf8 (c :: t) = String.utf8EncodeChar c ++ utf8 t := rfl

@[simp] theorem utf8_append (s t : List Char) : utf8 (s ++ t) = utf8 s ++ utf8 t :=
  List.flatMap_append

@[simp] theorem decodeUtf8_utf8 (t : List Char) : decodeUtf8 (utf8 t) = some t := by
  have h : (utf8 t).toByteArray.utf8Decode? = some t.toArray := List.utf8Decode?_utf8Encode
  rw [decodeUtf8, h]
  rfl

/-- Only its own encoding decodes to a text. -/
theorem utf8_of_decodeUtf8 {b : List UInt8} {t : List Char} (h : decodeUtf8 b = some t) :
    utf8 t = b := by
  obtain ⟨a, ha, rfl⟩ := Option.map_eq_some_iff.1 h
  have hget : (utf8 a.toList).toByteArray = b.toByteArray := by
    have hencode := ByteArray.utf8Encode_get_utf8Decode? (b := b.toByteArray) (h := by rw [ha]; rfl)
    simp only [ha, Option.get_some] at hencode
    exact hencode
  have hdata := congrArg ByteArray.data hget
  simpa using congrArg Array.toList hdata

/-- What is decoded from the first bytes of a text begins the text. -/
theorem prefix_of_decodeUtf8 {b : List UInt8} {s t : List Char} (hb : b <+: utf8 t)
    (h : decodeUtf8 b = some s) : s <+: t := by
  obtain ⟨rest, hrest⟩ := hb
  refine List.isPrefix_of_utf8Encode_append_eq_utf8Encode rest.toByteArray ?_
  change (utf8 s).toByteArray ++ rest.toByteArray = (utf8 t).toByteArray
  rw [utf8_of_decodeUtf8 h, ← hrest, List.toByteArray_append]

/-- The longest beginning of a text whose encoding has at most `n` bytes. -/
def utf8Take : ℕ → List Char → List Char
  | _, [] => []
  | n, c :: t =>
    if (String.utf8EncodeChar c).length ≤ n then
      c :: utf8Take (n - (String.utf8EncodeChar c).length) t
    else []

theorem utf8Take_cons (n : ℕ) (c : Char) (t : List Char) : utf8Take n (c :: t) =
    if (String.utf8EncodeChar c).length ≤ n then
      c :: utf8Take (n - (String.utf8EncodeChar c).length) t
    else [] :=
  rfl

theorem utf8EncodeChar_length_pos (c : Char) : 0 < (String.utf8EncodeChar c).length := by
  rw [String.length_utf8EncodeChar]
  exact Char.utf8Size_pos c

theorem utf8Take_eq_take (n : ℕ) (t : List Char) :
    utf8Take n t = t.take (utf8Take n t).length := by
  induction t generalizing n with
  | nil => rfl
  | cons c t ih =>
    rw [utf8Take_cons]
    split_ifs
    · rw [List.length_cons, List.take_succ_cons, ← ih]
    · rfl

/-- No more characters than bytes. -/
theorem length_utf8Take_le (n : ℕ) (t : List Char) : (utf8Take n t).length ≤ n := by
  induction t generalizing n with
  | nil => exact Nat.zero_le n
  | cons c t ih =>
    rw [utf8Take_cons]
    split_ifs with hc
    · have hpos := utf8EncodeChar_length_pos c
      have hrest := ih (n - (String.utf8EncodeChar c).length)
      rw [List.length_cons]
      omega
    · exact Nat.zero_le n

/-- The beginnings that fit are those of `utf8Take`. -/
theorem length_utf8_take_le_iff {n k : ℕ} {t : List Char} (hk : k ≤ t.length) :
    (utf8 (t.take k)).length ≤ n ↔ k ≤ (utf8Take n t).length := by
  induction t generalizing n k with
  | nil =>
    rw [List.length_nil, Nat.le_zero] at hk
    simp [hk]
  | cons c t ih =>
    rcases k with _ | k
    · simp
    · have hrest := ih (n := n - (String.utf8EncodeChar c).length)
        (Nat.le_of_succ_le_succ hk)
      rw [List.take_succ_cons, utf8_cons, List.length_append, utf8Take_cons]
      split_ifs with hc
      · rw [List.length_cons, Nat.succ_le_succ_iff, ← hrest]
        omega
      · simp only [List.length_nil]
        omega

/-- The encoding of an ASCII character. -/
theorem utf8EncodeChar_of_lt {c : Char} (h : c.toNat < 128) :
    String.utf8EncodeChar c = [UInt8.ofNat c.toNat] :=
  if_pos (Nat.le_of_lt_succ h)

/-- A byte below 128 is an ASCII character. -/
theorem eq_of_mem_utf8EncodeChar {c : Char} {b : UInt8} (hb : b.toNat < 128)
    (h : b ∈ String.utf8EncodeChar c) : c.toNat = b.toNat := by
  have hbyte {n : ℕ} (hn : 128 ≤ n) (hlt : n < 256) : b ≠ UInt8.ofNat n := by
    rintro rfl
    rw [UInt8.toNat_ofNat_of_lt' hlt] at hb
    omega
  have hv : c.toNat = c.val.toNat := rfl
  unfold String.utf8EncodeChar at h
  simp only at h
  split_ifs at h with h₁ h₂ h₃
  · rw [List.mem_singleton] at h
    rw [h, UInt8.toNat_ofNat_of_lt' (lt_of_le_of_lt h₁ (by decide))]
    exact hv
  all_goals
    simp only [List.mem_cons, List.not_mem_nil, or_false] at h
    exfalso
  · rcases h with h | h
    · exact hbyte (by omega) (by omega) h
    · exact hbyte (by omega) (by omega) h
  · rcases h with h | h | h
    · exact hbyte (by omega) (by omega) h
    · exact hbyte (by omega) (by omega) h
    · exact hbyte (by omega) (by omega) h
  · rcases h with h | h | h | h
    · exact hbyte (by omega) (by omega) h
    · exact hbyte (by omega) (by omega) h
    · exact hbyte (by omega) (by omega) h
    · exact hbyte (by omega) (by omega) h

theorem mem_of_mem_utf8 {t : List Char} {b : UInt8} (hb : b.toNat < 128) (h : b ∈ utf8 t) :
    Char.ofNat b.toNat ∈ t := by
  obtain ⟨c, hc, hmem⟩ := List.mem_flatMap.1 h
  rwa [← eq_of_mem_utf8EncodeChar hb hmem, Char.ofNat_toNat]

/-- Of an ASCII text as many characters fit as bytes. -/
theorem utf8Take_of_ascii {t : List Char} (h : ∀ c ∈ t, c.toNat < 128) (n : ℕ) :
    utf8Take n t = t.take n := by
  induction t generalizing n with
  | nil => simp [utf8Take]
  | cons c t ih =>
    have hrest := ih fun d hd => h d (List.mem_cons_of_mem c hd)
    rw [utf8Take_cons, utf8EncodeChar_of_lt (h c List.mem_cons_self), hrest]
    rcases n with _ | n
    · rfl
    · simp
