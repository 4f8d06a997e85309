import Arborist.Text.Utf8
import Mathlib.Data.List.Basic
import Mathlib.Data.UInt
import Mathlib.Tactic.SplitIfs

/-!
# Reading bytes as text

The bytes of a text can be read back: `Text.ofBytes?_eq_some_iff` says that they are read as this
text and that nothing else is.

Where bytes are no text, `Text.lossy` gives something all the same.  What it makes of the bytes
before a slash and of those after it has nothing to do with each other (`Text.lossy_slash`), and it
makes no slash out of anything else (`Text.slash_not_mem_lossy`).  Both rest on what a state of
the reader can be: a character that has been begun is never one of the ASCII characters
(`Text.Pending.Sound`).
-/

namespace Arborist.Text

/-! ### Bytes of a text -/

theorem bytes_eq_flatMap (s : String) : bytes s = s.toList.flatMap String.utf8EncodeChar := by
  have h := congrArg String.toByteArray (String.ofList_toList (s := s))
  rw [String.toByteArray_ofList] at h
  rw [bytes, String.toUTF8, ← h, List.utf8Encode]
  simp

theorem bytes_append (s t : String) : bytes (s ++ t) = bytes s ++ bytes t := by
  rw [bytes_eq_flatMap, bytes_eq_flatMap, bytes_eq_flatMap, String.toList_append,
    List.flatMap_append]

/-! ### Reading them back -/

@[simp] theorem decodeFrom_nil : decodeFrom none [] = [] := rfl

theorem decodeFrom_cons (state : Option Pending) (b : UInt8) (bs : List UInt8) :
    decodeFrom state (b :: bs) = (feed state b).1 ++ decodeFrom (feed state b).2 bs := by
  cases state <;> rfl

theorem decodeFrom_ascii {n : Nat} (h : n < 128) (bs : List UInt8) :
    decodeFrom none (UInt8.ofNat n :: bs) = Char.ofNat n :: decodeFrom none bs := by
  have hn : (UInt8.ofNat n).toNat = n :=
    UInt8.toNat_ofNat_of_lt' (Nat.lt_trans h (by decide))
  have hlt : UInt8.ofNat n < 0x80 := by
    rw [UInt8.lt_iff_toNat_lt, hn]
    exact h
  rw [decodeFrom_cons, feed, opening, if_pos hlt, hn]
  rfl

theorem decodeFrom_lead {n : Nat} {p : Pending} (hn : 128 ≤ n) (hn' : n < 256)
    (h : lead? (UInt8.ofNat n) = some p) (bs : List UInt8) :
    decodeFrom none (UInt8.ofNat n :: bs) = decodeFrom (some p) bs := by
  have hnot : ¬ UInt8.ofNat n < 0x80 := by
    rw [UInt8.lt_iff_toNat_lt, UInt8.toNat_ofNat_of_lt' hn']
    exact Nat.not_lt.2 hn
  rw [decodeFrom_cons, feed, opening, if_neg hnot, h]
  rfl

/-- Every byte of a character but the first adds a digit to the base of 64. -/
theorem feed_digit {p : Pending} {d : Nat} (hd : d < 64) (hlow : p.low.toNat ≤ d + 128)
    (hhigh : d + 128 ≤ p.high.toNat) :
    feed (some p) (UInt8.ofNat (d + 128)) = p.continue (UInt8.ofNat (d + 128)) ∧
      (UInt8.ofNat (d + 128)).toNat - 0x80 = d := by
  have htoNat : (UInt8.ofNat (d + 128)).toNat = d + 128 :=
    UInt8.toNat_ofNat_of_lt' (show d + 128 < 256 by omega)
  have hrange : p.low ≤ UInt8.ofNat (d + 128) ∧ UInt8.ofNat (d + 128) ≤ p.high := by
    rw [UInt8.le_iff_toNat_le, UInt8.le_iff_toNat_le, htoNat]
    exact ⟨hlow, hhigh⟩
  exact ⟨if_pos hrange, by rw [htoNat, Nat.add_sub_cancel]⟩

theorem decodeFrom_last {p : Pending} {d : Nat} (hd : d < 64) (hlow : p.low.toNat ≤ d + 128)
    (hhigh : d + 128 ≤ p.high.toNat) (hmore : p.more = 0) (bs : List UInt8) :
    decodeFrom (some p) (UInt8.ofNat (d + 128) :: bs) =
      Char.ofNat (p.value * 64 + d) :: decodeFrom none bs := by
  obtain ⟨hfeed, hdigit⟩ := feed_digit hd hlow hhigh
  rw [decodeFrom_cons, hfeed, Pending.continue, hdigit, hmore]
  rfl

theorem decodeFrom_more {p : Pending} {d more : Nat} (hd : d < 64) (hlow : p.low.toNat ≤ d + 128)
    (hhigh : d + 128 ≤ p.high.toNat) (hmore : p.more = more + 1) (bs : List UInt8) :
    decodeFrom (some p) (UInt8.ofNat (d + 128) :: bs) =
      decodeFrom (some ⟨0x80, 0xBF, more, p.value * 64 + d⟩) bs := by
  obtain ⟨hfeed, hdigit⟩ := feed_digit hd hlow hhigh
  rw [decodeFrom_cons, hfeed, Pending.continue, hdigit, hmore]
  rfl

theorem lead?_two {a : Nat} (h : 2 ≤ a) (h' : a < 32) :
    lead? (UInt8.ofNat (a + 192)) = some ⟨0x80, 0xBF, 0, a⟩ := by
  rw [lead?, UInt8.toNat_ofNat_of_lt' (show a + 192 < 256 by omega)]
  rw [if_pos (by omega), Nat.add_sub_cancel]

/-- The second of three bytes shuts out what has a shorter encoding, and surrogates. -/
theorem lead?_three {a d : Nat} (h : a < 16) (hd : d < 64) (hshort : a = 0 → 32 ≤ d)
    (hsurrogate : a = 13 → d < 32) :
    ∃ low high, lead? (UInt8.ofNat (a + 224)) = some ⟨low, high, 1, a⟩ ∧ low.toNat ≤ d + 128 ∧
      d + 128 ≤ high.toNat := by
  rw [lead?, UInt8.toNat_ofNat_of_lt' (show a + 224 < 256 by omega)]
  rw [if_neg (by omega)]
  by_cases hzero : a = 0
  · rw [if_pos (by omega), hzero]
    exact ⟨_, _, rfl, Nat.add_le_add_right (hshort hzero) 128, by simp; omega⟩
  · rw [if_neg (by omega)]
    by_cases hthirteen : a = 13
    · rw [if_pos (by omega), hthirteen]
      exact ⟨_, _, rfl, by simp, by have := hsurrogate hthirteen; simp; omega⟩
    · rw [if_neg (by omega), if_pos (by omega), Nat.add_sub_cancel]
      exact ⟨_, _, rfl, by simp, by simp; omega⟩

/-- The second of four bytes shuts out what has a shorter encoding, and what is no character. -/
theorem lead?_four {a d : Nat} (h : a < 5) (hd : d < 64) (hshort : a = 0 → 16 ≤ d)
    (hlarge : a = 4 → d < 16) :
    ∃ low high, lead? (UInt8.ofNat (a + 240)) = some ⟨low, high, 2, a⟩ ∧ low.toNat ≤ d + 128 ∧
      d + 128 ≤ high.toNat := by
  rw [lead?, UInt8.toNat_ofNat_of_lt' (show a + 240 < 256 by omega)]
  rw [if_neg (by omega), if_neg (by omega), if_neg (by omega), if_neg (by omega)]
  by_cases hzero : a = 0
  · rw [if_pos (by omega), hzero]
    exact ⟨_, _, rfl, Nat.add_le_add_right (hshort hzero) 128, by simp; omega⟩
  · rw [if_neg (by omega)]
    by_cases hfour : a = 4
    · rw [if_pos (by omega), hfour]
      exact ⟨_, _, rfl, by simp, by have := hlarge hfour; simp; omega⟩
    · rw [if_neg (by omega), if_pos (by omega), Nat.add_sub_cancel]
      exact ⟨_, _, rfl, by simp, by simp; omega⟩

theorem decodeFrom_encodeChar (c : Char) (bs : List UInt8) :
    decodeFrom none (String.utf8EncodeChar c ++ bs) = c :: decodeFrom none bs := by
  have hc : Char.ofNat c.val.toNat = c := Char.ofNat_toNat c
  have hvalid : c.val.toNat < 0xD800 ∨ 0xDFFF < c.val.toNat ∧ c.val.toNat < 0x110000 := c.valid
  unfold String.utf8EncodeChar
  generalize c.val.toNat = n at *
  rw [← hc]
  dsimp only
  split_ifs with hone htwo hthree
  · exact decodeFrom_ascii (by omega) bs
  · have hsum : n / 64 % 32 * 64 + n % 64 = n := by omega
    rw [List.cons_append, List.cons_append, List.nil_append,
      decodeFrom_lead (by omega) (by omega) (lead?_two (by omega) (by omega)),
      decodeFrom_last (by omega) (by simp) (by simp; omega) rfl, hsum]
  · have hsum : (n / 4096 % 16 * 64 + n / 64 % 64) * 64 + n % 64 = n := by omega
    obtain ⟨low, high, hlead, hlow, hhigh⟩ :=
      @lead?_three (n / 4096 % 16) (n / 64 % 64) (by omega) (by omega) (by omega) (by omega)
    rw [List.cons_append, List.cons_append, List.cons_append, List.nil_append,
      decodeFrom_lead (by omega) (by omega) hlead, decodeFrom_more (by omega) hlow hhigh rfl,
      decodeFrom_last (by omega) (by simp) (by simp; omega) rfl, hsum]
  · have hsum : ((n / 262144 % 8 * 64 + n / 4096 % 64) * 64 + n / 64 % 64) * 64 + n % 64 = n := by
      omega
    obtain ⟨low, high, hlead, hlow, hhigh⟩ :=
      @lead?_four (n / 262144 % 8) (n / 4096 % 64) (by omega) (by omega) (by omega) (by omega)
    rw [List.cons_append, List.cons_append, List.cons_append, List.cons_append, List.nil_append,
      decodeFrom_lead (by omega) (by omega) hlead, decodeFrom_more (by omega) hlow hhigh rfl,
      decodeFrom_more (by omega) (by simp) (by simp; omega) rfl,
      decodeFrom_last (by omega) (by simp) (by simp; omega) rfl, hsum]

@[simp] theorem lossy_bytes (s : String) : lossy (bytes s) = s := by
  have hall : ∀ cs : List Char, decodeFrom none (cs.flatMap String.utf8EncodeChar) = cs := by
    intro cs
    induction cs with
    | nil => rfl
    | cons c cs ih => rw [List.flatMap_cons, decodeFrom_encodeChar, ih]
  rw [lossy, bytes_eq_flatMap, hall, String.ofList_toList]

theorem bytes_inj {s t : String} : bytes s = bytes t ↔ s = t := by
  refine ⟨fun h => ?_, congrArg bytes⟩
  rw [← lossy_bytes s, h, lossy_bytes]

/-- Bytes are read as a text if and only if they are its bytes. -/
theorem ofBytes?_eq_some_iff {bs : List UInt8} {s : String} :
    ofBytes? bs = some s ↔ bytes s = bs := by
  rw [ofBytes?]
  constructor
  · intro h
    split at h
    next heq =>
      cases h
      exact heq
    next => cases h
  · rintro rfl
    rw [lossy_bytes, if_pos rfl]

@[simp] theorem ofBytes?_bytes (s : String) : ofBytes? (bytes s) = some s :=
  ofBytes?_eq_some_iff.2 rfl

/-- Bytes that `lossy` does not lose anything of. -/
def IsText (bs : List UInt8) : Prop := bytes (lossy bs) = bs

instance : DecidablePred IsText := fun bs => inferInstanceAs (Decidable (bytes (lossy bs) = bs))

/-- What a character that has been begun is like: it goes on with bytes that are not ASCII, and it
will not become an ASCII character. -/
structure Pending.Sound (p : Pending) : Prop where
  low_le : 128 ≤ p.low.toNat
  large : 2 ≤ if p.more = 0 then p.value else p.value * 64 + (p.low.toNat - 128)

theorem sound_of_lead? {b : UInt8} {p : Pending} (h : lead? b = some p) : p.Sound := by
  rw [lead?] at h
  split_ifs at h <;> cases h
  all_goals refine ⟨by simp, ?_⟩
  all_goals simp
  all_goals omega

theorem sound_of_opening {b : UInt8} {p : Pending} (h : (opening b).2 = some p) : p.Sound := by
  rw [opening] at h
  split at h
  · cases h
  · cases hlead : lead? b with
    | none => simp [hlead] at h
    | some q =>
        rw [hlead] at h
        cases h
        exact sound_of_lead? hlead

theorem Pending.Sound.continue {p q : Pending} {b : UInt8} (h : p.Sound) (hlow : p.low ≤ b)
    (hq : (p.continue b).2 = some q) : q.Sound := by
  have hlarge := h.large
  rw [UInt8.le_iff_toNat_le] at hlow
  rw [Pending.continue] at hq
  cases hmore : p.more with
  | zero => simp [hmore] at hq
  | succ more =>
      rw [hmore] at hq hlarge
      cases hq
      rw [if_neg (Nat.succ_ne_zero more)] at hlarge
      refine ⟨by simp, ?_⟩
      dsimp only
      split <;> omega

theorem sound_feed {state : Option Pending} {b : UInt8} (h : ∀ p ∈ state, p.Sound) :
    ∀ p ∈ (feed state b).2, p.Sound := by
  intro p hp
  cases state with
  | none => exact sound_of_opening hp
  | some q =>
      rw [feed] at hp
      split at hp
      next hrange => exact (h q rfl).continue hrange.1 hp
      next => exact sound_of_opening hp

/-- A slash ends whatever has been begun. -/
theorem decodeFrom_slash {state : Option Pending} (h : ∀ p ∈ state, p.Sound) (bs : List UInt8) :
    decodeFrom state (0x2F :: bs) = decodeFrom state [] ++ '/' :: decodeFrom none bs := by
  cases state with
  | none => exact decodeFrom_ascii (by decide) bs
  | some p =>
      have hnot : ¬ (p.low ≤ 0x2F ∧ 0x2F ≤ p.high) := by
        have hlow := (h p rfl).low_le
        rw [UInt8.le_iff_toNat_le]
        simp
        omega
      rw [decodeFrom_cons, feed, if_neg hnot]
      rfl

theorem decodeFrom_append_slash {state : Option Pending} (h : ∀ p ∈ state, p.Sound)
    (as bs : List UInt8) :
    decodeFrom state (as ++ 0x2F :: bs) = decodeFrom state as ++ '/' :: decodeFrom none bs := by
  induction as generalizing state with
  | nil => exact decodeFrom_slash h bs
  | cons a as ih =>
      rw [List.cons_append, decodeFrom_cons, decodeFrom_cons, ih (sound_feed h), List.append_assoc]

/-- Bytes are read as text on either side of a slash. -/
theorem lossy_slash (as bs : List UInt8) :
    lossy (as ++ 0x2F :: bs) = lossy as ++ "/" ++ lossy bs := by
  rw [lossy, decodeFrom_append_slash (by simp), ← String.toList_inj]
  simp [lossy]

theorem slash_not_mem_opening {b : UInt8} (h : b ≠ 0x2F) : '/' ∉ (opening b).1 := by
  rw [opening]
  split
  next hlt =>
    intro hmem
    rw [UInt8.lt_iff_toNat_lt] at hlt
    have hvalid : b.toNat.isValidChar := .inl (Nat.lt_trans hlt (by decide))
    have htoNat : (Char.ofNat b.toNat).toNat = b.toNat := by
      rw [Char.ofNat, dif_pos hvalid]
      rfl
    rw [← List.mem_singleton.1 hmem] at htoNat
    exact h (UInt8.toNat_inj.1 htoNat.symm)
  next =>
    cases lead? b with
    | none => simp [replacement]
    | some p => simp

theorem ofNat_ne_slash {n : Nat} (h : 128 ≤ n) : Char.ofNat n ≠ '/' := by
  intro hslash
  rw [Char.ofNat] at hslash
  by_cases hvalid : n.isValidChar
  · rw [dif_pos hvalid] at hslash
    have hn : n = 47 := congrArg Char.toNat hslash
    omega
  · rw [dif_neg hvalid] at hslash
    exact absurd hslash (by decide)

theorem slash_not_mem_feed {state : Option Pending} {b : UInt8} (hsound : ∀ p ∈ state, p.Sound)
    (h : b ≠ 0x2F) : '/' ∉ (feed state b).1 := by
  cases state with
  | none => exact slash_not_mem_opening h
  | some p =>
      rw [feed]
      split
      · rw [Pending.continue]
        cases hmore : p.more with
        | zero =>
            have hlarge := (hsound p rfl).large
            rw [hmore, if_pos rfl] at hlarge
            exact fun hmem => ofNat_ne_slash (by omega) (List.mem_singleton.1 hmem).symm
        | succ more => simp
      · have hreplacement : '/' ≠ replacement := by decide
        simp [hreplacement, slash_not_mem_opening h]

/-- Only a slash is read as a slash. -/
theorem slash_not_mem_decodeFrom {state : Option Pending} {bs : List UInt8}
    (hsound : ∀ p ∈ state, p.Sound) (h : 0x2F ∉ bs) : '/' ∉ decodeFrom state bs := by
  induction bs generalizing state with
  | nil =>
      cases state with
      | none => simp
      | some p => simp [decodeFrom, replacement]
  | cons b bs ih =>
      rw [List.mem_cons, not_or] at h
      rw [decodeFrom_cons, List.mem_append, not_or]
      exact ⟨slash_not_mem_feed hsound (Ne.symm h.1), ih (sound_feed hsound) h.2⟩

theorem slash_not_mem_lossy {bs : List UInt8} (h : 0x2F ∉ bs) : '/' ∉ (lossy bs).toList := by
  rw [lossy, String.toList_ofList]
  exact slash_not_mem_decodeFrom (by simp) h

theorem slash_not_mem_bytes {s : String} (h : '/' ∉ s.toList) : 0x2F ∉ bytes s := by
  intro hmem
  obtain ⟨as, bs, hbytes⟩ := List.append_of_mem hmem
  have hslash := lossy_slash as bs
  rw [← hbytes, lossy_bytes] at hslash
  exact h (by simp [hslash])

end Arborist.Text
