import Mathlib
import BlobCensus.Text.Utf8

/-!
# Encoded texts

The bytes of a text are read back as the text, character by character: after the bytes of a character
no other is open, so what follows is read as if it stood alone. And they are ordered as the characters
are: of two characters the smaller one has the smaller byte at the first place where their bytes differ.
-/
namespace BlobCensus

namespace Utf8

/-- A value below the surrogates or above them is a character's. -/
theorem toNat_valid (c : Char) : c.val.toNat < 0xD800 ∨ 0xDFFF < c.val.toNat ∧ c.val.toNat < 0x110000 :=
  c.valid

theorem decodeFrom_cons (begun : Option Begun) (byte : UInt8) (rest : List UInt8) :
    decodeFrom begun (byte :: rest) =
      (step begun byte).settled ++ decodeFrom (step begun byte).begun rest := rfl

section Bytes

variable {n value low high owed : ℕ}

theorem toNat_byte (hn : n < 256) : (UInt8.ofNat n).toNat = n := UInt8.toNat_ofNat_of_lt hn

/-- A byte that continues the open character. -/
theorem step_open (hlow : low ≤ n) (hhigh : n ≤ high) (hn : n < 256) :
    step (some ⟨value, low, high, owed⟩) (.ofNat n) =
      if owed ≤ 1 then ⟨[some (Char.ofNat (value * 64 + (n - 0x80)))], none⟩
      else ⟨[], some ⟨value * 64 + (n - 0x80), 0x80, 0xBF, owed - 1⟩⟩ := by
  simp only [step, toNat_byte hn, if_pos (And.intro hlow hhigh)]

theorem start_one (h : n < 0x80) : start (.ofNat n) = ⟨[some (Char.ofNat n)], none⟩ := by
  have hbyte : (UInt8.ofNat n).toNat = n := toNat_byte (by omega)
  simp only [start, hbyte, if_pos h]

theorem start_two (hlow : 0xC2 ≤ n) (hhigh : n < 0xE0) :
    start (.ofNat n) = ⟨[], some ⟨n - 0xC0, 0x80, 0xBF, 1⟩⟩ := by
  have hbyte : (UInt8.ofNat n).toNat = n := toNat_byte (by omega)
  simp only [start, hbyte]
  rw [if_neg (by omega), if_neg (by omega), if_pos hhigh]

/-- The first byte of three. The second is at least `next` unless the character has a shorter form,
and at most `next` unless it is a surrogate. -/
theorem start_three (n next : ℕ) (hlow : 0xE0 ≤ n) (hhigh : n < 0xF0) (hnext : 0x80 ≤ next ∧ next ≤ 0xBF)
    (long : n = 0xE0 → 0xA0 ≤ next) (proper : n = 0xED → next ≤ 0x9F) :
    ∃ low high, start (.ofNat n) = ⟨[], some ⟨n - 0xE0, low, high, 2⟩⟩ ∧ low ≤ next ∧ next ≤ high := by
  have hbyte : (UInt8.ofNat n).toNat = n := toNat_byte (by omega)
  simp only [start, hbyte]
  rw [if_neg (by omega), if_neg (by omega), if_neg (by omega)]
  by_cases hfirst : n = 0xE0
  · subst hfirst
    exact ⟨0xA0, 0xBF, rfl, long rfl, hnext.2⟩
  · rw [if_neg hfirst]
    by_cases hlast : n = 0xED
    · subst hlast
      exact ⟨0x80, 0x9F, rfl, hnext.1, proper rfl⟩
    · rw [if_neg hlast, if_pos hhigh]
      exact ⟨0x80, 0xBF, rfl, hnext⟩

/-- The first byte of four. The second is at least `next` unless the character has a shorter form, and
at most `next` unless there is no such character. -/
theorem start_four (n next : ℕ) (hlow : 0xF0 ≤ n) (hhigh : n ≤ 0xF4) (hnext : 0x80 ≤ next ∧ next ≤ 0xBF)
    (long : n = 0xF0 → 0x90 ≤ next) (proper : n = 0xF4 → next ≤ 0x8F) :
    ∃ low high, start (.ofNat n) = ⟨[], some ⟨n - 0xF0, low, high, 3⟩⟩ ∧ low ≤ next ∧ next ≤ high := by
  have hbyte : (UInt8.ofNat n).toNat = n := toNat_byte (by omega)
  simp only [start, hbyte]
  rw [if_neg (by omega), if_neg (by omega), if_neg (by omega), if_neg (by omega),
    if_neg (by omega), if_neg (by omega)]
  by_cases hfirst : n = 0xF0
  · subst hfirst
    exact ⟨0x90, 0xBF, rfl, long rfl, hnext.2⟩
  · rw [if_neg hfirst]
    by_cases hlast : n = 0xF4
    · subst hlast
      exact ⟨0x80, 0x8F, rfl, hnext.1, proper rfl⟩
    · rw [if_pos (by omega)]
      exact ⟨0x80, 0xBF, rfl, hnext⟩

end Bytes

theorem decodeFrom_utf8EncodeChar (c : Char) (rest : List UInt8) :
    decodeFrom none (String.utf8EncodeChar c ++ rest) = some c :: decodeFrom none rest := by
  have hvalid := toNat_valid c
  have hself : Char.ofNat c.val.toNat = c := Char.ofNat_toNat c
  rw [String.utf8EncodeChar]
  generalize c.val.toNat = v at hvalid hself
  split
  · rw [List.singleton_append, decodeFrom_cons, step, start_one (by omega), hself]
    rfl
  split
  · have hvalue : (v / 64 % 32 + 192 - 0xC0) * 64 + (v % 64 + 128 - 0x80) = v := by omega
    simp only [List.cons_append, List.nil_append, decodeFrom_cons]
    rw [step, start_two (by omega) (by omega)]
    simp only
    rw [step_open (by omega) (by omega) (by omega), hvalue, hself]
    rfl
  split
  · obtain ⟨low, high, hstart, hlow, hhigh⟩ := start_three (v / 4096 % 16 + 224)
      (v / 64 % 64 + 128) (by omega) (by omega) (by omega) (by omega) (by omega)
    have hvalue : ((v / 4096 % 16 + 224 - 0xE0) * 64 + (v / 64 % 64 + 128 - 0x80)) * 64 +
        (v % 64 + 128 - 0x80) = v := by omega
    simp only [List.cons_append, List.nil_append, decodeFrom_cons]
    rw [step, hstart]
    simp only
    rw [step_open hlow hhigh (by omega)]
    simp only [Nat.reduceLeDiff, if_false]
    rw [step_open (by omega) (by omega) (by omega), hvalue, hself]
    rfl
  · obtain ⟨low, high, hstart, hlow, hhigh⟩ := start_four (v / 262144 % 8 + 240)
      (v / 4096 % 64 + 128) (by omega) (by omega) (by omega) (by omega) (by omega)
    have hvalue : (((v / 262144 % 8 + 240 - 0xF0) * 64 + (v / 4096 % 64 + 128 - 0x80)) * 64 +
        (v / 64 % 64 + 128 - 0x80)) * 64 + (v % 64 + 128 - 0x80) = v := by omega
    simp only [List.cons_append, List.nil_append, decodeFrom_cons]
    rw [step, hstart]
    simp only
    rw [step_open hlow hhigh (by omega)]
    simp only [Nat.reduceLeDiff, if_false, Nat.reduceSub]
    rw [step_open (by omega) (by omega) (by omega)]
    simp only [Nat.reduceLeDiff, if_false, Nat.reduceSub]
    rw [step_open (by omega) (by omega) (by omega), hvalue, hself]
    rfl

/-- The bytes of a text are the bytes of its characters, and nothing else. -/
theorem decode_encode (text : String) : decode (encode text) = text.toList.map some := by
  unfold decode encode
  induction text.toList with
  | nil => rfl
  | cons c rest ih => rw [List.flatMap_cons, decodeFrom_utf8EncodeChar, ih, List.map_cons]

theorem decode?_encode (text : String) : decode? (encode text) = some text := by
  have hall : (text.toList.map some).all Option.isSome = true := by simp
  have htext : (text.toList.map some).filterMap id = text.toList := by simp
  simp only [decode?, decode_encode, hall, if_true, htext, String.ofList_toList]

theorem encode_injective : Function.Injective encode := by
  intro text other h
  have hread := congrArg decode? h
  rw [decode?_encode, decode?_encode] at hread
  exact Option.some.inj hread

theorem encode_append (text more : String) : encode (text ++ more) = encode text ++ encode more := by
  simp [encode]

theorem cons_ofNat_lt {a b : ℕ} {s t : List UInt8} (hb : b < 256) (hle : a ≤ b) (h : a = b → s < t) :
    UInt8.ofNat a :: s < UInt8.ofNat b :: t := by
  rw [List.cons_lt_cons_iff]
  rcases hle.lt_or_eq with hlt | rfl
  · left
    rwa [UInt8.lt_iff_toNat_lt, toNat_byte (by omega), toNat_byte hb]
  · exact .inr ⟨rfl, h rfl⟩

/-- The bytes of a smaller character stand first, whatever comes behind. -/
theorem utf8EncodeChar_lt {c d : Char} (h : c < d) (s t : List UInt8) :
    String.utf8EncodeChar c ++ s < String.utf8EncodeChar d ++ t := by
  have hlt : c.val.toNat < d.val.toNat := h
  have hd := toNat_valid d
  rw [String.utf8EncodeChar, String.utf8EncodeChar]
  generalize c.val.toNat = v at hlt
  generalize d.val.toNat = u at hlt hd
  split
  · split
    · exact cons_ofNat_lt (by omega) (by omega) (by omega)
    split
    · exact cons_ofNat_lt (by omega) (by omega) (by omega)
    split
    · exact cons_ofNat_lt (by omega) (by omega) (by omega)
    · exact cons_ofNat_lt (by omega) (by omega) (by omega)
  split
  · rw [if_neg (by omega)]
    split
    · refine cons_ofNat_lt (by omega) (by omega) fun hfirst => ?_
      exact cons_ofNat_lt (by omega) (by omega) (by omega)
    split
    · exact cons_ofNat_lt (by omega) (by omega) (by omega)
    · exact cons_ofNat_lt (by omega) (by omega) (by omega)
  split
  · rw [if_neg (by omega), if_neg (by omega)]
    split
    · refine cons_ofNat_lt (by omega) (by omega) fun hfirst => ?_
      refine cons_ofNat_lt (by omega) (by omega) fun hsecond => ?_
      exact cons_ofNat_lt (by omega) (by omega) (by omega)
    · exact cons_ofNat_lt (by omega) (by omega) (by omega)
  · rw [if_neg (by omega), if_neg (by omega), if_neg (by omega)]
    refine cons_ofNat_lt (by omega) (by omega) fun hfirst => ?_
    refine cons_ofNat_lt (by omega) (by omega) fun hsecond => ?_
    refine cons_ofNat_lt (by omega) (by omega) fun hthird => ?_
    exact cons_ofNat_lt (by omega) (by omega) (by omega)

theorem utf8EncodeChar_ne_nil (c : Char) : String.utf8EncodeChar c ≠ [] := by
  rw [← List.length_pos_iff, String.length_utf8EncodeChar]
  exact c.utf8Size_pos

theorem flatMap_utf8EncodeChar_lt {a b : List Char} (h : a < b) :
    a.flatMap String.utf8EncodeChar < b.flatMap String.utf8EncodeChar := by
  induction a generalizing b with
  | nil =>
    cases b with
    | nil => exact absurd h (List.lt_irrefl _)
    | cons d b =>
      obtain ⟨byte, bytes, hbytes⟩ := List.exists_cons_of_ne_nil (utf8EncodeChar_ne_nil d)
      rw [List.flatMap_cons, hbytes]
      exact List.nil_lt_cons _ _
  | cons c a ih =>
    cases b with
    | nil => exact absurd h (List.not_lt_nil _)
    | cons d b =>
      rw [List.flatMap_cons, List.flatMap_cons]
      rcases List.cons_lt_cons_iff.mp h with hlt | ⟨rfl, hlt⟩
      · exact utf8EncodeChar_lt hlt _ _
      · exact List.append_left_lt (ih hlt)

/-- Texts stand in the order of their bytes. -/
theorem encode_lt_iff {a b : String} : encode a < encode b ↔ a < b := by
  refine ⟨fun h => ?_, fun h => flatMap_utf8EncodeChar_lt (String.lt_iff.mp h)⟩
  rcases lt_trichotomy a b with hlt | rfl | hgt
  · exact hlt
  · exact absurd h (List.lt_irrefl _)
  · exact absurd (flatMap_utf8EncodeChar_lt (String.lt_iff.mp hgt)) (List.lt_asymm h)

end Utf8

end BlobCensus
