import Mathlib

/-!
# URL encoding

`url::encode` replaces the characters of a table by `%` and two hexadecimal digits, `url::decode`
puts them back. The table has `%` itself, so every `%` of an encoded text starts a replacement.
-/

namespace Matador.Url

open List

abbrev Text := List UInt8

def byte (c : Char) : UInt8 := UInt8.ofNat c.toNat

/-! ## Encoding -/

def charToEncMap : List (Char × List Char) :=
  [(' ', ['%', '2', '0']), ('!', ['%', '2', '1']), ('"', ['%', '2', '2']), ('#', ['%', '2', '3']),
   ('$', ['%', '2', '4']), ('%', ['%', '2', '5']), ('&', ['%', '2', '6']), ('\'', ['%', '2', '7']),
   ('(', ['%', '2', '8']), (')', ['%', '2', '9']), ('*', ['%', '2', 'A']), ('+', ['%', '2', 'B']),
   (',', ['%', '2', 'C']), ('-', ['%', '2', 'D']), ('.', ['%', '2', 'E']), ('/', ['%', '2', 'F']),
   (':', ['%', '3', 'A']), (';', ['%', '3', 'B']), ('<', ['%', '3', 'C']), ('=', ['%', '3', 'D']),
   ('>', ['%', '3', 'E']), ('?', ['%', '3', 'F']), ('@', ['%', '4', '0']), ('[', ['%', '5', 'B']),
   ('\\', ['%', '5', 'C']), (']', ['%', '5', 'D']), ('{', ['%', '7', 'B']), ('|', ['%', '7', 'C']),
   ('}', ['%', '7', 'D'])]

/-- What `encode` writes for one character. -/
def encodeChar (b : UInt8) : Text :=
  match charToEncMap.find? (fun e => byte e.1 = b) with
  | none => [b]
  | some e => e.2.map byte

def encode (str : Text) : Text := str.flatMap encodeChar

/-! ## Decoding -/

/-- `isspace` in the C locale. -/
def isSpace (b : UInt8) : Bool := b = 32 || (9 ≤ b && b ≤ 13)

def hexValue (b : UInt8) : Option Nat :=
  if 48 ≤ b ∧ b ≤ 57 then some (b.toNat - 48)
  else if 65 ≤ b ∧ b ≤ 70 then some (b.toNat - 55)
  else if 97 ≤ b ∧ b ≤ 102 then some (b.toNat - 87)
  else none

/-- The digits from the front of a text, in front of which stand digits with value `n`. -/
def hexDigits (n : Nat) : Text → Nat
  | [] => n
  | b :: rest =>
    match hexValue b with
    | some v => hexDigits (16 * n + v) rest
    | none => n

/-- The `0x` that base 16 allows in front of the digits. -/
def skipHexMark : Text → Text
  | 48 :: 120 :: rest => rest
  | 48 :: 88 :: rest => rest
  | s => s

/-- `strtol` with base 16: white space, a sign, a mark and digits; 0 if there are no digits. Texts
are short enough for the result to be in range. -/
def strtol16 (s : Text) : Int :=
  match s.dropWhile isSpace with
  | 45 :: rest => -(hexDigits 0 (skipHexMark rest))
  | 43 :: rest => hexDigits 0 (skipHexMark rest)
  | rest => hexDigits 0 (skipHexMark rest)

/-- `static_cast<char>`. -/
def toChar (n : Int) : UInt8 := UInt8.ofNat (n % 256).toNat

/-- The loop of `url::decode` over the rest of the text; `decoded` is what is written so far. -/
def decodeLoop (decoded : Text) : Text → Bool × Text
  | [] => (true, decoded)
  | c :: rest =>
    if c ≠ byte '%' then decodeLoop (decoded ++ [c]) rest
    else if c = byte '+' then decodeLoop (decoded ++ [byte ' ']) rest
    else
      match rest with
      | high :: low :: rest => decodeLoop (decoded ++ [toChar (strtol16 [high, low])]) rest
      | _ => (false, decoded)

/-- `url::decode`: whether the text was decoded, and what was written. -/
def decode (str : Text) : Bool × Text := decodeLoop [] str

/-! ## Round trip -/

theorem decodeLoop_cons_of_ne {c : UInt8} (h : c ≠ byte '%') (decoded rest : Text) :
    decodeLoop decoded (c :: rest) = decodeLoop (decoded ++ [c]) rest := by
  match rest with
  | [] => simp [decodeLoop, h]
  | [_] => rw [decodeLoop, if_pos h]; nofun
  | _ :: _ :: _ => rw [decodeLoop, if_pos h]

theorem decodeLoop_percent (decoded : Text) (high low : UInt8) (rest : Text) :
    decodeLoop decoded (byte '%' :: high :: low :: rest) =
      decodeLoop (decoded ++ [toChar (strtol16 [high, low])]) rest := by
  rw [decodeLoop, if_neg (by decide), if_neg (by decide)]

theorem charToEncMap_digits : ∀ e ∈ charToEncMap,
    ∃ high low, e.2.map byte = [byte '%', high, low] ∧
    toChar (strtol16 [high, low]) = byte e.1 := by
  intro e he
  have hall : ∀ e ∈ charToEncMap, e.2.map byte =
    [byte '%', byte (e.2.getD 1 ' '), byte (e.2.getD 2 ' ')] ∧
      toChar (strtol16 [byte (e.2.getD 1 ' '), byte (e.2.getD 2 ' ')]) = byte e.1 := by
    decide
  exact ⟨_, _, hall e he⟩

/-- **One character is read back with any text behind it.** -/
theorem decodeLoop_encodeChar (decoded : Text) (b : UInt8) (rest : Text) :
    decodeLoop decoded (encodeChar b ++ rest) = decodeLoop (decoded ++ [b]) rest := by
  unfold encodeChar
  split
  · next hnone =>
    -- a character that is not in the table is no `%`
    have hb : b ≠ byte '%' := by
      rintro rfl
      exact absurd hnone (by decide)
    exact decodeLoop_cons_of_ne hb decoded rest
  · next e hsome =>
    have hkey : byte e.1 = b := by simpa using find?_some hsome
    obtain ⟨high, low, htext, hval⟩ := charToEncMap_digits e (mem_of_find?_eq_some hsome)
    rw [htext]
    exact (decodeLoop_percent decoded high low rest).trans (by rw [hval, hkey])

theorem decodeLoop_encode (decoded str : Text) :
    decodeLoop decoded (encode str) = (true, decoded ++ str) := by
  induction str generalizing decoded with
  | nil => simp [encode, decodeLoop]
  | cons b str ih =>
    have hcons : encode (b :: str) = encodeChar b ++ encode str := flatMap_cons
    rw [hcons, decodeLoop_encodeChar, ih, append_assoc, singleton_append]

/-- **Decoding gives back what was encoded.** -/
theorem url_decode_encode (str : Text) : decode (encode str) = (true, str) :=
  decodeLoop_encode [] str

/-- A `%` without two characters behind it is rejected. -/
example : decode (['a', '%', '4'].map byte) = (false, ['a'].map byte) := by decide

/-! ## What `decode` should do -/

/-- The text with each `%` and two digits replaced by their byte and each `+` by a blank, if every
`%` has its digits. -/
def plain : Text → Option Text
  | [] => some []
  | c :: rest =>
    if c ≠ byte '%' then (plain rest).map ((if c = byte '+' then byte ' ' else c) :: ·)
    else
      match rest with
      | high :: low :: rest => do
        let h ← hexValue high
        let l ← hexValue low
        return UInt8.ofNat (16 * h + l) :: (← plain rest)
      | _ => none

/-- The text is decoded, or rejected, as it should be. -/
def Decodes (str : Text) : Prop := ∀ text, decode str = (true, text) ↔ plain str = some text

/-- The loop meets a `%` with less than two characters behind it. -/
def Cut : Text → Prop
  | [] => False
  | c :: rest =>
    if c ≠ byte '%' then Cut rest
    else
      match rest with
      | _ :: _ :: rest => Cut rest
      | _ => True

def hexChars : Text :=
  ['0', '1', '2', '3', '4', '5', '6', '7', '8', '9', 'A', 'B', 'C', 'D', 'E', 'F', 'a', 'b', 'c',
    'd', 'e', 'f'].map byte

theorem mem_hexChars {b : UInt8} {v : Nat} (h : hexValue b = some v) : b ∈ hexChars := by
  have hall : ∀ n < 256, hexValue (UInt8.ofNat n) ≠ none → UInt8.ofNat n ∈ hexChars := by
    decide +kernel
  simpa [h] using hall b.toNat b.toNat_lt

theorem toChar_strtol16 {high low : UInt8} {h l : Nat} (hh : hexValue high = some h)
    (hl : hexValue low = some l) : toChar (strtol16 [high, low]) = UInt8.ofNat (16 * h + l) := by
  have hall : ∀ high ∈ hexChars, ∀ low ∈ hexChars, ∀ h ∈ hexValue high, ∀ l ∈ hexValue low,
    toChar (strtol16 [high, low]) = UInt8.ofNat (16 * h + l) := by decide +kernel
  exact hall high (mem_hexChars hh) low (mem_hexChars hl) h hh l hl

theorem decodeLoop_of_plain {str text : Text} (decoded : Text) (h : plain str = some text) :
    ∃ text', decodeLoop decoded str = (true, decoded ++ text') ∧
    (text' = text ↔ byte '+' ∉ str) := by
  fun_induction plain str generalizing decoded text with
  | case1 =>
    cases h
    exact ⟨[], by simp [decodeLoop], by simp⟩
  | case2 c rest hc ih =>
    obtain ⟨text, hrest, rfl⟩ := Option.map_eq_some_iff.mp h
    obtain ⟨text', hloop, hiff⟩ := ih (decoded ++ [c]) hrest
    refine ⟨c :: text', by rw [decodeLoop_cons_of_ne hc, hloop, append_assoc]; rfl, ?_⟩
    rw [cons.injEq, hiff, mem_cons, not_or]
    refine and_congr_left fun _ => ?_
    split_ifs with hplus
    · simp [hplus, show ¬ byte '+' = byte ' ' by decide]
    · exact iff_of_true rfl (Ne.symm hplus)
  | case3 c hc high low rest ih =>
    simp only [Option.bind_eq_bind, Option.bind_eq_some_iff, Option.pure_def, Option.some.injEq]
      at h
    obtain ⟨h, hh, l, hl, text, hrest, rfl⟩ := h
    obtain ⟨text', hloop, hiff⟩ := ih (decoded ++ [UInt8.ofNat (16 * h + l)]) hrest
    obtain rfl : c = byte '%' := not_not.mp hc
    refine ⟨UInt8.ofNat (16 * h + l) :: text', ?_, ?_⟩
    · rw [decodeLoop_percent, toChar_strtol16 hh hl, hloop, append_assoc]
      rfl
    · have hdig : ∀ b ∈ hexChars, byte '+' ≠ b := by decide +kernel
      simp [hiff, hdig _ (mem_hexChars hh), hdig _ (mem_hexChars hl),
        show ¬ byte '+' = byte '%' by decide]
  | case4 => cases h

theorem decodeLoop_fst (decoded str : Text) : (decodeLoop decoded str).1 = false ↔ Cut str := by
  fun_induction decodeLoop decoded str with
  | case1 => simp [Cut]
  | case2 decoded c rest hc ih => simp [Cut.eq_def (c :: rest), hc, ih]
  | case3 decoded rest hc => exact absurd hc (by decide)
  | case4 decoded c hc _ high low rest ih => rw [Cut, if_neg hc, ih]
  | case5 decoded c rest hc _ hrest =>
    simp [Cut.eq_def (c :: rest), hc]

/-- **`decode` is right iff a text whose escapes are complete has no `+`, and in any other text the
loop meets a `%` close to the end.** -/
theorem decodes_iff (str : Text) : Decodes str ↔
    ((plain str).isSome → byte '+' ∉ str) ∧ (plain str = none → Cut str) := by
  unfold Decodes decode
  cases hpln : plain str with
  | some text =>
    obtain ⟨text', hloop, hiff⟩ := decodeLoop_of_plain [] hpln
    rw [hloop, ← hiff]
    simp
  | none =>
    rw [← decodeLoop_fst []]
    cases decodeLoop [] str with
    | mk ret text => cases ret <;> simp

/-- A `+` is kept, and `%zz` is taken for a zero. -/
theorem not_decodes_plus : ¬ Decodes [byte '+'] ∧ ¬ Decodes (['%', 'z', 'z'].map byte) :=
  ⟨fun h => absurd ((h _).mpr rfl) (by decide), fun h => absurd ((h _).mp rfl) (by decide)⟩

end Matador.Url
