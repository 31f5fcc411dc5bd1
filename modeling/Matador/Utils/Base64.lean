import Mathlib

/-!
# Base64

`base64` packs three bytes into four characters and back. The decoder leaves out every byte that is
zero, which is how it gets rid of the padding, and its table has 64 where 63 belongs, at the
character `/`.
-/

namespace Matador.Base64

open List

/-- `base64_type`. -/
inductive Base64Type
  | base64
  | base64url
  deriving DecidableEq, Repr

/-- The letters and digits of `code_base`. -/
def codeBaseCommon : List Char :=
  ['A', 'B', 'C', 'D', 'E', 'F', 'G', 'H', 'I', 'J', 'K', 'L', 'M',
   'N', 'O', 'P', 'Q', 'R', 'S', 'T', 'U', 'V', 'W', 'X', 'Y', 'Z',
   'a', 'b', 'c', 'd', 'e', 'f', 'g', 'h', 'i', 'j', 'k', 'l', 'm',
   'n', 'o', 'p', 'q', 'r', 's', 't', 'u', 'v', 'w', 'x', 'y', 'z',
   '0', '1', '2', '3', '4', '5', '6', '7', '8', '9']

def codeBase (type : Base64Type) : List UInt8 :=
  (codeBaseCommon ++ match type with
    | .base64 => ['+', '/']
    | .base64url => ['-', '_']).map fun c => UInt8.ofNat c.toNat

def charMap2 : List Nat :=
  [62,  0, 62,  0, 64, 52, 53, 54, 55, 56, 57, 58, 59, 60, 61, 0,  0,  0,  0,  0,  0,  0,
    0,  1,  2,  3,  4,  5,  6,  7,  8,  9, 10,
   11, 12, 13, 14, 15, 16, 17, 18, 19, 20, 21,
   22, 23, 24, 25, 0,  0,  0,  0, 63,  0,
   26, 27, 28, 29, 30, 31, 32, 33, 34, 35, 36,
   37, 38, 39, 40, 41, 42, 43, 44, 45, 46, 47,
   48, 49, 50, 51]

def charOffset : Nat := 43

/-! ## Encoding -/

/-- The array `out` of `encode_pack`. -/
def packOut (a b c : UInt8) : List UInt8 :=
  [(a &&& 0xfc) >>> 2, ((a &&& 0x03) <<< 4) + ((b &&& 0xf0) >>> 4),
    ((b &&& 0x0f) <<< 2) + ((c &&& 0xc0) >>> 6),
   c &&& 0x3f]

def encodePack (type : Base64Type) (a b c : UInt8) (rangeMax : Nat) : List UInt8 :=
  ((packOut a b c).take rangeMax).map fun o => (codeBase type).getD o.toNat 0

/-- The result so far and the bytes in `pack3`. -/
abbrev Packing := List UInt8 × List UInt8

/-- One round of the loop of `encode`. -/
def encodeStep (type : Base64Type) (s : Packing) (byte : UInt8) : Packing :=
  match s.2 with
  | [a, b] => (s.1 ++ encodePack type a b byte 4, [])
  | pack => (s.1, pack ++ [byte])

def fillChar : Base64Type → UInt8
  | .base64 => 61
  | .base64url => 46

/-- What `encode` does behind the loop. -/
def encodeRest (type : Base64Type) (s : Packing) : List UInt8 :=
  match s.2 with
  | [] => s.1
  | pack =>
    s.1 ++ encodePack type (pack.getD 0 0) (pack.getD 1 0) (pack.getD 2 0) (pack.length + 1) ++
      replicate (3 - pack.length) (fillChar type)

/-- `encode(str, size, type)`. -/
def encodeAs (type : Base64Type) (str : List UInt8) : List UInt8 :=
  encodeRest type (str.foldl (encodeStep type) ([], []))

def encode (str : List UInt8) : List UInt8 := encodeAs .base64 str

def encodeUrl (str : List UInt8) : List UInt8 := encodeAs .base64url str

/-! ## Decoding -/

/-- `char_map2[c - char_offset]`; the table has no other indices. -/
def charMap (c : UInt8) : Option Nat :=
  if charOffset ≤ c.toNat then charMap2[c.toNat - charOffset]? else none

/-- The array `out` of `decode_pack`, without the zeros. -/
def unpack (m₀ m₁ m₂ m₃ : Nat) : List UInt8 :=
  [UInt8.ofNat ((m₀ <<< 2) + ((m₁ &&& 0x30) >>> 4)),
    UInt8.ofNat (((m₁ &&& 0x0f) <<< 4) + ((m₂ &&& 0x3c) >>> 2)),
   UInt8.ofNat (((m₂ &&& 0x03) <<< 6) + m₃)].filter (· != 0)

def decodePack (a b c d : UInt8) : Option (List UInt8) := do
  let m₀ ← charMap a
  let m₁ ← charMap b
  let m₂ ← charMap c
  let m₃ ← charMap d
  some (unpack m₀ m₁ m₂ m₃)

/-- One round of the loop of `decode`. -/
def decodeStep (s : Packing) (c : UInt8) : Option Packing :=
  match s.2 with
  | [x, y, z] => (decodePack x y z c).map fun out => (s.1 ++ out, [])
  | pack => some (s.1, pack ++ [c])

/-- `base64::decode`. What is left in `pack4` is dropped. -/
def decode (str : List UInt8) : Option (List UInt8) :=
  (str.foldlM decodeStep ([], [])).map Prod.fst

/-! ## The loops, pack by pack -/

theorem foldl_encodeStep (type : Base64Type) (str result : List UInt8) (pack : List UInt8) :
    str.foldl (encodeStep type) (result, pack) =
      (result ++ (str.foldl (encodeStep type) ([], pack)).1,
        (str.foldl (encodeStep type) ([], pack)).2) := by
  induction str generalizing result pack with
  | nil => simp
  | cons byte str ih =>
    have hstep : encodeStep type (result, pack) byte =
        (result ++ (encodeStep type ([], pack) byte).1, (encodeStep type ([], pack) byte).2) := by
      unfold encodeStep
      dsimp only
      split <;> simp
    rw [foldl_cons, foldl_cons, hstep, ih, ih (encodeStep type ([], pack) byte).1, append_assoc]

theorem encodeAs_cons (type : Base64Type) (a b c : UInt8) (str : List UInt8) :
    encodeAs type (a :: b :: c :: str) = encodePack type a b c 4 ++ encodeAs type str := by
  have hloop : (a :: b :: c :: str).foldl (encodeStep type) ([], []) =
      str.foldl (encodeStep type) (encodePack type a b c 4, []) := rfl
  rw [encodeAs, hloop, foldl_encodeStep, encodeAs]
  unfold encodeRest
  dsimp only
  split
  · rfl
  · simp only [append_assoc]

theorem foldlM_decodeStep (str result pack : List UInt8) : str.foldlM decodeStep (result, pack) =
      (str.foldlM decodeStep ([], pack)).map fun s => (result ++ s.1, s.2) := by
  induction str generalizing result pack with
  | nil => simp
  | cons c str ih =>
    have hstep : decodeStep (result, pack) c = (decodeStep ([], pack) c).map fun s =>
        (result ++ s.1, s.2) := by
      unfold decodeStep
      dsimp only
      split
      · rw [Option.map_map]
        rfl
      · simp
    rw [foldlM_cons, foldlM_cons, hstep]
    cases decodeStep ([], pack) c with
    | none => rfl
    | some s =>
      obtain ⟨out, pack'⟩ := s
      show str.foldlM decodeStep (result ++ out, pack') = (str.foldlM decodeStep (out, pack')).map _
      rw [ih, ih out]
      simp [Function.comp_def]

theorem decode_cons (a b c d : UInt8) (str : List UInt8) : decode (a :: b :: c :: d :: str) =
      (decodePack a b c d).bind fun out => (decode str).map (out ++ ·) := by
  have hloop : (a :: b :: c :: d :: str).foldlM decodeStep ([], []) =
      ((decodePack a b c d).map fun out => (out, ([] : List UInt8))).bind (str.foldlM decodeStep) :=
        rfl
  rw [decode, hloop]
  cases decodePack a b c d with
  | none => rfl
  | some out =>
    show (str.foldlM decodeStep (out, [])).map Prod.fst = (decode str).map (out ++ ·)
    rw [foldlM_decodeStep, decode, Option.map_map, Option.map_map]
    rfl

/-! ## The tables -/

/-- The number the decoder reads where `x` has been written. -/
def read (type : Base64Type) (x : Nat) : Nat :=
  if type = .base64 ∧ x = 63 then 64 else x

set_option maxRecDepth 2000 in
theorem map_charMap_codeBase (type : Base64Type) :
    (codeBase type).map charMap = (range 64).map fun x => some (read type x) := by
  cases type <;> decide

theorem charMap_codeBase (type : Base64Type) {x : Nat} (hx : x < 64) :
    charMap ((codeBase type).getD x 0) = some (read type x) := by
  have hmap := map_charMap_codeBase type
  have hlen : x < (codeBase type).length := by
    have := congrArg length hmap
    rw [length_map, length_map, length_range] at this
    omega
  have hget := congrArg (fun l => l[x]?) hmap
  simp only [getElem?_map, getElem?_range hx, Option.map_some, getElem?_eq_getElem hlen,
    Option.some.injEq] at hget
  rw [getD_eq_getElem?_getD, getElem?_eq_getElem hlen, Option.getD_some, hget]

theorem charMap_fillChar (type : Base64Type) : charMap (fillChar type) = some 0 := by
  cases type <;> rfl

/-- The numbers of six bits in a byte string, the highest bits first. -/
def sextets : List UInt8 → List Nat
  | a :: b :: c :: str =>
    a.toNat / 4 :: (a.toNat % 4 * 16 + b.toNat / 16) :: (b.toNat % 16 * 4 + c.toNat / 64) ::
      c.toNat % 64 :: sextets str
  | [a, b] => [a.toNat / 4, a.toNat % 4 * 16 + b.toNat / 16, b.toNat % 16 * 4]
  | [a] => [a.toNat / 4, a.toNat % 4 * 16]
  | [] => []

/-! ## One pack -/

theorem forall_byte {p : UInt8 → Prop} (h : ∀ i : Fin 256, p (UInt8.ofFin i)) (a : UInt8) :
    p a := h a.toFin

section Bits

set_option maxRecDepth 4000

theorem high_six : ∀ a : UInt8, ((a &&& 0xfc) >>> 2).toNat = a.toNat / 4 := forall_byte (by decide)

theorem low_two : ∀ a : UInt8, ((a &&& 0x03) <<< 4).toNat = a.toNat % 4 * 16 :=
  forall_byte (by decide)

theorem high_four : ∀ a : UInt8, ((a &&& 0xf0) >>> 4).toNat = a.toNat / 16 :=
  forall_byte (by decide)

theorem low_four : ∀ a : UInt8, ((a &&& 0x0f) <<< 2).toNat = a.toNat % 16 * 4 :=
  forall_byte (by decide)

theorem high_two : ∀ a : UInt8, ((a &&& 0xc0) >>> 6).toNat = a.toNat / 64 := forall_byte (by decide)

theorem low_six : ∀ a : UInt8, (a &&& 0x3f).toNat = a.toNat % 64 := forall_byte (by decide)

end Bits

theorem packOut_eq (a b c : UInt8) : (packOut a b c).map UInt8.toNat =
    [a.toNat / 4, a.toNat % 4 * 16 + b.toNat / 16, b.toNat % 16 * 4 + c.toNat / 64,
      c.toNat % 64] := by
  have hb := b.toNat_lt
  have hc := c.toNat_lt
  have hmid : (((a &&& 0x03) <<< 4) + ((b &&& 0xf0) >>> 4)).toNat =
      a.toNat % 4 * 16 + b.toNat / 16 := by
    rw [UInt8.toNat_add, low_two, high_four]
    omega
  have hlow : (((b &&& 0x0f) <<< 2) + ((c &&& 0xc0) >>> 6)).toNat =
      b.toNat % 16 * 4 + c.toNat / 64 := by
    rw [UInt8.toNat_add, low_four, high_two]
    omega
  simp only [packOut, map_cons, map_nil, high_six, hmid, hlow, low_six]

theorem exists_encodePack (type : Base64Type) (a b c : UInt8) :
    ∃ w x y z, (∀ n, encodePack type a b c n = [w, x, y, z].take n) ∧
    charMap w = some (read type (a.toNat / 4)) ∧
      charMap x = some (read type (a.toNat % 4 * 16 + b.toNat / 16)) ∧
      charMap y = some (read type (b.toNat % 16 * 4 + c.toNat / 64)) ∧
      charMap z = some (read type (c.toNat % 64)) := by
  have ha := a.toNat_lt
  have hb := b.toNat_lt
  have hc := c.toNat_lt
  have hout := packOut_eq a b c
  simp only [packOut, map_cons, map_nil, cons.injEq, and_true] at hout
  obtain ⟨hw, hx, hy, hz⟩ := hout
  refine ⟨_, _, _, _, fun n => by rw [encodePack, map_take]; rfl, ?_, ?_, ?_, ?_⟩
  · dsimp only
    rw [hw, charMap_codeBase type (by omega)]
  · dsimp only
    rw [hx, charMap_codeBase type (by omega)]
  · dsimp only
    rw [hy, charMap_codeBase type (by omega)]
  · dsimp only
    rw [hz, charMap_codeBase type (by omega)]

theorem decode_pack {w x y z : UInt8} {m₀ m₁ m₂ m₃ : Nat} (hw : charMap w = some m₀)
    (hx : charMap x = some m₁) (hy : charMap y = some m₂) (hz : charMap z = some m₃)
    (str : List UInt8) :
    decode (w :: x :: y :: z :: str) = (decode str).map (unpack m₀ m₁ m₂ m₃ ++ ·) := by
  have hpack : decodePack w x y z = some (unpack m₀ m₁ m₂ m₃) := by
    rw [decodePack, hw, hx, hy, hz]
    rfl
  rw [decode_cons, hpack, Option.bind_some]

def readBack (type : Base64Type) : List UInt8 → List UInt8
  | a :: b :: c :: str =>
    unpack (read type (a.toNat / 4)) (read type (a.toNat % 4 * 16 + b.toNat / 16))
      (read type (b.toNat % 16 * 4 + c.toNat / 64)) (read type (c.toNat % 64)) ++ readBack type str
  | [a, b] =>
    unpack (read type (a.toNat / 4)) (read type (a.toNat % 4 * 16 + b.toNat / 16))
      (read type (b.toNat % 16 * 4)) 0
  | [a] => unpack (read type (a.toNat / 4)) (read type (a.toNat % 4 * 16)) 0 0
  | [] => []

theorem decode_encode (type : Base64Type) (str : List UInt8) :
    decode (encodeAs type str) = some (readBack type str) := by
  induction str using readBack.induct with
  | case1 a b c str ih =>
    obtain ⟨w, x, y, z, hpack, hw, hx, hy, hz⟩ := exists_encodePack type a b c
    rw [encodeAs_cons, hpack 4]
    refine (decode_pack hw hx hy hz (encodeAs type str)).trans ?_
    rw [ih]
    rfl
  | case2 a b =>
    obtain ⟨w, x, y, z, hpack, hw, hx, hy, -⟩ := exists_encodePack type a b 0
    have henc : encodeAs type [a, b] = encodePack type a b 0 3 ++ [fillChar type] := rfl
    rw [henc, hpack 3]
    exact (decode_pack hw hx hy (charMap_fillChar type) []).trans (congrArg some (append_nil _))
  | case3 a =>
    obtain ⟨w, x, y, z, hpack, hw, hx, -, -⟩ := exists_encodePack type a 0 0
    have henc : encodeAs type [a] = encodePack type a 0 0 2 ++ [fillChar type, fillChar type] := rfl
    rw [henc, hpack 2]
    exact (decode_pack hw hx (charMap_fillChar type) (charMap_fillChar type) []).trans
      (congrArg some (append_nil _))
  | case4 => rfl

/-! ## When the text comes back -/

theorem filter_eq_iff {outs str : List UInt8} (hlen : outs.length = str.length) :
    outs.filter (· != 0) = str ↔ outs = str ∧ 0 ∉ str := by
  constructor
  · intro h
    have hself : outs.filter (· != 0) = outs := by
      refine filter_eq_self.mpr (length_filter_eq_length_iff.mp ?_)
      rw [h, hlen]
    have hmem : ∀ x ∈ outs, (x != 0) := filter_eq_self.mp hself
    rw [hself] at h
    refine ⟨h, fun h0 => ?_⟩
    rw [← h] at h0
    exact absurd (hmem 0 h0) (by decide)
  · rintro ⟨rfl, h0⟩
    exact filter_eq_self.mpr fun x hx => bne_iff_ne.mpr fun hx0 => h0 (hx0 ▸ hx)

theorem unpack_eq {m₀ m₁ m₂ : Nat} (h₀ : m₀ ≤ 64) (h₁ : m₁ ≤ 64) (h₂ : m₂ ≤ 64) (m₃ : Nat) :
    unpack m₀ m₁ m₂ m₃ =
      [UInt8.ofNat (m₀ * 4 + m₁ / 16 % 4), UInt8.ofNat (m₁ % 16 * 16 + m₂ / 4 % 16),
        UInt8.ofNat (m₂ % 4 * 64 + m₃)].filter (· != 0) := by
  have hbits : ∀ m : Fin 65, (m : Nat) <<< 2 = m * 4 ∧ ((m : Nat) &&& 0x30) >>> 4 = m / 16 % 4 ∧
      ((m : Nat) &&& 0x0f) <<< 4 = m % 16 * 16 ∧ ((m : Nat) &&& 0x3c) >>> 2 = m / 4 % 16 ∧
      ((m : Nat) &&& 0x03) <<< 6 = m % 4 * 64 := by decide
  obtain ⟨hshi, -⟩ := hbits ⟨m₀, by omega⟩
  obtain ⟨-, hhigh, hlow, -⟩ := hbits ⟨m₁, by omega⟩
  obtain ⟨-, -, -, hmid, htwo⟩ := hbits ⟨m₂, by omega⟩
  rw [unpack, hshi, hhigh, hlow, hmid, htwo]

theorem read_le (type : Base64Type) {x : Nat} (hx : x < 64) : read type x ≤ 64 := by
  unfold read
  split <;> omega

theorem ofNat_eq_iff (n : Nat) (a : UInt8) : UInt8.ofNat n = a ↔ n % 256 = a.toNat := by
  rw [← UInt8.toNat_inj, UInt8.toNat_ofNat']

/-- What the decoder makes of an encoded text, before the zeros are left out. -/
def bytesBack (type : Base64Type) : List UInt8 → List UInt8
  | a :: b :: c :: str =>
    let m₁ := read type (a.toNat % 4 * 16 + b.toNat / 16)
    let m₂ := read type (b.toNat % 16 * 4 + c.toNat / 64)
    UInt8.ofNat (read type (a.toNat / 4) * 4 + m₁ / 16 % 4) ::
      UInt8.ofNat (m₁ % 16 * 16 + m₂ / 4 % 16) ::
      UInt8.ofNat (m₂ % 4 * 64 + read type (c.toNat % 64)) :: bytesBack type str
  | [a, b] =>
    let m₁ := read type (a.toNat % 4 * 16 + b.toNat / 16)
    [UInt8.ofNat (read type (a.toNat / 4) * 4 + m₁ / 16 % 4),
      UInt8.ofNat (m₁ % 16 * 16 + b.toNat % 16)]
  | [a] => [UInt8.ofNat (read type (a.toNat / 4) * 4 + a.toNat % 4)]
  | [] => []

variable (type : Base64Type)

theorem length_bytesBack (str : List UInt8) : (bytesBack type str).length = str.length := by
  induction str using sextets.induct with
  | case1 a b c str ih => simp only [bytesBack, length_cons, ih]
  | case2 => rfl
  | case3 => rfl
  | case4 => rfl

theorem readBack_eq (str : List UInt8) :
    readBack type str = (bytesBack type str).filter (· != 0) := by
  induction str using sextets.induct with
  | case1 a b c str ih =>
    have ha := a.toNat_lt
    have hb := b.toNat_lt
    have hc := c.toNat_lt
    rw [readBack, unpack_eq (read_le type (by omega)) (read_le type (by omega))
      (read_le type (by omega)), ih, ← filter_append]
    rfl
  | case2 a b =>
    have ha := a.toNat_lt
    have hb := b.toNat_lt
    -- the third byte is zero
    have hlast : read type (b.toNat % 16 * 4) = b.toNat % 16 * 4 := if_neg (by omega)
    have hfour : b.toNat % 16 * 4 / 4 % 16 = b.toNat % 16 := by omega
    have hzero : b.toNat % 16 * 4 % 4 * 64 + 0 = 0 := by omega
    rw [readBack, hlast, unpack_eq (read_le type (by omega)) (read_le type (by omega)) (by omega),
      hfour, hzero]
    rfl
  | case3 a =>
    have ha := a.toNat_lt
    have hlast : read type (a.toNat % 4 * 16) = a.toNat % 4 * 16 := if_neg (by omega)
    have hfour : a.toNat % 4 * 16 / 16 % 4 = a.toNat % 4 := by omega
    have hzero : a.toNat % 4 * 16 % 16 * 16 + 0 / 4 % 16 = 0 := by omega
    rw [readBack, hlast, unpack_eq (read_le type (by omega)) (by omega) (by omega), hfour, hzero]
    rfl
  | case4 => rfl

theorem bytesBack_iff (str : List UInt8) :
    bytesBack type str = str ↔ (type = .base64 → 63 ∉ sextets str) := by
  induction str using sextets.induct with
  | case1 a b c str ih =>
    have ha := a.toNat_lt
    have hb := b.toNat_lt
    have hc := c.toNat_lt
    simp only [bytesBack, cons.injEq, ih, ofNat_eq_iff, sextets, mem_cons, read]
    cases type with
    | base64url => simp; omega
    | base64 =>
      by_cases hstr : 63 ∈ sextets str
      · simp [hstr]
      · simp only [true_and, true_implies, hstr, or_false, not_false_eq_true, and_true]
        split_ifs <;> omega
  | case2 a b =>
    have ha := a.toNat_lt
    have hb := b.toNat_lt
    simp only [bytesBack, cons.injEq, and_true, ofNat_eq_iff, sextets, mem_cons, not_mem_nil,
      or_false, read]
    cases type with
    | base64url => simp; omega
    | base64 =>
      simp only [true_and, true_implies]
      split_ifs <;> omega
  | case3 a =>
    have ha := a.toNat_lt
    simp only [bytesBack, cons.injEq, and_true, ofNat_eq_iff, sextets, mem_cons, not_mem_nil,
      or_false, read]
    cases type with
    | base64url => simp; omega
    | base64 =>
      simp only [true_and, true_implies]
      split_ifs <;> omega
  | case4 => simp [bytesBack, sextets]

theorem readBack_iff (str : List UInt8) :
    readBack type str = str ↔ 0 ∉ str ∧ (type = .base64 → 63 ∉ sextets str) := by
  rw [readBack_eq, filter_eq_iff (length_bytesBack type str), bytesBack_iff, and_comm]

/-- **A byte string comes back from both encodings** if it has no zero byte and no sextet 63. -/
theorem decode_encode_iff (str : List UInt8) :
    decode (encode str) = some str ∧ decode (encodeUrl str) = some str ↔
    0 ∉ str ∧ 63 ∉ sextets str := by
  rw [encode, encodeUrl, decode_encode, decode_encode, Option.some.injEq, Option.some.injEq,
    readBack_iff, readBack_iff]
  tauto

/-- A zero byte is lost in both encodings, and `/` is misread. -/
theorem lost_and_misread : decode (encode [65, 0, 66]) = some [65, 66] ∧
    decode (encodeUrl [65, 0, 66]) = some [65, 66] ∧ decode (encode [255]) = some [3] := by decide

end Matador.Base64
