import Matador.Utils.Base64

/-!
# Base64 as a stream of bits

The encoding of RFC 4648, section 4: the bits of the bytes, the highest first, are cut into groups
of six, the last of them filled up with zeros; each group stands for a character of the alphabet;
and the text is filled up with `=` to a multiple of four characters.
-/

namespace Matador.Base64

open List

/-! ## The encoding -/

def bits (byte : UInt8) : List Bool :=
  [128, 64, 32, 16, 8, 4, 2, 1].map fun w => byte.toNat / w % 2 == 1

def ofBits (bs : List Bool) : Nat := bs.foldl (fun n b => 2 * n + b.toNat) 0

def groups : List Bool → List (List Bool)
  | b₀ :: b₁ :: b₂ :: b₃ :: b₄ :: b₅ :: bs => [b₀, b₁, b₂, b₃, b₄, b₅] :: groups bs
  | [] => []
  | bs => [bs ++ replicate (6 - bs.length) false]

/-- The alphabet, `A` to `Z`, `a` to `z`, `0` to `9`, `+` and `/`. -/
def alphabet (n : Nat) : Char :=
  if n < 26 then Char.ofNat ('A'.toNat + n)
  else if n < 52 then Char.ofNat ('a'.toNat + (n - 26))
  else if n < 62 then Char.ofNat ('0'.toNat + (n - 52))
  else if n = 62 then '+'
  else '/'

def rfcChars (str : List UInt8) : List UInt8 :=
  (groups (str.flatMap bits)).map fun g => UInt8.ofNat (alphabet (ofBits g)).toNat

def rfcEncode (str : List UInt8) : List UInt8 :=
  rfcChars str ++ replicate ((4 - (rfcChars str).length % 4) % 4) 61

/-! ## Groups -/

theorem ofBits_append (a b : List Bool) : ofBits (a ++ b) = ofBits a * 2 ^ b.length + ofBits b := by
  have hfold (n : Nat) : b.foldl (fun n b => 2 * n + b.toNat) n = n * 2 ^ b.length + ofBits b := by
    unfold ofBits
    induction b generalizing n with
    | nil => simp
    | cons x b ih =>
      rw [foldl_cons, foldl_cons, ih, ih (2 * 0 + x.toNat), length_cons]
      ring
  rw [ofBits, foldl_append, hfold]
  rfl

theorem toNat_bit (n : Nat) : (n % 2 == 1).toNat = n % 2 := by
  rcases Nat.mod_two_eq_zero_or_one n with h | h <;> rw [h] <;> rfl

theorem div_bit (n w : Nat) : 2 * (n / (w * 2)) + n / w % 2 = n / w := by
  rw [← Nat.div_div_eq_div_mul]
  omega

theorem mod_bit (n w k : Nat) : 2 * (n / (w * 2) % k) + n / w % 2 = n / w % (2 * k) := by
  rw [← Nat.div_div_eq_div_mul, Nat.mod_mul]
  omega

theorem ofBits_left (a : UInt8) : ofBits ((bits a).take 6) = a.toNat / 4 ∧
    ofBits ((bits a).take 4) = a.toNat / 16 ∧ ofBits ((bits a).take 2) = a.toNat / 64 := by
  have ha : a.toNat / (128 * 2) = 0 := Nat.div_eq_of_lt a.toNat_lt
  simp only [bits, map_cons, take_succ_cons, take_zero, ofBits, foldl_cons, foldl_nil, toNat_bit]
  rw [← ha]
  simp only [div_bit a.toNat 128, div_bit a.toNat 64, div_bit a.toNat 32, div_bit a.toNat 16,
    div_bit a.toNat 8, div_bit a.toNat 4, and_self]

theorem ofBits_right (a : UInt8) : ofBits ((bits a).drop 6) = a.toNat % 4 ∧
    ofBits ((bits a).drop 4) = a.toNat % 16 ∧ ofBits ((bits a).drop 2) = a.toNat % 64 := by
  simp only [bits, map_cons, map_nil, drop_succ_cons, drop_zero, ofBits, foldl_cons, foldl_nil,
    toNat_bit, Nat.mul_zero, Nat.zero_add]
  simp only [mod_bit a.toNat 16 2, mod_bit a.toNat 8 4, mod_bit a.toNat 4 2, mod_bit a.toNat 4 8]
  omega

theorem ofBits_join {x y : List Bool} {m n k : Nat} (hx : ofBits x = m) (hy : ofBits y = n)
    (hk : 2 ^ y.length = k) : ofBits (x ++ y) = m * k + n := by
  rw [ofBits_append, hx, hy, hk]

theorem groups_three (a b c : UInt8) (bs : List Bool) :
    (groups (bits a ++ (bits b ++ (bits c ++ bs)))).map ofBits =
      a.toNat / 4 :: (a.toNat % 4 * 16 + b.toNat / 16) :: (b.toNat % 16 * 4 + c.toNat / 64) ::
        c.toNat % 64 :: (groups bs).map ofBits := by
  have hgro : groups (bits a ++ (bits b ++ (bits c ++ bs))) =
      (bits a).take 6 :: ((bits a).drop 6 ++ (bits b).take 4) ::
        ((bits b).drop 4 ++ (bits c).take 2) :: (bits c).drop 2 ::
        groups bs := rfl
  rw [hgro, map_cons, map_cons, map_cons, map_cons, (ofBits_left a).1, (ofBits_right c).2.2,
    ofBits_join (ofBits_right a).1 (ofBits_left b).2.1
      (show 2 ^ ((bits b).take 4).length = 16 from rfl),
    ofBits_join (ofBits_right b).2.1 (ofBits_left c).2.2
      (show 2 ^ ((bits c).take 2).length = 4 from rfl)]

theorem groups_two (a b : UInt8) : (groups (bits a ++ (bits b ++ []))).map ofBits =
      [a.toNat / 4, a.toNat % 4 * 16 + b.toNat / 16, b.toNat % 16 * 4] := by
  have hgro : groups (bits a ++ (bits b ++ [])) =
      [(bits a).take 6, (bits a).drop 6 ++ (bits b).take 4, (bits b).drop 4 ++ [false, false]] :=
        rfl
  rw [hgro, map_cons, map_cons, map_cons, (ofBits_left a).1,
    ofBits_join (ofBits_right a).1 (ofBits_left b).2.1
      (show 2 ^ ((bits b).take 4).length = 16 from rfl),
    ofBits_join (ofBits_right b).2.1 (show ofBits [false, false] = 0 from rfl) rfl]
  rfl

theorem groups_one (a : UInt8) :
    (groups (bits a ++ [])).map ofBits = [a.toNat / 4, a.toNat % 4 * 16] := by
  have hgro : groups (bits a ++ []) =
      [(bits a).take 6, (bits a).drop 6 ++ [false, false, false, false]] := rfl
  rw [hgro, map_cons, map_cons, (ofBits_left a).1,
    ofBits_join (ofBits_right a).1 (show ofBits [false, false, false, false] = 0 from rfl) rfl]
  rfl

theorem ofBits_groups (str : List UInt8) :
    (groups (str.flatMap bits)).map ofBits = sextets str := by
  induction str using sextets.induct with
  | case1 a b c str ih =>
    rw [flatMap_cons, flatMap_cons, flatMap_cons, groups_three, ih]
    rfl
  | case2 a b => exact groups_two a b
  | case3 a => exact groups_one a
  | case4 => rfl

/-! ## The characters -/

theorem codeBase_eq_alphabet : ∀ n :
    Fin 64, (codeBase .base64).getD n 0 = UInt8.ofNat (alphabet n).toNat := by
  decide

theorem rfcChars_eq (str : List UInt8) :
    rfcChars str = (sextets str).map fun n => UInt8.ofNat (alphabet n).toNat := by
  rw [← ofBits_groups, map_map]
  rfl

theorem length_rfcChars (str : List UInt8) : (rfcChars str).length = (sextets str).length := by
  rw [rfcChars_eq, length_map]

theorem encodePack_eq (a b c : UInt8) (rangeMax : Nat) : encodePack .base64 a b c rangeMax =
      ([a.toNat / 4, a.toNat % 4 * 16 + b.toNat / 16, b.toNat % 16 * 4 + c.toNat / 64,
        c.toNat % 64].take rangeMax).map
        fun n => UInt8.ofNat (alphabet n).toNat := by
  have ha := a.toNat_lt
  have hb := b.toNat_lt
  have hc := c.toNat_lt
  have hmap : encodePack .base64 a b c rangeMax =
      (((packOut a b c).map UInt8.toNat).take rangeMax).map ((codeBase .base64).getD · 0) := by
    rw [← map_take, map_map]
    rfl
  rw [hmap, packOut_eq]
  refine map_congr_left fun n hn => ?_
  have hlt : n < 64 := by
    have := mem_of_mem_take hn
    simp only [mem_cons, not_mem_nil, or_false] at this
    omega
  exact codeBase_eq_alphabet ⟨n, hlt⟩

/-- **The encoder computes the encoding of RFC 4648.** -/
theorem encode_eq_rfcEncode (str : List UInt8) : encode str = rfcEncode str := by
  unfold encode rfcEncode
  rw [length_rfcChars, rfcChars_eq]
  induction str using sextets.induct with
  | case1 a b c str ih =>
    rw [encodeAs_cons, ih, encodePack_eq]
    have hlen : (sextets (a :: b :: c :: str)).length % 4 = (sextets str).length % 4 := by
      simp only [sextets, length_cons]
      omega
    rw [hlen]
    rfl
  | case2 a b =>
    have henc : encodeAs .base64 [a, b] = encodePack .base64 a b 0 3 ++ [61] := rfl
    rw [henc, encodePack_eq]
    rfl
  | case3 a =>
    have henc : encodeAs .base64 [a] = encodePack .base64 a 0 0 2 ++ [61, 61] := rfl
    rw [henc, encodePack_eq]
    rfl
  | case4 => rfl

/-- `Ma` is encoded as `TWE=`. -/
example : rfcEncode [77, 97] = [84, 87, 69, 61] := by decide

end Matador.Base64
