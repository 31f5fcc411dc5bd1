import Mathlib

/-!
# Keyed hashing

`hmac` over an arbitrary hash of 32 bytes, against the construction of RFC 2104 with blocks of 64
bytes (`rfc2104`). The two agree in all but the key that is brought to the size of a block:

* a key longer than a block is hashed as a C string, and the digits of the digest are taken for its
  bytes
* a key shorter than a block is copied as a C string, so what stands behind a zero byte is lost
-/

namespace Matador.Hmac

abbrev Bytes := List UInt8

/-- What a hash returns. -/
abbrev Digest := Vector UInt8 32

open List

def blockSize : Nat := 64

/-! ## RFC 2104 -/

section Rfc

variable (hash : Bytes → Digest)

/-- The key of one block: a longer key is hashed first, then zeros are appended. -/
def blockKey (key : Bytes) : Bytes :=
  let k := if blockSize < key.length then (hash key).toList else key
  k ++ replicate (blockSize - k.length) 0

def nested (k message : Bytes) : Digest :=
  hash (k.map (0x5c ^^^ ·) ++ (hash (k.map (0x36 ^^^ ·) ++ message)).toList)

def rfc2104 (key message : Bytes) : Digest := nested hash (blockKey hash key) message

end Rfc

/-! ## The source -/

/-- A digit of `%02x`. -/
def hexDigit (n : Nat) : UInt8 := if n < 10 then UInt8.ofNat (48 + n) else UInt8.ofNat (87 + n)

def hex (digest : Digest) : Bytes :=
  digest.toList.flatMap fun b => [hexDigit (b.toNat / 16), hexDigit (b.toNat % 16)]

/-- The bytes of a C string: those in front of the first zero byte. -/
def cString (s : Bytes) : Bytes := s.takeWhile (· ≠ 0)

/-- `memcpy` to the position `i` of an array. -/
def memcpy (array : Bytes) (i : Nat) (bytes : Bytes) : Bytes :=
  array.take i ++ bytes ++ array.drop (i + bytes.length)

/-- `memset` of `n` bytes from the position `i` of an array. -/
def memset (array : Bytes) (i : Nat) (b : UInt8) (n : Nat) : Bytes := memcpy array i (replicate n b)

/-- `strcpy` to the front of an array, with the zero byte at the end. -/
def strcpy (array : Bytes) (s : Bytes) : Bytes := memcpy array 0 (cString s ++ [0])

section Source

variable (hash : Bytes → Digest)

/-- `ext::sha256(key)`. -/
def sha256CString (s : Bytes) : Bytes := hex (hash (cString s))

def keystr (key : Bytes) : Bytes :=
  let keystr := replicate blockSize 0
  if key.length > blockSize then memcpy keystr 0 ((sha256CString hash key).take blockSize)
  else if key.length < blockSize then memset (strcpy keystr key) key.length 0
    (blockSize - key.length)
  else memcpy keystr 0 key

/-- `hmac`. The array `tmp2` is not initialised, and no byte of it is read that is not written. -/
def hmac (key message : Bytes) : Bytes :=
  let keystr := keystr hash key
  let iKeyPad := zipWith (· ^^^ ·) (memset (replicate blockSize 0) 0 0x36 blockSize) keystr
  let oKeyPad := zipWith (· ^^^ ·) (memset (replicate blockSize 0) 0 0x5c blockSize) keystr
  let tmplen := blockSize + message.length
  let tmp1 := memcpy (memcpy (replicate (blockSize + tmplen) 0) 0 iKeyPad) blockSize message
  let h1 := hash (tmp1.take tmplen)
  let tmp2 := memcpy (memcpy (replicate (blockSize * 32) 0) 0 oKeyPad) blockSize h1.toList
  hex (hash (tmp2.take (blockSize + 32)))

end Source

/-! ## Arrays -/

theorem memset_all (n : Nat) (a b : UInt8) : memset (replicate n a) 0 b n = replicate n b := by
  simp [memset, memcpy]

theorem zipWith_replicate (b : UInt8) (k : Bytes) :
    zipWith (· ^^^ ·) (replicate k.length b) k = k.map (b ^^^ ·) := by
  induction k with
  | nil => rfl
  | cons c k ih => simp [replicate_succ, ih]

theorem take_memcpy_memcpy (array a b : Bytes) :
    (memcpy (memcpy array 0 a) a.length b).take (a.length + b.length) = a ++ b := by
  simp [memcpy, take_append, take_of_length_le]

theorem length_cString_le (s : Bytes) : (cString s).length ≤ s.length :=
  (takeWhile_sublist _).length_le

theorem strcpy_zeros {s : Bytes} {n : Nat} (h : (cString s).length < n) :
    strcpy (replicate n 0) s = cString s ++ replicate (n - (cString s).length) 0 := by
  have hzero : (0 : UInt8) :: replicate (n - ((cString s).length + 1)) 0 =
      replicate (n - (cString s).length) 0 := by
    rw [← replicate_succ]
    congr 1
    omega
  simp [strcpy, memcpy, hzero]

variable {i : Nat}

theorem memset_zeros {c : Bytes} {n : Nat} (hc : c.length ≤ i) (hi : i ≤ n) :
    memset (c ++ replicate (n - c.length) 0) i 0 (n - i) = c ++ replicate (n - c.length) 0 := by
  have htake : c.take i = c := take_of_length_le hc
  have hzer : replicate (min (i - c.length) (n - c.length)) (0 : UInt8) ++ replicate (n - i) 0 =
      replicate (n - c.length) 0 := by
    rw [replicate_append_replicate]
    congr 1
    omega
  have hdrop : n - c.length - (i + (n - i) - c.length) = 0 := by omega
  have hgone : c.drop (i + (n - i)) = [] := drop_eq_nil_of_le (by omega)
  simp [memset, memcpy, take_append, drop_append, htake, hgone, hdrop, hzer]

theorem length_hex (digest : Digest) : (hex digest).length = 64 := by
  simp [hex]

variable {key : Bytes}

section Source

variable (hash : Bytes → Digest)

theorem keystr_of_gt (h : blockSize < key.length) : keystr hash key = sha256CString hash key := by
  have hlen : (sha256CString hash key).length = blockSize := length_hex _
  rw [keystr, if_pos h, ← hlen]
  simp [memcpy]

theorem keystr_of_lt (h : key.length < blockSize) :
    keystr hash key = cString key ++ replicate (blockSize - (cString key).length) 0 := by
  have hle := length_cString_le key
  rw [keystr, if_neg (by omega), if_pos h, strcpy_zeros (by omega), memset_zeros hle (by omega)]

theorem keystr_of_eq (h : key.length = blockSize) : keystr hash key = key := by
  rw [keystr, ← h]
  simp [memcpy]

theorem length_keystr (key : Bytes) : (keystr hash key).length = blockSize := by
  obtain h | h | h := Nat.lt_trichotomy key.length blockSize
  · have hle := length_cString_le key
    rw [keystr_of_lt hash h, length_append, length_replicate]
    omega
  · rw [keystr_of_eq hash h, h]
  · rw [keystr_of_gt hash h]
    exact length_hex _

/-- **The source hashes as RFC 2104 does, with the key in `keystr`.** -/
theorem hmac_eq_nested (key message : Bytes) :
    hmac hash key message = hex (nested hash (keystr hash key) message) := by
  have hlen := length_keystr hash key
  have hpad (b : UInt8) : zipWith (· ^^^ ·) (memset (replicate blockSize 0) 0 b blockSize)
      (keystr hash key) = (keystr hash key).map (b ^^^ ·) := by
    rw [memset_all, ← hlen, zipWith_replicate]
  have htake (b : UInt8) (array bytes : Bytes) :
      (memcpy (memcpy array 0 ((keystr hash key).map (b ^^^ ·))) blockSize bytes).take
        (blockSize + bytes.length) =
        (keystr hash key).map (b ^^^ ·) ++ bytes := by
    have hmap : ((keystr hash key).map (b ^^^ ·)).length = blockSize := by rw [length_map, hlen]
    have h := take_memcpy_memcpy array ((keystr hash key).map (b ^^^ ·)) bytes
    rwa [hmap] at h
  have hdig (d : Digest) : blockSize + 32 = blockSize + d.toList.length := by simp
  rw [hmac, nested]
  simp only [hpad, htake]
  rw [hdig, htake]

end Source

/-! ## Keys that are kept -/

/-- The key stands in its block as RFC 2104 asks for it: it fits into the block, and if it is
shorter, nothing but zeros stands behind its first zero byte. -/
def Kept (key : Bytes) : Prop :=
  key.length ≤ blockSize ∧ (key.length < blockSize → ∀ b ∈ key.dropWhile (· ≠ 0), b = 0)

instance (key : Bytes) : Decidable (Kept key) := inferInstanceAs (Decidable (_ ∧ _))

theorem blockKey_of_le (hash : Bytes → Digest) (h : key.length ≤ blockSize) :
    blockKey hash key = key ++ replicate (blockSize - key.length) 0 := by
  rw [blockKey, if_neg (by omega)]

theorem keystr_eq_blockKey (hash : Bytes → Digest) (h : Kept key) :
    keystr hash key = blockKey hash key := by
  obtain ⟨hle, hzer⟩ := h
  rw [blockKey_of_le hash hle]
  obtain hlt | heq := Nat.lt_or_eq_of_le hle
  · have hrest : key.dropWhile (· ≠ 0) = replicate (key.dropWhile (· ≠ 0)).length 0 :=
      eq_replicate_of_mem (hzer hlt)
    have hkey : cString key ++ key.dropWhile (· ≠ 0) = key := takeWhile_append_dropWhile
    have hlen := congrArg length hkey
    rw [length_append] at hlen
    rw [keystr_of_lt hash hlt]
    conv_rhs => rw [← hkey, hrest]
    rw [append_assoc, replicate_append_replicate, length_append, length_replicate]
    congr 2
    omega
  · rw [keystr_of_eq hash heq, heq]
    simp

/-! ## Keys that are changed -/

/-- A hash that shows one byte of what it is given. -/
def probe (i : Nat) (bytes : Bytes) : Digest := Vector.replicate 32 (bytes.getD i 0)

theorem nested_probe {k : Bytes} (h : i < k.length) (message : Bytes) :
    nested (probe i) k message = Vector.replicate 32 (0x5c ^^^ k.getD i 0) := by
  rw [nested, probe]
  simp [getElem?_append_left, h]

theorem hexDigit_injective : ∀ m, m < 16 → ∀ n, n < 16 → hexDigit m = hexDigit n → m = n := by
  decide

theorem hexDigit_ne_zero : ∀ n, n < 16 → hexDigit n ≠ 0 := by
  decide

variable {b : UInt8}

theorem byte_of_hexDigits {c : UInt8} (hhigh : hexDigit (b.toNat / 16) = hexDigit (c.toNat / 16))
    (hlow : hexDigit (b.toNat % 16) = hexDigit (c.toNat % 16)) : b = c := by
  have hb := b.toNat_lt
  have hc := c.toNat_lt
  have h1 := hexDigit_injective _ (by omega) _ (by omega) hhigh
  have h2 := hexDigit_injective _ (by omega) _ (by omega) hlow
  exact UInt8.toNat_inj.mp (by omega)

theorem hexDigits_injective : ∀ {s t : Bytes},
    s.flatMap (fun b => [hexDigit (b.toNat / 16), hexDigit (b.toNat % 16)]) =
      t.flatMap (fun b => [hexDigit (b.toNat / 16), hexDigit (b.toNat % 16)]) → s = t
  | [], [], _ => rfl
  | [], _ :: _, h => by simp at h
  | _ :: _, [], h => by simp at h
  | b :: s, c :: t, h => by
    simp only [flatMap_cons, cons_append, cons.injEq] at h
    rw [byte_of_hexDigits h.1 h.2.1, hexDigits_injective h.2.2]

theorem hex_injective {d d' : Digest} (h : hex d = hex d') : d = d' :=
  Vector.toList_inj.mp (hexDigits_injective h)

theorem hex_nested_ne {k k' : Bytes} (h : i < k.length) (h' : i < k'.length)
    (hne : k.getD i 0 ≠ k'.getD i 0) (message : Bytes) :
    hex (nested (probe i) k message) ≠ hex (nested (probe i) k' message) := by
  intro heq
  have hd := hex_injective heq
  rw [nested_probe h, nested_probe h'] at hd
  have hbyte : 0x5c ^^^ k.getD i 0 = 0x5c ^^^ k'.getD i 0 := by
    simpa using congrArg (fun d : Digest => d.toList.head?) hd
  have hback := congrArg (0x5c ^^^ ·) hbyte
  simp only [← UInt8.xor_assoc, UInt8.xor_self, UInt8.zero_xor] at hback
  exact hne hback

theorem length_blockKey (hash : Bytes → Digest) (key : Bytes) :
    (blockKey hash key).length = blockSize := by
  rw [blockKey, length_append, length_replicate]
  split_ifs
  · simp [blockSize]
  · omega

theorem hmac_ne_of_keystr_ne (hi : i < blockSize)
    (hne : (keystr (probe i) key).getD i 0 ≠ (blockKey (probe i) key).getD i 0) (message : Bytes) :
    hmac (probe i) key message ≠ hex (rfc2104 (probe i) key message) := by
  rw [hmac_eq_nested]
  exact hex_nested_ne (by rw [length_keystr]; exact hi)
    (by rw [length_blockKey]; exact hi) hne message

theorem ne_zero_of_mem_hex {d : Digest} (h : b ∈ hex d) : b ≠ 0 := by
  obtain ⟨c, -, hb⟩ := mem_flatMap.mp h
  have hc := c.toNat_lt
  simp only [mem_cons, not_mem_nil, or_false] at hb
  obtain rfl | rfl := hb
  · exact hexDigit_ne_zero _ (by omega)
  · exact hexDigit_ne_zero _ (by omega)

/-- The digits of a digest are no zeros, but the second half of the block should be. -/
theorem hmac_ne_of_gt (h : blockSize < key.length) (message : Bytes) :
    hmac (probe 63) key message ≠ hex (rfc2104 (probe 63) key message) := by
  refine hmac_ne_of_keystr_ne (by decide) ?_ message
  have hzero : (blockKey (probe 63) key).getD 63 0 = 0 := by
    rw [blockKey, if_pos h]
    simp [blockSize]
  have hlen : 63 < (sha256CString (probe 63) key).length := by
    rw [sha256CString, length_hex]
    decide
  rw [hzero, keystr_of_gt _ h, getD_eq_getElem _ _ hlen]
  exact ne_zero_of_mem_hex (getElem_mem hlen)

theorem hmac_ne_of_lt (h : key.length < blockSize) (hb : b ∈ key.dropWhile (· ≠ 0)) (hne : b ≠ 0)
    (message : Bytes) : ∃ hash, hmac hash key message ≠ hex (rfc2104 hash key message) := by
  obtain ⟨j, hj, hget⟩ := getElem_of_mem hb
  -- the byte stands at position `i` of the key
  obtain ⟨i, hi⟩ : ∃ i, i = (cString key).length + j := ⟨_, rfl⟩
  have hkey : cString key ++ key.dropWhile (· ≠ 0) = key := takeWhile_append_dropWhile
  have hlen := congrArg length hkey
  rw [length_append] at hlen
  have hstr : (keystr (probe i) key).getD i 0 = 0 := by
    rw [keystr_of_lt _ h, getD_append_right _ _ _ _ (by omega)]
    simp
  have hat : key.getD i 0 = b := by
    have hrgt := getD_append_right (cString key) (key.dropWhile (· ≠ 0)) 0 i (by omega)
    rw [hkey, hi, Nat.add_sub_cancel_left, getD_eq_getElem _ _ hj, hget] at hrgt
    rw [hi, hrgt]
  have hblk : (blockKey (probe i) key).getD i 0 = b := by
    rw [blockKey_of_le _ (by omega), getD_append _ _ _ _ (by omega), hat]
  refine ⟨probe i, hmac_ne_of_keystr_ne (by omega) ?_ message⟩
  rw [hstr, hblk]
  exact hne.symm

/-- **`hmac` is the construction of RFC 2104 over every hash exactly for the keys that are
kept.** -/
theorem hmac_eq_rfc2104_iff (key message : Bytes) :
    (∀ hash, hmac hash key message = hex (rfc2104 hash key message)) ↔ Kept key := by
  constructor
  · intro h
    refine ⟨?_, fun hlt b hb => ?_⟩
    · by_contra hgt
      exact hmac_ne_of_gt (by omega) message (h _)
    · by_contra hne
      obtain ⟨hash, hdiff⟩ := hmac_ne_of_lt hlt hb hne message
      exact hdiff (h hash)
  · intro h hash
    rw [hmac_eq_nested, rfc2104, keystr_eq_blockKey hash h]

/-- A key of 65 bytes, and a key of the bytes 0 and 1, with the empty message. -/
theorem hmac_long_and_zero_key :
    (∃ hash, hmac hash (replicate 65 97) [] ≠ hex (rfc2104 hash (replicate 65 97) [])) ∧
      ∃ hash, hmac hash [0, 1] [] ≠ hex (rfc2104 hash [0, 1] []) :=
  ⟨⟨probe 63, hmac_ne_of_gt (by decide) []⟩,
    hmac_ne_of_lt (by decide) (b := 1) (by decide) (by decide) []⟩

end Matador.Hmac
