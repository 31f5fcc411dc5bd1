import Matador.Lib.Bytes
import Matador.Utils.Date

/-!
# Attributes and their backup

`object_serializer` writes the attributes of an object into the buffer of the transaction,
`object_deserializer` reads them back into the object (`Attribute.Restorable`).

* a value of fixed size (a number, a flag, the two numbers of a time) is copied byte by byte
* a `std::string` is written as its size and its bytes
* a character array is written as its `strlen` and the bytes before its terminator; reading it back
  writes no terminator
* a character array that is declared without its size is written in the same way, but read back as a
  block of bytes, since `object_deserializer` lacks the default argument that would select its
  overload for arrays
* of a date the Julian date is written, and the calendar day is computed from it again
-/

namespace Matador.Object

open List Lib Option

/-- A block of memory; its size fits into `size_t`. -/
structure Block where
  bytes : List UInt8
  size_lt : bytes.length < 2 ^ 64
  deriving DecidableEq

inductive Attribute
  | scalar (bytes : List UInt8)
  | string (text : Block)
  /-- a character array declared with its size -/
  | chars (array : Block)
  /-- a character array declared without its size -/
  | bareChars (array : Block)
  | date (x : Date)
  deriving DecidableEq

/-- What the class of an object fixes of an attribute. -/
inductive Shape
  | scalar (size : Nat)
  | string
  | chars (capacity : Nat)
  | bareChars (capacity : Nat)
  | date
  deriving DecidableEq

inductive Value
  | bytes (bytes : List UInt8)
  | date (x : Date)
  deriving DecidableEq

def cString (array : List UInt8) : List UInt8 := array.takeWhile (· ≠ 0)

def sized (text : List UInt8) : List UInt8 := toBytes 8 text.length ++ text

namespace Attribute

def shape : Attribute → Shape
  | .scalar bytes => .scalar bytes.length
  | .string _ => .string
  | .chars array => .chars array.bytes.length
  | .bareChars array => .bareChars array.bytes.length
  | .date _ => .date

/-- The value of an attribute; of an array only the text counts. -/
def value : Attribute → Value
  | .scalar bytes => .bytes bytes
  | .string text => .bytes text.bytes
  | .chars array | .bareChars array => .bytes (cString array.bytes)
  | .date x => .date x

/-- `object_serializer::on_attribute`. -/
def backup : Attribute → List UInt8
  | .scalar bytes => bytes
  | .string text => sized text.bytes
  | .chars array | .bareChars array => sized (cString array.bytes)
  | .date x => toBytes 4 x.julianDate.toUInt32.toNat

/-- The size in front of a text, the text, and the rest of the buffer. -/
def releaseText (buffer : List UInt8) : Option (List UInt8 × List UInt8) :=
  (release 8 buffer).bind fun (size, buffer) => release (ofBytes size) buffer

def ofJulianDate (bytes : List UInt8) : Date :=
  .syncJulianDate (UInt32.ofNat (ofBytes bytes)).toInt32

/-- `object_deserializer::on_attribute`: the attribute after reading, and the rest of the buffer.
`none` stands for reading behind the end of the buffer or writing behind the end of the array. -/
def restore : Attribute → List UInt8 → Option (Attribute × List UInt8)
  | .scalar bytes, buffer => (release bytes.length buffer).map fun r => (.scalar r.1, r.2)
  | .string _, buffer =>
    (releaseText buffer).bind fun (text, rest) =>
      if h : text.length < 2 ^ 64 then some (.string ⟨text, h⟩, rest) else none
  | .chars array, buffer =>
    (releaseText buffer).bind fun (text, rest) =>
      if h : (text ++ array.bytes.drop text.length).length = array.bytes.length then
        some (.chars ⟨text ++ array.bytes.drop text.length, h ▸ array.size_lt⟩, rest)
      else none
  | .bareChars array, buffer =>
    (release array.bytes.length buffer).bind fun (bytes, rest) =>
      if h : bytes.length = array.bytes.length then some (.bareChars ⟨bytes, h ▸ array.size_lt⟩,
        rest) else none
  | .date _, buffer => (release 4 buffer).map fun r => (.date (ofJulianDate r.1), r.2)

/-- What has been written of `b` is read back into `a`: an array declared with its size ends where
the text of `b` ends, a date is in sync, and no array is declared without its size. -/
def Restorable : Attribute → Attribute → Prop
  | .chars a, .chars b => a.bytes[(cString b.bytes).length]? = some 0
  | .bareChars _, _ => False
  | .date _, .date x => x.InSync
  | _, _ => True

instance : ∀ a b, Decidable (Restorable a b)
  | .chars a, .chars b => inferInstanceAs (Decidable (a.bytes[(cString b.bytes).length]? = some 0))
  | .bareChars _, _ => .isFalse id
  | .date _, .date x => inferInstanceAs (Decidable x.InSync)
  | .scalar _, _ | .string _, _ => .isTrue trivial
  | .chars _, .scalar _ | .chars _, .string _ | .chars _, .bareChars _ | .chars _, .date _ =>
      .isTrue trivial
  | .date _, .scalar _ | .date _, .string _ | .date _, .chars _ | .date _, .bareChars _ =>
      .isTrue trivial

/-- The attribute is not a character array declared without its size. -/
def Sized : Attribute → Prop
  | .bareChars _ => False
  | _ => True

/-- Two attributes of one declaration. -/
inductive SameShape : Attribute → Attribute → Prop
  | scalar {a b : List UInt8} (h : a.length = b.length) : SameShape (.scalar a) (.scalar b)
  | string (a b : Block) : SameShape (.string a) (.string b)
  | chars {a b : Block} (h : a.bytes.length = b.bytes.length) : SameShape (.chars a) (.chars b)
  | bareChars {a b : Block} (h : a.bytes.length = b.bytes.length) :
      SameShape (.bareChars a) (.bareChars b)
  | date (x y : Date) : SameShape (.date x) (.date y)

theorem sameShape {a b : Attribute} (h : a.shape = b.shape) : SameShape a b := by
  cases a <;> cases b <;> simp only [shape, reduceCtorEq, Shape.scalar.injEq, Shape.chars.injEq,
    Shape.bareChars.injEq] at h
  · exact .scalar h
  · exact .string ..
  · exact .chars h
  · exact .bareChars h
  · exact .date ..

theorem releaseText_append {text : List UInt8} (h : text.length < 2 ^ 64) (rest : List UInt8) :
    releaseText (sized text ++ rest) = some (text, rest) := by
  have hsize := release_append (toBytes 8 text.length) (text ++ rest)
  rw [length_toBytes] at hsize
  rw [releaseText, sized, append_assoc, hsize, bind_some]
  simp only [ofBytes_toBytes (show text.length < 256 ^ 8 by exact h)]
  exact release_append text rest

theorem cString_overwrite {text array : List UInt8} (h : array[text.length]? = some 0)
    (htext : ∀ c ∈ text, c ≠ 0) : cString (text ++ array.drop text.length) = text := by
  obtain ⟨hlt, h0⟩ := List.getElem?_eq_some_iff.mp h
  rw [cString, takeWhile_append_of_pos (by simpa using htext), drop_eq_getElem_cons hlt, h0,
    takeWhile_cons_of_neg (by simp), append_nil]

theorem ne_zero_of_mem_cString {array : List UInt8} : ∀ c ∈ cString array, c ≠ 0 := by
  intro c hc
  simpa using mem_takeWhile_imp hc

theorem ofJulianDate_toBytes (jd : Int32) :
    ofJulianDate (toBytes 4 jd.toUInt32.toNat) = .syncJulianDate jd := by
  have hlt : jd.toUInt32.toNat < 256 ^ 4 := UInt32.toNat_lt _
  rw [ofJulianDate, ofBytes_toBytes hlt, UInt32.ofNat_toNat, Int32.toInt32_toUInt32]

/-- **What is written is read back** into an attribute of the same shape, and the value is the same
if it is `Restorable`. -/
theorem restore_backup {a b : Attribute} (hshp : a.shape = b.shape) (hsiz : b.Sized)
    (rest : List UInt8) : ∃ c, a.restore (b.backup ++ rest) = some (c, rest) ∧ c.shape = b.shape ∧
      (a.Restorable b → c.value = b.value) := by
  cases sameShape hshp with
  | @scalar old bytes hlen =>
    refine ⟨.scalar bytes, ?_, rfl, fun _ => rfl⟩
    rw [restore, backup, hlen, release_append]
    rfl
  | string old text =>
    refine ⟨.string text, ?_, rfl, fun _ => rfl⟩
    rw [restore, backup, releaseText_append text.size_lt, bind_some]
    simp only [text.size_lt, dite_true]
  | @chars old array hcap =>
    have hle : (cString array.bytes).length ≤ array.bytes.length := (takeWhile_sublist _).length_le
    have hlen : (cString array.bytes ++ old.bytes.drop (cString array.bytes).length).length =
        old.bytes.length := by
      rw [length_append, length_drop]
      omega
    refine ⟨.chars ⟨_, hlen ▸ old.size_lt⟩, ?_, ?_, ?_⟩
    · rw [restore, backup, releaseText_append (hle.trans_lt array.size_lt), bind_some]
      simp only [hlen, dite_true]
    · simp only [shape, hlen, hcap]
    · exact fun hres => congrArg Value.bytes (cString_overwrite hres ne_zero_of_mem_cString)
  | bareChars => exact hsiz.elim
  | date old x =>
    refine ⟨.date (.syncJulianDate x.julianDate), ?_, rfl, fun hsync => congrArg Value.date hsync⟩
    have hrel := release_append (toBytes 4 x.julianDate.toUInt32.toNat) rest
    rw [length_toBytes] at hrel
    rw [restore, backup, hrel, ← ofJulianDate_toBytes]
    rfl

theorem Restorable.sized {a b : Attribute} (hshp : a.shape = b.shape) (h : a.Restorable b) :
    b.Sized := by
  cases sameShape hshp with
  | bareChars => exact h.elim
  | scalar | string | chars | date => trivial

theorem backup_congr {a b : Attribute} (hshp : a.shape = b.shape) (hval : a.value = b.value) :
    a.backup = b.backup := by
  cases sameShape hshp with
  | scalar => exact Value.bytes.inj hval
  | string | chars | bareChars => exact congrArg Object.sized (Value.bytes.inj hval)
  | date => exact congrArg backup (congrArg Attribute.date (Value.date.inj hval))

end Attribute

/-! ## Objects -/

/-- The attributes of an object in the order in which its class lists them. -/
abbrev Attributes := List Attribute

namespace Attributes

def shape (o : Attributes) : List Shape := o.map Attribute.shape

def value (o : Attributes) : List Value := o.map Attribute.value

def backup (o : Attributes) : List UInt8 := o.flatMap Attribute.backup

def restore : Attributes → List UInt8 → Option (Attributes × List UInt8)
  | [], buffer => some ([], buffer)
  | a :: o, buffer =>
    (a.restore buffer).bind fun (a, buffer) =>
      (restore o buffer).map fun (o, buffer) => (a :: o, buffer)

/-- What has been written of `o'` is read back into `o`. -/
def Restorable (o o' : Attributes) : Prop := List.Forall₂ Attribute.Restorable o o'

instance (o o' : Attributes) : Decidable (Restorable o o') :=
  inferInstanceAs (Decidable (List.Forall₂ Attribute.Restorable o o'))

theorem backup_congr {o o' : Attributes} (hshp : shape o = shape o') (hval : value o = value o') :
    backup o = backup o' := by
  induction o generalizing o' with
  | nil => rw [map_eq_nil_iff.mp hshp.symm]
  | cons a o ih =>
    cases o' with
    | nil => simp [shape] at hshp
    | cons a' o' =>
      obtain ⟨ha, ho⟩ := cons.inj hshp
      obtain ⟨hav, hov⟩ := cons.inj hval
      rw [backup, flatMap_cons, Attribute.backup_congr ha hav]
      exact congrArg _ (ih ho hov)

/-- **A backup is restored into an object of the same class.** -/
theorem restore_backup {o o' : Attributes} (hshp : shape o = shape o') (hres : Restorable o o')
    (rest : List UInt8) :
    ∃ r, restore o (backup o' ++ rest) = some (r, rest) ∧ shape r = shape o' ∧
    value r = value o' := by
  induction hres with
  | nil => exact ⟨[], rfl, rfl, rfl⟩
  | @cons a b o o' hab _ ih =>
    obtain ⟨ha, ho⟩ := cons.inj hshp
    obtain ⟨r, hr, hrs, hrv⟩ := ih ho
    obtain ⟨c, hc, hcs, hcv⟩ := Attribute.restore_backup ha (hab.sized ha) (backup o' ++ rest)
    refine ⟨c :: r, ?_, ?_, ?_⟩
    · have hb : backup (b :: o') ++ rest = b.backup ++ (backup o' ++ rest) := by
        rw [backup, flatMap_cons, append_assoc, backup]
      rw [hb, restore, hc, bind_some]
      simp only [hr, map_some]
    · rw [shape, map_cons, hcs]
      exact congrArg _ hrs
    · rw [value, map_cons, hcv hab]
      exact congrArg _ hrv

end Attributes

end Matador.Object
