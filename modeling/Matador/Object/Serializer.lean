import Matador.Object.Transaction
import Matador.Utils.ByteBuffer

/-!
# Backing up and restoring the fields of an object

`object_serializer` writes the fields of an object one after the other into a `byte_buffer`,
`object_deserializer` reads them back into the object, whose fields may have changed meanwhile. Of a
has_one field the id of the object it refers to is written. Reading an id that is not 0 makes the
field refer to the object with this id, which is created if there is none; reading 0 leaves the
field as it is.

`restored_iff` says exactly which objects are read back.
-/

namespace Matador.Object

open Function List Lib PrototypeTree

/-! ## Fields -/

inductive Field
  | plain (a : Attribute)
  | hasOne (classname : String) (proxy : Option ProxyPtr)
  deriving DecidableEq

/-- What the class of an object fixes of a field. -/
inductive FieldShape
  | plain (shape : Shape)
  | hasOne (classname : String)
  deriving DecidableEq

inductive FieldValue
  | plain (value : Value)
  | reference (proxy : Option ProxyPtr)
  deriving DecidableEq

namespace Field

def shape : Field → FieldShape
  | .plain a => .plain a.shape
  | .hasOne classname _ => .hasOne classname

def value : Field → FieldValue
  | .plain a => .plain a.value
  | .hasOne _ proxy => .reference proxy

end Field

/-- The store with all proxies and objects, stored or not. -/
structure Heap where
  store : ObjectStore
  oid : ProxyPtr → Nat
  objects : ProxyPtr → List Field
  oid_lt : ∀ p, oid p < 2 ^ 64
  /-- a proxy with an id exists -/
  allocated : ∀ p, oid p ≠ 0 → p < store.lists.tree.nextProxy

/-! ## Writing -/

/-- A character array as its `strlen` and its text. Without a terminator `strlen` reads behind the
end of the array, which is undefined. -/
def backupChars (array : Block) (b : ByteBuffer) : Option ByteBuffer :=
  if 0 ∈ array.bytes then
    some ((b.append (toBytes 8 (cString array.bytes).length)).append (cString array.bytes))
  else none

/-- `object_serializer::on_attribute` of a plain attribute. -/
def Attribute.backupTo (b : ByteBuffer) : Attribute → Option ByteBuffer
  | .scalar bytes => some (b.append bytes)
  | .string text => some ((b.append (toBytes 8 text.bytes.length)).append text.bytes)
  | .chars array | .bareChars array => backupChars array b
  | .date x => some (b.append (toBytes 4 x.julianDate.toUInt32.toNat))

def Heap.id (h : Heap) (proxy : Option ProxyPtr) : Nat := (proxy.map h.oid).getD 0

/-- `object_serializer::on_attribute` and `on_has_one`. -/
def Field.backupTo (h : Heap) (b : ByteBuffer) : Field → Option ByteBuffer
  | .plain a => a.backupTo b
  | .hasOne _ proxy => some (b.append (toBytes 8 (h.id proxy)))

/-- `object_serializer::backup`. -/
def backupFields (h : Heap) : List Field → ByteBuffer → Option ByteBuffer
  | [], b => some b
  | f :: fs, b => (f.backupTo h b).bind (backupFields h fs)

/-! ## Reading -/

def releaseText (b : ByteBuffer) : Option (List UInt8 × ByteBuffer) :=
  (b.release 8).bind fun (size, b) => b.release (ofBytes size)

theorem size_lt_of_length_eq {bytes : List UInt8} (array : Block)
    (h : bytes.length = array.bytes.length) : bytes.length < 2 ^ 64 := h ▸ array.size_lt

theorem size_lt_of_overwrite (text : List UInt8) (array : Block)
    (h : (text ++ array.bytes.drop text.length).length = array.bytes.length) :
    (text ++ array.bytes.drop text.length).length < 2 ^ 64 := size_lt_of_length_eq array h

/-- `object_deserializer::on_attribute` of a plain attribute. -/
def Attribute.restoreFrom (b : ByteBuffer) : Attribute → Option (Attribute × ByteBuffer)
  | .scalar bytes => (b.release bytes.length).map fun r => (.scalar r.1, r.2)
  | .string _ =>
    (Object.releaseText b).bind fun (text, b) =>
      if h : text.length < 2 ^ 64 then some (.string ⟨text, h⟩, b) else none
  | .chars array =>
    (Object.releaseText b).bind fun (text, b) =>
      if h : (text ++ array.bytes.drop text.length).length = array.bytes.length then
        some (.chars ⟨text ++ array.bytes.drop text.length, size_lt_of_overwrite text array h⟩, b)
      else none
  | .bareChars array =>
    (b.release array.bytes.length).bind fun (bytes, b) =>
      if h : bytes.length = array.bytes.length then
        some (.bareChars ⟨bytes, size_lt_of_length_eq array h⟩, b)
      else none
  | .date _ => (b.release 4).map fun r => (.date (ofJulianDate r.1), r.2)

theorem insertProxy_nextProxy {s s' : ObjectStore} {e : Entry}
    (h : TransactionState.insertProxy s e = .ok s') :
    s'.lists.tree.nextProxy = s.lists.tree.nextProxy := by
  unfold TransactionState.insertProxy at h
  split at h
  · cases h
  · split at h
    · cases h
    · cases h
    · cases h
      exact PrototypeTree.insertProxy_nextProxy ..

def Heap.add (h : Heap) (store : ObjectStore) (oid : Nat) (object : List Field) (hlt : oid < 2 ^ 64)
    (hnext : store.lists.tree.nextProxy = h.store.lists.tree.nextProxy + 1) : Heap where
  store := store
  oid := update h.oid h.store.lists.tree.nextProxy oid
  objects := update h.objects h.store.lists.tree.nextProxy object
  oid_lt q := by
    rcases eq_or_ne q h.store.lists.tree.nextProxy with rfl | hq
    · rwa [update_self]
    · rw [update_of_ne hq]
      exact h.oid_lt q
  allocated q hq := by
    rw [hnext]
    rcases eq_or_ne q h.store.lists.tree.nextProxy with rfl | hne
    · exact Nat.lt_succ_self _
    · rw [update_of_ne hne] at hq
      exact Nat.lt_succ_of_lt (h.allocated q hq)

/-- A new object under an id that is not in the store; `create` is what the default constructors
make. `resolve_identifier` returns `null_identifier` for a proxy that has an object. -/
def Heap.placeholder (create : String → List Field) (h : Heap) (classname : String) (oid : Nat)
    (hlt : oid < 2 ^ 64) : Except String (ProxyPtr × Heap) :=
  match h.store.lists.tree.findPrototypeNode classname with
  | .error m => .error m
  | .ok none => .error "undefined"
  | .ok (some n) =>
    let p := h.store.lists.tree.nextProxy
    let data : ObjectProxy := ⟨oid, classname, n.type, .null⟩
    match hs :
      TransactionState.insertProxy { h.store with lists := h.store.lists.alloc } ⟨p, data⟩ with
    | .error m => .error m
    | .ok store => .ok (p, h.add store oid (create classname) hlt (insertProxy_nextProxy hs))

/-- `object_deserializer::on_foreign_object`. -/
def Heap.foreignObject (create : String → List Field) (h : Heap) (classname : String)
    (proxy : Option ProxyPtr) (oid : Nat) (hlt : oid < 2 ^ 64) :
    Except String (Option ProxyPtr × Heap) :=
  if oid = 0 then .ok (proxy, h)
  else
    match h.store.findProxy oid with
    | some p => .ok (some p, h)
    | none => (h.placeholder create classname oid hlt).map fun r => (some r.1, r.2)

/-- `object_deserializer::on_attribute` and `on_has_one`. Reading behind the end of the buffer or
writing behind the end of an array is undefined. -/
def Field.restoreFrom (create : String → List Field) (h : Heap) (b : ByteBuffer) :
    Field → Except String (Field × Heap × ByteBuffer)
  | .plain a =>
    match a.restoreFrom b with
    | none => .error "undefined"
    | some (a, b) => .ok (.plain a, h, b)
  | .hasOne classname proxy =>
    match b.release 8 with
    | none => .error "undefined"
    | some (bytes, b) =>
      if hl : ofBytes bytes < 2 ^ 64 then
        (h.foreignObject create classname proxy (ofBytes bytes) hl).map fun r =>
          (.hasOne classname r.1, r.2, b)
      else .error "undefined"

/-- `object_deserializer::restore`. -/
def restoreFields (create : String → List Field) :
    List Field → Heap → ByteBuffer → Except String (List Field × Heap × ByteBuffer)
  | [], h, b => .ok ([], h, b)
  | f :: fs, h, b => do
    let (f, h, b) ← f.restoreFrom create h b
    let (fs, h, b) ← restoreFields create fs h b
    .ok (f :: fs, h, b)

/-! ## What is read back -/

/-- The field `f`, once written, is read back into the field `now`. -/
def Field.Restorable (h : Heap) : Field → Field → Prop
  | .plain a, .plain now => now.Restorable a
  | .hasOne _ proxy, .hasOne _ now =>
      if h.id proxy = 0 then now = proxy else h.store.findProxy (h.id proxy) = proxy
  | _, _ => False

instance (h : Heap) : ∀ f now, Decidable (Field.Restorable h f now)
  | .plain a, .plain now => inferInstanceAs (Decidable (now.Restorable a))
  | .hasOne _ proxy, .hasOne _ now => inferInstanceAs (Decidable (if h.id proxy = 0 then now = proxy
      else h.store.findProxy (h.id proxy) = proxy))
  | .plain _, .hasOne _ _ | .hasOne _ _, .plain _ => .isFalse id

/-- The field is not a character array declared without its size. -/
def Field.Sized : Field → Prop
  | .plain a => a.Sized
  | .hasOne _ _ => True

/-! ## Attributes in the buffer -/

theorem releaseText_refines (b : ByteBuffer) :
    (releaseText b).map (fun r => (r.1, r.2.content)) = Attribute.releaseText b.content := by
  rw [releaseText, Attribute.releaseText, ← b.release_refines]
  cases b.release 8 with
  | none => rfl
  | some r => exact r.2.release_refines _

theorem Attribute.restoreFrom_refines (a : Attribute) (b : ByteBuffer) :
    (a.restoreFrom b).map (fun r => (r.1, r.2.content)) = a.restore b.content := by
  cases a with
  | scalar _ | date _ =>
    rw [restoreFrom, restore, ← b.release_refines, Option.map_map, Option.map_map]
    rfl
  | bareChars array =>
    rw [restoreFrom, restore, ← b.release_refines]
    cases b.release array.bytes.length with
    | none => rfl
    | some r =>
      simp only [Option.bind_some, Option.map_some]
      split <;> rfl
  | string _ | chars _ =>
    rw [restoreFrom, restore, ← releaseText_refines]
    cases Object.releaseText b with
    | none => rfl
    | some r =>
      simp only [Option.bind_some, Option.map_some]
      split <;> rfl

/-- The array, if the attribute is one, has a terminator. -/
def Attribute.HasTerminator : Attribute → Prop
  | .chars array | .bareChars array => 0 ∈ array.bytes
  | _ => True

theorem Attribute.content_backupTo {a : Attribute} {b b' : ByteBuffer}
    (h : a.backupTo b = some b') : a.HasTerminator ∧ b'.content = b.content ++ a.backup := by
  cases a with
  | scalar _ | date _ =>
    cases h
    exact ⟨trivial, ByteBuffer.content_append ..⟩
  | string text =>
    cases h
    refine ⟨trivial, ?_⟩
    rw [ByteBuffer.content_append, ByteBuffer.content_append, append_assoc, backup, sized]
  | chars array | bareChars array =>
    rw [backupTo, backupChars] at h
    split at h
    · next hzero =>
      cases h
      refine ⟨hzero, ?_⟩
      rw [ByteBuffer.content_append, ByteBuffer.content_append, append_assoc, backup, sized]
    · cases h

theorem length_cString_lt_iff {array : List UInt8} :
    (cString array).length < array.length ↔ 0 ∈ array := by
  have hpre : cString array <+: array := takeWhile_prefix _
  refine ⟨fun hlt => ?_, fun hzero => hpre.length_le.lt_of_ne fun heq => ?_⟩
  · by_contra hzero
    have hall : cString array = array :=
      takeWhile_eq_self_iff.mpr fun c hc => decide_eq_true fun h0 => hzero (h0 ▸ hc)
    rw [hall] at hlt
    exact Nat.lt_irrefl _ hlt
  · rw [← hpre.eq_of_length heq] at hzero
    exact Attribute.ne_zero_of_mem_cString 0 hzero rfl

theorem Attribute.Restorable.hasTerminator {a now : Attribute} (hshape : now.shape = a.shape)
    (h : now.Restorable a) : a.HasTerminator := by
  cases sameShape hshape with
  | scalar | string | date => trivial
  | bareChars => exact h.elim
  | chars hcap =>
    obtain ⟨hlt, -⟩ := List.getElem?_eq_some_iff.mp h
    rw [hcap] at hlt
    exact length_cString_lt_iff.mp hlt

theorem Attribute.restorable_of_restore {a now c : Attribute} {rest rest' : List UInt8}
    (hshape : now.shape = a.shape) (hsized : a.Sized) (hzero : a.HasTerminator)
    (h : now.restore (a.backup ++ rest) = some (c, rest')) (hval : c.value = a.value) :
    now.Restorable a := by
  cases sameShape hshape with
  | scalar | string => trivial
  | bareChars => exact hsized.elim
  | date now x =>
    have hrel := release_append (toBytes 4 x.julianDate.toUInt32.toNat) rest
    rw [length_toBytes] at hrel
    rw [restore, backup, hrel, Option.map_some, ofJulianDate_toBytes] at h
    cases h
    exact Value.date.inj hval
  | @chars old array hcap =>
    have hlt : (cString array.bytes).length < old.bytes.length := by
      rw [hcap]
      exact length_cString_lt_iff.mpr hzero
    have hsize := (length_cString_lt_iff.mpr hzero).trans array.size_lt
    rw [restore, backup, releaseText_append hsize, Option.bind_some] at h
    dsimp only at h
    split at h
    · cases h
      -- behind the text the old bytes are left
      have htail : (cString array.bytes ++ old.bytes.drop (cString array.bytes).length).takeWhile
          (· ≠ 0) = cString array.bytes := Value.bytes.inj hval
      rw [takeWhile_append_of_pos (by simpa using ne_zero_of_mem_cString),
        append_right_eq_self, drop_eq_getElem_cons hlt] at htail
      refine List.getElem?_eq_some_iff.mpr ⟨hlt, ?_⟩
      by_contra hne
      rw [takeWhile_cons_of_pos (by simpa using hne)] at htail
      cases htail
    · cases h

/-! ## Fields in the buffer -/

theorem Heap.id_lt (h : Heap) (proxy : Option ProxyPtr) : h.id proxy < 2 ^ 64 := by
  cases proxy with
  | none => exact Nat.two_pow_pos 64
  | some p => exact h.oid_lt p

theorem Heap.placeholder_fst {create : String → List Field} {h h' : Heap} {classname : String}
    {oid : Nat} {hlt : oid < 2 ^ 64} {p : ProxyPtr}
    (hp : h.placeholder create classname oid hlt = .ok (p, h')) :
    p = h.store.lists.tree.nextProxy := by
  unfold Heap.placeholder at hp
  split at hp
  · cases hp
  · cases hp
  · dsimp only at hp
    split at hp
    · cases hp
    · cases hp
      rfl

namespace Field

variable {create : String → List Field} {h h' : Heap} {f now g : Field} {b b' : ByteBuffer}
  {rest : List UInt8}

def written (h : Heap) : Field → List UInt8
  | .plain a => a.backup
  | .hasOne _ proxy => toBytes 8 (h.id proxy)

theorem content_backupTo (hb : f.backupTo h b = some b') :
    b'.content = b.content ++ f.written h := by
  cases f with
  | plain a => exact (Attribute.content_backupTo hb).2
  | hasOne _ _ =>
    cases hb
    exact ByteBuffer.content_append ..

theorem exists_release_number {k n : Nat} (hn : n < 256 ^ k)
    (hb : b.content = toBytes k n ++ rest) :
    ∃ bytes b', b.release k = some (bytes, b') ∧ ofBytes bytes = n ∧ b'.content = rest := by
  obtain ⟨b', hb', hrest⟩ := ByteBuffer.exists_release hb
  rw [length_toBytes] at hb'
  exact ⟨_, b', hb', ofBytes_toBytes hn, hrest⟩

theorem restoreFrom_hasOne (create : String → List Field) (h : Heap) (classname : String)
    (now : Option ProxyPtr) {oid : Nat} (hlt : oid < 2 ^ 64)
    (hb : b.content = toBytes 8 oid ++ rest) :
    ∃ b', (Field.hasOne classname now).restoreFrom create h b =
      (h.foreignObject create classname now oid hlt).map
          (fun r => (.hasOne classname r.1, r.2, b')) ∧ b'.content = rest := by
  obtain ⟨bytes, b', hrel, hnum, hrest⟩ := exists_release_number (show oid < 256 ^ 8 from hlt) hb
  refine ⟨b', ?_, hrest⟩
  rw [restoreFrom, hrel]
  simp only [hnum]
  rw [dif_pos hlt]

theorem restoreFrom_plain (create : String → List Field) {a now : Attribute}
    (hshape : now.shape = a.shape) (hsized : a.Sized) (hb : b.content = a.backup ++ rest) :
    ∃ c b', (Field.plain now).restoreFrom create h b = .ok (.plain c, h, b') ∧ c.shape = a.shape ∧
      (now.Restorable a → c.value = a.value) ∧ b'.content = rest := by
  obtain ⟨c, hc, hcs, hval⟩ := Attribute.restore_backup hshape hsized rest
  have href := now.restoreFrom_refines b
  rw [hb, hc, Option.map_eq_some_iff] at href
  obtain ⟨⟨c', b'⟩, hc', heq⟩ := href
  obtain ⟨rfl, hrest⟩ := Prod.mk.inj heq
  refine ⟨c', b', ?_, hcs, hval, hrest⟩
  rw [restoreFrom, hc']

/-- Two fields of one declaration. -/
inductive SameShape : Field → Field → Prop
  | plain {a now : Attribute} (h : now.shape = a.shape) : SameShape (.plain a) (.plain now)
  | hasOne (classname : String) (proxy now : Option ProxyPtr) :
    SameShape (.hasOne classname proxy) (.hasOne classname now)

theorem sameShape (h : now.shape = f.shape) : SameShape f now := by
  cases f <;> cases now <;> simp only [shape, reduceCtorEq, FieldShape.plain.injEq] at h
  · exact .plain h
  · cases h
    exact .hasOne ..

theorem restoreFrom_written (hshape : now.shape = f.shape) (hr : f.Restorable h now)
    (hb : b.content = f.written h ++ rest) :
    ∃ g b', now.restoreFrom create h b = .ok (g, h, b') ∧ g.value = f.value ∧
    b'.content = rest := by
  cases sameShape hshape with
  | plain hs =>
    obtain ⟨c, b', hb', -, hvalue, hrest⟩ :=
      restoreFrom_plain create hs (Attribute.Restorable.sized hs hr) hb
    exact ⟨_, b', hb', congrArg FieldValue.plain (hvalue hr), hrest⟩
  | hasOne classname proxy now =>
    obtain ⟨b', hb', hrest⟩ := restoreFrom_hasOne create h classname now (h.id_lt proxy) hb
    refine ⟨.hasOne classname proxy, b', ?_, rfl, hrest⟩
    rw [hb', Heap.foreignObject]
    simp only [Restorable] at hr
    split at hr
    · next h0 => rw [if_pos h0, hr]; rfl
    · next h0 =>
      rw [if_neg h0, hr]
      cases proxy with
      | none => exact absurd rfl h0
      | some p => rfl

theorem restorable_of_restoreFrom {b₀ b₁ : ByteBuffer} (hsized : f.Sized)
    (hshape : now.shape = f.shape) (hf : f.backupTo h b₀ = some b₁)
    (hb : b.content = f.written h ++ rest) (hr : now.restoreFrom create h b = .ok (g, h', b'))
    (hvalue : g.value = f.value) : f.Restorable h now := by
  cases sameShape hshape with
  | @plain a now hs =>
    have href := now.restoreFrom_refines b
    rw [restoreFrom] at hr
    split at hr
    · cases hr
    · next c b'' hc =>
      cases hr
      rw [hc, hb] at href
      exact Attribute.restorable_of_restore hs hsized (Attribute.content_backupTo hf).1 href.symm
        (FieldValue.plain.inj hvalue)
  | hasOne classname proxy now =>
    obtain ⟨b'', hb'', -⟩ := restoreFrom_hasOne create h classname now (h.id_lt proxy) hb
    rw [hb''] at hr
    obtain ⟨⟨q, h₁⟩, hq, heq⟩ := map_eq_ok.mp hr
    cases heq
    obtain rfl : q = proxy := FieldValue.reference.inj hvalue
    rw [Restorable]
    rw [Heap.foreignObject] at hq
    split at hq
    · next h0 =>
      cases hq
      rw [if_pos h0]
    · next h0 =>
      rw [if_neg h0]
      split at hq
      · next p hp =>
        cases hq
        exact hp
      · -- the new proxy is not the one that has got the id before
        obtain ⟨⟨p, h₂⟩, hp, heq⟩ := map_eq_ok.mp hq
        cases heq
        obtain rfl := Heap.placeholder_fst hp
        exact absurd (h.allocated _ h0) (Nat.lt_irrefl _)

/-- The field can be written and read: a character array is declared with its size and has a
terminator. -/
def Readable : Field → Prop
  | .plain a => a.Sized ∧ a.HasTerminator
  | .hasOne _ _ => True

theorem Restorable.readable (hshape : now.shape = f.shape) (hr : f.Restorable h now) :
    f.Readable := by
  cases sameShape hshape with
  | plain hs => exact ⟨Attribute.Restorable.sized hs hr, Attribute.Restorable.hasTerminator hs hr⟩
  | hasOne => trivial

theorem exists_backupTo (hf : f.Readable) (b : ByteBuffer) : ∃ b', f.backupTo h b = some b' := by
  cases f with
  | plain a =>
    cases a with
    | scalar | string | date => exact ⟨_, rfl⟩
    | chars | bareChars => exact ⟨_, if_pos hf.2⟩
  | hasOne => exact ⟨_, rfl⟩

end Field

/-! ## Objects -/

/-- The object `o`, once written into `b`, is read back into an object whose fields are `now`, and
what has been written behind it is left in the buffer. -/
def Restored (create : String → List Field) (h : Heap) (o now : List Field) (b : ByteBuffer)
    (rest : List UInt8) : Prop :=
  ∃ b₁ r h' b₂, backupFields h o b = some b₁ ∧
    restoreFields create now h (b₁.append rest) = .ok (r, h', b₂) ∧
    r.map Field.value = o.map Field.value ∧ b₂.content = rest

section Objects

variable {create : String → List Field} {h h' : Heap} {o now r : List Field} {b b' : ByteBuffer}
  {rest : List UInt8}

theorem content_backupFields (hb : backupFields h o b = some b') :
    b'.content = b.content ++ o.flatMap (Field.written h) := by
  induction o generalizing b with
  | nil =>
    cases hb
    rw [flatMap_nil, append_nil]
  | cons f o ih =>
    obtain ⟨b₁, hf, ho⟩ := Option.bind_eq_some_iff.mp hb
    rw [ih ho, Field.content_backupTo hf, flatMap_cons, append_assoc]

theorem exists_backupFields (ho : ∀ f ∈ o, f.Readable) (b : ByteBuffer) :
    ∃ b', backupFields h o b = some b' := by
  induction o generalizing b with
  | nil => exact ⟨b, rfl⟩
  | cons f o ih =>
    obtain ⟨hf, ho⟩ := forall_mem_cons.mp ho
    obtain ⟨b₁, hb₁⟩ := Field.exists_backupTo hf b
    obtain ⟨b', hb'⟩ := ih ho b₁
    exact ⟨b', by rw [backupFields, hb₁]; exact hb'⟩

section

variable (hshape : now.map Field.shape = o.map Field.shape)
  (hr : List.Forall₂ (Field.Restorable h) o now)

include hshape hr

theorem readable_of_restorable : ∀ f ∈ o, f.Readable := by
  induction hr with
  | nil => nofun
  | cons hf _ ih =>
    obtain ⟨hfs, hos⟩ := cons.inj hshape
    exact forall_mem_cons.mpr ⟨hf.readable hfs, ih hos⟩

theorem restoreFields_written (hb : b.content = o.flatMap (Field.written h) ++ rest) :
    ∃ r b', restoreFields create now h b = .ok (r, h, b') ∧ r.map Field.value = o.map Field.value ∧
      b'.content = rest := by
  induction hr generalizing b with
  | nil => exact ⟨[], b, rfl, rfl, hb⟩
  | cons hf _ ih =>
    obtain ⟨hfs, hos⟩ := cons.inj hshape
    rw [flatMap_cons, append_assoc] at hb
    obtain ⟨g, b₁, hg, hgv, hb₁⟩ := Field.restoreFrom_written hfs hf hb
    obtain ⟨r, b', hr, hrv, hb'⟩ := ih hos hb₁
    refine ⟨g :: r, b', ?_, ?_, hb'⟩
    · rw [restoreFields, hg]
      show (restoreFields create _ h b₁ >>= _) = _
      rw [hr]
      rfl
    · rw [map_cons, map_cons, hgv, hrv]

end

theorem restorable_of_restoreFields {b₀ b₁ : ByteBuffer} (hsiz : ∀ f ∈ o, f.Sized)
    (hshape : now.map Field.shape = o.map Field.shape) (ho : backupFields h o b₀ = some b₁)
    (hb : b.content = o.flatMap (Field.written h) ++ rest)
    (hr : restoreFields create now h b = .ok (r, h', b'))
    (hval : r.map Field.value = o.map Field.value) : List.Forall₂ (Field.Restorable h) o now := by
  induction o generalizing now r b b₀ with
  | nil =>
    rw [map_eq_nil_iff.mp hshape]
    exact .nil
  | cons f o ih =>
    cases now with
    | nil => cases hshape
    | cons now nows =>
      obtain ⟨hfs, hos⟩ := cons.inj hshape
      obtain ⟨b₂, hf, ho⟩ := Option.bind_eq_some_iff.mp ho
      rw [flatMap_cons, append_assoc] at hb
      obtain ⟨⟨g, h₁, b₃⟩, hg, hr⟩ := bind_eq_ok.mp hr
      obtain ⟨⟨gs, h₂, b₄⟩, hgs, hr⟩ := bind_eq_ok.mp hr
      cases hr
      obtain ⟨hgv, hgsv⟩ := cons.inj hval
      have hfr := Field.restorable_of_restoreFrom (hsiz f mem_cons_self) hfs hf hb hg hgv
      -- so the field has been read as it was written, and the heap is still the same
      obtain ⟨g', b₃', hg', -, hb₃⟩ : ∃ g' b', now.restoreFrom create h b = .ok (g', h, b') ∧
          g'.value = f.value ∧ b'.content = o.flatMap (Field.written h) ++ rest :=
        Field.restoreFrom_written hfs hfr hb
      rw [hg] at hg'
      cases hg'
      exact .cons hfr (ih (forall_mem_cons.mp hsiz).2 hos ho hb₃ hgs hgsv)

theorem content_append_backupFields (hb : b.content = []) (hb' : backupFields h o b = some b') :
    (b'.append rest).content = o.flatMap (Field.written h) ++ rest := by
  rw [ByteBuffer.content_append, content_backupFields hb', hb, nil_append]

theorem Restored.restorable (hr : Restored create h o now b rest) (hb : b.content = [])
    (hsiz : ∀ f ∈ o, f.Sized) (hshape : now.map Field.shape = o.map Field.shape) :
    List.Forall₂ (Field.Restorable h) o now := by
  obtain ⟨b₁, r, h', b₂, hb₁, hr, hval, -⟩ := hr
  exact restorable_of_restoreFields hsiz hshape hb₁ (content_append_backupFields hb hb₁) hr hval

end Objects

/-- **What a backup is good for.** An object is read back if each of its fields is `Restorable`; and
if no character array is declared without its size, this is necessary. -/
theorem restored_iff (create : String → List Field) (h : Heap) (o now : List Field)
    (hshape : now.map Field.shape = o.map Field.shape) (b : ByteBuffer) (hb : b.content = [])
    (rest : List UInt8) :
    (List.Forall₂ (Field.Restorable h) o now → Restored create h o now b rest) ∧
      ((∀ f ∈ o, f.Sized) → Restored create h o now b rest →
        List.Forall₂ (Field.Restorable h) o now) := by
  refine ⟨fun hr => ?_, fun hsiz hr => hr.restorable hb hsiz hshape⟩
  obtain ⟨b₁, hb₁⟩ := exists_backupFields (readable_of_restorable hshape hr) b
  obtain ⟨r, b₂, hr, hval, hb₂⟩ :=
    restoreFields_written hshape hr (content_append_backupFields hb hb₁)
  exact ⟨b₁, r, h, b₂, hb₁, hr, hval, hb₂⟩

def Heap.library : Heap where
  store := (ObjectStore.empty.step (.attach "book" "B" true none)).step
    (.insert (.cons ⟨"B", .long, .integral 64 0⟩ .nil .nil))
  oid p := if p = 3 then 1 else 0
  objects _ := []
  oid_lt p := by split <;> decide
  allocated p hp := by
    have hp3 : p = 3 := by simpa using hp
    rw [hp3]
    decide

/-- A name, a date and a reference are read back over a shorter name and an empty reference. -/
theorem restored_of_loan : Restored (fun _ => []) Heap.library
      [.plain (.chars ⟨[65, 110, 110, 0], by decide⟩), .plain (.date (.syncJulianDate 2457889)),
        .hasOne "B" (some 3)]
      [.plain (.chars ⟨[65, 108, 0, 0], by decide⟩), .plain (.date (.syncJulianDate 2457890)),
        .hasOne "B" none] .empty [] :=
  (restored_iff _ _ _ _ (by decide) _ rfl _).1
    (.cons (by decide) (.cons (Date.inSync_syncJulianDate _) (.cons (by decide) .nil)))

/-- An empty reference that has been assigned an object meanwhile keeps it. -/
theorem empty_reference_not_restored :
    ¬Restored (fun _ => []) Heap.library [.hasOne "B" none] [.hasOne "B" (some 3)] .empty [] := by
  intro h
  have hr := h.restorable rfl (fun f hf => by rw [mem_singleton.mp hf]; trivial) rfl
  revert hr
  decide

end Matador.Object
