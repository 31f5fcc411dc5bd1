import Matador.Lib.Bytes

/-!
# The byte buffer

`byte_buffer` is a queue of bytes in chunks of fixed size: `append` fills the last chunk and adds
new ones, `release` empties the first chunks and drops them.
-/

namespace Matador

open List Lib

namespace ByteBuffer

def bufSize : Nat := 2 ^ 14

/-- `buffer_chunk`; `data` are the bytes before the write cursor. -/
structure Chunk where
  data : List UInt8
  readCursor : Nat
  read_le : readCursor ≤ data.length
  fits : data.length ≤ bufSize

namespace Chunk

def empty : Chunk := ⟨[], 0, Nat.le_refl _, Nat.zero_le _⟩

def available (c : Chunk) : Nat := bufSize - c.data.length

def used (c : Chunk) : Nat := c.data.length - c.readCursor

def unread (c : Chunk) : List UInt8 := c.data.drop c.readCursor

def write (c : Chunk) (bytes : List UInt8) (h : bytes.length ≤ c.available) : Chunk where
  data := c.data ++ bytes
  readCursor := c.readCursor
  read_le := by
    have := c.read_le
    rw [length_append]
    omega
  fits := by
    have := c.fits
    rw [available] at h
    rw [length_append]
    omega

def advance (c : Chunk) (size : Nat) (h : size ≤ c.used) : Chunk where
  data := c.data
  readCursor := c.readCursor + size
  read_le := by
    have := c.read_le
    rw [used] at h
    omega
  fits := c.fits

@[simp] theorem length_unread (c : Chunk) : c.unread.length = c.used := length_drop

@[simp] theorem unread_empty : empty.unread = [] := rfl

@[simp] theorem unread_write (c : Chunk) (bytes : List UInt8) (h : bytes.length ≤ c.available) :
    (c.write bytes h).unread = c.unread ++ bytes :=
  drop_append_of_le_length c.read_le

@[simp] theorem unread_advance (c : Chunk) (size : Nat) (h : size ≤ c.used) :
    (c.advance size h).unread = c.unread.drop size := by
  rw [unread, unread, drop_drop]
  rfl

end Chunk

end ByteBuffer

open ByteBuffer

/-- `byte_buffer`: `chunk_list_` is never empty, `back` is its last chunk. -/
structure ByteBuffer where
  front : List Chunk
  back : Chunk

namespace ByteBuffer

def empty : ByteBuffer := ⟨[], .empty⟩

def content (b : ByteBuffer) : List UInt8 := b.front.flatMap Chunk.unread ++ b.back.unread

/-! ## Appending -/

def append (b : ByteBuffer) (bytes : List UInt8) : ByteBuffer :=
  if h : b.back.available < bytes.length then
    append ⟨b.front ++ [b.back.write (bytes.take b.back.available) (length_take_le ..)], .empty⟩
      (bytes.drop b.back.available)
  else { b with back := b.back.write bytes (Nat.le_of_not_lt h) }
termination_by (bytes.length, b.back.data.length)
decreasing_by
  rw [length_drop]
  rcases Nat.eq_zero_or_pos b.back.available with h0 | hpos
  · -- a full chunk is followed by an empty one
    rw [h0, Nat.sub_zero]
    refine Prod.Lex.right _ ?_
    show 0 < b.back.data.length
    rw [Chunk.available, bufSize] at h0
    omega
  · exact Prod.Lex.left _ _ (by omega)

/-- **Appended bytes come last.** -/
@[simp] theorem content_append (b : ByteBuffer) (bytes : List UInt8) :
    (b.append bytes).content = b.content ++ bytes := by
  induction b, bytes using append.induct with
  | case1 b bytes h ih =>
    rw [append, dif_pos h, ih]
    simp [content]
  | case2 b bytes h =>
    rw [append, dif_neg h]
    simp [content]

/-! ## Releasing -/

/-- The loop of `byte_buffer::release`: the bytes read, the chunks left and the number of bytes
that are still to be read. -/
def releaseChunks : List Chunk → Nat → List UInt8 × List Chunk × Nat
  | [], size => ([], [], size)
  | c :: cs, size =>
    if c.used ≤ size then
      let r := releaseChunks cs (size - c.used)
      (c.unread ++ r.1, r.2)
    else ([], c :: cs, size)

def ofChunks : List Chunk → ByteBuffer
  | [] => empty
  | c :: cs => ⟨(c :: cs).dropLast, (c :: cs).getLast (cons_ne_nil c cs)⟩

/-- `byte_buffer::release`; reading behind the end of the buffer is undefined. -/
def release (b : ByteBuffer) (size : Nat) : Option (List UInt8 × ByteBuffer) :=
  match releaseChunks (b.front ++ [b.back]) size with
  | (bytes, chunks, 0) => some (bytes, ofChunks chunks)
  | (bytes, c :: cs, size + 1) =>
    if h : size + 1 ≤ c.used then
      some (bytes ++ c.unread.take (size + 1), ofChunks (c.advance (size + 1) h :: cs))
    else none
  | (_, [], _ + 1) => none

theorem content_ofChunks (cs : List Chunk) : (ofChunks cs).content = cs.flatMap Chunk.unread := by
  cases cs with
  | nil => rfl
  | cons c cs =>
    have h := dropLast_append_getLast (cons_ne_nil c cs)
    rw [content, ofChunks]
    conv => rhs; rw [← h]
    simp

theorem releaseChunks_spec {cs chunks : List Chunk} {size left : Nat} {bytes : List UInt8}
    (h : releaseChunks cs size = (bytes, chunks, left)) :
    bytes ++ chunks.flatMap Chunk.unread = cs.flatMap Chunk.unread ∧ bytes.length + left = size ∧
      ∀ c ∈ chunks.head?, left < c.used := by
  induction cs generalizing size bytes with
  | nil =>
    cases h
    simp
  | cons c cs ih =>
    by_cases hused : c.used ≤ size
    · rw [releaseChunks, if_pos hused] at h
      obtain ⟨rfl, hrest⟩ := Prod.mk.inj h
      obtain ⟨hbyt, hlen, hhead⟩ := ih (Prod.ext rfl hrest)
      refine ⟨?_, ?_, hhead⟩
      · rw [append_assoc, hbyt, flatMap_cons]
      · rw [length_append, Chunk.length_unread, Nat.add_assoc, hlen, Nat.add_sub_cancel' hused]
    · rw [releaseChunks, if_neg hused] at h
      cases h
      refine ⟨rfl, Nat.zero_add _, fun c' hc' => ?_⟩
      cases hc'
      exact Nat.lt_of_not_le hused

/-- **Released bytes are taken from the front**: the buffer behaves as the queue of its bytes. -/
theorem release_refines (b : ByteBuffer) (size : Nat) :
    (b.release size).map (fun r => (r.1, r.2.content)) = Lib.release size b.content := by
  have hcon : (b.front ++ [b.back]).flatMap Chunk.unread = b.content := by simp [content]
  unfold release
  split
  · next bytes chunks heq =>
    obtain ⟨hbyt, hlen, -⟩ := releaseChunks_spec heq
    rw [← hcon, ← hbyt, ← hlen, Nat.add_zero, release_append, Option.map_some, content_ofChunks]
  · next bytes c cs left heq =>
    obtain ⟨hbyt, hlen, hhead⟩ := releaseChunks_spec heq
    have hlt : left + 1 < c.used := hhead c rfl
    rw [dif_pos hlt.le, Option.map_some, content_ofChunks, flatMap_cons, Chunk.unread_advance]
    have hfrt : (bytes ++ c.unread.take (left + 1)).length = size := by
      rw [length_append, length_take, Chunk.length_unread]
      omega
    have hspl : b.content = bytes ++ c.unread.take (left + 1) ++
        (c.unread.drop (left + 1) ++ cs.flatMap Chunk.unread) := by
      rw [← hcon, ← hbyt, flatMap_cons, append_assoc, ← append_assoc (c.unread.take _),
        take_append_drop]
    rw [hspl, ← hfrt, release_append]
  · next bytes left heq =>
    obtain ⟨hbyt, hlen, -⟩ := releaseChunks_spec heq
    rw [Option.map_none, Lib.release, if_neg]
    rw [← hcon, ← hbyt, flatMap_nil, append_nil]
    omega

theorem exists_release {b : ByteBuffer} {bytes rest : List UInt8} (h : b.content = bytes ++ rest) :
    ∃ b', b.release bytes.length = some (bytes, b') ∧ b'.content = rest := by
  have href := b.release_refines bytes.length
  rw [h, release_append, Option.map_eq_some_iff] at href
  obtain ⟨⟨read, b'⟩, hr, heq⟩ := href
  obtain ⟨rfl, hrest⟩ := Prod.mk.inj heq
  exact ⟨b', hr, hrest⟩

/-! ## The size -/

def chunks (b : ByteBuffer) : List Chunk := b.front ++ [b.back]

def size (b : ByteBuffer) : Nat :=
  b.chunks.length * bufSize - b.back.available - (b.front.headD b.back).readCursor

/-- Only the last chunk has room, and only the first one has been read from. -/
def Packed (cs : List Chunk) : Prop :=
  cs.IsChain fun c d => c.data.length = bufSize ∧ d.readCursor = 0

variable {b : ByteBuffer}

theorem length_content (h : Packed b.chunks) : b.content.length = b.size := by
  have hfits := b.back.fits
  have hread := b.back.read_le
  -- over the chunks in front: the bytes read are those of the first one
  have hsum (front : List Chunk) (hcha : Packed (front ++ [b.back])) :
      (front.flatMap Chunk.unread ++ b.back.unread).length + (front.headD b.back).readCursor =
        front.length * bufSize + b.back.data.length := by
    induction front with
    | nil =>
      simp only [flatMap_nil, nil_append, Chunk.length_unread, Chunk.used, headD_nil, length_nil]
      omega
    | cons c front ih =>
      obtain ⟨hfst, hrest⟩ := isChain_cons.mp hcha
      obtain ⟨hfull, hzero⟩ := hfst (front.headD b.back) (by cases front <;> rfl)
      have hlen := ih hrest
      have hc := c.read_le
      simp only [flatMap_cons, length_append, Chunk.length_unread, Chunk.used, headD_cons,
        length_cons, Nat.add_mul] at hlen hc ⊢
      omega
  have hlen := hsum b.front h
  rw [size, chunks, length_append, length_singleton, Nat.add_mul, Chunk.available, content]
  omega

theorem Packed.write {front : List Chunk} {c d : Chunk} (h : Packed (front ++ [c]))
    (hd : d.readCursor = c.readCursor) : Packed (front ++ [d]) := by
  obtain ⟨hfrt, -, hback⟩ := isChain_append.mp h
  refine isChain_append.mpr ⟨hfrt, .singleton _, fun x hx y hy => ?_⟩
  cases hy
  rw [hd]
  exact hback x hx c rfl

theorem packed_append (h : Packed b.chunks) (bytes : List UInt8) :
    Packed (b.append bytes).chunks := by
  induction b, bytes using append.induct with
  | case1 b bytes hlt ih =>
    rw [append, dif_pos hlt]
    refine ih (isChain_append.mpr ⟨Packed.write h rfl, .singleton _, fun c hc d hd => ?_⟩)
    rw [getLast?_concat] at hc
    cases hc
    cases hd
    have hfits := b.back.fits
    simp only [Chunk.write, length_append, length_take, Chunk.available] at hlt ⊢
    exact ⟨by omega, rfl⟩
  | case2 b bytes hle =>
    rw [append, dif_neg hle]
    exact Packed.write h rfl

theorem releaseChunks_suffix (cs : List Chunk) (size : Nat) :
    (releaseChunks cs size).2.1 <:+ cs := by
  induction cs generalizing size with
  | nil => exact suffix_rfl
  | cons c cs ih =>
    rw [releaseChunks]
    split
    · exact (ih _).trans (suffix_cons c cs)
    · exact suffix_rfl

theorem packed_ofChunks {cs : List Chunk} (h : Packed cs) : Packed (ofChunks cs).chunks := by
  cases cs with
  | nil => exact .singleton _
  | cons c cs =>
    rw [ofChunks, chunks, dropLast_append_getLast]
    exact h

theorem packed_release (h : Packed b.chunks) {n : Nat} {r : List UInt8 × ByteBuffer}
    (hr : b.release n = some r) : Packed r.2.chunks := by
  have hsuf := IsChain.suffix h (releaseChunks_suffix (b.front ++ [b.back]) n)
  unfold release at hr
  split at hr
  · next heq =>
    rw [heq] at hsuf
    cases hr
    exact packed_ofChunks hsuf
  · next c cs left heq =>
    rw [heq] at hsuf
    split at hr
    · cases hr
      exact packed_ofChunks (isChain_cons.mpr (isChain_cons.mp hsuf))
    · cases hr
  · cases hr

/-- A buffer after some calls, with all bytes appended to it and all released from it. -/
inductive Used : ByteBuffer → List UInt8 → List UInt8 → Prop
  | empty : Used .empty [] []
  | append {b : ByteBuffer} {appended released : List UInt8} (bytes : List UInt8) :
    Used b appended released → Used (b.append bytes) (appended ++ bytes) released
  | release {b : ByteBuffer} {appended released : List UInt8} {n : Nat}
      {r : List UInt8 × ByteBuffer} :
    Used b appended released → n ≤ b.size → b.release n = some r →
      Used r.2 appended (released ++ r.1)

variable {appended released : List UInt8}

theorem Used.packed (h : Used b appended released) :
    Packed b.chunks ∧ appended = released ++ b.content := by
  induction h with
  | empty => exact ⟨.singleton _, rfl⟩
  | append bytes _ ih =>
      exact ⟨packed_append ih.1 bytes, by rw [content_append, ih.2, append_assoc]⟩
  | @release b appended released n r _ hn hr ih =>
    obtain ⟨hpac, hcon⟩ := ih
    refine ⟨packed_release hpac hr, ?_⟩
    have href := b.release_refines n
    rw [hr, Lib.release, if_pos (by rwa [length_content hpac])] at href
    obtain ⟨hread, hrest⟩ := Prod.mk.inj (Option.some.inj href)
    rw [hcon, append_assoc, hread, hrest, take_append_drop]

/-- **The buffer is a queue**: the bytes released are the first ones appended, `size` is the number
of the others, and as many can be released. -/
theorem queue_of_used (h : Used b appended released) :
    released <+: appended ∧ b.size = appended.length - released.length ∧
      ∀ n ≤ b.size, ∃ r, b.release n = some r ∧ r.1.length = n := by
  obtain ⟨hpac, hcon⟩ := h.packed
  have hsize := length_content hpac
  refine ⟨⟨_, hcon.symm⟩, ?_, fun n hn => ?_⟩
  · rw [hcon, length_append, Nat.add_sub_cancel_left, hsize]
  · have hlen : (b.content.take n).length = n := length_take_of_le (by omega)
    obtain ⟨b', hb', -⟩ := exists_release (take_append_drop n b.content).symm
    rw [hlen] at hb'
    exact ⟨_, hb', hlen⟩

theorem exists_used (released rest more : List UInt8) :
    ∃ b, Used b (released ++ rest ++ more) released := by
  have hfill : Used (empty.append (released ++ rest)) (released ++ rest) [] := .append _ .empty
  have hcon : (empty.append (released ++ rest)).content = released ++ rest := content_append ..
  obtain ⟨b, hb, -⟩ := exists_release hcon
  refine ⟨_, (hfill.release ?_ hb).append more⟩
  rw [← length_content hfill.packed.1, hcon]
  exact (prefix_append released rest).length_le

/-- A chunk is filled up to its last byte, three bytes are released, and two are appended over its
end. -/
theorem queue_over_chunk :
    ∃ b, Used b ([0, 0, 0] ++ replicate (bufSize - 4) 0 ++ [1, 2]) [0, 0, 0] ∧
    [0, 0, 0] <+: [0, 0, 0] ++ replicate (bufSize - 4) (0 : UInt8) ++ [1, 2] ∧
    b.size = bufSize - 2 ∧ ∀ n ≤ b.size, ∃ r, b.release n = some r ∧ r.1.length = n := by
  obtain ⟨b, hused⟩ := exists_used [0, 0, 0] (replicate (bufSize - 4) 0) [1, 2]
  obtain ⟨hpre, hsize, hrel⟩ := queue_of_used hused
  rw [length_append, length_append, length_replicate] at hsize
  exact ⟨b, hused, hpre, hsize, hrel⟩

end ByteBuffer

end Matador
