import Mathlib

/-!
# Writing to a stream

`stream_handler::on_output` sends the buffers that were given to `write`, one after the other. What
`send` accepted moves the cursor of the buffer, but `size()` stays the size of the whole buffer, so
the next call offers as many bytes from the cursor on, of which the last ones are not of the buffer.
When a call fails or reports that the stream is closed, the handler closes the stream, but the loop
goes on with the same buffer.

The results of `send` are given by the numbers of its calls.
-/

namespace Matador.Net

open List

/-- `buffer_view`, by its address. -/
structure BufferView where
  start : Nat
  /-- counted from the start -/
  cursor : Nat
  size : Nat
  deriving DecidableEq

variable {bv : BufferView}

namespace BufferView

def capacity (bv : BufferView) : Nat := bv.size - bv.cursor

def bump (len : Nat) (bv : BufferView) : BufferView :=
  { bv with cursor := bv.cursor + min len bv.capacity }

def full (bv : BufferView) : Bool := bv.capacity = 0

/-- The number of bytes `socket_stream::send` offers: the size as an `int`, which becomes a `size_t`
again. -/
def offered (bv : BufferView) : Nat :=
  let n := bv.size % 2 ^ 32
  if n < 2 ^ 31 then n else n + (2 ^ 64 - 2 ^ 32)

theorem offered_eq (h : bv.size < 2 ^ 31) : bv.offered = bv.size := by
  have hmod : bv.size % 2 ^ 32 = bv.size := Nat.mod_eq_of_lt (h.trans (by decide))
  rw [offered, hmod, if_pos h]

end BufferView

/-- What a call of `send` returns. -/
inductive SendResult
  | sent (len : Nat)
  /-- -1, and `errno` is `EWOULDBLOCK` -/
  | wouldBlock
  /-- -1, and `errno` is another error -/
  | failed
  deriving DecidableEq

structure Output where
  writeBuffers : List BufferView
  bytesTotal : Nat := 0
  /-- the calls of `send`, with the buffer they were given and what they returned -/
  sends : List (BufferView × SendResult) := []
  /-- the calls of `on_close` -/
  closed : Nat := 0
  isReadyToWrite : Bool := true
  /-- the calls of the write handler -/
  written : List (Int × Int) := []

namespace Output

/-- What follows a call of `send` for the first buffer. -/
def react (s : Output) (bv : BufferView) (rest : List BufferView) : SendResult → Output
  | .sent 0 => { s with closed := s.closed + 1 }
  | .failed =>
      { s with closed := s.closed + 1, isReadyToWrite := false, written := s.written ++ [(-1, -1)] }
  | .wouldBlock => s
  | .sent (len + 1) =>
    let bv := bv.bump (len + 1)
    { s with
      bytesTotal := s.bytesTotal + (len + 1)
      writeBuffers := if bv.full then rest else bv :: rest }

/-- A round of the loop in `on_output`. -/
def step (s : Output) (r : SendResult) : Output :=
  match s.writeBuffers with
  | [] => s
  | bv :: rest => { s with sends := s.sends ++ [(bv, r)] }.react bv rest r

/-- The state after `n` calls of `send`, or when the loop has ended before. -/
def after (results : Nat → SendResult) (buffers : List BufferView) (n : Nat) : Output :=
  ((range n).map results).foldl step { writeBuffers := buffers }

def finish (s : Output) : Output :=
  { s with isReadyToWrite := false, written := s.written ++ [(0, (s.bytesTotal : Int))] }

/-- `on_output` returns, in the state `s'`. -/
def Returns (results : Nat → SendResult) (buffers : List BufferView) (s' : Output) : Prop :=
  ∃ n, (after results buffers n).writeBuffers = [] ∧ s' = (after results buffers n).finish

variable {results : Nat → SendResult} {buffers : List BufferView} {s : Output} {n : Nat}

theorem after_succ : after results buffers (n + 1) =
      (after results buffers n).step (results n) := by
  simp [after, range_succ]

theorem step_of_nil (h : s.writeBuffers = []) (r : SendResult) : s.step r = s := by
  rw [step, h]

variable {rest : List BufferView}

theorem step_of_cons (h : s.writeBuffers = bv :: rest) (r : SendResult) :
    s.step r = { s with sends := s.sends ++ [(bv, r)] }.react bv rest r := by
  rw [step]
  split
  · next hnil => cases h.symm.trans hnil
  · next hcons =>
    cases h.symm.trans hcons
    rfl

theorem sends_react (s : Output) (bv : BufferView) (rest : List BufferView) (r : SendResult) :
    (s.react bv rest r).sends = s.sends := by
  unfold react
  split <;> rfl

/-! ## What is handed over -/

def bytes (mem : Nat → UInt8) (bv : BufferView) : List UInt8 :=
  (range bv.size).map fun i => mem (bv.start + i)

/-- The bytes that a call of `send` accepts, from the cursor on. -/
def handed (mem : Nat → UInt8) : BufferView × SendResult → List UInt8
  | (bv, .sent len) => (range len).map fun i => mem (bv.start + bv.cursor + i)
  | _ => []

/-- Exactly the bytes of the buffers are handed over, none outside a buffer is offered, and the
handler gets the total. -/
def Delivers (mem : Nat → UInt8) (results : Nat → SendResult) (buffers : List BufferView) : Prop :=
  ∃ s', Returns results buffers s' ∧ s'.sends.flatMap (handed mem) = buffers.flatMap (bytes mem) ∧
    (∀ x ∈ s'.sends, x.1.cursor + x.1.offered ≤ x.1.size) ∧
    s'.written = [(0, (((buffers.map BufferView.size).sum : Nat) : Int))]

/-- As `write` is called: not empty, with the cursor at the start. -/
def Fresh (buffers : List BufferView) : Prop := ∀ bv ∈ buffers, bv.cursor = 0 ∧ 0 < bv.size

/-- Each call of `send` accepts some of the bytes that it is offered. -/
def Accepts (results : Nat → SendResult) (buffers : List BufferView) : Prop :=
  ∀ n bv rest, (after results buffers n).writeBuffers = bv :: rest →
    ∃ len, results n = .sent len ∧ 1 ≤ len ∧ len ≤ bv.offered

/-- Each of the first `n` calls accepts a whole buffer. -/
def Whole (results : Nat → SendResult) (buffers : List BufferView) (n : Nat) : Prop :=
  ∀ i bv, i < n → buffers[i]? = some bv → results i = .sent bv.size

theorem step_sent (h : s.writeBuffers = bv :: rest) {len : Nat} (hlen : 0 < len) :
    s.step (.sent len) = { s with
      bytesTotal := s.bytesTotal + len
      sends := s.sends ++ [(bv, .sent len)]
      writeBuffers := if (bv.bump len).full then rest else bv.bump len :: rest } := by
  obtain ⟨len, rfl⟩ := Nat.exists_eq_succ_of_ne_zero hlen.ne'
  exact step_of_cons h _

theorem after_whole (hfsh : Fresh buffers) (hwhl : Whole results buffers n)
    (hn : n ≤ buffers.length) : after results buffers n = {
      writeBuffers := buffers.drop n
      bytesTotal := ((buffers.take n).map BufferView.size).sum
      sends := (buffers.take n).map fun bv => (bv, .sent bv.size) } := by
  induction n with
  | zero => rfl
  | succ n ih =>
    have hlt : n < buffers.length := hn
    have hget : buffers[n]? = some buffers[n] := getElem?_eq_getElem hlt
    obtain ⟨hcur, hsize⟩ := hfsh _ (getElem_mem hlt)
    have hfull : (buffers[n].bump buffers[n].size).full := by
      simp [BufferView.full, BufferView.bump, BufferView.capacity, hcur]
    rw [after_succ, ih (fun i bv hi => hwhl i bv (Nat.lt_succ_of_lt hi)) hlt.le,
      hwhl n _ (Nat.lt_succ_self n) hget,
      step_sent (drop_eq_getElem_cons hlt) hsize, if_pos hfull, take_add_one, hget]
    simp only [Option.toList_some, map_append, map_singleton, sum_append, sum_singleton]

theorem Whole.delivers (mem : Nat → UInt8) (hfsh : Fresh buffers)
    (hsma : ∀ bv ∈ buffers, bv.size < 2 ^ 31) (h : Whole results buffers buffers.length) :
    Delivers mem results buffers := by
  have haft := after_whole hfsh h (Nat.le_refl _)
  rw [drop_length, take_length] at haft
  refine ⟨_, ⟨buffers.length, congrArg writeBuffers haft, rfl⟩, ?_⟩
  rw [haft]
  refine ⟨?_, ?_, rfl⟩
  · show (buffers.map fun bv => (bv, SendResult.sent bv.size)).flatMap (handed mem) = _
    rw [flatMap_map]
    refine flatMap_congr fun bv hbv => ?_
    rw [handed, (hfsh bv hbv).1, bytes, Nat.add_zero]
  · intro x hx
    obtain ⟨bv, hbv, rfl⟩ := mem_map.mp hx
    rw [BufferView.offered_eq (hsma bv hbv), (hfsh bv hbv).1, Nat.zero_add]

theorem mem_sends (h : (after results buffers n).writeBuffers = bv :: rest)
    {m : Nat} (hm : n < m) : (bv, results n) ∈ (after results buffers m).sends := by
  induction m, hm using Nat.le_induction with
  | base =>
    rw [after_succ, step_of_cons h, sends_react]
    exact mem_append_right _ (mem_singleton_self _)
  | succ m _ ih =>
    rw [after_succ]
    cases hbuf : (after results buffers m).writeBuffers with
    | nil => rwa [step_of_nil hbuf]
    | cons bv' rest' =>
      rw [step_of_cons hbuf, sends_react]
      exact mem_append_left _ ih

theorem after_of_le {m : Nat} (h : (after results buffers n).writeBuffers = []) (hm : n ≤ m) :
    after results buffers m = after results buffers n := by
  induction m, hm using Nat.le_induction with
  | base => rfl
  | succ m _ ih => rw [after_succ, ih, step_of_nil h]

/-- A call that accepts less than the buffer is followed by one that offers bytes behind it. -/
theorem Delivers.whole {mem : Nat → UInt8} (h : Delivers mem results buffers) (hfsh : Fresh buffers)
    (hsma : ∀ bv ∈ buffers, bv.size < 2 ^ 31) (hacc : Accepts results buffers)
    (hn : n ≤ buffers.length) : Whole results buffers n := by
  induction n with
  | zero => exact fun i _ hi => absurd hi (Nat.not_lt_zero i)
  | succ n ih =>
    have hlt : n < buffers.length := hn
    have hwhl := ih hlt.le
    obtain ⟨bv, hbv⟩ : ∃ bv, bv = buffers[n] := ⟨_, rfl⟩
    have hmem : bv ∈ buffers := hbv ▸ getElem_mem hlt
    obtain ⟨hcur, hsize⟩ := hfsh bv hmem
    have hsta := after_whole hfsh hwhl hlt.le
    have hfrt : (after results buffers n).writeBuffers = bv :: buffers.drop (n + 1) := by
      rw [hsta, hbv]
      exact drop_eq_getElem_cons hlt
    obtain ⟨len, hlen, hpos, hle⟩ := hacc n bv _ hfrt
    rw [BufferView.offered_eq (hsma bv hmem)] at hle
    have hall : len = bv.size := by
      by_contra hne
      have hcap : (bv.bump len).capacity = bv.size - len := by
        simp only [BufferView.bump, BufferView.capacity]
        omega
      have hnext : (after results buffers (n + 1)).writeBuffers =
          bv.bump len :: buffers.drop (n + 1) := by
        rw [after_succ, hlen, step_sent hfrt hpos, if_neg]
        rw [BufferView.full, decide_eq_true_eq]
        omega
      obtain ⟨s', ⟨m, hm, rfl⟩, -, hoffe, -⟩ := h
      have hlat : n + 1 < m := by
        by_contra hnot
        rw [after_of_le hm (Nat.not_lt.mp hnot), hm] at hnext
        cases hnext
      have hoff := hoffe _ (mem_sends hnext hlat)
      have hoffered : (bv.bump len).offered = bv.size := BufferView.offered_eq (hsma bv hmem)
      rw [hoffered] at hoff
      simp only [BufferView.bump, BufferView.capacity] at hoff
      omega
    intro i bv' hi hget
    rcases Nat.lt_succ_iff_lt_or_eq.mp hi with hi | rfl
    · exact hwhl i bv' hi hget
    · rw [getElem?_eq_getElem hlt, Option.some.injEq] at hget
      rw [hlen, hall, hbv, hget]

/-- **The bytes of the buffers are handed over, each once and in order, if each call of `send`
accepts a whole buffer**, and only then if no buffer is too long for an `int`; the size of a longer
one is cut when it is offered. -/
theorem delivers_iff (mem : Nat → UInt8) (results : Nat → SendResult) (buffers : List BufferView)
    (hfresh : Fresh buffers) (haccepts : Accepts results buffers) :
    ((∀ bv ∈ buffers, bv.size < 2 ^ 31) ∧ Whole results buffers buffers.length →
      Delivers mem results buffers) ∧
      ((∀ bv ∈ buffers, bv.size < 2 ^ 31) → Delivers mem results buffers →
        Whole results buffers buffers.length) := by
  constructor
  · rintro ⟨hsma, hwhl⟩
    exact hwhl.delivers mem hfresh hsma
  · intro hsma h
    exact h.whole hfresh hsma haccepts (Nat.le_refl _)

theorem accepts_three {len : Nat} (hlen : len = 1 ∨ len = 3) :
    Accepts (fun _ => .sent len) [⟨0, 0, 3⟩] := by
  have hemp : (after (fun _ => .sent len) [⟨0, 0, 3⟩] 3).writeBuffers = [] := by
    rcases hlen with rfl | rfl <;> rfl
  intro n bv rest h
  have hbuf : bv.size = 3 := by
    match n with
    | 0 | 1 | 2 => rcases hlen with rfl | rfl <;> cases h <;> rfl
    | n + 3 =>
      rw [after_of_le hemp (Nat.le_add_left 3 n), hemp] at h
      cases h
  rw [BufferView.offered_eq (by rw [hbuf]; decide)]
  exact ⟨len, rfl, by omega, by omega⟩

theorem fresh_three : Fresh [⟨0, 0, 3⟩] := by
  intro bv hbv
  rw [mem_singleton.mp hbv]
  decide

theorem delivers_three :
    Fresh [⟨0, 0, 3⟩] ∧ Accepts (fun _ => .sent 3) [⟨0, 0, 3⟩] ∧
    Delivers UInt8.ofNat (fun _ => .sent 3) [⟨0, 0, 3⟩] := by
  refine ⟨fresh_three, accepts_three (.inr rfl), ?_⟩
  refine (delivers_iff UInt8.ofNat _ _ fresh_three (accepts_three (.inr rfl))).1
    ⟨by simp, fun i bv hi hget => ?_⟩
  obtain rfl : i = 0 := Nat.lt_one_iff.mp hi
  cases hget
  rfl

/-- The second call offers three bytes, of which the last one is not of the buffer. -/
theorem not_delivers_ones :
    Fresh [⟨0, 0, 3⟩] ∧ Accepts (fun _ => .sent 1) [⟨0, 0, 3⟩] ∧
    ¬Delivers UInt8.ofNat (fun _ => .sent 1) [⟨0, 0, 3⟩] := by
  refine ⟨fresh_three, accepts_three (.inl rfl), fun h => ?_⟩
  have hwhl := h.whole (n := 1) fresh_three (by simp) (accepts_three (.inl rfl)) (Nat.le_refl 1)
  cases hwhl 0 ⟨0, 0, 3⟩ Nat.one_pos rfl

/-! ## What the handler is told -/

/-- The loop ends, the stream is closed at most once, and the handler is called once; with an error
if a call failed. -/
def Answers (results : Nat → SendResult) (buffers : List BufferView) : Prop :=
  ∃ s', Returns results buffers s' ∧ s'.closed ≤ 1 ∧
    ∃ error len, s'.written = [(error, len)] ∧ ((∃ x ∈ s'.sends, x.2 = .failed) → error < 0)

/-- The call fails, or it says that the stream is closed. -/
def Ends (r : SendResult) : Prop := r = .sent 0 ∨ r = .failed

/-- Whether the results cover buffers with so many bytes left, before one of them ends the
stream. -/
def drained : List Nat → List SendResult → Bool
  | [], _ => true
  | c :: cs, .sent (len + 1) :: rs =>
      if c ≤ len + 1 then drained cs rs else drained ((c - (len + 1)) :: cs) rs
  | c :: cs, .wouldBlock :: rs => drained (c :: cs) rs
  | _ :: _, _ => false

def left (s : Output) : List Nat := s.writeBuffers.map BufferView.capacity

/-- No call ends the stream before the buffers are sent. -/
def Undisturbed (results : Nat → SendResult) (buffers : List BufferView) : Prop :=
  ∀ n, Ends (results n) → drained (buffers.map BufferView.capacity) ((range n).map results) = true

theorem capacity_bump (bv : BufferView) (len : Nat) :
    (bv.bump len).capacity = bv.capacity - len := by
  simp only [BufferView.bump, BufferView.capacity]
  omega

variable {r : SendResult}

theorem sent_of_not_ends (h : ¬Ends r) : r = .wouldBlock ∨ ∃ len, r = .sent (len + 1) := by
  cases r with
  | failed => exact absurd (.inr rfl) h
  | wouldBlock => exact .inl rfl
  | sent len =>
    cases len with
    | zero => exact absurd (.inl rfl) h
    | succ len => exact .inr ⟨len, rfl⟩

theorem drained_step (hr : s.writeBuffers ≠ [] → ¬Ends r) (rs : List SendResult) :
    drained s.left (r :: rs) = drained (s.step r).left rs := by
  cases hbuf : s.writeBuffers with
  | nil => simp [left, step_of_nil hbuf, hbuf, drained]
  | cons bv rest =>
    rw [step_of_cons hbuf, left, hbuf]
    rcases sent_of_not_ends (hr (by simp [hbuf])) with rfl | ⟨len, rfl⟩
    · simp [react, left, drained]
    · have hfull : (bv.bump (len + 1)).full ↔ bv.capacity ≤ len + 1 := by
        rw [BufferView.full, decide_eq_true_eq, capacity_bump, Nat.sub_eq_zero_iff_le]
      by_cases hle : bv.capacity ≤ len + 1
      · simp [react, left, drained, hfull.mpr hle, hle]
      · simp [react, left, drained, mt hfull.mp hle, hle, capacity_bump]

/-- No call that is made ends the stream. -/
def Calm (results : Nat → SendResult) (buffers : List BufferView) (n : Nat) : Prop :=
  ∀ i < n, (after results buffers i).writeBuffers ≠ [] → ¬Ends (results i)

theorem Calm.drained_iff (h : Calm results buffers n) :
    drained (buffers.map BufferView.capacity) ((range n).map results) ↔
      (after results buffers n).writeBuffers = [] := by
  have hrest (rs : List SendResult) :
    drained (buffers.map BufferView.capacity) ((range n).map results ++ rs) =
      drained (after results buffers n).left rs := by
    induction n generalizing rs with
    | zero => rfl
    | succ n ih =>
      rw [range_succ, map_append, append_assoc, ih fun i hi =>
        h i (Nat.lt_succ_of_lt hi), after_succ]
      exact drained_step (h n (Nat.lt_succ_self n)) rs
  have hnil := hrest []
  rw [append_nil] at hnil
  rw [hnil, left]
  cases (after results buffers n).writeBuffers <;> simp [drained]

theorem undisturbed_iff : Undisturbed results buffers ↔ ∀ n, Calm results buffers n := by
  constructor
  · intro h n
    induction n with
    | zero => exact fun i hi => absurd hi (Nat.not_lt_zero i)
    | succ n ih =>
      intro i hi hbuf hends
      rcases Nat.lt_succ_iff_lt_or_eq.mp hi with hi | rfl
      · exact ih i hi hbuf hends
      · exact hbuf (ih.drained_iff.mp (h i hends))
  · intro h n hends
    refine (h n).drained_iff.mpr ?_
    by_contra hbuf
    exact h (n + 1) n (Nat.lt_succ_self n) hbuf hends

/-- Nothing is closed, and the handler is not called yet. -/
structure Quiet (s : Output) : Prop where
  closed : s.closed = 0
  written : s.written = []
  sends : ∀ x ∈ s.sends, x.2 ≠ .failed

theorem Quiet.step (h : Quiet s) (hr : s.writeBuffers ≠ [] → ¬Ends r) : Quiet (s.step r) := by
  cases hbuf : s.writeBuffers with
  | nil => rwa [step_of_nil hbuf]
  | cons bv rest =>
    have hnot := hr (by simp [hbuf])
    have hsen : ∀ x ∈ s.sends ++ [(bv, r)], x.2 ≠ .failed := by
      refine forall_mem_append.mpr ⟨h.sends, ?_⟩
      intro x hx hfai
      rw [mem_singleton.mp hx] at hfai
      exact hnot (.inr hfai)
    rw [step_of_cons hbuf]
    rcases sent_of_not_ends hnot with rfl | ⟨len, rfl⟩ <;> exact ⟨h.closed, h.written, hsen⟩

def remaining (s : Output) : Nat := (s.left.map (· + 1)).sum

theorem remaining_step (hbuf : s.writeBuffers ≠ []) (hr : ¬Ends r) (hblk : r ≠ .wouldBlock) :
    (s.step r).remaining < s.remaining := by
  obtain ⟨bv, rest, hcons⟩ := exists_cons_of_ne_nil hbuf
  rcases sent_of_not_ends hr with rfl | ⟨len, rfl⟩
  · exact absurd rfl hblk
  rw [step_of_cons hcons, remaining, remaining, left, left, hcons]
  by_cases hfull : (bv.bump (len + 1)).full
  · simp [react, hfull]
  · have hcap := capacity_bump bv (len + 1)
    rw [BufferView.full, decide_eq_true_eq] at hfull
    simp [react, BufferView.full, hfull]
    omega

theorem exists_empty (h : ∀ n, Calm results buffers n)
    (hblk : ∃ N, ∀ n ≥ N, results n ≠ .wouldBlock) :
    ∃ n, (after results buffers n).writeBuffers = [] := by
  obtain ⟨N, hN⟩ := hblk
  by_contra hnev
  rw [not_exists] at hnev
  have hless (k : Nat) :
      (after results buffers (N + k)).remaining + k ≤ (after results buffers N).remaining := by
    induction k with
    | zero => exact Nat.le_refl _
    | succ k ih =>
      have hcall := h (N + k + 1) (N + k) (Nat.lt_succ_self _) (hnev _)
      have hlt := remaining_step (hnev (N + k)) hcall (hN _ (Nat.le_add_right N k))
      show (after results buffers (N + k + 1)).remaining + (k + 1) ≤ _
      rw [after_succ]
      omega
  have := hless ((after results buffers N).remaining + 1)
  omega

theorem Answers.calm (h : Answers results buffers)
    (hcld : ∀ n, 0 < (after results buffers n).closed → results n = .failed) (n : Nat) :
    Calm results buffers n := by
  intro i _ hbuf hends
  obtain ⟨-, ⟨m, hm, -⟩, -⟩ := h
  have hstu (k : Nat) : 0 < (after results buffers (i + 1 + k)).closed ∧
      (after results buffers (i + 1 + k)).writeBuffers ≠ [] := by
    induction k with
    | zero =>
      obtain ⟨bv, rest, hcons⟩ := exists_cons_of_ne_nil hbuf
      rw [after_succ, step_of_cons hcons]
      rcases hends with hends | hends <;> (rw [hends]; exact ⟨Nat.succ_pos _, hbuf⟩)
    | succ k ih =>
      obtain ⟨bv, rest, hcons⟩ := exists_cons_of_ne_nil ih.2
      rw [← Nat.add_assoc, after_succ, hcld _ ih.1, step_of_cons hcons]
      exact ⟨Nat.succ_pos _, ih.2⟩
  have hlast := (hstu m).2
  rw [after_of_le hm (Nat.le_add_left m (i + 1))] at hlast
  exact hlast hm

/-- **`on_output` returns and calls the write handler once, if and only if no call of `send` ends
the stream before the buffers are sent.** -/
theorem answers_iff (results : Nat → SendResult) (buffers : List BufferView)
    (hblock : ∃ N, ∀ n ≥ N, results n ≠ .wouldBlock)
    (hclosed : ∀ n, 0 < (after results buffers n).closed → results n = .failed) :
    Answers results buffers ↔ Undisturbed results buffers := by
  rw [undisturbed_iff]
  constructor
  · intro h
    exact h.calm hclosed
  · intro h
    have hqui (n : Nat) : Quiet (after results buffers n) := by
      induction n with
      | zero => exact ⟨rfl, rfl, nofun⟩
      | succ n ih =>
        rw [after_succ]
        exact ih.step (h (n + 1) n (Nat.lt_succ_self n))
    obtain ⟨n, hn⟩ := exists_empty h hblock
    refine ⟨_, ⟨n, hn, rfl⟩, (hqui n).closed.le.trans (Nat.zero_le 1), 0,
      (after results buffers n).bytesTotal, ?_, ?_⟩
    · rw [finish, (hqui n).written, nil_append]
    · rintro ⟨x, hx, hfai⟩
      exact absurd hfai ((hqui n).sends x hx)

def blockedOnce (n : Nat) : SendResult := if n = 0 then .wouldBlock else .sent 3

theorem answers_blocked : (∃ N, ∀ n ≥ N, blockedOnce n ≠ .wouldBlock) ∧
      (∀ n, 0 < (after blockedOnce [⟨0, 0, 3⟩] n).closed → blockedOnce n = .failed) ∧
      Answers blockedOnce [⟨0, 0, 3⟩] := by
  have hblk : ∃ N, ∀ n ≥ N, blockedOnce n ≠ .wouldBlock := by
    refine ⟨1, fun n hn => ?_⟩
    rw [blockedOnce, if_neg (Nat.ne_of_gt hn)]
    exact nofun
  have hcld : ∀ n, 0 < (after blockedOnce [⟨0, 0, 3⟩] n).closed → blockedOnce n = .failed := by
    intro n hn
    match n with
    | 0 | 1 => cases hn
    | n + 2 =>
      rw [after_of_le (n := 2) rfl (Nat.le_add_left 2 n)] at hn
      cases hn
  refine ⟨hblk, hcld, (answers_iff _ _ hblk hcld).mpr fun n hn => ?_⟩
  rw [Ends, blockedOnce] at hn
  split at hn <;> simp at hn

/-- The only call fails: the loop goes on for ever. -/
theorem not_answers_failed : (∃ N : Nat, ∀ n ≥ N, (fun _ => SendResult.failed) n ≠ .wouldBlock) ∧
      (∀ n, 0 < (after (fun _ => .failed) [⟨0, 0, 3⟩] n).closed →
        (fun _ => SendResult.failed) n = .failed) ∧ ¬Answers (fun _ => .failed) [⟨0, 0, 3⟩] := by
  refine ⟨⟨0, fun _ _ => nofun⟩, fun _ _ => rfl, fun h => ?_⟩
  exact h.calm (fun _ _ => rfl) 1 0 Nat.one_pos (cons_ne_nil _ _) (.inr rfl)

end Output

end Matador.Net
