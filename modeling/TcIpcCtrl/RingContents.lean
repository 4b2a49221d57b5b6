import TcIpcCtrl.RingBuffer
import Mathlib.Data.List.DropRight

/-!
What a ring buffer holds. A valid ring has both positions inside the array; its
contents are read circularly from Head. The two copies of a bulk operation that
meets the wrap point are one circular write or read, so each operation has one
effect here: `put` appends at Tail, `advance` removes at Head.
-/
namespace TcIpcCtrl.RingContents

open CInt Cells RingBuffer

variable {α : Type*}

/-- Both positions are inside an array of the size the library supports. -/
structure Valid (r : TcRingbuf α) : Prop where
  two_le : 2 ≤ r.maxBufferSize
  size_lt : r.maxBufferSize < 2147483648
  head_lt : r.head < r.maxBufferSize
  tail_lt : r.tail < r.maxBufferSize

theorem init_valid (buff : List α) (size : ℕ) (hbuff : buff.length = size) (htwo : 2 ≤ size)
    (hlt : size < 2147483648) : Valid (tcBufferInit buff size hbuff) :=
  ⟨htwo, hlt, Nat.zero_lt_of_lt htwo, Nat.zero_lt_of_lt htwo⟩

def count (r : TcRingbuf α) : ℕ :=
  if r.head ≤ r.tail then r.tail - r.head else r.maxBufferSize - (r.head - r.tail)

def contents (r : TcRingbuf α) : List α := readRound r.pBuffer r.head (count r)

theorem mod_eq_ite (x size : ℕ) (h : x < size + size) :
    x % size = if x < size then x else x - size := by
  split
  · exact Nat.mod_eq_of_lt ‹_›
  · rw [Nat.mod_eq_sub_mod (by omega), Nat.mod_eq_of_lt (by omega)]

theorem count_lt (r : TcRingbuf α) (hv : Valid r) : count r < r.maxBufferSize := by
  have hhead := hv.head_lt
  have htail := hv.tail_lt
  unfold count
  split <;> omega

theorem length_contents (r : TcRingbuf α) (hv : Valid r) : (contents r).length = count r := by
  have htwo := hv.two_le
  apply length_readRound
  rw [r.pBuffer_length]
  omega

/-- Tail is `count` places after Head. -/
theorem head_add_count (r : TcRingbuf α) (hv : Valid r) :
    (r.head + count r) % r.maxBufferSize = r.tail := by
  have hhead := hv.head_lt
  have htail := hv.tail_lt
  rw [mod_eq_ite _ _ (by have := count_lt r hv; omega)]
  unfold count
  split <;> split <;> omega

theorem count_eq (r : TcRingbuf α) (hv : Valid r) (n : ℕ) (hn : n < r.maxBufferSize)
    (h : (r.head + n) % r.maxBufferSize = r.tail) : count r = n := by
  have hhead := hv.head_lt
  have htail := hv.tail_lt
  rw [mod_eq_ite _ _ (by omega)] at h
  unfold count
  split at h <;> split <;> omega

/-- With Tail in place the count tells where Head is. -/
theorem head_eq_of_count {r r' : TcRingbuf α} (hv : Valid r) (hv' : Valid r')
    (hsize : r.maxBufferSize = r'.maxBufferSize) (htail : r.tail = r'.tail)
    (hcount : count r = count r') : r.head = r'.head := by
  have hhead := hv.head_lt
  have hhead' := hv'.head_lt
  have hlt := hv.tail_lt
  unfold count at hcount
  split at hcount <;> split at hcount <;> omega

theorem contents_eq (r : TcRingbuf α) (hv : Valid r) (n : ℕ) (hn : n < r.maxBufferSize)
    (h : (r.head + n) % r.maxBufferSize = r.tail) : contents r = readRound r.pBuffer r.head n := by
  rw [contents, count_eq r hv n hn h]

theorem dataAvailable_eq (r : TcRingbuf α) (hv : Valid r) :
    tcBufferDataAvailable r = count r := by
  have hsize := hv.size_lt
  have hhead := hv.head_lt
  have htail := hv.tail_lt
  simp only [tcBufferDataAvailable, count, i32_of_lt _ hsize,
    i32_of_lt r.head (by omega), i32_of_lt r.tail (by omega)]
  split <;> split <;> omega

theorem freeSpace_eq (r : TcRingbuf α) (hv : Valid r) :
    tcBufferFreeSpace r = (r.maxBufferSize - 1 - count r : ℕ) := by
  have hsize := hv.size_lt
  have hhead := hv.head_lt
  have htail := hv.tail_lt
  simp only [tcBufferFreeSpace, count, i32_of_lt _ hsize,
    i32_of_lt r.head (by omega), i32_of_lt r.tail (by omega)]
  split <;> split <;> omega

theorem u32_freeSpace (r : TcRingbuf α) (hv : Valid r) :
    u32 (tcBufferFreeSpace r) = r.maxBufferSize - 1 - count r := by
  have hsize := hv.size_lt
  rw [freeSpace_eq r hv]
  exact u32_of_lt _ (by omega)

/-! The two effects -/

/-- Append `src` at Tail. -/
def put (r : TcRingbuf α) (src : List α) : TcRingbuf α :=
  { r with
    pBuffer := writeRound r.pBuffer r.tail src
    tail := (r.tail + src.length) % r.maxBufferSize
    pBuffer_length := by rw [length_writeRound, r.pBuffer_length] }

/-- Move Head `n` places on. -/
def advance (r : TcRingbuf α) (n : ℕ) : TcRingbuf α :=
  { r with head := (r.head + n) % r.maxBufferSize }

/-- Put Head one place after Tail, so that the ring is full. -/
def fill (r : TcRingbuf α) : TcRingbuf α :=
  { r with head := (r.tail + 1) % r.maxBufferSize }

@[simp] theorem put_maxBufferSize (r : TcRingbuf α) (src : List α) :
    (put r src).maxBufferSize = r.maxBufferSize := rfl

theorem put_valid (r : TcRingbuf α) (hv : Valid r) (src : List α) : Valid (put r src) where
  two_le := hv.two_le
  size_lt := hv.size_lt
  head_lt := hv.head_lt
  tail_lt := Nat.mod_lt _ (Nat.zero_lt_of_lt hv.tail_lt)

theorem advance_valid (r : TcRingbuf α) (hv : Valid r) (n : ℕ) : Valid (advance r n) where
  two_le := hv.two_le
  size_lt := hv.size_lt
  head_lt := Nat.mod_lt _ (Nat.zero_lt_of_lt hv.tail_lt)
  tail_lt := hv.tail_lt

theorem fill_valid (r : TcRingbuf α) (hv : Valid r) : Valid (fill r) where
  two_le := hv.two_le
  size_lt := hv.size_lt
  head_lt := Nat.mod_lt _ (Nat.zero_lt_of_lt hv.tail_lt)
  tail_lt := hv.tail_lt

theorem put_nil (r : TcRingbuf α) (hv : Valid r) : put r [] = r := by
  simp only [put, writeRound, List.length_nil, Nat.add_zero, Nat.mod_eq_of_lt hv.tail_lt]

theorem put_put (r : TcRingbuf α) (xs ys : List α) : put (put r xs) ys = put r (xs ++ ys) := by
  have hlen := r.pBuffer_length
  have hcells : writeRound (writeRound r.pBuffer r.tail xs)
      ((r.tail + xs.length) % r.maxBufferSize) ys = writeRound r.pBuffer r.tail (xs ++ ys) := by
    rw [writeRound_append]
    apply writeRound_congr
    rw [length_writeRound, hlen, Nat.mod_mod]
  have htail : ((r.tail + xs.length) % r.maxBufferSize + ys.length) % r.maxBufferSize =
      (r.tail + (xs ++ ys).length) % r.maxBufferSize := by
    rw [Nat.mod_add_mod, List.length_append, Nat.add_assoc]
  simp only [put, hcells, htail]

theorem advance_zero (r : TcRingbuf α) (hv : Valid r) : advance r 0 = r := by
  simp only [advance, Nat.add_zero, Nat.mod_eq_of_lt hv.head_lt]

theorem advance_advance (r : TcRingbuf α) (m n : ℕ) :
    advance (advance r m) n = advance r (m + n) := by
  simp only [advance, Nat.mod_add_mod, Nat.add_assoc]

theorem count_put (r : TcRingbuf α) (hv : Valid r) (src : List α)
    (hfit : count r + src.length < r.maxBufferSize) :
    count (put r src) = count r + src.length := by
  apply count_eq (put r src) (put_valid r hv src) _ hfit
  show (r.head + (count r + src.length)) % r.maxBufferSize = (r.tail + src.length) % r.maxBufferSize
  rw [← Nat.add_assoc, ← Nat.mod_add_mod, head_add_count r hv]

theorem contents_put (r : TcRingbuf α) (hv : Valid r) (src : List α)
    (hfit : count r + src.length < r.maxBufferSize) :
    contents (put r src) = contents r ++ src := by
  have hlen := r.pBuffer_length
  have hpos : r.tail % r.pBuffer.length = (r.head + count r) % r.pBuffer.length := by
    rw [hlen, head_add_count r hv, Nat.mod_eq_of_lt hv.tail_lt]
  rw [contents, count_put r hv src hfit]
  show readRound (writeRound r.pBuffer r.tail src) r.head (count r + src.length) = _
  rw [readRound_add, writeRound_congr r.pBuffer src hpos,
    readRound_writeRound_of_le _ _ _ _ _ (Nat.le_refl _) (by omega),
    readRound_writeRound _ _ _ (by omega)]
  rfl

theorem count_advance (r : TcRingbuf α) (hv : Valid r) (n : ℕ) (hn : n ≤ count r) :
    count (advance r n) = count r - n := by
  have hlt := count_lt r hv
  apply count_eq (advance r n) (advance_valid r hv n) _
    (show count r - n < r.maxBufferSize by omega)
  show ((r.head + n) % r.maxBufferSize + (count r - n)) % r.maxBufferSize = r.tail
  rw [Nat.mod_add_mod, show r.head + n + (count r - n) = r.head + count r by omega,
    head_add_count r hv]

theorem count_fill (r : TcRingbuf α) (hv : Valid r) : count (fill r) = r.maxBufferSize - 1 := by
  have htwo := hv.two_le
  have htail := hv.tail_lt
  apply count_eq (fill r) (fill_valid r hv) _ (show r.maxBufferSize - 1 < r.maxBufferSize by omega)
  show ((r.tail + 1) % r.maxBufferSize + (r.maxBufferSize - 1)) % r.maxBufferSize = r.tail
  rw [Nat.mod_add_mod, show r.tail + 1 + (r.maxBufferSize - 1) = r.tail + r.maxBufferSize by omega,
    Nat.add_mod_right, Nat.mod_eq_of_lt htail]

/-- The first `n` bytes held, and what is left when Head moves past them. -/
theorem contents_split (r : TcRingbuf α) (hv : Valid r) (n : ℕ) (hn : n ≤ count r) :
    contents r = readRound r.pBuffer r.head n ++ contents (advance r n) := by
  have hlen := r.pBuffer_length
  have hcongr : readRound r.pBuffer (r.head + n) (count r - n) =
      readRound r.pBuffer ((r.head + n) % r.maxBufferSize) (count r - n) := by
    apply readRound_congr
    rw [hlen, Nat.mod_mod]
  rw [contents, contents, count_advance r hv n hn,
    show count r = n + (count r - n) by omega, readRound_add, hcongr]
  simp only [advance, Nat.add_sub_cancel_left]

theorem length_readRound_head (r : TcRingbuf α) (hv : Valid r) (n : ℕ) :
    (readRound r.pBuffer r.head n).length = n := by
  have htwo := hv.two_le
  apply length_readRound
  rw [r.pBuffer_length]
  omega

theorem contents_take (r : TcRingbuf α) (hv : Valid r) (n : ℕ) (hn : n ≤ count r) :
    (contents r).take n = readRound r.pBuffer r.head n := by
  rw [contents_split r hv n hn, List.take_left' (length_readRound_head r hv n)]

theorem contents_advance (r : TcRingbuf α) (hv : Valid r) (n : ℕ) (hn : n ≤ count r) :
    contents (advance r n) = (contents r).drop n := by
  rw [contents_split r hv n hn, List.drop_left' (length_readRound_head r hv n)]

/-- After an overwrite that had no room the ring holds the newest bytes. -/
theorem contents_fill_put (r : TcRingbuf α) (hv : Valid r) (src : List α)
    (hsize : src.length < r.maxBufferSize) (hfull : r.maxBufferSize - 1 ≤ count r + src.length) :
    contents (fill (put r src)) = (contents r ++ src).rtake (r.maxBufferSize - 1) := by
  have hv' : Valid (fill (put r src)) := fill_valid _ (put_valid r hv src)
  have hlt := count_lt r hv
  have hlen := r.pBuffer_length
  -- Of the old contents the first `lost` bytes go and the last `kept` stay.
  obtain ⟨kept, hkept⟩ : ∃ kept, r.maxBufferSize - 1 = kept + src.length :=
    ⟨r.maxBufferSize - 1 - src.length, by omega⟩
  obtain ⟨lost, hlost⟩ : ∃ lost, count r = lost + kept := ⟨count r - kept, by omega⟩
  have hhead : (fill (put r src)).head = (r.head + lost) % r.maxBufferSize := by
    show ((r.tail + src.length) % r.maxBufferSize + 1) % r.maxBufferSize = _
    rw [Nat.mod_add_mod, ← head_add_count r hv, Nat.add_assoc, Nat.mod_add_mod, hlost,
      show r.head + (lost + kept) + (src.length + 1) = r.head + lost + r.maxBufferSize by omega,
      Nat.add_mod_right]
  have hcells : contents (fill (put r src)) =
      readRound (writeRound r.pBuffer r.tail src) (r.head + lost) (kept + src.length) := by
    rw [contents_eq _ hv' (kept + src.length) (show _ < r.maxBufferSize by omega)]
    · rw [hhead]
      apply readRound_congr
      rw [(fill (put r src)).pBuffer_length]
      exact Nat.mod_mod _ _
    · rw [hhead]
      show (_ + _) % r.maxBufferSize = (r.tail + src.length) % r.maxBufferSize
      rw [← head_add_count r hv, hlost, Nat.mod_add_mod, Nat.mod_add_mod]
      congr 1
      omega
  have hpos : r.tail % r.pBuffer.length = (r.head + lost + kept) % r.pBuffer.length := by
    rw [hlen, Nat.add_assoc, ← hlost, head_add_count r hv, Nat.mod_eq_of_lt hv.tail_lt]
  have hold : contents r =
      readRound r.pBuffer r.head lost ++ readRound r.pBuffer (r.head + lost) kept := by
    rw [contents, hlost, readRound_add]
  rw [hcells, readRound_add, writeRound_congr r.pBuffer src hpos,
    readRound_writeRound_of_le _ _ _ _ _ (Nat.le_refl _) (by omega),
    readRound_writeRound _ _ _ (by omega), List.rtake, List.length_append,
    length_contents r hv, hold, List.append_assoc, List.drop_left' ?_]
  rw [length_readRound_head r hv]
  omega

end TcIpcCtrl.RingContents
