import TcIpcCtrl.RingEffects

/-!
Size arguments of any 32-bit value. tc_buffer_flush_byte clamps Head to Tail
only after its sum has wrapped at 32 bits or been reduced modulo M, so that a
size far above the amount held may keep bytes or bring old ones back.
tc_push_buffer compares its size as uint32_t and is exact for every size;
tc_pop_buffer compares as int32_t, where sizes from 2^31 on are negative and
pass the test.
-/
namespace TcIpcCtrl.RingSizes

open CInt Cells RingBuffer RingContents RingEffects

variable {α : Type*}

/-! Flushing -/

/-- The `n` oldest bytes have gone from `r`, and nothing else has changed. -/
structure Discards (r r' : TcRingbuf α) (n : ℕ) : Prop where
  contents : contents r' = (contents r).drop n
  tail : r'.tail = r.tail
  maxBufferSize : r'.maxBufferSize = r.maxBufferSize
  pBuffer : r'.pBuffer = r.pBuffer
  head_lt : r'.head < r.maxBufferSize

/-- The sum of Head and `flushSize` passes the end of the array at most once; or it
stays below 2^32 and the clamp to Tail still applies; or it wraps to Tail itself. -/
def FlushExact (r : TcRingbuf α) (flushSize : ℕ) : Prop :=
  r.head + flushSize < 2 * r.maxBufferSize ∨
    (r.head + flushSize < 4294967296 ∧
      (r.head ≤ r.tail ∨ r.tail ≤ (r.head + flushSize) % r.maxBufferSize)) ∨
    r.head + flushSize = 4294967296 + r.tail

/-- Only Head moves. -/
theorem flushByte_head (r : TcRingbuf α) (flushSize : ℕ) :
    tcBufferFlushByte r flushSize = { r with head := (tcBufferFlushByte r flushSize).head } := by
  simp only [tcBufferFlushByte]
  split_ifs <;> rfl

/-- With Tail in place Head tells how many bytes are left. -/
theorem discards_iff_head (r : TcRingbuf α) (hv : Valid r) (head n : ℕ) (hn : n ≤ count r) :
    Discards r { r with head := head } n ↔ head = (r.head + n) % r.maxBufferSize := by
  have hadvance := advance_valid r hv n
  constructor
  · intro hdiscards
    have hv' : Valid { r with head := head } :=
      ⟨hv.two_le, hv.size_lt, hdiscards.head_lt, hv.tail_lt⟩
    have hcount : count { r with head := head } = count (advance r n) := by
      rw [← length_contents _ hv', ← length_contents _ hadvance, hdiscards.contents,
        contents_advance r hv n hn]
    exact head_eq_of_count hv' hadvance rfl rfl hcount
  · rintro rfl
    exact ⟨contents_advance r hv n hn, rfl, rfl, rfl, hadvance.head_lt⟩

section Flush

variable (r : TcRingbuf α) (hv : Valid r) (flushSize : ℕ)

include hv

/-- A sum from 2 M on is more than all, and the clamp should move Head to Tail. -/
theorem flushByte_head_far (hfar : 2 * r.maxBufferSize ≤ r.head + flushSize)
    (hlt : r.head + flushSize < 4294967296) :
    (tcBufferFlushByte r flushSize).head =
      if r.tail < r.head ∧ (r.head + flushSize) % r.maxBufferSize < r.tail then
        (r.head + flushSize) % r.maxBufferSize
      else r.tail := by
  have hhead := hv.head_lt
  have htail := hv.tail_lt
  have htemp : u32 (r.head + flushSize) = r.head + flushSize := u32_add _ _ hlt
  have hpast : ¬ r.head + flushSize < r.maxBufferSize := by omega
  have hclamp : r.tail ≤ r.head + flushSize := by omega
  simp only [tcBufferFlushByte, htemp, hpast, if_false, hclamp, if_true]
  by_cases hwrapped : r.tail < r.head
  · by_cases hkept : (r.head + flushSize) % r.maxBufferSize < r.tail
    · rw [if_pos hwrapped, if_neg (by omega), if_pos ⟨hwrapped, hkept⟩]
    · rw [if_pos hwrapped, if_pos (by omega), if_neg (fun h => hkept h.2)]
  · rw [if_neg hwrapped, if_neg (fun h => hwrapped h.1)]

/-- A sum that wraps moves Head back. -/
theorem flushByte_head_overflow (hsize : flushSize < 4294967296)
    (hover : 4294967296 ≤ r.head + flushSize) :
    (tcBufferFlushByte r flushSize).head = r.head + flushSize - 4294967296 := by
  have hbound := hv.size_lt
  have hhead := hv.head_lt
  have htemp : u32 (r.head + flushSize) = r.head + flushSize - 4294967296 := by
    unfold u32
    omega
  have hinside : r.head + flushSize - 4294967296 < r.maxBufferSize := by omega
  simp only [tcBufferFlushByte, htemp, hinside, if_true]
  by_cases hwrapped : r.tail < r.head
  · rw [if_pos hwrapped]
  · rw [if_neg hwrapped, if_neg (by omega)]

/-- A flush discards the smaller of `flushSize` and the bytes held exactly if its
sum is harmless. -/
theorem flushByte_discards_iff (hsize : flushSize < 4294967296) :
    Discards r (tcBufferFlushByte r flushSize)
        (min flushSize (tcBufferDataAvailable r).toNat) ↔ FlushExact r flushSize := by
  have hbound := hv.size_lt
  have hhead := hv.head_lt
  have hlt := count_lt r hv
  have hall := head_add_count r hv
  rw [dataAvailable_eq r hv, Int.toNat_natCast, flushByte_head,
    discards_iff_head r hv _ _ (Nat.min_le_right _ _)]
  by_cases hnear : r.head + flushSize < 2 * r.maxBufferSize
  · rw [tcBufferFlushByte_eq r hv flushSize (by omega)]
    exact iff_of_true rfl (Or.inl hnear)
  -- From here on everything should go.
  rw [Nat.min_eq_right (show count r ≤ flushSize by omega), hall]
  by_cases hover : r.head + flushSize < 4294967296
  · rw [flushByte_head_far r hv flushSize (by omega) hover]
    by_cases hkept : r.tail < r.head ∧ (r.head + flushSize) % r.maxBufferSize < r.tail
    · rw [if_pos hkept]
      refine iff_of_false (by omega) ?_
      rintro (h | ⟨-, h | h⟩ | h) <;> omega
    · rw [if_neg hkept]
      exact iff_of_true rfl (Or.inr (Or.inl ⟨hover, by omega⟩))
  · rw [flushByte_head_overflow r hv flushSize hsize (by omega)]
    constructor
    · intro htail
      exact Or.inr (Or.inr (by omega))
    · rintro (h | ⟨h, -⟩ | h) <;> omega

end Flush

/-- Two bytes, the second of them behind the end of the array. -/
def wrappedRing : TcRingbuf UInt8 where
  head := 3
  tail := 1
  maxBufferSize := 4
  pBuffer := [0x0a, 0x0b, 0x0c, 0x0d]
  pBuffer_length := rfl

theorem wrappedRing_valid : Valid wrappedRing :=
  ⟨by decide, by decide, by decide, by decide⟩

/-- A flush by five bytes keeps one of the two. -/
theorem flush_keeps_a_byte :
    ¬ ∀ (r : TcRingbuf UInt8) (flushSize : ℕ), Valid r → flushSize < 4294967296 →
      Discards r (tcBufferFlushByte r flushSize)
        (min flushSize (tcBufferDataAvailable r).toNat) := by
  intro hclaim
  have hdiscards := hclaim wrappedRing 5 wrappedRing_valid (by decide)
  exact absurd hdiscards.contents (by decide)

theorem flushByte_discards_iff_six :
    Discards wrappedRing (tcBufferFlushByte wrappedRing 6)
      (min 6 (tcBufferDataAvailable wrappedRing).toNat) :=
  (flushByte_discards_iff wrappedRing wrappedRing_valid 6 (by decide)).mpr
    (Or.inr (Or.inl ⟨by decide, Or.inr (by decide)⟩))

/-! Transfers -/

/-- A push tells exactly whether it has stored its bytes, and otherwise changes
nothing. -/
structure PushExact (r : TcRingbuf α) (buffer : List α) : Prop where
  size : (tcPushBuffer r buffer).ret = buffer.length ↔
    buffer.length ≤ r.maxBufferSize - 1 - count r
  full : ¬ buffer.length ≤ r.maxBufferSize - 1 - count r →
    (tcPushBuffer r buffer).ret = tcBufferFull ∧ (tcPushBuffer r buffer).ring = r

/-- A pop tells exactly whether it has taken its bytes, and otherwise changes
neither the ring nor the destination. -/
structure PopExact (r : TcRingbuf α) (size : ℕ) : Prop where
  ok : (tcPopBuffer r size).ret = tcBufferOk ↔ 0 < count r ∧ size ≤ count r
  empty : (tcPopBuffer r size).ret = tcBufferEmpty ↔ count r = 0
  error : (tcPopBuffer r size).ret = tcBufferError ↔ 0 < count r ∧ count r < size
  unchanged : (tcPopBuffer r size).ret ≠ tcBufferOk →
    (tcPopBuffer r size).ring = r ∧ (tcPopBuffer r size).out = []

section Transfers

variable (r : TcRingbuf α) (hv : Valid r)

include hv

theorem push_exact (buffer : List α) : PushExact r buffer := by
  have htwo := hv.two_le
  have hlt := count_lt r hv
  by_cases hfit : buffer.length ≤ r.maxBufferSize - 1 - count r
  · obtain ⟨-, hret, -⟩ := tcPushBuffer_fits r hv buffer (by omega)
    exact ⟨iff_of_true hret hfit, fun hnot => absurd hfit hnot⟩
  · rw [not_le] at hfit
    have hfull := tcPushBuffer_full r hv buffer (by omega)
    refine ⟨?_, fun _ => by rw [hfull]; exact ⟨rfl, rfl⟩⟩
    rw [hfull]
    refine iff_of_false ?_ (by omega)
    show ¬ tcBufferFull = buffer.length
    unfold tcBufferFull
    omega

theorem pop_exact_of_empty (hzero : count r = 0) (size : ℕ) : PopExact r size := by
  have hempty := tcPopBuffer_empty r hv size hzero
  have hret : (tcPopBuffer r size).ret = tcBufferEmpty := by rw [hempty]
  refine ⟨?_, iff_of_true hret hzero, ?_, fun _ => by rw [hempty]; exact ⟨rfl, rfl⟩⟩ <;> rw [hret]
  · exact iff_of_false (by decide) (by omega)
  · exact iff_of_false (by decide) (by omega)

theorem pop_exact_of_lt (hpos : 0 < count r) (size : ℕ) (hlt : size < 2147483648) :
    PopExact r size := by
  by_cases hle : size ≤ count r
  · obtain ⟨-, hret, -⟩ := tcPopBuffer_ok r hv size hpos hle
    refine ⟨iff_of_true hret ⟨hpos, hle⟩, ?_, ?_, fun hne => absurd hret hne⟩ <;> rw [hret]
    · exact iff_of_false (by decide) (by omega)
    · exact iff_of_false (by decide) (by omega)
  · have herror := tcPopBuffer_error r hv size hpos (by omega) hlt
    have hret : (tcPopBuffer r size).ret = tcBufferError := by rw [herror]
    refine ⟨?_, ?_, iff_of_true hret ⟨hpos, by omega⟩,
      fun _ => by rw [herror]; exact ⟨rfl, rfl⟩⟩ <;> rw [hret]
    · exact iff_of_false (by decide) (by omega)
    · exact iff_of_false (by decide) (by omega)

/-- A size that is negative as int32_t passes the test, whatever the ring holds. -/
theorem pop_passes_huge (hpos : 0 < count r) (size : ℕ) (hge : 2147483648 ≤ size)
    (hlt : size < 4294967296) : (tcPopBuffer r size).ret = tcBufferOk := by
  have hne : ¬ r.tail = r.head := by
    rw [tail_eq_head_iff r hv]
    omega
  have hsigned : (count r : ℤ) ≥ i32 size := by
    unfold i32
    omega
  simp only [tcPopBuffer, hne, if_false, dataAvailable_eq r hv, hsigned, if_true]
  split <;> rfl

/-- Both bulk transfers of `size` bytes are exact if and only if the ring is empty or
`size` is not negative as int32_t. -/
theorem transfers_exact_iff (size : ℕ) (hlt : size < 4294967296) :
    ((∀ buffer : List α, buffer.length = size → PushExact r buffer) ∧ PopExact r size) ↔
      count r = 0 ∨ size < 2147483648 := by
  have hbound := hv.size_lt
  have hcount := count_lt r hv
  constructor
  · rintro ⟨-, hpop⟩
    by_contra hnot
    rw [not_or, not_lt] at hnot
    have hok := pop_passes_huge r hv (by omega) size hnot.2 hlt
    have hle := (hpop.ok.mp hok).2
    omega
  · intro hwhen
    refine ⟨fun buffer _ => push_exact r hv buffer, ?_⟩
    rcases Nat.eq_zero_or_pos (count r) with hzero | hpos
    · exact pop_exact_of_empty r hv hzero size
    · exact pop_exact_of_lt r hv hpos size (by omega)

end Transfers

/-- A pop of 2^31 bytes reports success on a ring of two. -/
theorem huge_pop_succeeds :
    ¬ ∀ (r : TcRingbuf UInt8) (size : ℕ), Valid r → size < 4294967296 →
      (∀ buffer : List UInt8, buffer.length = size → PushExact r buffer) ∧ PopExact r size := by
  intro hclaim
  have hpop := (hclaim wrappedRing 2147483648 wrappedRing_valid (by decide)).2
  have hle := (hpop.ok.mp (by decide)).2
  exact absurd hle (by decide)

theorem transfers_exact_iff_three :
    (∀ buffer : List UInt8, buffer.length = 3 → PushExact wrappedRing buffer) ∧
      PopExact wrappedRing 3 :=
  (transfers_exact_iff wrappedRing wrappedRing_valid 3 (by decide)).mpr (Or.inr (by decide))

end TcIpcCtrl.RingSizes
