import TcIpcCtrl.BoundedQueue
import TcIpcCtrl.RingContents

/-!
The effect of every operation of tc-buffer.c on a valid ring. An operation
that succeeds is a `put`, an `advance` or a `put` followed by a `fill`, and all
its accesses to `pBuffer` are inside the array; one that fails changes nothing.
-/
namespace TcIpcCtrl.RingEffects

open BoundedQueue CInt Cells RingBuffer RingContents

variable {α : Type*}

/-- A store that ends before the wrap point. -/
theorem store_linear (r : TcRingbuf α) (src : List α)
    (h : r.tail + src.length < r.maxBufferSize) :
    { r.store r.tail src with tail := r.tail + src.length } = put r src := by
  have hlen := r.pBuffer_length
  simp only [put, TcRingbuf.store, Nat.mod_eq_of_lt h, TcRingbuf.mk.injEq, true_and]
  exact (writeRound_eq_memcpy _ _ _ (by omega)).symm

/-- A store that meets the wrap point is made in two parts. -/
theorem store_wrapped (r : TcRingbuf α) (hv : Valid r) (src : List α)
    (hlt : src.length < r.maxBufferSize) (h : r.maxBufferSize ≤ r.tail + src.length) :
    { (r.store r.tail (src.take (r.maxBufferSize - r.tail))).store 0
        (src.drop (r.maxBufferSize - r.tail)) with
      tail := src.length - (r.maxBufferSize - r.tail) } = put r src := by
  have hlen := r.pBuffer_length
  have htail := hv.tail_lt
  have htake : (src.take (r.maxBufferSize - r.tail)).length = r.maxBufferSize - r.tail := by
    rw [List.length_take]
    omega
  have hmod : (r.tail + src.length) % r.maxBufferSize =
      src.length - (r.maxBufferSize - r.tail) := by
    rw [mod_eq_ite _ _ (by omega)]
    split <;> omega
  have hcells : writeRound r.pBuffer r.tail src =
      memcpy (memcpy r.pBuffer r.tail (src.take (r.maxBufferSize - r.tail))) 0
        (src.drop (r.maxBufferSize - r.tail)) := by
    have hwrap : (r.tail + (r.maxBufferSize - r.tail)) % r.maxBufferSize =
        0 % r.maxBufferSize := by
      rw [show r.tail + (r.maxBufferSize - r.tail) = r.maxBufferSize by omega, Nat.mod_self,
        Nat.zero_mod]
    calc
      writeRound r.pBuffer r.tail src =
          writeRound r.pBuffer r.tail (src.take (r.maxBufferSize - r.tail) ++
            src.drop (r.maxBufferSize - r.tail)) := by rw [List.take_append_drop]
      _ = writeRound (memcpy r.pBuffer r.tail (src.take (r.maxBufferSize - r.tail))) 0
            (src.drop (r.maxBufferSize - r.tail)) := by
        rw [writeRound_append, htake, ← writeRound_eq_memcpy _ _ _ (by rw [htake]; omega)]
        apply writeRound_congr
        rw [length_writeRound, hlen]
        exact hwrap
      _ = _ := by
        apply writeRound_eq_memcpy
        rw [length_memcpy, List.length_drop]
        omega
  simp only [put, TcRingbuf.store, hmod, TcRingbuf.mk.injEq, true_and]
  exact hcells.symm

theorem span_within (pos len size : ℕ) (h : pos + len ≤ size) :
    ∀ sp ∈ [(⟨pos, len⟩ : Span)], sp.Within size := by
  intro sp hsp
  rw [List.mem_singleton.mp hsp]
  exact h

/-- The spans of a transfer in two parts. -/
theorem spans_within (pos first rest size : ℕ) (h : pos + first ≤ size) (hrest : rest ≤ size) :
    ∀ sp ∈ [(⟨pos, first⟩ : Span), ⟨0, rest⟩], sp.Within size := by
  intro sp hsp
  simp only [List.mem_cons, List.not_mem_nil, or_false] at hsp
  rcases hsp with rfl | rfl
  · exact h
  · simpa only [Span.Within, Nat.zero_add] using hrest

theorem tcPushBuffer_fits (r : TcRingbuf α) (hv : Valid r) (buffer : List α)
    (hfit : count r + buffer.length < r.maxBufferSize) :
    (tcPushBuffer r buffer).ring = put r buffer ∧
      (tcPushBuffer r buffer).ret = buffer.length ∧
      ∀ sp ∈ (tcPushBuffer r buffer).spans, sp.Within r.maxBufferSize := by
  have hsize := hv.size_lt
  have htail := hv.tail_lt
  have hfree : buffer.length ≤ r.maxBufferSize - 1 - count r := by omega
  have hcont : u32 (r.maxBufferSize - r.tail) = r.maxBufferSize - r.tail :=
    u32_sub _ _ htail.le (by omega)
  have hret : i32 buffer.length = buffer.length := i32_of_lt _ (by omega)
  simp only [tcPushBuffer, u32_freeSpace r hv, ge_iff_le, hfree, if_true, hcont, hret]
  by_cases hwrap : r.maxBufferSize - r.tail > buffer.length
  · have htail' : u32 (r.tail + buffer.length) = r.tail + buffer.length := u32_add _ _ (by omega)
    simp only [hwrap, if_true, htail']
    exact ⟨store_linear r buffer (by omega), trivial, span_within _ _ _ (by omega)⟩
  · have hrest : u32 (buffer.length - (r.maxBufferSize - r.tail : ℕ)) =
        buffer.length - (r.maxBufferSize - r.tail) := u32_sub _ _ (by omega) (by omega)
    simp only [hwrap, if_false, hrest]
    exact ⟨store_wrapped r hv buffer (by omega) (by omega), trivial,
      spans_within _ _ _ _ (by omega) (by omega)⟩

theorem tcPushBuffer_out (r : TcRingbuf α) (buffer : List α) :
    (tcPushBuffer r buffer).out = [] := by
  unfold tcPushBuffer
  dsimp only
  split_ifs <;> rfl

theorem tcPushBuffer_full (r : TcRingbuf α) (hv : Valid r) (buffer : List α)
    (hfull : r.maxBufferSize ≤ count r + buffer.length) :
    tcPushBuffer r buffer = { ring := r, ret := tcBufferFull, out := [], spans := [] } := by
  have htwo := hv.two_le
  have hlt := count_lt r hv
  have hfree : ¬ buffer.length ≤ r.maxBufferSize - 1 - count r := by omega
  simp only [tcPushBuffer, u32_freeSpace r hv, ge_iff_le, hfree, if_false]

theorem tcPushBufferOverwrite_eq (r : TcRingbuf α) (hv : Valid r) (buffer : List α)
    (hlt : buffer.length < r.maxBufferSize) :
    (tcPushBufferOverwrite r buffer).ring = fill (put r buffer) ∧
      (tcPushBufferOverwrite r buffer).ret = buffer.length ∧
      ∀ sp ∈ (tcPushBufferOverwrite r buffer).spans, sp.Within r.maxBufferSize := by
  have hsize := hv.size_lt
  have htail := hv.tail_lt
  have hcont : u32 (r.maxBufferSize - r.tail) = r.maxBufferSize - r.tail :=
    u32_sub _ _ htail.le (by omega)
  have hret : i32 buffer.length = buffer.length := i32_of_lt _ (by omega)
  simp only [tcPushBufferOverwrite, hcont, hret]
  by_cases hwrap : r.maxBufferSize - r.tail > buffer.length
  · have htail' : u32 (r.tail + buffer.length) = r.tail + buffer.length := u32_add _ _ (by omega)
    have hhead : u32 ((r.tail + buffer.length : ℕ) + 1) = r.tail + buffer.length + 1 :=
      u32_succ _ (by omega)
    simp only [hwrap, if_true, htail', hhead]
    refine ⟨?_, trivial, span_within _ _ _ (by omega)⟩
    rw [← store_linear r buffer (by omega)]
    rfl
  · have hrest : u32 (buffer.length - (r.maxBufferSize - r.tail : ℕ)) =
        buffer.length - (r.maxBufferSize - r.tail) := u32_sub _ _ (by omega) (by omega)
    have hhead : u32 ((buffer.length - (r.maxBufferSize - r.tail) : ℕ) + 1) =
        buffer.length - (r.maxBufferSize - r.tail) + 1 := u32_succ _ (by omega)
    simp only [hwrap, if_false, hrest, hhead]
    refine ⟨?_, trivial, spans_within _ _ _ _ (by omega) (by omega)⟩
    rw [← store_wrapped r hv buffer hlt (by omega)]
    rfl

theorem tcPushBufferOverwrite_out (r : TcRingbuf α) (buffer : List α) :
    (tcPushBufferOverwrite r buffer).out = [] := by
  unfold tcPushBufferOverwrite
  dsimp only
  split_ifs <;> rfl

theorem tail_eq_head_iff (r : TcRingbuf α) (hv : Valid r) : r.tail = r.head ↔ count r = 0 := by
  have hhead := hv.head_lt
  have htail := hv.tail_lt
  unfold count
  split <;> omega

theorem tcPopBuffer_ok (r : TcRingbuf α) (hv : Valid r) (n : ℕ) (hpos : 0 < count r)
    (hn : n ≤ count r) :
    (tcPopBuffer r n).ring = advance r n ∧ (tcPopBuffer r n).ret = tcBufferOk ∧
      (tcPopBuffer r n).out = (contents r).take n ∧
      ∀ sp ∈ (tcPopBuffer r n).spans, sp.Within r.maxBufferSize := by
  have hlen := r.pBuffer_length
  have hsize := hv.size_lt
  have hhead := hv.head_lt
  have hlt := count_lt r hv
  have hne : ¬ r.tail = r.head := by
    rw [tail_eq_head_iff r hv]
    omega
  have hcont : u32 (r.maxBufferSize - r.head) = r.maxBufferSize - r.head :=
    u32_sub _ _ hhead.le (by omega)
  have hge : (count r : ℤ) ≥ i32 n := by
    rw [i32_of_lt n (by omega)]
    omega
  simp only [tcPopBuffer, hne, if_false, dataAvailable_eq r hv, hge, if_true, hcont]
  by_cases hwrap : r.maxBufferSize - r.head > n
  · have hhead' : u32 (r.head + n) = r.head + n := u32_add _ _ (by omega)
    simp only [hwrap, if_true, hhead']
    refine ⟨?_, trivial, ?_, span_within _ _ _ (by omega)⟩
    · rw [advance, Nat.mod_eq_of_lt (by omega)]
    · rw [contents_take r hv n hn, readRound_eq_slice _ _ _ (by omega)]
  · have hrest : u32 (n - (r.maxBufferSize - r.head : ℕ)) = n - (r.maxBufferSize - r.head) :=
      u32_sub _ _ (by omega) (by omega)
    have hread : readRound r.pBuffer r.head n =
        slice r.pBuffer r.head (r.maxBufferSize - r.head) ++
          slice r.pBuffer 0 (n - (r.maxBufferSize - r.head)) := by
      conv_lhs =>
        rw [show n = (r.maxBufferSize - r.head) + (n - (r.maxBufferSize - r.head)) by omega]
      rw [readRound_add, readRound_eq_slice _ _ _ (by omega),
        ← readRound_eq_slice _ 0 _ (by omega)]
      congr 1
      apply readRound_congr
      rw [hlen, show r.head + (r.maxBufferSize - r.head) = r.maxBufferSize by omega, Nat.mod_self,
        Nat.zero_mod]
    simp only [hwrap, if_false, hrest]
    refine ⟨?_, trivial, ?_, spans_within _ _ _ _ (by omega) (by omega)⟩
    · rw [advance, mod_eq_ite _ _ (by omega), if_neg (by omega)]
      congr 1
      omega
    · rw [contents_take r hv n hn, hread]

theorem tcPopBuffer_empty (r : TcRingbuf α) (hv : Valid r) (n : ℕ) (hzero : count r = 0) :
    tcPopBuffer r n = { ring := r, ret := tcBufferEmpty, out := [], spans := [] } := by
  simp only [tcPopBuffer, (tail_eq_head_iff r hv).mpr hzero, if_true]

theorem tcPopBuffer_error (r : TcRingbuf α) (hv : Valid r) (n : ℕ) (hpos : 0 < count r)
    (hn : count r < n) (hlt : n < 2147483648) :
    tcPopBuffer r n = { ring := r, ret := tcBufferError, out := [], spans := [] } := by
  have hne : ¬ r.tail = r.head := by
    rw [tail_eq_head_iff r hv]
    omega
  have hge : ¬ (count r : ℤ) ≥ i32 n := by
    rw [i32_of_lt n hlt]
    omega
  simp only [tcPopBuffer, hne, if_false, dataAvailable_eq r hv, hge]

theorem tcIpcWriteData_fits (r : TcRingbuf α) (hv : Valid r) (buffer : List α)
    (hfit : count r + buffer.length < r.maxBufferSize) :
    tcIpcWriteData r buffer = tcPushBuffer r buffer := by
  have hle : ¬ buffer.length > u32 (tcBufferFreeSpace r) := by
    rw [u32_freeSpace r hv]
    omega
  simp only [tcIpcWriteData, hle, if_false]

theorem tcIpcWriteData_full (r : TcRingbuf α) (hv : Valid r) (buffer : List α)
    (hfull : r.maxBufferSize ≤ count r + buffer.length) :
    tcIpcWriteData r buffer = tcPushBufferOverwrite r buffer := by
  have hlt := count_lt r hv
  have hgt : buffer.length > u32 (tcBufferFreeSpace r) := by
    rw [u32_freeSpace r hv]
    omega
  simp only [tcIpcWriteData, hgt, if_true]

theorem tcIpcWriteData_reply (r : TcRingbuf α) (hv : Valid r) (buffer : List α)
    (hlt : buffer.length < r.maxBufferSize) :
    (tcIpcWriteData r buffer).ret = buffer.length ∧ (tcIpcWriteData r buffer).out = [] ∧
      ∀ sp ∈ (tcIpcWriteData r buffer).spans, sp.Within r.maxBufferSize := by
  by_cases hfit : count r + buffer.length < r.maxBufferSize
  · obtain ⟨-, hret, hspans⟩ := tcPushBuffer_fits r hv buffer hfit
    rw [tcIpcWriteData_fits r hv buffer hfit]
    exact ⟨hret, tcPushBuffer_out r buffer, hspans⟩
  · obtain ⟨-, hret, hspans⟩ := tcPushBufferOverwrite_eq r hv buffer hlt
    rw [tcIpcWriteData_full r hv buffer (by omega)]
    exact ⟨hret, tcPushBufferOverwrite_out r buffer, hspans⟩

/-- What is left by a push that fits or by an overwrite with no room to spare: the
newest bytes that fit. -/
structure Pushed (r r' : TcRingbuf α) (buffer : List α) : Prop where
  valid : Valid r'
  size : r'.maxBufferSize = r.maxBufferSize
  contents : contents r' = (contents r ++ buffer).rtake (r.maxBufferSize - 1)

theorem Pushed.count_le {r r' : TcRingbuf α} {buffer : List α} (hv : Valid r)
    (h : Pushed r r' buffer) : count r ≤ count r' := by
  have hlt := count_lt r hv
  rw [← length_contents r' h.valid, h.contents, length_rtake, List.length_append,
    length_contents r hv]
  omega

theorem Pushed.of_fits {r r' : TcRingbuf α} {buffer : List α} (hv : Valid r)
    (h : Pushed r r' buffer) (hfit : count r + buffer.length < r.maxBufferSize) :
    RingContents.contents r' = RingContents.contents r ++ buffer := by
  rw [h.contents, rtake_of_length_le]
  rw [List.length_append, length_contents r hv]
  omega

/-- Only a block of the oldest bytes goes. -/
theorem Pushed.drops {r r' : TcRingbuf α} {buffer : List α} (hv : Valid r)
    (h : Pushed r r' buffer) (hlt : buffer.length < r.maxBufferSize) :
    RingContents.contents r' =
      (RingContents.contents r).drop (count r + buffer.length - (r.maxBufferSize - 1)) ++
        buffer := by
  rw [h.contents, rtake_append _ _ _ (by omega), length_contents r hv]

theorem tcPushBuffer_pushed (r : TcRingbuf α) (hv : Valid r) (buffer : List α)
    (hfit : count r + buffer.length < r.maxBufferSize) :
    Pushed r (tcPushBuffer r buffer).ring buffer := by
  obtain ⟨hring, -, -⟩ := tcPushBuffer_fits r hv buffer hfit
  rw [hring]
  refine ⟨put_valid r hv buffer, rfl, ?_⟩
  rw [contents_put r hv buffer hfit, rtake_of_length_le]
  rw [List.length_append, length_contents r hv]
  omega

theorem tcPushBufferOverwrite_pushed (r : TcRingbuf α) (hv : Valid r) (buffer : List α)
    (hlt : buffer.length < r.maxBufferSize)
    (hfull : r.maxBufferSize - 1 ≤ count r + buffer.length) :
    Pushed r (tcPushBufferOverwrite r buffer).ring buffer := by
  obtain ⟨hring, -, -⟩ := tcPushBufferOverwrite_eq r hv buffer hlt
  rw [hring]
  refine ⟨fill_valid _ (put_valid r hv buffer), rfl, ?_⟩
  exact contents_fill_put r hv buffer hlt hfull

/-- Deciding and storing at once, as tc_ipc_write_data does. -/
theorem tcIpcWriteData_pushed (r : TcRingbuf α) (hv : Valid r) (buffer : List α)
    (hlt : buffer.length < r.maxBufferSize) : Pushed r (tcIpcWriteData r buffer).ring buffer := by
  by_cases hfit : count r + buffer.length < r.maxBufferSize
  · rw [tcIpcWriteData_fits r hv buffer hfit]
    exact tcPushBuffer_pushed r hv buffer hfit
  · rw [tcIpcWriteData_full r hv buffer (by omega)]
    exact tcPushBufferOverwrite_pushed r hv buffer hlt (by omega)

/-! The byte operations -/

private theorem succ_tail (r : TcRingbuf α) (hv : Valid r) : u32 (r.tail + 1) = r.tail + 1 := by
  have hsize := hv.size_lt
  have htail := hv.tail_lt
  exact u32_succ _ (by omega)

theorem full_iff (r : TcRingbuf α) (hv : Valid r) :
    (r.tail + 1) % r.maxBufferSize = r.head ↔ count r + 1 = r.maxBufferSize := by
  have htwo := hv.two_le
  have hhead := hv.head_lt
  have htail := hv.tail_lt
  rw [mod_eq_ite _ _ (by omega)]
  unfold count
  split <;> split <;> omega

theorem tcPushOneByte_fits (r : TcRingbuf α) (hv : Valid r) (data : α)
    (hfit : count r + 1 < r.maxBufferSize) :
    (tcPushOneByte r data).ring = put r [data] ∧ (tcPushOneByte r data).ret = tcBufferOk := by
  have hlen := r.pBuffer_length
  have htail := hv.tail_lt
  have hne : ¬ (r.tail + 1) % r.maxBufferSize = r.head := by
    rw [full_iff r hv]
    omega
  simp only [tcPushOneByte, succ_tail r hv, hne, if_false, and_true]
  simp only [put, TcRingbuf.store, List.length_singleton, TcRingbuf.mk.injEq, true_and]
  exact (writeRound_eq_memcpy _ _ _ (by rw [List.length_singleton]; omega)).symm

theorem tcPushOneByte_full (r : TcRingbuf α) (hv : Valid r) (data : α)
    (hfull : count r + 1 = r.maxBufferSize) :
    tcPushOneByte r data = { ring := r, ret := tcBufferFull, out := [], spans := [] } := by
  simp only [tcPushOneByte, succ_tail r hv, (full_iff r hv).mpr hfull, if_true]

theorem tcPopOneByte_ok (r : TcRingbuf α) (hv : Valid r) (hpos : 0 < count r) :
    (tcPopOneByte r).ring = advance r 1 ∧ (tcPopOneByte r).ret = tcBufferOk ∧
      (tcPopOneByte r).out = (contents r).take 1 := by
  have hlen := r.pBuffer_length
  have hsize := hv.size_lt
  have hhead := hv.head_lt
  have hne : ¬ r.tail = r.head := by
    rw [tail_eq_head_iff r hv]
    omega
  simp only [tcPopOneByte, hne, if_false, u32_succ r.head (by omega)]
  refine ⟨rfl, trivial, ?_⟩
  rw [contents_take r hv 1 hpos, readRound_eq_slice _ _ _ (by omega)]

theorem tcPopOneByte_empty (r : TcRingbuf α) (hv : Valid r) (hzero : count r = 0) :
    tcPopOneByte r = { ring := r, ret := tcBufferEmpty, out := [], spans := [] } := by
  simp only [tcPopOneByte, (tail_eq_head_iff r hv).mpr hzero, if_true]

/-- A flush that passes the end of the array at most once drops the oldest bytes, at
most all. -/
theorem tcBufferFlushByte_eq (r : TcRingbuf α) (hv : Valid r) (flushSize : ℕ)
    (hlt : r.head + flushSize < r.maxBufferSize + r.maxBufferSize) :
    tcBufferFlushByte r flushSize = advance r (min flushSize (count r)) := by
  have hsize := hv.size_lt
  have hhead := hv.head_lt
  have htail := hv.tail_lt
  have htemp : u32 (r.head + flushSize) = r.head + flushSize := u32_add _ _ (by omega)
  have hadv : ∀ head, (r.head + min flushSize (count r)) % r.maxBufferSize = head →
      { r with head := head } = advance r (min flushSize (count r)) := by
    rintro head rfl
    rfl
  simp only [tcBufferFlushByte, htemp, mod_eq_ite _ _ hlt]
  split_ifs <;> apply hadv <;> rw [mod_eq_ite _ _ (by omega)] <;> unfold count <;>
    split_ifs <;> omega

end TcIpcCtrl.RingEffects
