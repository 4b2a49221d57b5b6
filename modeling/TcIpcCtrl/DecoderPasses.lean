import TcIpcCtrl.FrameGrammar

/-!
One pass of the decoder loop. As long as `offset` and `dataSize` stay in place,
every pass reads below `dataSize`, keeps the bytes, and leaves fewer bytes or a
later state behind; so the decoder returns on every handle it is called with.
-/
namespace TcIpcCtrl.DecoderPasses

open CInt Cells Package WhileLoop FrameGrammar TcIpcCtrl.Parser

/-- The bytes not yet consumed. -/
def window (h : ParserHandle) : List UInt8 := slice h.data h.offset (h.dataSize - h.offset)

/-- Where offset, size and state may stand whenever the loop is at its head. -/
structure Placed (h : ParserHandle) : Prop where
  offset_le : h.offset ≤ h.dataSize
  dataSize_le : h.dataSize ≤ tmmParserBufSize
  state_cases : h.parserState = stateIdle ∨ h.parserState = stateSync ∨
    h.parserState = stateStart ∨ h.parserState = stateHader ∨
    h.parserState = stateData ∨ h.parserState = stateCrc
  room : h.parserState ≠ stateIdle → ipcMinimumPacketSize ≤ h.dataSize - h.offset
  complete : h.parserState = stateCrc → frameSize h.parserData.length ≤ h.dataSize - h.offset
  pointer : h.parserState = stateCrc →
    h.parserData.data = if h.parserData.length = 0 then none
      else some (h.offset + ipcProtocolDataOffset)

/-- Bytes left first, then states left before the next byte is consumed. -/
def passesLeft (h : ParserHandle) : ℕ := 6 * (h.dataSize - h.offset) + (5 - h.parserState).toNat

theorem window_of_offset {h : ParserHandle} (hoffset : h.offset = 0) :
    window h = h.data.take h.dataSize := by
  rw [window, slice, hoffset, List.drop_zero, Nat.sub_zero]

theorem Placed.length_window {h : ParserHandle} (hp : Placed h) :
    (window h).length = h.dataSize - h.offset := by
  have hle := hp.dataSize_le
  have hoff := hp.offset_le
  have hlen := h.data_length
  exact length_slice _ _ _ (by omega)

section Sizes

variable {h : ParserHandle} (hoff : h.offset ≤ h.dataSize) (hle : h.dataSize ≤ tmmParserBufSize)

include hoff hle

theorem decodeGuard_eq : decodeGuard h = decide (12 ≤ h.dataSize - h.offset) := by
  simp only [tmmParserBufSize, ipcMaximumDataSize] at hle
  rw [decodeGuard, u32_sub _ _ hoff (by omega), ipcMinimumPacketSize]
  by_cases hroom : 12 ≤ h.dataSize - h.offset
  · have hlt : h.offset < h.dataSize := by omega
    simp only [hlt, hroom, decide_true, Bool.and_self]
  · simp only [hroom, decide_false, Bool.and_false]

theorem inBufferLen_eq : inBufferLen h = h.dataSize - h.offset := by
  simp only [tmmParserBufSize, ipcMaximumDataSize] at hle
  rw [inBufferLen, u32_sub _ _ hoff (by omega)]
  exact u16_of_lt _ (by omega)

end Sizes

theorem Placed.decodeGuard_eq {h : ParserHandle} (hp : Placed h) :
    decodeGuard h = decide (12 ≤ h.dataSize - h.offset) :=
  DecoderPasses.decodeGuard_eq hp.offset_le hp.dataSize_le

theorem Placed.inBufferLen_eq {h : ParserHandle} (hp : Placed h) :
    inBufferLen h = h.dataSize - h.offset :=
  DecoderPasses.inBufferLen_eq hp.offset_le hp.dataSize_le

/-! The pass in each state -/

section States

variable {h : ParserHandle}

theorem decodePass_idle (hs : h.parserState = stateIdle) :
    decodePass h = matchByte h ipcProtocolSyncOffset ipcSyncCode stateSync := by
  simp [decodePass, hs]

theorem decodePass_sync (hs : h.parserState = stateSync) :
    decodePass h = matchByte h ipcProtocolFirstStartOffset ipcFirstStartCode stateStart := by
  simp [decodePass, hs, stateIdle, stateSync]

theorem decodePass_start (hs : h.parserState = stateStart) :
    decodePass h = matchByte h ipcProtocolSecondStartOffset ipcSecondStartCode stateHader := by
  simp [decodePass, hs, stateIdle, stateSync, stateStart]

theorem decodePass_hader (hs : h.parserState = stateHader) :
    decodePass h = latchHeader h := by
  simp [decodePass, hs, stateIdle, stateSync, stateStart, stateHader]

theorem decodePass_data (hs : h.parserState = stateData) : decodePass h = waitData h := by
  simp [decodePass, hs, stateIdle, stateSync, stateStart, stateHader, stateData]

theorem decodePass_crc (hs : h.parserState = stateCrc) : decodePass h = checkCrc h := by
  simp [decodePass, hs, stateIdle, stateSync, stateStart, stateHader, stateData, stateCrc]

end States

/-! Where a pass leads to -/

/-- The two formulas of the decoder for the size of a frame agree with the
sender's. -/
theorem waitSize_eq (length : UInt16) :
    (if length > 0 then (length - 1).toNat else 0) + ipcMinimumPacketSize = frameSize length := by
  by_cases hpos : length > 0
  · have hlt : 0 < length.toNat := UInt16.lt_iff_toNat_lt.mp hpos
    have hsub : (length - 1).toNat = length.toNat - 1 := by
      have hone : (1 : UInt16) ≤ length := UInt16.le_iff_toNat_le.mpr hlt
      rw [UInt16.toNat_sub_of_le _ _ hone]
      rfl
    rw [if_pos hpos, hsub, frameSize, ipcMinimumPacketSize]
    omega
  · have hzero : ¬ 0 < length.toNat := fun hlt => hpos (UInt16.lt_iff_toNat_lt.mpr hlt)
    rw [if_neg hpos, frameSize, ipcMinimumPacketSize]
    omega

/-- The values of enum DecodeState. -/
def InEnum (state : ℤ) : Prop :=
  state = stateIdle ∨ state = stateSync ∨ state = stateStart ∨ state = stateHader ∨
    state = stateData ∨ state = stateCrc

/-- A pass that does not stop consumes bytes or goes on to a later state. -/
structure Advances (h : ParserHandle) (p : DecodePass) : Prop where
  inEnum : InEnum p.handle.parserState
  dataSize : p.handle.dataSize = h.dataSize
  offset_le : p.handle.offset ≤ h.dataSize
  forward : p.stop = true ∨ h.offset < p.handle.offset ∨
    (p.handle.offset = h.offset ∧ h.parserState < p.handle.parserState)

theorem Advances.less {h : ParserHandle} {p : DecodePass} (ha : Advances h p)
    (hs : InEnum h.parserState) (hstop : p.stop = false) :
    passesLeft p.handle < passesLeft h := by
  have hcases := hs
  have hnext := ha.inEnum
  have hsize := ha.dataSize
  have hoff := ha.offset_le
  simp only [InEnum, stateIdle, stateSync, stateStart, stateHader, stateData,
    stateCrc] at hcases hnext
  unfold passesLeft
  rcases ha.forward with hstopped | hmore | ⟨hsame, hlater⟩
  · rw [hstop] at hstopped
    cases hstopped
  · omega
  · omega

section Advancing

variable {h : ParserHandle} (hoff : h.offset ≤ h.dataSize) (hle : h.dataSize ≤ tmmParserBufSize)

include hoff

theorem latchHeader_advances (hs : h.parserState = stateHader) : Advances h (latchHeader h) := by
  refine ⟨?_, rfl, hoff, Or.inr (Or.inr ⟨rfl, ?_⟩)⟩
  · exact Or.inr (Or.inr (Or.inr (Or.inr (Or.inl rfl))))
  · show h.parserState < stateData
    rw [hs]
    decide

theorem waitData_advances (hs : h.parserState = stateData) : Advances h (waitData h) := by
  simp only [waitData, waitSize_eq]
  split
  · refine ⟨?_, rfl, hoff, Or.inr (Or.inr ⟨rfl, ?_⟩)⟩
    · exact Or.inr (Or.inr (Or.inr (Or.inr (Or.inr rfl))))
    · show h.parserState < stateCrc
      rw [hs]
      decide
  · refine ⟨?_, rfl, hoff, Or.inl rfl⟩
    exact Or.inr (Or.inr (Or.inr (Or.inr (Or.inl hs))))

include hle

/-- The sum that moves `offset` past a frame stays within what was compared with
`inBufferLen`, even where `crcOffset` has wrapped. -/
theorem checkCrc_advances (hs : h.parserState = stateCrc) : Advances h (checkCrc h) := by
  have hbuf := inBufferLen_eq hoff hle
  simp only [tmmParserBufSize, ipcMaximumDataSize] at hle
  by_cases hge : inBufferLen h ≥ crcOffset h.parserData.length + 2
  · have hmove : u32 (h.offset + ((crcOffset h.parserData.length : ℕ) + 2)) =
        h.offset + (crcOffset h.parserData.length + 2) := by
      unfold u32
      omega
    simp only [checkCrc, if_pos hge, hmove]
    split
    · refine ⟨Or.inl rfl, rfl, ?_, Or.inr (Or.inl ?_)⟩
      · show h.offset + (crcOffset h.parserData.length + 2) ≤ h.dataSize
        omega
      · show h.offset < h.offset + (crcOffset h.parserData.length + 2)
        omega
    · refine ⟨Or.inl rfl, rfl, ?_, Or.inr (Or.inl ?_)⟩
      · show h.offset + (crcOffset h.parserData.length + 2) ≤ h.dataSize
        omega
      · show h.offset < h.offset + (crcOffset h.parserData.length + 2)
        omega
  · simp only [checkCrc, if_neg hge]
    refine ⟨?_, rfl, hoff, Or.inl rfl⟩
    exact Or.inr (Or.inr (Or.inr (Or.inr (Or.inr hs))))

theorem matchByte_advances (hroom : 12 ≤ h.dataSize - h.offset) (i : ℕ) (code : UInt8) (next : ℤ)
    (hnext : InEnum next) (hless : h.parserState < next) :
    Advances h (matchByte h i code next) := by
  simp only [tmmParserBufSize, ipcMaximumDataSize] at hle
  by_cases hbyte : inBuffer h i = code
  · rw [matchByte, if_pos hbyte]
    exact ⟨hnext, rfl, hoff, Or.inr (Or.inr ⟨rfl, hless⟩)⟩
  · have hmove : u32 (h.offset + 1) = h.offset + 1 := u32_succ _ (by omega)
    rw [matchByte, if_neg hbyte, hmove]
    refine ⟨Or.inl rfl, rfl, ?_, Or.inr (Or.inl (Nat.lt_succ_self _))⟩
    show h.offset + 1 ≤ h.dataSize
    omega

theorem decodePass_advances (hroom : 12 ≤ h.dataSize - h.offset) (hs : InEnum h.parserState) :
    Advances h (decodePass h) := by
  rcases hs with hs | hs | hs | hs | hs | hs
  · rw [decodePass_idle hs]
    exact matchByte_advances hoff hle hroom _ _ _ (Or.inr (Or.inl rfl)) (by rw [hs]; decide)
  · rw [decodePass_sync hs]
    exact matchByte_advances hoff hle hroom _ _ _ (Or.inr (Or.inr (Or.inl rfl)))
      (by rw [hs]; decide)
  · rw [decodePass_start hs]
    exact matchByte_advances hoff hle hroom _ _ _ (Or.inr (Or.inr (Or.inr (Or.inl rfl))))
      (by rw [hs]; decide)
  · rw [decodePass_hader hs]
    exact latchHeader_advances hoff hs
  · rw [decodePass_data hs]
    exact waitData_advances hoff hs
  · rw [decodePass_crc hs]
    exact checkCrc_advances hoff hle hs

end Advancing

theorem crcOffset_eq (length : UInt16) (hle : length.toNat + ipcProtocolDataOffset < 65536) :
    crcOffset length + 2 = frameSize length := by
  by_cases hpos : length > 0
  · have hlt : 0 < length.toNat := UInt16.lt_iff_toNat_lt.mp hpos
    have hcast : u16 (length.toNat + ipcProtocolDataOffset) =
        length.toNat + ipcProtocolDataOffset := u16_of_lt _ hle
    rw [crcOffset, if_pos hpos, hcast, frameSize, ipcProtocolDataOffset]
    omega
  · have hzero : ¬ 0 < length.toNat := fun hlt => hpos (UInt16.lt_iff_toNat_lt.mpr hlt)
    rw [crcOffset, if_neg hpos, frameSize, ipcProtocolDataOffset]
    omega

theorem Placed.waitData_eq {h : ParserHandle} (hp : Placed h) :
    waitData h =
      if frameSize h.parserData.length ≤ h.dataSize - h.offset then
        { handle := { h with
            parserData := { h.parserData with
              data := if h.parserData.length = 0 then none
                else some (h.offset + ipcProtocolDataOffset) }
            parserState := stateCrc }
          stop := false
          spans := if h.parserData.length = 0 then [] else [⟨h.offset + ipcProtocolDataOffset, 1⟩]
          received := [] }
      else { handle := h, stop := true, spans := [], received := [] } := by
  simp only [waitData, hp.inBufferLen_eq, waitSize_eq, ge_iff_le]

/-- In the last state the whole frame is there, so no sum of the pass wraps. -/
theorem Placed.crcOffset_eq {h : ParserHandle} (hp : Placed h) (hs : h.parserState = stateCrc) :
    crcOffset h.parserData.length + 2 = frameSize h.parserData.length := by
  have hfit := hp.complete hs
  have hle := hp.dataSize_le
  simp only [tmmParserBufSize, ipcMaximumDataSize] at hle
  apply DecoderPasses.crcOffset_eq
  unfold frameSize at hfit
  simp only [ipcProtocolDataOffset]
  omega

/-- What follows a frame that the last state has checked. -/
def consume (h : ParserHandle) : ParserHandle :=
  { tcParserClear h with offset := h.offset + frameSize h.parserData.length }

theorem Placed.checkCrc_eq {h : ParserHandle} (hp : Placed h) (hs : h.parserState = stateCrc) :
    (checkCrc h).handle = consume h ∧ (checkCrc h).stop = false ∧
      (checkCrc h).received =
        if joinBytes (inBuffer h (frameSize h.parserData.length - 2))
            (inBuffer h (frameSize h.parserData.length - 2 + 1)) =
              Crc.tcCrc16 (slice h.data h.offset (frameSize h.parserData.length - 2)) 0 ∧
            h.parserReceivedData = true
        then [h.message] else [] := by
  have hcrc := hp.crcOffset_eq hs
  have hfit := hp.complete hs
  have hle := hp.dataSize_le
  simp only [tmmParserBufSize, ipcMaximumDataSize] at hle
  have hoff : crcOffset h.parserData.length = frameSize h.parserData.length - 2 := by omega
  have hge : inBufferLen h ≥ frameSize h.parserData.length - 2 + 2 := by
    rw [hp.inBufferLen_eq]
    omega
  have hmove : u32 (h.offset + ((frameSize h.parserData.length - 2 : ℕ) + 2)) =
      h.offset + frameSize h.parserData.length := by
    unfold u32
    omega
  simp only [checkCrc, hoff, if_pos hge, hmove]
  split <;> exact ⟨rfl, rfl, rfl⟩

/-- The checksum, the bytes it covers and the payload lie within the frame. -/
theorem checkCrc_spans {h : ParserHandle} (hp : Placed h) (hs : h.parserState = stateCrc) :
    ∀ sp ∈ (checkCrc h).spans, sp.Within (h.offset + frameSize h.parserData.length) := by
  have hcrc := hp.crcOffset_eq hs
  have hread : ∀ sp ∈ [(⟨h.offset + crcOffset h.parserData.length, 2⟩ : Span),
      ⟨h.offset, crcOffset h.parserData.length⟩],
      sp.Within (h.offset + frameSize h.parserData.length) := by
    intro sp hsp
    simp only [List.mem_cons, List.not_mem_nil, or_false] at hsp
    rcases hsp with rfl | rfl
    · show h.offset + crcOffset h.parserData.length + 2 ≤ _
      omega
    · show h.offset + crcOffset h.parserData.length ≤ _
      omega
  have hpayload : ∀ sp ∈ (h.parserData.data.map fun p =>
      (⟨p, h.parserData.length.toNat⟩ : Span)).toList,
      sp.Within (h.offset + frameSize h.parserData.length) := by
    intro sp hsp
    rw [hp.pointer hs] at hsp
    by_cases hzero : h.parserData.length = 0
    · simp [hzero] at hsp
    · simp only [hzero, if_false, Option.map_some, Option.toList_some, List.mem_singleton] at hsp
      subst hsp
      show h.offset + ipcProtocolDataOffset + h.parserData.length.toNat ≤ _
      simp only [frameSize, ipcProtocolDataOffset]
      omega
  intro sp hsp
  simp only [checkCrc] at hsp
  split at hsp
  · split at hsp
    · rcases List.mem_append.mp hsp with hsp | hsp
      · exact hread sp hsp
      · exact hpayload sp hsp
    · exact hread sp hsp
  · exact absurd hsp List.not_mem_nil

/-! What a pass keeps, reads and uses up -/

structure SameBuffer (h t : ParserHandle) : Prop where
  data : t.data = h.data
  dataSize : t.dataSize = h.dataSize
  maxSize : t.maxSize = h.maxSize
  callback : t.parserReceivedData = h.parserReceivedData

theorem SameBuffer.refl (h : ParserHandle) : SameBuffer h h := ⟨rfl, rfl, rfl, rfl⟩

theorem SameBuffer.trans {h t u : ParserHandle} (ht : SameBuffer h t) (hu : SameBuffer t u) :
    SameBuffer h u where
  data := hu.data.trans ht.data
  dataSize := hu.dataSize.trans ht.dataSize
  maxSize := hu.maxSize.trans ht.maxSize
  callback := hu.callback.trans ht.callback

structure PassSafe (h : ParserHandle) (p : DecodePass) : Prop where
  placed : Placed p.handle
  spans : ∀ sp ∈ p.spans, sp.Within h.dataSize
  less : p.stop = false → passesLeft p.handle < passesLeft h
  stopped : p.stop = true → p.handle.parserState = stateData ∧
    p.handle.dataSize - p.handle.offset < frameSize p.handle.parserData.length
  keeps : SameBuffer h p.handle

/-- What a pass reads before the frame is known to be complete. -/
theorem span_near (h : ParserHandle) (i n : ℕ) (hn : i + n ≤ 12) :
    ∀ sp ∈ [(⟨h.offset + i, n⟩ : Span)], sp.Within (h.offset + 12) := by
  intro sp hsp
  rw [List.mem_singleton.mp hsp, Span.Within]
  show h.offset + i + n ≤ h.offset + 12
  omega

theorem waitData_spans (h : ParserHandle) :
    ∀ sp ∈ (waitData h).spans, sp.Within (h.offset + 12) := by
  have hpayload := span_near h 9 1 (by omega)
  by_cases hfit : inBufferLen h ≥ frameSize h.parserData.length
  · simp only [waitData, waitSize_eq, if_pos hfit]
    by_cases hzero : h.parserData.length = 0
    · rw [if_pos hzero]
      exact List.forall_mem_nil _
    · rw [if_neg hzero]
      exact hpayload
  · simp only [waitData, waitSize_eq, if_neg hfit]
    exact List.forall_mem_nil _

theorem checkCrc_safe {h : ParserHandle} (hp : Placed h) (hs : h.parserState = stateCrc) :
    PassSafe h (checkCrc h) := by
  obtain ⟨hhandle, hstop, -⟩ := hp.checkCrc_eq hs
  have hadv := checkCrc_advances hp.offset_le hp.dataSize_le hs
  have hfit := hp.complete hs
  have hoff := hp.offset_le
  refine ⟨?_, fun sp hsp => Nat.le_trans (checkCrc_spans hp hs sp hsp) (by omega),
    hadv.less hp.state_cases, ?_, ?_⟩
  · rw [hhandle]
    refine ⟨?_, hp.dataSize_le, Or.inl rfl, fun hne => absurd rfl hne, ?_, ?_⟩
    · show h.offset + frameSize h.parserData.length ≤ h.dataSize
      omega
    · intro hcrc
      cases hcrc
    · intro hcrc
      cases hcrc
  · intro hstopped
    rw [hstop] at hstopped
    cases hstopped
  · rw [hhandle]
    exact ⟨rfl, rfl, rfl, rfl⟩

section Safety

variable {h : ParserHandle} (hp : Placed h) (hroom : 12 ≤ h.dataSize - h.offset)

include hp hroom

theorem span_byte (i n : ℕ) (hn : i + n ≤ 12) :
    ∀ sp ∈ [(⟨h.offset + i, n⟩ : Span)], sp.Within h.dataSize := by
  have hoff := hp.offset_le
  intro sp hsp
  exact Nat.le_trans (span_near h i n hn sp hsp) (by omega)

theorem matchByte_safe (i : ℕ) (hi : i < 12) (code : UInt8) (next : ℤ)
    (hnext : next = stateSync ∨ next = stateStart ∨ next = stateHader)
    (hless : h.parserState < next) : PassSafe h (matchByte h i code next) := by
  have hin : InEnum next := by
    refine Or.inr ?_
    rcases hnext with hn | hn | hn <;> simp [hn, stateSync, stateStart, stateHader]
  have hadv := matchByte_advances hp.offset_le hp.dataSize_le hroom i code next hin hless
  have hspans := span_byte hp hroom i 1 (by omega)
  by_cases hbyte : inBuffer h i = code
  · have hne : next ≠ stateCrc := by
      rcases hnext with rfl | rfl | rfl <;> decide
    rw [matchByte, if_pos hbyte] at hadv ⊢
    refine ⟨⟨hadv.offset_le, hp.dataSize_le, hadv.inEnum, fun _ => hroom, ?_, ?_⟩, hspans,
      hadv.less hp.state_cases, ?_, ⟨rfl, rfl, rfl, rfl⟩⟩
    · intro hcrc
      exact absurd hcrc hne
    · intro hcrc
      exact absurd hcrc hne
    · intro hstop
      cases hstop
  · rw [matchByte, if_neg hbyte] at hadv ⊢
    refine ⟨⟨hadv.offset_le, hp.dataSize_le, hadv.inEnum, ?_, ?_, ?_⟩, hspans,
      hadv.less hp.state_cases, ?_, ⟨rfl, rfl, rfl, rfl⟩⟩
    · intro hne
      exact absurd rfl hne
    · intro hcrc
      cases hcrc
    · intro hcrc
      cases hcrc
    · intro hstop
      cases hstop

theorem latchHeader_safe (hs : h.parserState = stateHader) : PassSafe h (latchHeader h) := by
  have hadv := latchHeader_advances hp.offset_le hs
  refine ⟨⟨hp.offset_le, hp.dataSize_le, hadv.inEnum, fun _ => hroom, ?_, ?_⟩,
    span_byte hp hroom 3 6 (by omega), hadv.less hp.state_cases, ?_, ⟨rfl, rfl, rfl, rfl⟩⟩
  · intro hcrc
    cases hcrc
  · intro hcrc
    cases hcrc
  · intro hstop
    cases hstop

theorem waitData_safe (hs : h.parserState = stateData) : PassSafe h (waitData h) := by
  have hadv := waitData_advances hp.offset_le hs
  have hspans : ∀ sp ∈ (waitData h).spans, sp.Within h.dataSize :=
    fun sp hsp => Nat.le_trans (waitData_spans h sp hsp) (by omega)
  rw [hp.waitData_eq] at hadv hspans ⊢
  by_cases hfit : frameSize h.parserData.length ≤ h.dataSize - h.offset
  · rw [if_pos hfit] at hadv hspans ⊢
    refine ⟨⟨hp.offset_le, hp.dataSize_le, hadv.inEnum, fun _ => hroom, fun _ => hfit,
      fun _ => rfl⟩, hspans, hadv.less hp.state_cases, ?_, ⟨rfl, rfl, rfl, rfl⟩⟩
    intro hstop
    cases hstop
  · rw [if_neg hfit]
    refine ⟨hp, List.forall_mem_nil _, ?_, fun _ => ⟨hs, Nat.lt_of_not_le hfit⟩, .refl h⟩
    intro hstop
    cases hstop

theorem decodePass_safe : PassSafe h (decodePass h) := by
  rcases hp.state_cases with hs | hs | hs | hs | hs | hs
  · rw [decodePass_idle hs]
    exact matchByte_safe hp hroom _ (by decide) _ _ (Or.inl rfl) (by rw [hs]; decide)
  · rw [decodePass_sync hs]
    exact matchByte_safe hp hroom _ (by decide) _ _ (Or.inr (Or.inl rfl)) (by rw [hs]; decide)
  · rw [decodePass_start hs]
    exact matchByte_safe hp hroom _ (by decide) _ _ (Or.inr (Or.inr rfl)) (by rw [hs]; decide)
  · rw [decodePass_hader hs]
    exact latchHeader_safe hp hroom hs
  · rw [decodePass_data hs]
    exact waitData_safe hp hroom hs
  · rw [decodePass_crc hs]
    exact checkCrc_safe hp hs

end Safety

/-! The whole loop -/

theorem decodePass_safe_of_guard {h : ParserHandle} (hp : Placed h) (hg : decodeGuard h = true) :
    PassSafe h (decodePass h) := by
  rw [hp.decodeGuard_eq] at hg
  exact decodePass_safe hp (of_decide_eq_true hg)

theorem passes_safe {h t : ParserHandle} (hp : Placed h)
    (hpasses : Passes decodeGuard decodeBody h t) : Placed t ∧ SameBuffer h t := by
  refine Passes.invariant (I := fun t => Placed t ∧ SameBuffer h t) ⟨hp, .refl h⟩ ?_ hpasses
  intro u hu hg _
  have hsafe := decodePass_safe_of_guard hu.1 hg
  exact ⟨hsafe.placed, hu.2.trans hsafe.keeps⟩

theorem pass_less {h : ParserHandle} (hp : Placed h) (hg : decodeGuard h = true)
    (hstop : (decodeBody h).stop = false) :
    Placed (decodeBody h).state ∧ passesLeft (decodeBody h).state < passesLeft h := by
  have hsafe := decodePass_safe_of_guard hp hg
  exact ⟨hsafe.placed, hsafe.less hstop⟩

theorem passesLeft_lt_decodeFuel {h : ParserHandle} (hs : InEnum h.parserState) :
    passesLeft h < decodeFuel h := by
  have hcases := hs
  unfold passesLeft decodeFuel
  simp only [InEnum, stateIdle, stateSync, stateStart, stateHader, stateData, stateCrc] at hcases
  omega

/-- The loop is left idle with few bytes, or in the middle of a frame. -/
theorem ends_safe {h t : ParserHandle} {out : List ReceivedData} (hp : Placed h)
    (hends : Ends decodeGuard decodeBody h out t) :
    Placed t ∧ SameBuffer h t ∧
      ((t.parserState = stateIdle ∧ t.dataSize - t.offset < 12) ∨
        (t.parserState = stateData ∧
          t.dataSize - t.offset < frameSize t.parserData.length)) := by
  obtain ⟨u, hpasses, ⟨hg, rfl⟩ | ⟨hg, hstop, rfl⟩⟩ := hends.last
  · obtain ⟨hu, hsame⟩ := passes_safe hp hpasses
    rw [hu.decodeGuard_eq] at hg
    have hshort := of_decide_eq_false hg
    refine ⟨hu, hsame, Or.inl ⟨?_, by omega⟩⟩
    by_contra hne
    exact hshort (hu.room hne)
  · obtain ⟨hu, hsame⟩ := passes_safe hp hpasses
    have hsafe := decodePass_safe_of_guard hu hg
    exact ⟨hsafe.placed, hsame.trans hsafe.keeps, Or.inr (hsafe.stopped hstop)⟩

theorem tcParserDecoder_eq {h t : ParserHandle} {out : List ReceivedData} (hp : Placed h)
    (hends : Ends decodeGuard decodeBody h out t) :
    tcParserDecoder h = some (compact t, out) := by
  have hloop := hends.loop_eq (fun _ hu hg hstop => pass_less hu hg hstop) hp
    (passesLeft_lt_decodeFuel hp.state_cases)
  rw [tcParserDecoder, hloop]
  rfl

theorem decoder_ends {h : ParserHandle} (hp : Placed h) :
    ∃ t out, Ends decodeGuard decodeBody h out t := by
  obtain ⟨⟨t, out⟩, hloop⟩ := loop_terminates (fun _ hu hg hstop => pass_less hu hg hstop) hp
    (passesLeft_lt_decodeFuel hp.state_cases)
  exact ⟨t, out, loop_sound hloop⟩

end TcIpcCtrl.DecoderPasses
