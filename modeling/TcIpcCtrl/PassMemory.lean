import TcIpcCtrl.DecoderRefinement

/-!
What the decoder state stands for between two passes. A state past the idle one
means that the bytes ahead have passed the checks made so far, and the latched
fields are those ahead. A pass therefore leaves the offset in place, passes over
a byte that begins no frame, or consumes the frame whose header is ahead.
-/
namespace TcIpcCtrl.PassMemory

open CInt Cells Package WhileLoop FrameGrammar TcIpcCtrl.Parser DecoderPasses DecoderRefinement

/-- The bytes ahead have passed the checks of all earlier states. -/
structure Remembers (h : ParserHandle) : Prop where
  sync : stateSync ≤ h.parserState → inBuffer h ipcProtocolSyncOffset = ipcSyncCode
  start : stateStart ≤ h.parserState → inBuffer h ipcProtocolFirstStartOffset = ipcFirstStartCode
  hader : stateHader ≤ h.parserState → inBuffer h ipcProtocolSecondStartOffset = ipcSecondStartCode
  latched : stateData ≤ h.parserState → Latched h

theorem remembers_of_idle {h : ParserHandle} (hidle : h.parserState = stateIdle) :
    Remembers h := by
  refine ⟨?_, ?_, ?_, ?_⟩ <;> intro hlater <;> rw [hidle] at hlater <;>
    exact absurd hlater (by decide)

theorem remembers_of_latched {h : ParserHandle} (hl : Latched h)
    (hroom : 12 ≤ h.dataSize - h.offset) : Remembers h := by
  obtain ⟨hsync, hfirst, hsecond⟩ := (startsFrame_window h hroom).mp hl.start
  exact ⟨fun _ => hsync, fun _ => hfirst, fun _ => hsecond, fun _ => hl⟩

/-- What the pass `p` from `h` does with the bytes ahead. -/
inductive Moves (h : ParserHandle) (p : DecodePass) : Prop
  | stays : p.handle.offset = h.offset → p.received = [] →
      (∀ sp ∈ p.spans, sp.Within (h.offset + 12)) → Moves h p
  | skips : ¬ StartsFrame (window h) → p.handle.offset = h.offset + 1 → p.received = [] →
      Moves h p
  | consumes : Latched h → frameSize (lengthField (window h)) ≤ (window h).length →
      p.handle.offset = h.offset + frameSize (lengthField (window h)) →
      p.received = heard h
        (if CrcOk (window h) (frameSize (lengthField (window h))) then [messageOf (window h)]
          else []) →
      (∀ sp ∈ p.spans, sp.Within (h.offset + frameSize (lengthField (window h)))) → Moves h p

/-- The offset moves on as the bytes ahead say, and the next state stands for what
has been checked. -/
structure Effect (h : ParserHandle) (p : DecodePass) : Prop where
  moves : Moves h p
  remembers : Remembers p.handle

section Passes

variable {h : ParserHandle} (hp : Placed h)

include hp

theorem matchByte_effect (i : ℕ) (hi : i < 12) (code : UInt8) (next : ℤ)
    (hroom : 12 ≤ h.dataSize - h.offset)
    (hmiss : inBuffer h i ≠ code → ¬ StartsFrame (window h))
    (hhit : inBuffer h i = code → Remembers { h with parserState := next }) :
    Effect h (matchByte h i code next) := by
  have hle := hp.dataSize_le
  simp only [tmmParserBufSize, ipcMaximumDataSize] at hle
  by_cases hbyte : inBuffer h i = code
  · rw [matchByte, if_pos hbyte]
    exact ⟨.stays rfl rfl (span_near h i 1 (by omega)), hhit hbyte⟩
  · have hmove : u32 (h.offset + 1) = h.offset + 1 := u32_succ _ (by omega)
    rw [matchByte, if_neg hbyte, hmove]
    exact ⟨.skips (hmiss hbyte) rfl rfl, remembers_of_idle rfl⟩

theorem waitData_effect (hl : Latched h) : Effect h (waitData h) := by
  have hroom := hl.room
  have hspans := waitData_spans h
  rw [hp.length_window] at hroom
  rw [hp.waitData_eq] at hspans ⊢
  by_cases hfit : frameSize h.parserData.length ≤ h.dataSize - h.offset
  · rw [if_pos hfit] at hspans ⊢
    refine ⟨.stays rfl rfl hspans, remembers_of_latched ?_ hroom⟩
    exact ⟨hl.room, hl.start, hl.cmd1, hl.cmd2, hl.length⟩
  · rw [if_neg hfit] at hspans ⊢
    exact ⟨.stays rfl rfl hspans, remembers_of_latched hl hroom⟩

theorem checkCrc_effect (hs : h.parserState = stateCrc) (hl : Latched h) :
    Effect h (checkCrc h) := by
  obtain ⟨hhandle, -, -⟩ := hp.checkCrc_eq hs
  have hfit := hp.complete hs
  have hspans := checkCrc_spans hp hs
  have hreceived := checkCrc_received hp hs
  rw [hl.length] at hfit hspans hreceived
  rw [hl.framed_eq] at hreceived
  refine ⟨.consumes hl ?_ ?_ hreceived hspans, ?_⟩
  · rw [hp.length_window]
    exact hfit
  · rw [hhandle, ← hl.length]
    rfl
  · rw [hhandle]
    exact remembers_of_idle rfl

theorem decodePass_effect (hr : Remembers h) (hroom : 12 ≤ h.dataSize - h.offset) :
    Effect h (decodePass h) := by
  have hstarts := startsFrame_window h hroom
  rcases hp.state_cases with hs | hs | hs | hs | hs | hs
  · rw [decodePass_idle hs]
    refine matchByte_effect hp _ (by decide) _ _ hroom (fun hne hstart => ?_) (fun hbyte => ?_)
    · exact hne (hstarts.mp hstart).1
    · exact ⟨fun _ => hbyte, fun hn => absurd (show stateStart ≤ stateSync from hn) (by decide),
        fun hn => absurd (show stateHader ≤ stateSync from hn) (by decide),
        fun hn => absurd (show stateData ≤ stateSync from hn) (by decide)⟩
  · rw [decodePass_sync hs]
    refine matchByte_effect hp _ (by decide) _ _ hroom (fun hne hstart => ?_) (fun hbyte => ?_)
    · exact hne (hstarts.mp hstart).2.1
    · exact ⟨fun _ => hr.sync (Int.le_of_eq hs.symm), fun _ => hbyte,
        fun hn => absurd (show stateHader ≤ stateStart from hn) (by decide),
        fun hn => absurd (show stateData ≤ stateStart from hn) (by decide)⟩
  · rw [decodePass_start hs]
    have hsync : stateSync ≤ h.parserState := by rw [hs]; decide
    refine matchByte_effect hp _ (by decide) _ _ hroom (fun hne hstart => ?_) (fun hbyte => ?_)
    · exact hne (hstarts.mp hstart).2.2
    · exact ⟨fun _ => hr.sync hsync, fun _ => hr.start (Int.le_of_eq hs.symm), fun _ => hbyte,
        fun hn => absurd (show stateData ≤ stateHader from hn) (by decide)⟩
  · rw [decodePass_hader hs]
    have hsync : stateSync ≤ h.parserState := by rw [hs]; decide
    have hfirst : stateStart ≤ h.parserState := by rw [hs]; decide
    have hstart := hstarts.mpr
      ⟨hr.sync hsync, hr.start hfirst, hr.hader (Int.le_of_eq hs.symm)⟩
    exact ⟨.stays rfl rfl (span_near h 3 6 (by omega)),
      remembers_of_latched (latched_latch hp hroom hstart) hroom⟩
  · rw [decodePass_data hs]
    exact waitData_effect hp (hr.latched (Int.le_of_eq hs.symm))
  · rw [decodePass_crc hs]
    have hdata : stateData ≤ h.parserState := by rw [hs]; decide
    exact checkCrc_effect hp hs (hr.latched hdata)

end Passes

theorem effect_of_guard {h : ParserHandle} (hp : Placed h) (hr : Remembers h)
    (hg : decodeGuard h = true) : Effect h (decodePass h) := by
  rw [hp.decodeGuard_eq] at hg
  exact decodePass_effect hp hr (of_decide_eq_true hg)

theorem passes_remember {h t : ParserHandle} (hp : Placed h) (hr : Remembers h)
    (hpasses : Passes decodeGuard decodeBody h t) : Placed t ∧ Remembers t ∧ SameBuffer h t := by
  refine Passes.invariant (I := fun t => Placed t ∧ Remembers t ∧ SameBuffer h t)
    ⟨hp, hr, .refl h⟩ ?_ hpasses
  rintro u ⟨hu, hru, hsame⟩ hg -
  have hsafe := decodePass_safe_of_guard hu hg
  exact ⟨hsafe.placed, (effect_of_guard hu hru hg).remembers, hsame.trans hsafe.keeps⟩

/-- Until the frame ahead has been consumed the offset stays at its first byte. -/
theorem passes_frame {h t : ParserHandle} (hp : Placed h) (hidle : h.parserState = stateIdle)
    (hstart : StartsFrame (window h)) (hpasses : Passes decodeGuard decodeBody h t) :
    t.offset = h.offset ∨ h.offset + frameSize (lengthField (window h)) ≤ t.offset := by
  have hall : (Placed t ∧ Remembers t ∧ SameBuffer h t) ∧
      (t.offset = h.offset ∨ h.offset + frameSize (lengthField (window h)) ≤ t.offset) := by
    refine Passes.invariant (I := fun t => (Placed t ∧ Remembers t ∧ SameBuffer h t) ∧
      (t.offset = h.offset ∨ h.offset + frameSize (lengthField (window h)) ≤ t.offset))
      ⟨⟨hp, remembers_of_idle hidle, .refl h⟩, Or.inl rfl⟩ ?_ hpasses
    rintro u ⟨⟨hu, hru, hsame⟩, hoffset⟩ hg -
    have hsafe := decodePass_safe_of_guard hu hg
    obtain ⟨hmoves, hremembers⟩ := effect_of_guard hu hru hg
    refine ⟨⟨hsafe.placed, hremembers, hsame.trans hsafe.keeps⟩, ?_⟩
    show (decodePass u).handle.offset = _ ∨ _ ≤ (decodePass u).handle.offset
    rcases hoffset with hhere | hpast
    · have hwindow : window u = window h := window_drop h u hsame.data hsame.dataSize 0 hhere
      cases hmoves with
      | stays hmove => exact Or.inl (hmove.trans hhere)
      | skips hno => exact absurd (hwindow ▸ hstart) hno
      | consumes _ _ hmove =>
        rw [hwindow, hhere] at hmove
        exact Or.inr (Nat.le_of_eq hmove.symm)
    · refine Or.inr (Nat.le_trans hpast ?_)
      cases hmoves with
      | stays hmove => exact Nat.le_of_eq hmove.symm
      | skips _ hmove => omega
      | consumes _ _ hmove => omega
  exact hall.2

end TcIpcCtrl.PassMemory
