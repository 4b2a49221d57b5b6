import TcIpcCtrl.DecoderPasses

/-!
The decoder scans. From an idle handle, or from one that waits for the rest of
a frame whose header it has latched, the loop consumes the tokens of the frame
grammar, reports the messages of the frames, and stops where the grammar waits
for more bytes. Compaction then brings the bytes left to the front.
-/
namespace TcIpcCtrl.DecoderRefinement

open CInt Cells Crc Package WhileLoop Tokens FrameGrammar TcIpcCtrl.Parser DecoderPasses

/-! What the passes look at, in terms of the bytes ahead -/

theorem window_getD (h : ParserHandle) (i : ℕ) (hi : i < h.dataSize - h.offset) :
    (window h).getD i 0 = inBuffer h i := by
  simp only [window, slice, inBuffer, List.getD_eq_getElem?_getD]
  rw [List.getElem?_take_of_lt hi, List.getElem?_drop]

theorem field_window (h : ParserHandle) (i : ℕ) (hi : i + 1 < h.dataSize - h.offset) :
    field (window h) i = joinBytes (inBuffer h i) (inBuffer h (i + 1)) := by
  rw [field, window_getD h i (by omega), window_getD h (i + 1) hi]

theorem startsFrame_window (h : ParserHandle) (hroom : 12 ≤ h.dataSize - h.offset) :
    StartsFrame (window h) ↔ inBuffer h ipcProtocolSyncOffset = ipcSyncCode ∧
      inBuffer h ipcProtocolFirstStartOffset = ipcFirstStartCode ∧
      inBuffer h ipcProtocolSecondStartOffset = ipcSecondStartCode := by
  rw [StartsFrame, window_getD h 0 (by omega), window_getD h 1 (by omega),
    window_getD h 2 (by omega)]
  rfl

theorem slice_window (h : ParserHandle) (n : ℕ) (hn : n ≤ h.dataSize - h.offset) :
    slice h.data h.offset n = (window h).take n := by
  rw [window, slice, slice, List.take_take, Nat.min_eq_left hn]

theorem slice_window_drop (h : ParserHandle) (i n : ℕ) (hn : i + n ≤ h.dataSize - h.offset) :
    slice h.data (h.offset + i) n = ((window h).drop i).take n := by
  rw [window, slice, slice, List.drop_take, List.take_take, List.drop_drop,
    Nat.min_eq_left (by omega)]

theorem window_drop (h t : ParserHandle) (hdata : t.data = h.data)
    (hsize : t.dataSize = h.dataSize) (n : ℕ) (hoff : t.offset = h.offset + n) :
    window t = (window h).drop n := by
  rw [window, window, slice, slice, hdata, hsize, hoff, List.drop_take, List.drop_drop]
  congr 1
  omega

/-! One token of the loop -/

/-- A byte that does not begin a frame is passed over. -/
def skip (h : ParserHandle) : ParserHandle :=
  { h with parserState := stateIdle, offset := h.offset + 1 }

def latch (h : ParserHandle) : ParserHandle := (latchHeader h).handle

theorem window_skip (h : ParserHandle) : window (skip h) = (window h).drop 1 :=
  window_drop h (skip h) rfl rfl 1 rfl

theorem window_latch (h : ParserHandle) : window (latch h) = window h :=
  window_drop h (latch h) rfl rfl 0 rfl

theorem window_consume (h : ParserHandle) :
    window (consume h) = (window h).drop (frameSize h.parserData.length) :=
  window_drop h (consume h) rfl rfl _ rfl

theorem keeps_skip (h : ParserHandle) : SameBuffer h (skip h) := ⟨rfl, rfl, rfl, rfl⟩

theorem keeps_latch (h : ParserHandle) : SameBuffer h (latch h) := ⟨rfl, rfl, rfl, rfl⟩

theorem keeps_consume (h : ParserHandle) : SameBuffer h (consume h) := ⟨rfl, rfl, rfl, rfl⟩

/-- The message reported for the frame ahead: latched header, bytes of the buffer. -/
def framed (h : ParserHandle) : ReceivedData :=
  { cmd1 := h.parserData.cmd1
    cmd2 := h.parserData.cmd2
    length := h.parserData.length
    data := dataOf (window h) h.parserData.length }

/-- Only a registered callback hears of a message. -/
def heard (h : ParserHandle) (outs : List ReceivedData) : List ReceivedData :=
  if h.parserReceivedData then outs else []

theorem heard_append (h : ParserHandle) (outs more : List ReceivedData) :
    heard h (outs ++ more) = heard h outs ++ heard h more := by
  by_cases hcb : h.parserReceivedData = true
  · simp only [heard, hcb, if_true]
  · simp only [heard, hcb, Bool.false_eq_true, if_false, List.append_nil]

theorem heard_of_same {h u : ParserHandle} (hsame : SameBuffer h u) (outs : List ReceivedData) :
    heard u outs = heard h outs := by
  rw [heard, heard, hsame.callback]

/-- In the last state the pointer of the message is at the payload ahead. -/
theorem message_eq_framed {h : ParserHandle} (hp : Placed h) (hs : h.parserState = stateCrc) :
    h.message = framed h := by
  have hfit := hp.complete hs
  rw [ParserHandle.message, framed, hp.pointer hs, ReceivedData.mk.injEq]
  refine ⟨rfl, rfl, rfl, ?_⟩
  by_cases hzero : h.parserData.length = 0
  · simp only [dataOf, if_pos hzero, Option.map_none]
  · simp only [dataOf, if_neg hzero, Option.map_some]
    unfold frameSize at hfit
    rw [slice_window_drop h _ _ (by rw [ipcProtocolDataOffset]; omega)]

theorem checkCrc_received {h : ParserHandle} (hp : Placed h) (hs : h.parserState = stateCrc) :
    (checkCrc h).received =
      heard h (if CrcOk (window h) (frameSize h.parserData.length) then [framed h] else []) := by
  have hge := frameSize_ge h.parserData.length
  have hfit := hp.complete hs
  rw [(hp.checkCrc_eq hs).2.2, ← field_window h _ (by omega), slice_window h _ (by omega),
    message_eq_framed hp hs]
  by_cases hcrc : CrcOk (window h) (frameSize h.parserData.length)
  · rw [if_pos hcrc, heard]
    simp only [hcrc.symm, true_and]
  · rw [if_neg hcrc, heard, ite_self, if_neg (fun hboth => hcrc hboth.1)]

section Tokens

variable {h : ParserHandle}

theorem leads_pass {u : ParserHandle} {received : List ReceivedData} (hg : decodeGuard h = true)
    (hbody : decodeBody h = { state := u, stop := false, out := received }) :
    Leads decodeGuard decodeBody h received u := by
  have hstop : (decodeBody h).stop = false := by rw [hbody]
  have hpass : Leads decodeGuard decodeBody h ((decodeBody h).out ++ []) (decodeBody h).state :=
    .head hg hstop .refl
  rwa [List.append_nil, hbody] at hpass

theorem leads_hit (hg : decodeGuard h = true) {i : ℕ} {code : UInt8} {next : ℤ}
    (hpass : decodePass h = matchByte h i code next) (hbyte : inBuffer h i = code) :
    Leads decodeGuard decodeBody h [] { h with parserState := next } := by
  have hbody : decodeBody h =
      { state := { h with parserState := next }, stop := false, out := [] } := by
    simp only [decodeBody, hpass, matchByte, if_pos hbyte]
  exact leads_pass hg hbody

theorem leads_miss (hg : decodeGuard h = true) (hoff : h.offset < 4294967295) {i : ℕ} {code : UInt8}
    {next : ℤ} (hpass : decodePass h = matchByte h i code next) (hbyte : inBuffer h i ≠ code) :
    Leads decodeGuard decodeBody h [] (skip h) := by
  have hmove : u32 (h.offset + 1) = h.offset + 1 := u32_succ _ (by omega)
  have hbody : decodeBody h = { state := skip h, stop := false, out := [] } := by
    simp only [decodeBody, hpass, matchByte, if_neg hbyte, hmove, skip]
  exact leads_pass hg hbody

variable (hp : Placed h) (hroom : 12 ≤ h.dataSize - h.offset)

include hp hroom

theorem guard_of_room : decodeGuard h = true := by
  rw [hp.decodeGuard_eq]
  exact decide_eq_true hroom

theorem leads_skip (hidle : h.parserState = stateIdle) (hno : ¬ StartsFrame (window h)) :
    Leads decodeGuard decodeBody h [] (skip h) := by
  have hg := guard_of_room hp hroom
  have hoff : h.offset < 4294967295 := by
    have hle := hp.dataSize_le
    simp only [tmmParserBufSize, ipcMaximumDataSize] at hle
    omega
  rw [startsFrame_window h hroom] at hno
  by_cases hfirst : inBuffer h ipcProtocolSyncOffset = ipcSyncCode
  · refine (leads_hit hg (decodePass_idle hidle) hfirst).trans ?_
    by_cases hsecond : inBuffer h ipcProtocolFirstStartOffset = ipcFirstStartCode
    · refine (leads_hit (h := { h with parserState := stateSync }) hg (decodePass_sync rfl)
        hsecond).trans ?_
      have hthird : inBuffer h ipcProtocolSecondStartOffset ≠ ipcSecondStartCode :=
        fun hthird => hno ⟨hfirst, hsecond, hthird⟩
      exact leads_miss (h := { h with parserState := stateStart }) hg hoff (decodePass_start rfl)
        hthird
    · exact leads_miss (h := { h with parserState := stateSync }) hg hoff (decodePass_sync rfl)
        hsecond
  · exact leads_miss hg hoff (decodePass_idle hidle) hfirst

theorem leads_latch (hidle : h.parserState = stateIdle) (hstart : StartsFrame (window h)) :
    Leads decodeGuard decodeBody h [] (latch h) := by
  have hg := guard_of_room hp hroom
  obtain ⟨hfirst, hsecond, hthird⟩ := (startsFrame_window h hroom).mp hstart
  refine (leads_hit hg (decodePass_idle hidle) hfirst).trans ?_
  refine (leads_hit (h := { h with parserState := stateSync }) hg (decodePass_sync rfl)
    hsecond).trans ?_
  refine (leads_hit (h := { h with parserState := stateStart }) hg (decodePass_start rfl)
    hthird).trans ?_
  have hbody : decodeBody { h with parserState := stateHader } =
      { state := latch h, stop := false, out := [] } := by
    rw [decodeBody, decodePass_hader rfl]
    rfl
  exact leads_pass (h := { h with parserState := stateHader }) hg hbody

theorem ends_wait (hs : h.parserState = stateData)
    (hshort : h.dataSize - h.offset < frameSize h.parserData.length) :
    Ends decodeGuard decodeBody h [] h := by
  have hbody : decodeBody h = { state := h, stop := true, out := [] } := by
    rw [decodeBody, decodePass_data hs, hp.waitData_eq, if_neg (by omega)]
  have hstop : Ends decodeGuard decodeBody h (decodeBody h).out (decodeBody h).state :=
    Ends.stop (guard_of_room hp hroom) (by rw [hbody])
  rwa [hbody] at hstop

/-- A complete frame is consumed, whatever header was latched for it. -/
theorem leads_frame (hs : h.parserState = stateData)
    (hfit : frameSize h.parserData.length ≤ h.dataSize - h.offset) :
    Leads decodeGuard decodeBody h
      (heard h (if CrcOk (window h) (frameSize h.parserData.length) then [framed h] else []))
      (consume h) := by
  have hg := guard_of_room hp hroom
  have hwait := hp.waitData_eq
  rw [if_pos hfit, ← decodePass_data hs] at hwait
  have hwaitSafe := decodePass_safe hp hroom
  -- The pass that finds the frame complete, then the pass that checks it.
  obtain ⟨u, hu⟩ : ∃ u, (decodePass h).handle = u := ⟨_, rfl⟩
  have hup : Placed u := hu ▸ hwaitSafe.placed
  have hustate : u.parserState = stateCrc := by
    rw [← hu, hwait]
  have hudata : u.data = h.data ∧ u.offset = h.offset ∧ u.dataSize = h.dataSize ∧
      u.parserReceivedData = h.parserReceivedData ∧ consume u = consume h ∧
      u.parserData.cmd1 = h.parserData.cmd1 ∧ u.parserData.cmd2 = h.parserData.cmd2 ∧
      u.parserData.length = h.parserData.length := by
    rw [← hu, hwait]
    exact ⟨rfl, rfl, rfl, rfl, rfl, rfl, rfl, rfl⟩
  obtain ⟨hdata, hoffset, hsize, hcb, hconsume, hcmd1, hcmd2, hlength⟩ := hudata
  have hwindow : window u = window h := window_drop h u hdata hsize 0 hoffset
  obtain ⟨hhandle, hstop, -⟩ := hup.checkCrc_eq hustate
  have hframed : framed u = framed h := by
    rw [framed, framed, hcmd1, hcmd2, hlength, hwindow]
  have hout : (checkCrc u).received =
      heard h (if CrcOk (window h) (frameSize h.parserData.length) then [framed h] else []) := by
    rw [checkCrc_received hup hustate, heard, heard, hwindow, hlength, hcb, hframed]
  have hlast : Leads decodeGuard decodeBody u (checkCrc u).received (consume h) := by
    have hbody : decodeBody u =
        { state := consume h, stop := false, out := (checkCrc u).received } := by
      rw [decodeBody, decodePass_crc hustate, hhandle, hstop, hconsume]
    have hgu : decodeGuard u = true := guard_of_room hup (by rw [hsize, hoffset]; exact hroom)
    exact leads_pass hgu hbody
  have hbody : decodeBody h = { state := u, stop := false, out := [] } := by
    rw [decodeBody, hu, hwait]
  have hleads := (leads_pass hg hbody).trans hlast
  rwa [List.nil_append, hout] at hleads

end Tokens

/-! The whole loop -/

/-- The latched header is that of the frame ahead. -/
structure Latched (h : ParserHandle) : Prop where
  room : 12 ≤ (window h).length
  start : StartsFrame (window h)
  cmd1 : h.parserData.cmd1 = field (window h) ipcProtocolCommand1HighOffset
  cmd2 : h.parserData.cmd2 = field (window h) ipcProtocolCommand2HighOffset
  length : h.parserData.length = lengthField (window h)

/-- The decoder can go on as if it had all bytes since the last token anew. -/
def Resumes (h : ParserHandle) : Prop :=
  h.parserState = stateIdle ∨ (h.parserState = stateData ∧ Latched h)

/-- The loop started in `h` is left in `t` with the bytes `rest`. -/
structure Leaves (h t : ParserHandle) (rest : List UInt8) : Prop where
  keeps : SameBuffer h t
  window : window t = rest
  idle : t.parserState = stateIdle → rest.length < 12
  resumes : Resumes t

theorem Leaves.of_same {h u t : ParserHandle} {rest : List UInt8} (hsame : SameBuffer h u)
    (hleaves : Leaves u t rest) : Leaves h t rest :=
  ⟨hsame.trans hleaves.keeps, hleaves.window, hleaves.idle, hleaves.resumes⟩

theorem Latched.framed_eq {h : ParserHandle} (hl : Latched h) :
    framed h = messageOf (window h) := by
  rw [framed, messageOf, hl.cmd1, hl.cmd2, hl.length]

theorem placed_of_idle {h : ParserHandle} (hoff : h.offset ≤ h.dataSize)
    (hle : h.dataSize ≤ tmmParserBufSize) (hidle : h.parserState = stateIdle) : Placed h where
  offset_le := hoff
  dataSize_le := hle
  state_cases := Or.inl hidle
  room hne := absurd hidle hne
  complete hcrc := by
    rw [hidle] at hcrc
    cases hcrc
  pointer hcrc := by
    rw [hidle] at hcrc
    cases hcrc

theorem placed_of_data {h : ParserHandle} (hle : h.dataSize ≤ tmmParserBufSize)
    (hroom : 12 ≤ h.dataSize - h.offset) (hs : h.parserState = stateData) : Placed h where
  offset_le := by omega
  dataSize_le := hle
  state_cases := Or.inr (Or.inr (Or.inr (Or.inr (Or.inl hs))))
  room _ := hroom
  complete hcrc := by
    rw [hs] at hcrc
    cases hcrc
  pointer hcrc := by
    rw [hs] at hcrc
    cases hcrc

theorem latched_latch {h : ParserHandle} (hp : Placed h) (hroom : 12 ≤ h.dataSize - h.offset)
    (hstart : StartsFrame (window h)) : Latched (latch h) := by
  have hwindow := window_latch h
  have hfield : ∀ i, i + 1 < h.dataSize - h.offset →
      joinBytes (inBuffer h i) (inBuffer h (i + 1)) = field (window (latch h)) i := by
    intro i hi
    rw [hwindow, field_window h i hi]
  refine ⟨?_, by rw [hwindow]; exact hstart, ?_, ?_, ?_⟩
  · rw [hwindow, hp.length_window]
    exact hroom
  · exact hfield 3 (by omega)
  · exact hfield 5 (by omega)
  · exact hfield 7 (by omega)

theorem nextToken_wait (bs : List UInt8) (h : nextToken bs = .wait) :
    bs.length < 12 ∨ (StartsFrame bs ∧ bs.length < frameSize (lengthField bs)) := by
  by_cases hshort : bs.length < 12
  · exact Or.inl hshort
  · by_cases hstart : StartsFrame bs
    · by_cases hwait : bs.length < frameSize (lengthField bs)
      · exact Or.inr ⟨hstart, hwait⟩
      · simp [nextToken, ipcMinimumPacketSize, hshort, hstart, hwait] at h
    · simp [nextToken, ipcMinimumPacketSize, hshort, hstart] at h

theorem ends_short {h : ParserHandle} (hp : Placed h) (hshort : h.dataSize - h.offset < 12) :
    Ends decodeGuard decodeBody h [] h := by
  apply Ends.exit
  rw [hp.decodeGuard_eq]
  exact decide_eq_false (by omega)

/-- A latched frame that is not complete makes the loop stop at once. -/
theorem ends_latched_wait {h : ParserHandle} (hp : Placed h) (hs : h.parserState = stateData)
    (hl : Latched h) (hshort : (window h).length < frameSize (lengthField (window h))) :
    Ends decodeGuard decodeBody h [] h ∧ Leaves h h (window h) := by
  have hlen := hp.length_window
  have hroom := hl.room
  refine ⟨ends_wait hp (by omega) hs (by rw [hl.length]; omega), .refl h, rfl, ?_, Or.inr ⟨hs, hl⟩⟩
  intro hidle
  rw [hs] at hidle
  cases hidle

/-- A latched frame that is complete is one token of the grammar. -/
theorem leads_latched_take {h : ParserHandle} (hp : Placed h)
    (hs : h.parserState = stateData) (hl : Latched h)
    (hfit : frameSize (lengthField (window h)) ≤ (window h).length) :
    Leads decodeGuard decodeBody h
      (heard h (if CrcOk (window h) (frameSize (lengthField (window h))) then
        [messageOf (window h)] else [])) (consume h) := by
  have hlen := hp.length_window
  have hroom := hl.room
  have hframe := leads_frame hp (by omega) hs (by rw [hl.length]; omega)
  rwa [hl.framed_eq, hl.length] at hframe

theorem placed_consume {h : ParserHandle} (hle : h.dataSize ≤ tmmParserBufSize)
    (hge : h.offset + frameSize h.parserData.length ≤ h.dataSize) : Placed (consume h) :=
  placed_of_idle hge hle rfl

/-- The loop started in `h` comes back to its head idle, with the bytes `ys` ahead. -/
structure Arrives (h u : ParserHandle) (ys : List UInt8) : Prop where
  placed : Placed u
  idle : u.parserState = stateIdle
  keeps : SameBuffer h u
  window : window u = ys

theorem leads_of_token {h : ParserHandle} (hp : Placed h) (hidle : h.parserState = stateIdle)
    {n : ℕ} {out : List ReceivedData} (ht : nextToken (window h) = .take n out) :
    ∃ u, Leads decodeGuard decodeBody h (heard h out) u ∧ Arrives h u ((window h).drop n) := by
  have hlen := hp.length_window
  obtain ⟨hlong, ⟨hno, rfl, rfl⟩ | ⟨hstart, rfl, hle, rfl⟩⟩ := nextToken_take _ n out ht
  · have hroom : 12 ≤ h.dataSize - h.offset := by omega
    have hskip : Placed (skip h) :=
      placed_of_idle (show h.offset + 1 ≤ h.dataSize by omega) hp.dataSize_le rfl
    refine ⟨skip h, ?_, hskip, rfl, keeps_skip h, window_skip h⟩
    rw [heard, ite_self]
    exact leads_skip hp hroom hidle hno
  · have hroom : 12 ≤ h.dataSize - h.offset := by omega
    have hl := latched_latch hp hroom hstart
    have hkeep := window_latch h
    have hlength : (latch h).parserData.length = lengthField (window h) := by
      rw [hl.length, hkeep]
    have hconsume : Placed (consume (latch h)) := by
      refine placed_consume hp.dataSize_le ?_
      rw [hlength]
      show h.offset + _ ≤ h.dataSize
      omega
    refine ⟨consume (latch h), ?_, hconsume, rfl, (keeps_latch h).trans (keeps_consume (latch h)),
      by rw [window_consume, hkeep, hlength]⟩
    have hframe := leads_latched_take (h := latch h) (placed_of_data hp.dataSize_le hroom rfl) rfl
      hl (by rw [hkeep]; exact hle)
    rw [hkeep] at hframe
    exact (leads_latch hp hroom hidle hstart).trans hframe

theorem leads_of_reads {xs ys : List UInt8} {outs : List ReceivedData}
    (hreads : Reads frames xs outs ys) (h : ParserHandle) (hp : Placed h)
    (hidle : h.parserState = stateIdle) (hwindow : window h = xs) :
    ∃ u, Leads decodeGuard decodeBody h (heard h outs) u ∧ Arrives h u ys := by
  induction hreads generalizing h with
  | refl =>
    refine ⟨h, ?_, hp, hidle, .refl h, hwindow⟩
    rw [heard, ite_self]
    exact .refl
  | take ht _ ih =>
    obtain ⟨u, hleads, hu⟩ := leads_of_token hp hidle (hwindow ▸ ht)
    obtain ⟨v, hmore, hv⟩ := ih u hu.placed hu.idle (by rw [hu.window, hwindow])
    refine ⟨v, ?_, hv.placed, hv.idle, hu.keeps.trans hv.keeps, hv.window⟩
    rw [heard_of_same hu.keeps] at hmore
    rw [heard_append]
    exact hleads.trans hmore

theorem ends_of_scans {xs rest : List UInt8} {outs : List ReceivedData}
    (hscan : Scans frames xs outs rest) (h : ParserHandle) (hp : Placed h)
    (hidle : h.parserState = stateIdle) (hwindow : window h = xs) :
    ∃ t, Ends decodeGuard decodeBody h (heard h outs) t ∧ Leaves h t rest := by
  induction hscan generalizing h with
  | @wait xs hw =>
    have hlen := hp.length_window
    by_cases hshort : xs.length < 12
    · refine ⟨h, ?_, .refl h, hwindow, fun _ => hshort, Or.inl hidle⟩
      rw [heard, ite_self]
      rw [hwindow] at hlen
      exact ends_short hp (by omega)
    · obtain ⟨hstart, hwait⟩ := (nextToken_wait xs hw).resolve_left hshort
      rw [← hwindow] at hstart hwait hshort ⊢
      have hroom : 12 ≤ h.dataSize - h.offset := by omega
      have hl := latched_latch hp hroom hstart
      have hkeep := window_latch h
      obtain ⟨hends, hleaves⟩ := ends_latched_wait (h := latch h)
        (placed_of_data hp.dataSize_le hroom rfl) rfl hl (by rw [hkeep]; exact hwait)
      rw [hkeep] at hleaves
      refine ⟨latch h, ?_, hleaves.of_same (keeps_latch h)⟩
      rw [heard, ite_self]
      exact (leads_latch hp hroom hidle hstart).ends hends
  | take ht _ ih =>
    obtain ⟨u, hleads, hu⟩ := leads_of_token hp hidle (hwindow ▸ ht)
    obtain ⟨t, hends, hleaves⟩ := ih u hu.placed hu.idle (by rw [hu.window, hwindow])
    refine ⟨t, ?_, hleaves.of_same hu.keeps⟩
    rw [heard_of_same hu.keeps] at hends
    rw [heard_append]
    exact hleads.ends hends

/-- The loop consumes the tokens of the bytes ahead, also when it has already
latched the header of the first frame. -/
theorem ends_of_resumes {h : ParserHandle} {rest : List UInt8} {outs : List ReceivedData}
    (hp : Placed h) (hresumes : Resumes h) (hscan : Scans frames (window h) outs rest) :
    ∃ t, Ends decodeGuard decodeBody h (heard h outs) t ∧ Leaves h t rest := by
  rcases hresumes with hidle | ⟨hs, hl⟩
  · exact ends_of_scans hscan h hp hidle rfl
  · have hroom := hl.room
    have hlen := hp.length_window
    cases hscan with
    | wait hw =>
      obtain ⟨hstart, hwait⟩ := (nextToken_wait _ hw).resolve_left (by omega)
      obtain ⟨hends, hleaves⟩ := ends_latched_wait hp hs hl hwait
      refine ⟨h, ?_, hleaves⟩
      rw [heard, ite_self]
      exact hends
    | @take _ _ n out outs ht hrest =>
      obtain ⟨-, ⟨hno, -, -⟩ | ⟨-, rfl, hle, rfl⟩⟩ := nextToken_take _ n out ht
      · exact absurd hl.start hno
      · have hconsume : Placed (consume h) := by
          refine placed_consume hp.dataSize_le ?_
          rw [hl.length]
          omega
        obtain ⟨t, hends, hleaves⟩ := ends_of_scans hrest (consume h) hconsume rfl
          (by rw [window_consume, hl.length])
        refine ⟨t, ?_, hleaves.of_same (keeps_consume h)⟩
        rw [heard_append]
        exact (leads_latched_take hp hs hl hle).ends hends

end TcIpcCtrl.DecoderRefinement
