import TcIpcCtrl.RoundTrip

/-!
One call of the decoder on an idle handle, as a function of the bytes it holds.
The function is a scan that takes one token at a time and knows nothing of
states, offsets or latched fields. Calls that leave the same bytes also leave
the same state.
-/
namespace TcIpcCtrl.ReferenceScan

open Cells Crc Package Tokens FrameGrammar TcIpcCtrl.Parser DecoderPasses
  DecoderRefinement RoundTrip

/-- An idle handle with a registered callback whose bytes are `bytes`. -/
structure Holds (h : ParserHandle) (bytes : List UInt8) : Prop where
  idle : h.parserState = stateIdle
  offset : h.offset = 0
  callback : h.parserReceivedData = true
  dataSize : h.dataSize = bytes.length
  data : h.data.take h.dataSize = bytes

theorem holds_holding (bytes : List UInt8) (h : bytes.length ≤ 1024) :
    Holds (holding bytes h) bytes := ⟨rfl, rfl, rfl, rfl, List.take_left⟩

section Held

variable {h : ParserHandle} {bytes : List UInt8} (hh : Holds h bytes)

include hh

theorem Holds.length_le : bytes.length ≤ 1024 := by
  have hlen := congrArg List.length hh.data
  rw [List.length_take, h.data_length] at hlen
  simp only [tmmParserBufSize, ipcMaximumDataSize] at hlen
  omega

theorem Holds.window : window h = bytes := (window_of_offset hh.offset).trans hh.data

theorem Holds.placed : Placed h := by
  have hle := hh.length_le
  have hoffset := hh.offset
  have hsize := hh.dataSize
  refine placed_of_idle (by omega) ?_ hh.idle
  simp only [tmmParserBufSize, ipcMaximumDataSize]
  omega

theorem Holds.heard (outs : List ReceivedData) : heard h outs = outs := by
  rw [DecoderRefinement.heard, if_pos hh.callback]

/-- A call delivers the messages of a scan of the bytes and leaves its rest. -/
theorem Holds.decoder {outs : List ReceivedData} {rest : List UInt8}
    (hscan : Scans frames bytes outs rest) :
    ∃ t, tcParserDecoder h = some (t, outs) ∧ Returned h t rest := by
  rw [← hh.window] at hscan
  obtain ⟨t, hdecode, hreturned⟩ := tcParserDecoder_scans hh.placed (Or.inl hh.idle) hscan
  rw [hh.heard] at hdecode
  exact ⟨t, hdecode, hreturned⟩

end Held

/-! What a call leaves -/

section Left

variable {h t : ParserHandle} {rest : List UInt8} (hreturned : Returned h t rest)

include hreturned

theorem returned_data : t.data.take t.dataSize = rest :=
  (window_of_offset hreturned.offset).symm.trans hreturned.window

theorem returned_idle (hshort : rest.length < 12) : t.parserState = stateIdle := by
  rcases hreturned.resumes with hidle | ⟨-, hl⟩
  · exact hidle
  · have hroom := hl.room
    rw [hreturned.window] at hroom
    omega

theorem returned_latched (hlong : 12 ≤ rest.length) :
    t.parserState = stateData ∧ Latched t := by
  rcases hreturned.resumes with hidle | hdata
  · have hshort := hreturned.idle hidle
    omega
  · exact hdata

end Left

/-- Two handles returned with the same bytes left over, in the same state. -/
structure SameRest (t t' : ParserHandle) : Prop where
  offset : t.offset = 0 ∧ t'.offset = 0
  dataSize : t.dataSize = t'.dataSize
  data : t.data.take t.dataSize = t'.data.take t'.dataSize
  state : t.parserState = t'.parserState

theorem sameRest_of_returned {h h' t t' : ParserHandle} {rest : List UInt8}
    (hreturned : Returned h t rest) (hreturned' : Returned h' t' rest) : SameRest t t' := by
  refine ⟨⟨hreturned.offset, hreturned'.offset⟩, ?_, ?_, ?_⟩
  · rw [hreturned.dataSize, hreturned'.dataSize]
  · rw [returned_data hreturned, returned_data hreturned']
  · by_cases hshort : rest.length < 12
    · rw [returned_idle hreturned hshort, returned_idle hreturned' hshort]
    · rw [(returned_latched hreturned (by omega)).1, (returned_latched hreturned' (by omega)).1]

/-- Bytes that read down to `ys` decode to what was read and then like `ys`. -/
theorem decoder_of_reads {h h' : ParserHandle} {bytes ys : List UInt8} {outs : List ReceivedData}
    (hh : Holds h bytes) (hh' : Holds h' ys) (hreads : Reads frames bytes outs ys) :
    ∃ t t' more, tcParserDecoder h = some (t, outs ++ more) ∧
      tcParserDecoder h' = some (t', more) ∧ SameRest t t' := by
  obtain ⟨more, rest, hscan⟩ := Scans.total frames ys
  obtain ⟨t, hdecode, hreturned⟩ := hh.decoder (hreads.scans hscan)
  obtain ⟨t', hdecode', hreturned'⟩ := hh'.decoder hscan
  exact ⟨t, t', more, hdecode, hdecode', sameRest_of_returned hreturned hreturned'⟩

/-! The scan that takes a token at a time -/

/-- Messages in order, bytes left over, and the fields read from them when they
begin with a header. -/
structure Scanned where
  messages : List ReceivedData
  remainder : List UInt8
  header : Option (UInt16 × UInt16 × UInt16)

def bigEndian (high low : UInt8) : UInt16 := UInt16.ofNat (high.toNat * 256 + low.toNat)

theorem length_drop_lt (b : List UInt8) (n : ℕ) (hn : 0 < n) (h : ¬ b.length < 12) :
    (b.drop n).length < b.length := by
  rw [List.length_drop]
  omega

theorem max_add_pos (n : ℕ) : 0 < max n 1 + 11 := Nat.succ_pos _

def referenceScan (b : List UInt8) : Scanned :=
  if _hshort : b.length < 12 then ⟨[], b, none⟩
  else if b.take 3 ≠ [0xff, 0x55, 0xaa] then referenceScan (b.drop 1)
  else
    let cmd1 := bigEndian (b.getD 3 0) (b.getD 4 0)
    let cmd2 := bigEndian (b.getD 5 0) (b.getD 6 0)
    let n := bigEndian (b.getD 7 0) (b.getD 8 0)
    let m := max n.toNat 1 + 11
    if b.length < m then ⟨[], b, some (cmd1, cmd2, n)⟩
    else
      let rest := referenceScan (b.drop m)
      if tcCrc16 (b.take (m - 2)) 0 = bigEndian (b.getD (m - 2) 0) (b.getD (m - 1) 0) then
        -- A message without payload comes with a NULL pointer.
        { rest with
          messages := ⟨cmd1, cmd2, n, if n = 0 then none else some ((b.drop 9).take n.toNat)⟩ ::
            rest.messages }
      else rest
termination_by b.length
decreasing_by
  · exact length_drop_lt b 1 Nat.one_pos _hshort
  · exact length_drop_lt b _ (max_add_pos _) _hshort

theorem bigEndian_eq (high low : UInt8) : bigEndian high low = joinBytes high low := by
  have hhigh := high.toNat_lt
  have hlow := low.toNat_lt
  apply UInt16.toNat_inj.mp
  rw [toNat_joinBytes, bigEndian, UInt16.toNat_ofNat', Nat.mod_eq_of_lt (by omega)]

theorem take_three_eq (b : List UInt8) (h : 12 ≤ b.length) :
    b.take 3 = [0xff, 0x55, 0xaa] ↔ StartsFrame b := by
  match b, h with
  | x :: y :: z :: b, _ =>
    simp only [StartsFrame, List.take_succ_cons, List.take_zero, List.cons.injEq, and_true]
    rfl

/-! The branches of the scan -/

section Branches

variable {b : List UInt8}

theorem referenceScan_short (hshort : b.length < 12) : referenceScan b = ⟨[], b, none⟩ := by
  rw [referenceScan, dif_pos hshort]

theorem referenceScan_skip (hlong : 12 ≤ b.length) (hno : ¬ StartsFrame b) :
    referenceScan b = referenceScan (b.drop 1) := by
  rw [referenceScan, dif_neg (by omega), if_pos (fun heq => hno ((take_three_eq b hlong).mp heq))]

theorem referenceScan_wait (hlong : 12 ≤ b.length) (hstart : StartsFrame b)
    (hwait : b.length < frameSize (lengthField b)) :
    referenceScan b = ⟨[], b, some (field b 3, field b 5, lengthField b)⟩ := by
  have hfield : ∀ i, bigEndian (b.getD i 0) (b.getD (i + 1) 0) = field b i :=
    fun i => bigEndian_eq _ _
  rw [referenceScan, dif_neg (by omega),
    if_neg (not_not_intro ((take_three_eq b hlong).mpr hstart))]
  simp only [hfield 3, hfield 5, hfield 7]
  exact if_pos hwait

theorem referenceScan_frame (hlong : 12 ≤ b.length) (hstart : StartsFrame b)
    (hfit : frameSize (lengthField b) ≤ b.length) :
    referenceScan b =
      { referenceScan (b.drop (frameSize (lengthField b))) with
        messages := (if CrcOk b (frameSize (lengthField b)) then [messageOf b] else []) ++
          (referenceScan (b.drop (frameSize (lengthField b)))).messages } := by
  have hfield : ∀ i, bigEndian (b.getD i 0) (b.getD (i + 1) 0) = field b i :=
    fun i => bigEndian_eq _ _
  have hge := frameSize_ge (lengthField b)
  have hlast : bigEndian (b.getD (frameSize (lengthField b) - 2) 0)
      (b.getD (frameSize (lengthField b) - 1) 0) = field b (frameSize (lengthField b) - 2) := by
    rw [← hfield, show frameSize (lengthField b) - 2 + 1 = frameSize (lengthField b) - 1 by omega]
  have hsize : max (field b 7).toNat 1 + 11 = frameSize (lengthField b) := rfl
  rw [referenceScan, dif_neg (by omega),
    if_neg (not_not_intro ((take_three_eq b hlong).mpr hstart))]
  simp only [hfield 3, hfield 5, hfield 7, hsize, hlast]
  rw [if_neg (by omega)]
  by_cases hcrc : CrcOk b (frameSize (lengthField b))
  · rw [if_pos hcrc.symm, if_pos hcrc]
    rfl
  · rw [if_neg (fun heq => hcrc heq.symm), if_neg hcrc]
    rfl

end Branches

/-- The remainder waits: for a header, or for the rest of the frame whose header
it begins with. -/
def Waits (s : Scanned) : Prop :=
  match s.header with
  | none => s.remainder.length < 12
  | some (cmd1, cmd2, n) => 12 ≤ s.remainder.length ∧
      cmd1 = field s.remainder ipcProtocolCommand1HighOffset ∧
      cmd2 = field s.remainder ipcProtocolCommand2HighOffset ∧ n = lengthField s.remainder

/-- Each branch of the scan is one token of the grammar. -/
theorem scans_referenceScan (b : List UInt8) :
    Scans frames b (referenceScan b).messages (referenceScan b).remainder ∧
      Waits (referenceScan b) := by
  induction hlen : b.length using Nat.strongRecOn generalizing b with
  | ind len ih =>
    cases hnext : frames.next b with
    | wait =>
      rcases nextToken_wait b hnext with hshort | ⟨hstart, hwait⟩
      · rw [referenceScan_short hshort]
        exact ⟨.wait hnext, hshort⟩
      · by_cases hshort : b.length < 12
        · rw [referenceScan_short hshort]
          exact ⟨.wait hnext, hshort⟩
        · rw [referenceScan_wait (by omega) hstart hwait]
          exact ⟨.wait hnext, by simp only; omega, rfl, rfl, rfl⟩
    | take n out =>
      obtain ⟨hpos, hle⟩ := nextToken_bounds b n out hnext
      have hless : (b.drop n).length < len := by
        rw [List.length_drop]
        omega
      obtain ⟨hscan, hwaits⟩ := ih _ hless (b.drop n) rfl
      obtain ⟨hlong, ⟨hno, rfl, rfl⟩ | ⟨hstart, rfl, -, rfl⟩⟩ := nextToken_take b n out hnext
      · rw [referenceScan_skip hlong hno]
        exact ⟨.take hnext hscan, hwaits⟩
      · rw [referenceScan_frame hlong hstart hle]
        exact ⟨.take hnext hscan, hwaits⟩

/-- One call delivers the messages of the reference scan, moves its remainder to
the front, and waits in the state, and with the fields, that the remainder calls
for. -/
theorem decoder_eq_referenceScan (h : ParserHandle) (b : List UInt8) (hh : Holds h b) :
    ∃ t, tcParserDecoder h = some (t, (referenceScan b).messages) ∧ t.offset = 0 ∧
      t.dataSize = (referenceScan b).remainder.length ∧
      t.data.take t.dataSize = (referenceScan b).remainder ∧
      match (referenceScan b).header with
      | none => t.parserState = stateIdle
      | some (cmd1, cmd2, n) => t.parserState = stateData ∧ t.parserData.cmd1 = cmd1 ∧
          t.parserData.cmd2 = cmd2 ∧ t.parserData.length = n := by
  obtain ⟨hscan, hwaits⟩ := scans_referenceScan b
  obtain ⟨t, hdecode, hreturned⟩ := hh.decoder hscan
  refine ⟨t, hdecode, hreturned.offset, hreturned.dataSize, returned_data hreturned, ?_⟩
  unfold Waits at hwaits
  cases hheader : (referenceScan b).header with
  | none =>
    rw [hheader] at hwaits
    exact returned_idle hreturned hwaits
  | some fields =>
    obtain ⟨cmd1, cmd2, n⟩ := fields
    rw [hheader] at hwaits
    obtain ⟨hlong, hcmd1, hcmd2, hn⟩ := hwaits
    obtain ⟨hdata, hl⟩ := returned_latched hreturned hlong
    have hwindow := hreturned.window
    refine ⟨hdata, ?_, ?_, ?_⟩
    · rw [hl.cmd1, hwindow, hcmd1]
    · rw [hl.cmd2, hwindow, hcmd2]
    · rw [hl.length, hwindow, hn]

/-- A byte of noise, then a header that announces more than has come. -/
def noiseAndHeader : List UInt8 :=
  [0x00, 0xff, 0x55, 0xaa, 0x01, 0x02, 0x03, 0x04, 0x00, 0x09, 0xff, 0x55, 0xaa]

theorem decoder_eq_referenceScan_noise :
    ∃ t, tcParserDecoder (holding noiseAndHeader (by decide)) = some (t, []) ∧ t.offset = 0 ∧
      t.dataSize = 12 ∧ t.data.take t.dataSize = noiseAndHeader.drop 1 ∧
      t.parserState = stateData ∧ t.parserData.cmd1 = 0x0102 ∧ t.parserData.cmd2 = 0x0304 ∧
      t.parserData.length = 9 := by
  have hscan : referenceScan noiseAndHeader =
      ⟨[], noiseAndHeader.drop 1, some (0x0102, 0x0304, 9)⟩ := by
    rw [referenceScan_skip (by decide) (by decide),
      referenceScan_wait (by decide) (by decide) (by decide)]
    rfl
  have hdecoder := decoder_eq_referenceScan (holding noiseAndHeader (by decide)) noiseAndHeader
    (holds_holding _ _)
  rw [hscan] at hdecoder
  exact hdecoder

end TcIpcCtrl.ReferenceScan
