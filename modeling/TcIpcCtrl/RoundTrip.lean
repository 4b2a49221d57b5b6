import TcIpcCtrl.DecoderRefinement

/-!
The decoder as a function. Compaction keeps the bytes that are left, so a call
maps the bytes of the handle to the messages and the leftover of their scan.
The frames that the sender builds come back as exactly the messages sent.
-/
namespace TcIpcCtrl.RoundTrip

open CInt Cells Package Tokens FrameGrammar TcIpcCtrl.Parser DecoderPasses DecoderRefinement

theorem slice_succ (cells : List UInt8) (pos n : ℕ) (h : pos < cells.length) :
    slice cells pos (n + 1) = cells.getD pos 0 :: slice cells (pos + 1) n := by
  simp only [slice, List.drop_eq_getElem_cons h, List.take_succ_cons,
    List.getD_eq_getElem?_getD, List.getElem?_eq_getElem h, Option.getD_some]

/-- The bytes are moved from the front on, each before its cell is overwritten. -/
theorem moveFront_take (data : List UInt8) (offset i n : ℕ)
    (h : i + offset + n ≤ data.length) :
    (moveFront data offset i n).take (i + n) = data.take i ++ slice data (i + offset) n := by
  induction n generalizing data i with
  | zero => simp [moveFront, slice]
  | succ n ih =>
    have hlt : i < data.length := by omega
    have hfront : (data.set i (data.getD (i + offset) 0)).take (i + 1) =
        data.take i ++ [data.getD (i + offset) 0] := by
      rw [List.take_succ_eq_append_getElem (by rw [List.length_set]; exact hlt),
        List.getElem_set_self, List.take_set, List.set_eq_of_length_le]
      rw [List.length_take]
      omega
    have hahead : slice (data.set i (data.getD (i + offset) 0)) (i + 1 + offset) n =
        slice data (i + 1 + offset) n := by
      rw [slice, List.drop_set_of_lt (by omega), slice]
    rw [moveFront, show i + (n + 1) = i + 1 + n by omega, ih _ (i + 1) (by
      rw [List.length_set]
      omega), hfront, hahead, slice_succ data _ _ (by omega), List.append_assoc]
    rw [show i + 1 + offset = i + offset + 1 by omega]
    rfl

theorem compact_eq {h : ParserHandle} (hp : Placed h) :
    (compact h).offset = 0 ∧ (compact h).dataSize = h.dataSize - h.offset ∧
      window (compact h) = window h := by
  have hle := hp.dataSize_le
  have hoff := hp.offset_le
  have hlen := h.data_length
  have hremain : u32 (h.dataSize - h.offset) = h.dataSize - h.offset := by
    refine u32_sub _ _ hoff ?_
    simp only [tmmParserBufSize, ipcMaximumDataSize] at hle
    omega
  refine ⟨rfl, hremain, ?_⟩
  have hmove := moveFront_take h.data h.offset 0 (h.dataSize - h.offset) (by omega)
  rw [Nat.zero_add, Nat.zero_add, List.take_zero, List.nil_append] at hmove
  rw [window, window, ← hmove]
  show slice (moveFront h.data h.offset 0 (u32 (h.dataSize - h.offset))) 0
    (u32 (h.dataSize - h.offset) - 0) = _
  rw [hremain, slice, List.drop_zero, Nat.sub_zero]

/-- A handle as the decoder returns it, with the bytes `rest` left. -/
structure Returned (h t : ParserHandle) (rest : List UInt8) : Prop where
  offset : t.offset = 0
  dataSize : t.dataSize = rest.length
  window : window t = rest
  maxSize : t.maxSize = h.maxSize
  callback : t.parserReceivedData = h.parserReceivedData
  idle : t.parserState = stateIdle → rest.length < 12
  resumes : Resumes t

theorem Leaves.returned {h t : ParserHandle} {rest : List UInt8} (ht : Placed t)
    (hleaves : Leaves h t rest) : Returned h (compact t) rest := by
  obtain ⟨hoffset, hsize, hwindow⟩ := compact_eq ht
  refine ⟨hoffset, ?_, hwindow.trans hleaves.window, hleaves.keeps.maxSize, hleaves.keeps.callback,
    hleaves.idle, ?_⟩
  · rw [hsize, ← ht.length_window, hleaves.window]
  · rcases hleaves.resumes with hidle | ⟨hs, hl⟩
    · exact Or.inl hidle
    · refine Or.inr ⟨hs, ?_⟩
      exact ⟨hwindow ▸ hl.room, hwindow ▸ hl.start, hwindow ▸ hl.cmd1, hwindow ▸ hl.cmd2,
        hwindow ▸ hl.length⟩

/-- A call of the decoder scans the bytes of the handle. -/
theorem tcParserDecoder_scans {h : ParserHandle} {rest : List UInt8} {outs : List ReceivedData}
    (hp : Placed h) (hresumes : Resumes h) (hscan : Scans frames (window h) outs rest) :
    ∃ t, tcParserDecoder h = some (t, heard h outs) ∧ Returned h t rest := by
  obtain ⟨t, hends, hleaves⟩ := ends_of_resumes hp hresumes hscan
  obtain ⟨ht, -, -⟩ := ends_safe hp hends
  exact ⟨compact t, tcParserDecoder_eq hp hends, Leaves.returned ht hleaves⟩

/-! What the sender's frames decode to -/

/-- The arguments of one call of tc_package_send, and what its stack buffer held
before. -/
structure Send where
  sendBuf : List UInt8
  cmd1 : UInt16
  cmd2 : UInt16
  buf : Option (List UInt8)
  length : UInt16
  sendBuf_length : sendBuf.length = ipcMaximumPacketSize
  payload : PayloadOk buf length
  length_le : length.toNat ≤ 509

namespace Send

/-- The bytes that the call puts on the wire. -/
def frame (s : Send) : List UInt8 := packageFrame s.sendBuf s.cmd1 s.cmd2 s.buf s.length

/-- What the peer's callback is to be given. -/
def delivered (s : Send) : ReceivedData :=
  { cmd1 := s.cmd1, cmd2 := s.cmd2, length := s.length
    data := if s.length = 0 then none else s.buf }

def message (s : Send) : Message where
  cmd1 := s.cmd1
  cmd2 := s.cmd2
  payload := s.buf.getD []
  length_le := by
    rw [s.payload.length_eq]
    exact s.length_le

theorem message_length (s : Send) : s.message.length = s.length := by
  apply UInt16.toNat_inj.mp
  rw [Message.toNat_length]
  exact s.payload.length_eq

theorem frame_eq (s : Send) : s.frame = s.message.wire := by
  rw [frame, packageFrame_eq s.sendBuf s.sendBuf_length s.cmd1 s.cmd2 s.buf s.length s.payload
    s.length_le, Message.wire, message_length]
  rfl

theorem delivered_eq (s : Send) : s.delivered = s.message.delivered := by
  have hzero := s.message.length_eq_zero
  have hlen := s.payload.length_eq
  rw [message_length] at hzero
  rw [delivered, Message.delivered, message_length, ReceivedData.mk.injEq]
  refine ⟨rfl, rfl, rfl, ?_⟩
  by_cases hnil : s.length = 0
  · rw [if_pos hnil, if_pos (hzero.mp hnil)]
  · rw [if_neg hnil, if_neg (fun hpayload => hnil (hzero.mpr hpayload))]
    cases hbuf : s.buf with
    | none =>
      rw [hbuf] at hlen
      exact absurd (UInt16.toNat_inj.mp hlen.symm) hnil
    | some bytes => simp only [message, hbuf, Option.getD_some]

/-- The frame of a send carries what its peer is to be given. -/
theorem carries_frame (s : Send) : Carries s.frame s.delivered := by
  rw [frame_eq, delivered_eq]
  exact s.message.carries_wire

end Send

/-- The stream of a list of sends. -/
def stream (sends : List Send) : List UInt8 := sends.flatMap Send.frame

theorem stream_append (sends sends' : List Send) :
    stream (sends ++ sends') = stream sends ++ stream sends' :=
  List.flatMap_append

theorem stream_singleton (s : Send) : stream [s] = s.frame := List.flatMap_singleton Send.frame s

theorem scans_stream (sends : List Send) :
    Scans frames (stream sends) (sends.map Send.delivered) [] := by
  have hscan := scans_wireAll (sends.map Send.message)
  have hwire : wireAll (sends.map Send.message) = stream sends := by
    simp only [wireAll, stream, List.flatMap_map]
    exact List.flatMap_congr fun s _ => s.frame_eq.symm
  have hmap : (sends.map Send.message).map Message.delivered = sends.map Send.delivered := by
    rw [List.map_map]
    exact List.map_congr_left fun s _ => s.delivered_eq.symm
  rwa [hwire, hmap] at hscan

/-- One call of the decoder gives back exactly the messages of the frames it
holds, whatever their payloads. -/
theorem decoder_inverts_sends (sends : List Send) (h : ParserHandle)
    (hidle : h.parserState = stateIdle) (hoffset : h.offset = 0)
    (hcb : h.parserReceivedData = true) (htotal : (stream sends).length ≤ 1024)
    (hsize : h.dataSize = (stream sends).length)
    (hdata : h.data.take h.dataSize = stream sends) :
    ∃ t, tcParserDecoder h = some (t, sends.map Send.delivered) ∧
      t.offset = 0 ∧ t.dataSize = 0 ∧ t.parserState = stateIdle := by
  have hp : Placed h := placed_of_idle (by omega) (by rw [hsize]; exact htotal) hidle
  have hwindow : window h = stream sends := (window_of_offset hoffset).trans hdata
  have hscan := scans_stream sends
  rw [← hwindow] at hscan
  obtain ⟨t, hdecode, hreturned⟩ := tcParserDecoder_scans hp (Or.inl hidle) hscan
  rw [heard, if_pos hcb] at hdecode
  refine ⟨t, hdecode, hreturned.offset, hreturned.dataSize, ?_⟩
  rcases hreturned.resumes with hidle' | ⟨-, hl⟩
  · exact hidle'
  · have hroom := hl.room
    rw [hreturned.window] at hroom
    cases hroom

theorem length_padded (bytes : List UInt8) (h : bytes.length ≤ 1024) :
    (bytes ++ List.replicate (1024 - bytes.length) 0x00).length = tmmParserBufSize := by
  rw [List.length_append, List.length_replicate, Nat.add_sub_cancel' h]
  rfl

/-- A new handle into which `bytes` have been read. -/
def holding (bytes : List UInt8) (h : bytes.length ≤ 1024) : ParserHandle :=
  { ipcParserHandleInit ⟨0, 0, 0, none⟩ true with
    data := bytes ++ List.replicate (1024 - bytes.length) 0x00
    dataSize := bytes.length
    data_length := length_padded bytes h }

/-- A payload that begins like a frame. -/
def sendStartPattern : Send where
  sendBuf := List.replicate 520 0x00
  cmd1 := 0x0102
  cmd2 := 0x0304
  buf := some [0xff, 0x55, 0xaa]
  length := 3
  sendBuf_length := List.length_replicate
  payload := ⟨rfl⟩
  length_le := by decide

/-- A call without a payload. -/
def sendEmpty : Send where
  sendBuf := List.replicate 520 0xff
  cmd1 := 0x0506
  cmd2 := 0x0708
  buf := none
  length := 0
  sendBuf_length := List.length_replicate
  payload := ⟨rfl⟩
  length_le := by decide

theorem length_stream_pair : (stream [sendStartPattern, sendEmpty]).length ≤ 1024 := by
  decide +kernel

theorem decoder_inverts_sends_pair :
    ∃ t, tcParserDecoder (holding (stream [sendStartPattern, sendEmpty]) length_stream_pair) =
        some (t, [⟨0x0102, 0x0304, 3, some [0xff, 0x55, 0xaa]⟩, ⟨0x0506, 0x0708, 0, none⟩]) ∧
      t.offset = 0 ∧ t.dataSize = 0 ∧ t.parserState = stateIdle :=
  decoder_inverts_sends [sendStartPattern, sendEmpty]
    (holding (stream [sendStartPattern, sendEmpty]) length_stream_pair) rfl rfl rfl
    length_stream_pair rfl List.take_left

end TcIpcCtrl.RoundTrip
