import TcIpcCtrl.PassMemory
import TcIpcCtrl.ReferenceScan

/-!
Encoding undoes decoding. Each byte of an accepted frame is either fixed by a
check or found again in the message: sync bytes, fields, payload, and the
checksum of all these. Only the dummy byte of a frame without payload is free,
and with it the checksum.
-/
namespace TcIpcCtrl.Reencoding

open Cells Crc Package WhileLoop Tokens FrameGrammar TcIpcCtrl.Parser DecoderPasses
  DecoderRefinement RoundTrip ReferenceScan PassMemory

/-! Accepted frames, byte by byte -/

theorem take_nine (seg : List UInt8) (h : 9 ≤ seg.length) :
    seg.take 9 = [seg.getD 0 0, seg.getD 1 0, seg.getD 2 0, seg.getD 3 0, seg.getD 4 0,
      seg.getD 5 0, seg.getD 6 0, seg.getD 7 0, seg.getD 8 0] := by
  match seg, h with
  | _ :: _ :: _ :: _ :: _ :: _ :: _ :: _ :: _ :: _, _ => rfl

theorem field_bytes (seg : List UInt8) (i : ℕ) :
    [seg.getD i 0, seg.getD (i + 1) 0] = [highByte (field seg i), lowByte (field seg i)] := by
  rw [field, highByte_joinBytes, lowByte_joinBytes]

theorem take_nine_eq_header {seg : List UInt8} {m : ReceivedData} (hseg : Carries seg m)
    (hlen : 9 ≤ seg.length) : seg.take 9 = header m.cmd1 m.cmd2 m.length := by
  obtain ⟨hsync, hfirst, hsecond⟩ := hseg.start
  have hcmd1 := field_bytes seg 3
  have hcmd2 := field_bytes seg 5
  have hlength := field_bytes seg 7
  rw [← hseg.cmd1] at hcmd1
  rw [← hseg.cmd2] at hcmd2
  rw [← hseg.length] at hlength
  simp only [List.cons.injEq, and_true] at hcmd1 hcmd2 hlength
  rw [take_nine seg hlen, hsync, hfirst, hsecond, hcmd1.1, hcmd1.2, hcmd2.1, hcmd2.2, hlength.1,
    hlength.2]
  rfl

/-- Header, what lies between, and the checksum of both. -/
theorem carries_layout {seg : List UInt8} {m : ReceivedData} (hseg : Carries seg m) :
    ∃ body, body.length = max m.length.toNat 1 ∧ (seg.drop 9).take body.length = body ∧
      seg = header m.cmd1 m.cmd2 m.length ++ body ++
        [highByte (tcCrc16 (header m.cmd1 m.cmd2 m.length ++ body) 0),
          lowByte (tcCrc16 (header m.cmd1 m.cmd2 m.length ++ body) 0)] := by
  have hsize := hseg.size
  unfold frameSize at hsize
  have hbody : ((seg.drop 9).take (seg.length - 11)).length = seg.length - 11 := by
    rw [List.length_take, List.length_drop]
    omega
  have hcovered : seg.take (seg.length - 2) =
      header m.cmd1 m.cmd2 m.length ++ (seg.drop 9).take (seg.length - 11) := by
    rw [← take_nine_eq_header hseg (by omega), ← List.take_add]
    congr 1
    omega
  refine ⟨(seg.drop 9).take (seg.length - 11), by omega, by rw [hbody], ?_⟩
  have hsplit := split_checksum seg (by omega)
  rwa [field_bytes, hseg.crc, hcovered] at hsplit

/-- A frame with a payload is the one that its message would be sent in. -/
theorem eq_frame_of_carries {seg : List UInt8} {m : ReceivedData} (hseg : Carries seg m)
    (hpos : 1 ≤ m.length.toNat) :
    seg = frame m.cmd1 m.cmd2 m.length (m.data.getD []) ∧ PayloadOk m.data m.length := by
  obtain ⟨body, hlen, htake, heq⟩ := carries_layout hseg
  have hne : m.length ≠ 0 := by
    intro hzero
    rw [hzero] at hpos
    exact absurd hpos (by decide)
  have hdata : m.data = some body := by
    rw [hseg.data, if_neg hne, ← htake, hlen]
    congr 2
    omega
  have hbody : payloadBytes body = body := by
    rw [payloadBytes, if_neg]
    intro hnil
    rw [hnil, List.length_nil] at hlen
    omega
  refine ⟨?_, ⟨?_⟩⟩
  · rw [frame, hdata, Option.getD_some, hbody]
    exact heq
  · rw [hdata, Option.getD_some]
    omega

/-- Without a payload the dummy byte and the checksum are left open. -/
theorem agrees_of_carries {seg : List UInt8} {m : ReceivedData} (hseg : Carries seg m)
    (hzero : m.length = 0) :
    seg.length = (frame m.cmd1 m.cmd2 0 []).length ∧
      ∀ i, i ≠ 9 → i ≠ 10 → i ≠ 11 → seg[i]? = (frame m.cmd1 m.cmd2 0 [])[i]? := by
  obtain ⟨body, hlen, -, heq⟩ := carries_layout hseg
  have hlength := length_frame m.cmd1 m.cmd2 0 []
  have hsize := hseg.size
  rw [hzero] at heq hsize
  have hsame : seg.length = (frame m.cmd1 m.cmd2 0 []).length := hsize.trans hlength.symm
  refine ⟨hsame, fun i hdummy hhigh hlow => ?_⟩
  by_cases hi : i < 9
  · have hhead : i < (header m.cmd1 m.cmd2 0).length := hi
    rw [heq, frame, List.append_assoc, List.append_assoc, List.getElem?_append_left hhead,
      List.getElem?_append_left hhead]
  · have hend : 12 ≤ i := by omega
    rw [List.getElem?_eq_none (by rw [hsame, hlength]; exact hend),
      List.getElem?_eq_none (by rw [hlength]; exact hend)]

/-! Delivered messages -/

/-- In the pass from `t` the decoder called with `h` delivers `m`. -/
structure Delivers (h t : ParserHandle) (m : ReceivedData) : Prop where
  passes : Passes decodeGuard decodeBody h t
  guard : decodeGuard t = true
  received : m ∈ (decodePass t).received

/-- The bytes that this pass moves the offset over. -/
def consumed (t : ParserHandle) : List UInt8 :=
  slice t.data t.offset ((decodePass t).handle.offset - t.offset)

/-- They are a frame that carries the message. -/
theorem carries_consumed {h t : ParserHandle} {bytes : List UInt8} {m : ReceivedData}
    (hh : Holds h bytes) (ht : Delivers h t m) : Carries (consumed t) m := by
  obtain ⟨hp, hr, hsame⟩ := passes_remember hh.placed (remembers_of_idle hh.idle) ht.passes
  have hreceived := ht.received
  cases (effect_of_guard hp hr ht.guard).moves with
  | stays _ hnone =>
    rw [hnone] at hreceived
    cases hreceived
  | skips _ _ hnone =>
    rw [hnone] at hreceived
    cases hreceived
  | consumes hl hfit hmove hsome =>
    rw [hsome, heard_of_same hsame, hh.heard] at hreceived
    by_cases hcrc : CrcOk (window t) (frameSize (lengthField (window t)))
    · rw [if_pos hcrc, List.mem_singleton] at hreceived
      have hseg : consumed t = (window t).take (frameSize (lengthField (window t))) := by
        rw [consumed, hmove, Nat.add_sub_cancel_left]
        apply slice_window
        rw [hp.length_window] at hfit
        exact hfit
      have hlen : (consumed t).length = frameSize (lengthField (window t)) := by
        rw [hseg, List.length_take, Nat.min_eq_left hfit]
      have hsplit :
          consumed t ++ (window t).drop (frameSize (lengthField (window t))) = window t := by
        rw [hseg, List.take_append_drop]
      rw [hreceived, ← hsplit]
      refine carries_messageOf _ _ ?_ ?_ ?_
      · rw [hsplit]
        exact hl.start
      · rw [hsplit]
        exact hlen
      · rw [hsplit, hlen]
        exact hcrc
    · rw [if_neg hcrc] at hreceived
      cases hreceived

/-- Each message that a call delivers is delivered in one of its passes, and then
the bytes of that pass are the frame that tc_package_send builds for it; for a
message without payload, up to the dummy byte and the checksum. -/
theorem encoding_undoes_decoding (h : ParserHandle) (bytes : List UInt8) (hh : Holds h bytes)
    (sendBuf : List UInt8) (hsend : sendBuf.length = ipcMaximumPacketSize) :
    (∀ r outs m, tcParserDecoder h = some (r, outs) → m ∈ outs → ∃ t, Delivers h t m) ∧
      ∀ t m, Delivers h t m →
        (1 ≤ m.length.toNat → m.length.toNat ≤ 509 →
          consumed t = packageFrame sendBuf m.cmd1 m.cmd2 m.data m.length ∧
          ∀ h' bytes' t', Holds h' bytes' → Delivers h' t' m → consumed t' = consumed t) ∧
        (m.length = 0 →
          (consumed t).length = (packageFrame sendBuf m.cmd1 m.cmd2 none 0).length ∧
          ∀ i, i ≠ 9 → i ≠ 10 → i ≠ 11 →
            (consumed t)[i]? = (packageFrame sendBuf m.cmd1 m.cmd2 none 0)[i]?) := by
  refine ⟨?_, fun t m ht => ⟨?_, ?_⟩⟩
  · intro r outs m hdecode hm
    obtain ⟨u, out, hends⟩ := decoder_ends hh.placed
    rw [tcParserDecoder_eq hh.placed hends, Option.some.injEq, Prod.mk.injEq] at hdecode
    obtain ⟨t, hpasses, hguard, hreceived⟩ := hends.mem_out (hdecode.2 ▸ hm)
    exact ⟨t, hpasses, hguard, hreceived⟩
  · intro hpos hle
    obtain ⟨hframe, hpayload⟩ := eq_frame_of_carries (carries_consumed hh ht) hpos
    refine ⟨?_, fun h' bytes' t' hh' ht' => ?_⟩
    · rw [packageFrame_eq sendBuf hsend m.cmd1 m.cmd2 m.data m.length hpayload hle]
      exact hframe
    · rw [hframe]
      exact (eq_frame_of_carries (carries_consumed hh' ht') hpos).1
  · intro hzero
    rw [packageFrame_eq sendBuf hsend m.cmd1 m.cmd2 none 0 ⟨rfl⟩ (by decide)]
    exact agrees_of_carries (carries_consumed hh ht) hzero

/-- One frame with a payload, held behind a byte of noise. -/
def noisyFrame : List UInt8 := 0x00 :: sendStartPattern.frame

theorem length_noisyFrame : noisyFrame.length ≤ 1024 := by decide +kernel

theorem encoding_undoes_decoding_noisy :
    ∃ t, Delivers (holding noisyFrame length_noisyFrame) t sendStartPattern.delivered ∧
      consumed t = packageFrame (List.replicate 520 0xff) 0x0102 0x0304
        (some [0xff, 0x55, 0xaa]) 3 := by
  have hmessages : (tcParserDecoder (holding noisyFrame length_noisyFrame)).map
      (fun r => r.2) = some [sendStartPattern.delivered] := by
    decide +kernel
  obtain ⟨⟨r, outs⟩, hdecode, houts⟩ := Option.map_eq_some_iff.mp hmessages
  obtain ⟨hpass, hbytes⟩ := encoding_undoes_decoding (holding noisyFrame length_noisyFrame)
    noisyFrame (holds_holding _ _) (List.replicate 520 0xff) List.length_replicate
  obtain ⟨t, ht⟩ := hpass r outs sendStartPattern.delivered hdecode
    (by rw [show outs = [sendStartPattern.delivered] from houts]; exact List.mem_singleton_self _)
  exact ⟨t, ht, ((hbytes t _ ht).1 (by decide) (by decide)).1⟩

end TcIpcCtrl.Reencoding
