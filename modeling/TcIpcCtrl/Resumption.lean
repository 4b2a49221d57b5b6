import TcIpcCtrl.ReceivePath
import TcIpcCtrl.ReferenceScan

/-!
Cutting the input. Two handles in the same state, of which the second has the
bytes of the first ahead and then more, take the same passes until the first
has to stop for want of bytes. What the first leaves over, with the missing
bytes appended, is then again in the same state as the second, so that nothing
depends on where the input was cut.
-/
namespace TcIpcCtrl.Resumption

open CInt Cells Package WhileLoop FrameGrammar TcIpcCtrl.Parser DecoderPasses DecoderRefinement
  RoundTrip ReceivePath ReferenceScan

/-! Two handles side by side -/

/-- Both are in the same state, but `u` has the bytes `ys` after those of `h`. -/
structure Extends (ys : List UInt8) (h u : ParserHandle) : Prop where
  placed : Placed h
  placed' : Placed u
  window : window u = window h ++ ys
  state : u.parserState = h.parserState
  cmd1 : u.parserData.cmd1 = h.parserData.cmd1
  cmd2 : u.parserData.cmd2 = h.parserData.cmd2
  length : u.parserData.length = h.parserData.length
  callback : u.parserReceivedData = h.parserReceivedData

section Extends

variable {ys : List UInt8} {h u : ParserHandle} (hx : Extends ys h u)

include hx

theorem room_extends : h.dataSize - h.offset + ys.length = u.dataSize - u.offset := by
  rw [← hx.placed.length_window, ← hx.placed'.length_window, hx.window, List.length_append]

theorem inBuffer_extends (i : ℕ) (hi : i < h.dataSize - h.offset) :
    inBuffer u i = inBuffer h i := by
  have hroom := room_extends hx
  have hlen := hx.placed.length_window
  rw [← window_getD u i (by omega), ← window_getD h i hi, hx.window]
  exact getD_append (window h) ys i (by omega)

/-- The pass `p` from the first and the pass `q` from the second. -/
structure Alike (ys : List UInt8) (p q : DecodePass) : Prop where
  stop : q.stop = false
  received : q.received = p.received
  window : DecoderPasses.window q.handle = DecoderPasses.window p.handle ++ ys
  state : q.handle.parserState = p.handle.parserState
  cmd1 : q.handle.parserData.cmd1 = p.handle.parserData.cmd1
  cmd2 : q.handle.parserData.cmd2 = p.handle.parserData.cmd2
  length : q.handle.parserData.length = p.handle.parserData.length

theorem matchByte_alike (i : ℕ) (hi : i < 12) (code : UInt8) (next : ℤ)
    (hroom : 12 ≤ h.dataSize - h.offset) :
    Alike ys (matchByte h i code next) (matchByte u i code next) := by
  have hbyte := inBuffer_extends hx i (by omega)
  have hmore := room_extends hx
  by_cases hhit : inBuffer h i = code
  · rw [matchByte, matchByte, if_pos hhit, if_pos (hbyte.trans hhit)]
    exact ⟨rfl, rfl, hx.window, rfl, hx.cmd1, hx.cmd2, hx.length⟩
  · have hle := hx.placed.dataSize_le
    have hle' := hx.placed'.dataSize_le
    have hlen := hx.placed.length_window
    simp only [tmmParserBufSize, ipcMaximumDataSize] at hle hle'
    have hmove : u32 (h.offset + 1) = h.offset + 1 := u32_succ _ (by omega)
    have hmove' : u32 (u.offset + 1) = u.offset + 1 := u32_succ _ (by omega)
    have hskip : window (skip u) = window (skip h) ++ ys := by
      rw [window_skip, window_skip, hx.window, List.drop_append_of_le_length (by omega)]
    rw [matchByte, matchByte, if_neg hhit, if_neg (fun heq => hhit (hbyte.symm.trans heq)), hmove,
      hmove']
    exact ⟨rfl, rfl, hskip, rfl, hx.cmd1, hx.cmd2, hx.length⟩

theorem latchHeader_alike (hroom : 12 ≤ h.dataSize - h.offset) :
    Alike ys (latchHeader h) (latchHeader u) := by
  have hbyte : ∀ i, i < 12 → inBuffer u i = inBuffer h i :=
    fun i hi => inBuffer_extends hx i (by omega)
  have hfield : ∀ i, i + 1 < 12 → joinBytes (inBuffer u i) (inBuffer u (i + 1)) =
      joinBytes (inBuffer h i) (inBuffer h (i + 1)) := by
    intro i hi
    rw [hbyte i (by omega), hbyte (i + 1) hi]
  exact ⟨rfl, rfl, hx.window, rfl, hfield 3 (by omega), hfield 5 (by omega), hfield 7 (by omega)⟩

theorem waitData_alike (hstop : (waitData h).stop = false) :
    Alike ys (waitData h) (waitData u) := by
  have hmore := room_extends hx
  have hfit : frameSize h.parserData.length ≤ h.dataSize - h.offset := by
    by_contra hshort
    rw [hx.placed.waitData_eq, if_neg hshort] at hstop
    cases hstop
  rw [hx.placed.waitData_eq, hx.placed'.waitData_eq, hx.length, if_pos hfit,
    if_pos (Nat.le_trans hfit (by omega))]
  exact ⟨rfl, rfl, hx.window, rfl, hx.cmd1, hx.cmd2, hx.length⟩

theorem checkCrc_alike (hs : h.parserState = stateCrc) : Alike ys (checkCrc h) (checkCrc u) := by
  have hs' : u.parserState = stateCrc := hx.state.trans hs
  have hge := frameSize_ge h.parserData.length
  have hfit := hx.placed.complete hs
  have hlen := hx.placed.length_window
  obtain ⟨hhandle, -, -⟩ := hx.placed.checkCrc_eq hs
  obtain ⟨hhandle', hstop', -⟩ := hx.placed'.checkCrc_eq hs'
  have hframed : framed u = framed h := by
    rw [framed, framed, hx.cmd1, hx.cmd2, hx.length, hx.window,
      dataOf_append (window h) ys _ (by omega)]
  have hreceived : (checkCrc u).received = (checkCrc h).received := by
    rw [checkCrc_received hx.placed' hs', checkCrc_received hx.placed hs, heard, heard, hx.callback,
      hx.length, hx.window, hframed]
    simp only [crcOk_append (window h) ys _ hge (by omega)]
  have hconsume : window (consume u) = window (consume h) ++ ys := by
    rw [window_consume, window_consume, hx.length, hx.window,
      List.drop_append_of_le_length (by omega)]
  refine ⟨hstop', hreceived, ?_, ?_, ?_, ?_, ?_⟩
  · rw [hhandle, hhandle']
    exact hconsume
  all_goals
    rw [hhandle, hhandle']
    rfl

theorem decodePass_alike (hroom : 12 ≤ h.dataSize - h.offset)
    (hstop : (decodePass h).stop = false) : Alike ys (decodePass h) (decodePass u) := by
  rcases hx.placed.state_cases with hs | hs | hs | hs | hs | hs
  · rw [decodePass_idle hs, decodePass_idle (hx.state.trans hs)]
    exact matchByte_alike hx _ (by decide) _ _ hroom
  · rw [decodePass_sync hs, decodePass_sync (hx.state.trans hs)]
    exact matchByte_alike hx _ (by decide) _ _ hroom
  · rw [decodePass_start hs, decodePass_start (hx.state.trans hs)]
    exact matchByte_alike hx _ (by decide) _ _ hroom
  · rw [decodePass_hader hs, decodePass_hader (hx.state.trans hs)]
    exact latchHeader_alike hx hroom
  · rw [decodePass_data hs, decodePass_data (hx.state.trans hs)]
    rw [decodePass_data hs] at hstop
    exact waitData_alike hx hstop
  · rw [decodePass_crc hs, decodePass_crc (hx.state.trans hs)]
    exact checkCrc_alike hx hs

end Extends

theorem matchByte_stop (h : ParserHandle) (i : ℕ) (code : UInt8) (next : ℤ) :
    (matchByte h i code next).stop = false := by
  by_cases hbyte : inBuffer h i = code
  · rw [matchByte, if_pos hbyte]
  · rw [matchByte, if_neg hbyte]

/-- A pass that stops the loop does nothing else. -/
theorem stopped_pass {h : ParserHandle} (hp : Placed h) (hstop : (decodePass h).stop = true) :
    (decodePass h).received = [] ∧ (decodePass h).handle = h := by
  rcases hp.state_cases with hs | hs | hs | hs | hs | hs
  · rw [decodePass_idle hs, matchByte_stop] at hstop
    cases hstop
  · rw [decodePass_sync hs, matchByte_stop] at hstop
    cases hstop
  · rw [decodePass_start hs, matchByte_stop] at hstop
    cases hstop
  · rw [decodePass_hader hs] at hstop
    cases hstop
  · rw [decodePass_data hs, hp.waitData_eq] at hstop ⊢
    by_cases hfit : frameSize h.parserData.length ≤ h.dataSize - h.offset
    · rw [if_pos hfit] at hstop
      cases hstop
    · rw [if_neg hfit]
      exact ⟨rfl, rfl⟩
  · rw [decodePass_crc hs, (hp.checkCrc_eq hs).2.1] at hstop
    cases hstop

/-- The second follows the first to where its loop is left. -/
theorem ends_follow {ys : List UInt8} {h t u : ParserHandle} {out : List ReceivedData}
    (hends : Ends decodeGuard decodeBody h out t) (hx : Extends ys h u) :
    ∃ v, Leads decodeGuard decodeBody u out v ∧ Extends ys t v := by
  refine hends.follow (R := Extends ys) ?_ ?_ hx
  · intro s r hsr hg hstop
    have hroom : 12 ≤ s.dataSize - s.offset := by
      rw [hsr.placed.decodeGuard_eq] at hg
      exact of_decide_eq_true hg
    have hmore := room_extends hsr
    have hg' : decodeGuard r = true := guard_of_room hsr.placed' (by omega)
    have halike := decodePass_alike hsr hroom hstop
    have hsafe := decodePass_safe hsr.placed hroom
    have hsafe' := decodePass_safe_of_guard hsr.placed' hg'
    refine ⟨hg', halike.stop, halike.received, hsafe.placed, hsafe'.placed, halike.window,
      halike.state, halike.cmd1, halike.cmd2, halike.length, ?_⟩
    exact hsafe'.keeps.callback.trans (hsr.callback.trans hsafe.keeps.callback.symm)
  · intro s r hsr hg hstop
    obtain ⟨hout, hhandle⟩ := stopped_pass hsr.placed hstop
    refine ⟨hout, ?_⟩
    show Extends ys (decodePass s).handle r
    rw [hhandle]
    exact hsr

/-- With nothing to follow the second loop ends there as well. -/
theorem ends_same {h t u : ParserHandle} {out : List ReceivedData}
    (hends : Ends decodeGuard decodeBody h out t) (hx : Extends [] h u) :
    ∃ v, Ends decodeGuard decodeBody u out v ∧ Extends [] t v := by
  obtain ⟨v, hleads, htv⟩ := ends_follow hends hx
  obtain ⟨ht, -, hleft⟩ := ends_safe hx.placed hends
  have hroom := room_extends htv
  rw [List.length_nil, Nat.add_zero] at hroom
  have hv : Ends decodeGuard decodeBody v [] v := by
    rcases hleft with ⟨-, hshort⟩ | ⟨hdata, hshort⟩
    · exact ends_short htv.placed' (by omega)
    · have hlong : ipcMinimumPacketSize ≤ t.dataSize - t.offset :=
        ht.room (by rw [hdata]; decide)
      exact ends_wait htv.placed' (by rw [← hroom]; exact hlong) (htv.state.trans hdata)
        (by rw [htv.length, ← hroom]; exact hshort)
  refine ⟨v, ?_, htv⟩
  have hboth := hleads.ends hv
  rwa [List.append_nil] at hboth

theorem sameRest_compact {t v : ParserHandle} (hx : Extends [] t v) :
    SameRest (compact t) (compact v) := by
  obtain ⟨hoffset, hsize, hwindow⟩ := compact_eq hx.placed
  obtain ⟨hoffset', hsize', hwindow'⟩ := compact_eq hx.placed'
  have hroom := room_extends hx
  rw [List.length_nil, Nat.add_zero] at hroom
  refine ⟨⟨hoffset, hoffset'⟩, by rw [hsize, hsize', hroom], ?_, hx.state.symm⟩
  rw [← window_of_offset hoffset, ← window_of_offset hoffset', hwindow, hwindow', hx.window,
    List.append_nil]

/-! Handles between two calls -/

/-- The handle comes from ipc_parser_handle_init and calls of the decoder, before
which any bytes were stored anywhere and counted up to the size of the buffer. -/
inductive LeftBy : ParserHandle → Prop
  | init (parserData : IpcMsg) (stale : Bool) : LeftBy (ipcParserHandleInit parserData stale)
  | register {h : ParserHandle} (cb : Bool) : LeftBy h → LeftBy (ipcParserResisterCallback h cb)
  | decoder {h t : ParserHandle} {out : List ReceivedData} (pos : ℕ) (src : List UInt8) (size : ℕ) :
      LeftBy h → size ≤ tcParserFreeSpace h →
      tcParserDecoder (tcParserPushSize (h.store pos src) size) = some (t, out) → LeftBy t

theorem leftBy_rests {h : ParserHandle} (hleft : LeftBy h) : Rests h := by
  induction hleft with
  | init parserData stale => exact rests_init parserData stale
  | register cb _ hr => exact hr.register cb
  | @decoder h t out pos src size _ hsize hdecode hr =>
    have hle := hr.dataSize_le
    rw [hr.maxSize] at hle
    rw [hr.freeSpace_eq] at hsize
    have hp := stored_placed hr pos src size (by omega)
    obtain ⟨u, out', hends⟩ := decoder_ends hp
    rw [tcParserDecoder_eq hp hends, Option.some.injEq, Prod.mk.injEq] at hdecode
    rw [← hdecode.1]
    exact rests_compact hp hr.maxSize hends

/-! Appending -/

/-- `xs` is stored behind the bytes of the handle and counted. -/
def append (h : ParserHandle) (xs : List UInt8) : ParserHandle :=
  tcParserPushSize (h.store h.dataSize xs) xs.length

section Append

variable {h : ParserHandle} (hr : Rests h) {xs : List UInt8} (hfit : h.dataSize + xs.length ≤ 1024)

include hr hfit

theorem append_placed : Placed (append h xs) := stored_placed hr _ xs _ hfit

theorem window_append : window (append h xs) = window h ++ xs := by
  have hcells := h.data_length
  simp only [tmmParserBufSize, ipcMaximumDataSize] at hcells
  have hoffset : (append h xs).offset = 0 := hr.offset
  have hsize : (append h xs).dataSize = h.dataSize + xs.length := stored_dataSize h _ xs _ hfit
  have hdata : (append h xs).data = memcpy h.data h.dataSize xs := rfl
  rw [window_of_offset hoffset, window_of_offset hr.offset, hsize, hdata,
    memcpy_eq _ _ _ (by omega), List.take_left']
  rw [List.length_append, List.length_take]
  omega

end Append

/-- The whole input beside its first part. -/
theorem extends_append {h : ParserHandle} (hr : Rests h) (xs ys : List UInt8)
    (hfit : h.dataSize + xs.length + ys.length ≤ 1024) :
    Extends ys (append h xs) (append h (xs ++ ys)) := by
  have hfirst : h.dataSize + xs.length ≤ 1024 := by omega
  have hwhole : h.dataSize + (xs ++ ys).length ≤ 1024 := by
    rw [List.length_append]
    omega
  refine ⟨append_placed hr hfirst, append_placed hr hwhole, ?_, rfl, rfl, rfl, rfl, rfl⟩
  rw [window_append hr hwhole, window_append hr hfirst, List.append_assoc]

/-- What is left over, with the missing bytes after it, catches up with the whole. -/
theorem extends_compact {ys : List UInt8} {t v : ParserHandle} (hx : Extends ys t v)
    (hr : Rests (compact t)) : Extends [] (append (compact t) ys) v := by
  obtain ⟨-, hsize, hwindow⟩ := compact_eq hx.placed
  have hfit : (compact t).dataSize + ys.length ≤ 1024 := by
    have hroom := room_extends hx
    have hle := hx.placed'.dataSize_le
    simp only [tmmParserBufSize, ipcMaximumDataSize] at hle
    omega
  refine ⟨append_placed hr hfit, hx.placed', ?_, hx.state, hx.cmd1, hx.cmd2, hx.length,
    hx.callback⟩
  rw [window_append hr hfit, hwindow, List.append_nil, hx.window]

/-- Cutting `xs ++ ys` in two makes no difference: the same messages, the same
bytes left over in the same state, and the same latched fields. -/
theorem decoder_resumes (h : ParserHandle) (hleft : LeftBy h) (xs ys : List UInt8)
    (hfit : h.dataSize + xs.length + ys.length ≤ 1024) :
    ∃ t u v outs more,
      tcParserDecoder (append h xs) = some (t, outs) ∧
      tcParserDecoder (append t ys) = some (u, more) ∧
      tcParserDecoder (append h (xs ++ ys)) = some (v, outs ++ more) ∧
      SameRest u v ∧ u.parserData.cmd1 = v.parserData.cmd1 ∧
      u.parserData.cmd2 = v.parserData.cmd2 ∧ u.parserData.length = v.parserData.length := by
  have hr := leftBy_rests hleft
  have hx := extends_append hr xs ys hfit
  -- The first call, and the whole input taken as far.
  obtain ⟨a, outs, haends⟩ := decoder_ends hx.placed
  obtain ⟨b, hbleads, hab⟩ := ends_follow haends hx
  -- The second call starts where the whole input stands.
  have hcb := extends_compact hab (rests_compact hx.placed hr.maxSize haends)
  obtain ⟨c, more, hcends⟩ := decoder_ends hcb.placed
  obtain ⟨d, hdends, hcd⟩ := ends_same hcends hcb
  have hfirst := tcParserDecoder_eq hx.placed haends
  have hsecond := tcParserDecoder_eq hcb.placed hcends
  have hwhole := tcParserDecoder_eq hx.placed' (hbleads.ends hdends)
  exact ⟨compact a, compact c, compact d, outs, more, hfirst, hsecond, hwhole,
    sameRest_compact hcd, hcd.cmd1.symm, hcd.cmd2.symm, hcd.length.symm⟩

/-- A frame without payload, read in two pieces. -/
theorem decoder_resumes_header :
    ∃ t u outs more,
      tcParserDecoder (append (ipcParserResisterCallback
        (ipcParserHandleInit ⟨0, 0, 0, none⟩ false) true) (sendEmpty.frame.take 5)) =
          some (t, outs) ∧
      tcParserDecoder (append t (sendEmpty.frame.drop 5)) = some (u, more) ∧
      outs ++ more = [sendEmpty.delivered] := by
  obtain ⟨t, u, v, outs, more, hfirst, hsecond, hwhole, -⟩ :=
    decoder_resumes (ipcParserResisterCallback (ipcParserHandleInit ⟨0, 0, 0, none⟩ false) true)
      (.register true (.init _ _)) (sendEmpty.frame.take 5) (sendEmpty.frame.drop 5)
      (by decide +kernel)
  have hmessages : (tcParserDecoder (append (ipcParserResisterCallback
      (ipcParserHandleInit ⟨0, 0, 0, none⟩ false) true)
      (sendEmpty.frame.take 5 ++ sendEmpty.frame.drop 5))).map (fun r => r.2) =
        some [sendEmpty.delivered] := by
    decide +kernel
  rw [hwhole] at hmessages
  exact ⟨t, u, outs, more, hfirst, hsecond, Option.some.inj hmessages⟩

end TcIpcCtrl.Resumption
