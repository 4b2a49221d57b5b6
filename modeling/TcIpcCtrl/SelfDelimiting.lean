import TcIpcCtrl.PassMemory
import TcIpcCtrl.Resynchronization

/-!
Whether a frame tells where it ends. The header announces `length` bytes also
when the pointer is NULL, but then only the dummy byte is laid out. Such a frame
takes the bytes that follow it for its payload; every other frame is consumed to
its last byte and no further, before the decoder looks at what follows.
-/
namespace TcIpcCtrl.SelfDelimiting

open Cells Package WhileLoop Tokens FrameGrammar TcIpcCtrl.Parser DecoderPasses
  DecoderRefinement RoundTrip ReferenceScan Resynchronization PassMemory

/-- What the callback is to be given: the fields and the payload bytes laid out. -/
def carried (cmd1 cmd2 : UInt16) (buf : Option (List UInt8)) (length : UInt16) : ReceivedData :=
  { cmd1 := cmd1, cmd2 := cmd2, length := length
    data := if length = 0 then none else some (payloadStore buf length).bytes }

/-- The decoder holding `F ++ ys` consumes `F` alone, without a look at `ys`, and
reports `m`; the rest goes as for a decoder holding `ys`. -/
structure Delimits (F ys : List UInt8) (m : ReceivedData) (h h' : ParserHandle) : Prop where
  consumes : ∃ u, Leads decodeGuard decodeBody h [m] u ∧ u.offset = F.length ∧
    u.parserState = stateIdle
  reads : ∀ t, Passes decodeGuard decodeBody h t → decodeGuard t = true → t.offset < F.length →
    ∀ sp ∈ (decodePass t).spans, sp.Within F.length
  goesOn : ∃ t t' more, tcParserDecoder h = some (t, m :: more) ∧
    tcParserDecoder h' = some (t', more) ∧ SameRest t t'

/-- Passes that start within the frame ahead read nothing behind it. -/
theorem reads_within {h t : ParserHandle} (hp : Placed h) (hidle : h.parserState = stateIdle)
    (hstart : StartsFrame (window h)) (hpasses : Passes decodeGuard decodeBody h t)
    (hguard : decodeGuard t = true)
    (hoffset : t.offset < h.offset + frameSize (lengthField (window h))) :
    ∀ sp ∈ (decodePass t).spans, sp.Within (h.offset + frameSize (lengthField (window h))) := by
  have hge := frameSize_ge (lengthField (window h))
  obtain ⟨ht, hr, hsame⟩ := passes_remember hp (remembers_of_idle hidle) hpasses
  have hhere : t.offset = h.offset := by
    rcases passes_frame hp hidle hstart hpasses with hhere | hpast
    · exact hhere
    · omega
  have hwindow : window t = window h := window_drop h t hsame.data hsame.dataSize 0 hhere
  intro sp hsp
  cases (effect_of_guard ht hr hguard).moves with
  | stays _ _ hspans =>
    rw [← hhere]
    exact Nat.le_trans (hspans sp hsp) (by omega)
  | skips hno => exact absurd (hwindow ▸ hstart) hno
  | consumes _ _ _ _ hspans =>
    rw [← hhere, ← hwindow]
    exact hspans sp hsp

theorem delimits_of_carries {F ys : List UInt8} {m : ReceivedData} {h h' : ParserHandle}
    (hF : Carries F m) (hh : Holds h (F ++ ys)) (hh' : Holds h' ys) : Delimits F ys m h h' := by
  have hlen := length_of_carries hF
  have hsize := hh.dataSize
  have hreads := reads_frame hF ys
  have hframe : frameSize (lengthField (window h)) = F.length := by
    rw [hh.window, lengthField_append F ys hlen, hF.size, hF.length]
    rfl
  obtain ⟨u, hleads, hu, hoffset⟩ := leads_to hh.placed hh.idle hh.callback hh.window hreads
  obtain ⟨t, t', more, hdecode, hdecode', hsame⟩ := decoder_of_reads hh hh' hreads
  rw [List.length_append] at hsize
  refine ⟨⟨u, hleads, by omega, hu.idle⟩, ?_, ⟨t, t', more, hdecode, hdecode', hsame⟩⟩
  intro t hpasses hguard hbefore
  have hstart : StartsFrame (window h) := by
    rw [hh.window]
    exact (startsFrame_append F ys hlen).mpr hF.start
  have hwithin := reads_within hh.placed hh.idle hstart hpasses hguard
    (by rw [hframe, hh.offset]; omega)
  rw [hframe, hh.offset, Nat.zero_add] at hwithin
  exact hwithin

/-! The frames of tc_package_send -/

/-- Only the bytes that are laid out matter: a longer buffer lays out the same as
its front, and NULL with length one the same as a zero byte. -/
theorem exists_payload {buf : Option (List UInt8)} {length : UInt16}
    (hbuf : ∀ bytes, buf = some bytes → length.toNat ≤ bytes.length)
    (hwhen : buf ≠ none ∨ length.toNat ≤ 1) :
    ∃ buf', PayloadOk buf' length ∧ payloadStore buf length = payloadStore buf' length ∧
      dataEnd buf length = dataEnd buf' length ∧
      (length ≠ 0 → buf' = some (payloadStore buf length).bytes) := by
  cases buf with
  | none =>
    have hone := hwhen.resolve_left (fun hne => hne rfl)
    by_cases hzero : length = 0
    · subst hzero
      exact ⟨none, ⟨rfl⟩, rfl, rfl, fun hne => absurd rfl hne⟩
    · obtain rfl : length = 1 := by
        have hne : length.toNat ≠ 0 := fun heq => hzero (UInt16.toNat_inj.mp heq)
        apply UInt16.toNat_inj.mp
        show length.toNat = 1
        omega
      exact ⟨some [0x00], ⟨rfl⟩, rfl, rfl, fun _ => rfl⟩
  | some bytes =>
    have hle := hbuf bytes rfl
    refine ⟨some (bytes.take length.toNat), ⟨?_⟩, ?_, ?_, ?_⟩
    · rw [Option.getD_some, List.length_take, Nat.min_eq_left hle]
    · simp only [payloadStore, List.take_take, Nat.min_self]
    · simp only [dataEnd, ne_eq, reduceCtorEq, not_false_eq_true, and_true]
    · intro hne
      have hpos : length > 0 := by
        apply UInt16.lt_iff_toNat_lt.mpr
        have hnat : length.toNat ≠ 0 := fun heq => hne (UInt16.toNat_inj.mp heq)
        show 0 < length.toNat
        omega
      simp only [payloadStore, if_pos hpos]

section Frames

variable {sendBuf : List UInt8} (hsend : sendBuf.length = ipcMaximumPacketSize)
  (cmd1 cmd2 : UInt16) {buf : Option (List UInt8)} {length : UInt16}

include hsend

theorem packageFrame_carries (hle : length.toNat ≤ 509)
    (hbuf : ∀ bytes, buf = some bytes → length.toNat ≤ bytes.length)
    (hwhen : buf ≠ none ∨ length.toNat ≤ 1) :
    Carries (packageFrame sendBuf cmd1 cmd2 buf length) (carried cmd1 cmd2 buf length) := by
  obtain ⟨buf', hpayload, hstore, hend, hdata⟩ := exists_payload hbuf hwhen
  have hsent := Send.carries_frame
    { sendBuf := sendBuf, cmd1 := cmd1, cmd2 := cmd2, buf := buf', length := length
      sendBuf_length := hsend, payload := hpayload, length_le := hle }
  have hcarried : carried cmd1 cmd2 buf length = Send.delivered
      { sendBuf := sendBuf, cmd1 := cmd1, cmd2 := cmd2, buf := buf', length := length
        sendBuf_length := hsend, payload := hpayload, length_le := hle } := by
    simp only [carried, Send.delivered]
    by_cases hzero : length = 0
    · simp only [hzero, if_true]
    · simp only [hzero, if_false, hdata hzero]
  have hframe : packageFrame sendBuf cmd1 cmd2 buf length =
      packageFrame sendBuf cmd1 cmd2 buf' length := by
    rw [packageFrame, packageFrame, hstore, hend]
  rw [hframe, hcarried]
  exact hsent

/-- Twelve bytes whose header announces `length`. -/
theorem packageFrame_null :
    (packageFrame sendBuf cmd1 cmd2 none length).length = 12 ∧
      StartsFrame (packageFrame sendBuf cmd1 cmd2 none length) ∧
      lengthField (packageFrame sendBuf cmd1 cmd2 none length) = length := by
  have hend : dataEnd none length = 9 + [(0x00 : UInt8)].length := by
    rw [dataEnd, if_neg (fun hboth => hboth.2 rfl)]
    rfl
  rw [packageFrame_of_store sendBuf hsend cmd1 cmd2 none length [0x00] rfl hend (by decide)]
  exact ⟨rfl, ⟨rfl, rfl, rfl⟩, joinBytes_split length⟩

end Frames

/-- A frame ends where its header says exactly if there is a payload pointer or at
most one byte is announced. -/
theorem delimits_iff (sendBuf : List UInt8) (hsend : sendBuf.length = ipcMaximumPacketSize)
    (cmd1 cmd2 : UInt16) (buf : Option (List UInt8)) (length : UInt16)
    (hle : length.toNat ≤ 509)
    (hbuf : ∀ bytes, buf = some bytes → length.toNat ≤ bytes.length) (ys : List UInt8)
    (h h' : ParserHandle) (hh : Holds h (packageFrame sendBuf cmd1 cmd2 buf length ++ ys))
    (hh' : Holds h' ys) :
    Delimits (packageFrame sendBuf cmd1 cmd2 buf length) ys (carried cmd1 cmd2 buf length) h h' ↔
      buf ≠ none ∨ length.toNat ≤ 1 := by
  constructor
  · intro hdelimits
    by_contra hnot
    rw [not_or, not_not] at hnot
    obtain ⟨rfl, hlong⟩ := hnot
    obtain ⟨htwelve, hstart, hlength⟩ := @packageFrame_null _ hsend cmd1 cmd2 length
    obtain ⟨u, hleads, hoffset, -⟩ := hdelimits.consumes
    have hwindow := hh.window
    have hframe : lengthField (window h) = length := by
      rw [hwindow, lengthField_append _ ys (by omega), hlength]
    -- The offset goes from 0 past the announced payload without a stop at 12.
    have hpast := passes_frame hh.placed hh.idle
      (by rw [hwindow]; exact (startsFrame_append _ ys (by omega)).mpr hstart) hleads.passes
    rw [hframe, hh.offset, hoffset, htwelve, frameSize] at hpast
    omega
  · intro hwhen
    exact delimits_of_carries (packageFrame_carries hsend cmd1 cmd2 hle hbuf hwhen) hh hh'

theorem delimits_iff_null_one :
    Delimits (packageFrame (List.replicate 520 0xff) 0x0102 0x0304 none 1) sendEmpty.frame
      ⟨0x0102, 0x0304, 1, some [0x00]⟩
      (holding (packageFrame (List.replicate 520 0xff) 0x0102 0x0304 none 1 ++ sendEmpty.frame)
        (by decide +kernel))
      (holding sendEmpty.frame (by decide +kernel)) :=
  (delimits_iff (List.replicate 520 0xff) List.length_replicate 0x0102 0x0304 none 1 (by decide)
    (fun _ hnone => nomatch hnone) sendEmpty.frame _ _ (holds_holding _ _)
    (holds_holding _ _)).mpr (Or.inr (by decide))

/-- The frame of a NULL pointer with length twelve, and a frame after it. -/
def unfilledAndEmpty : List UInt8 :=
  packageFrame (List.replicate 520 0x00) 0x0102 0x0304 none 12 ++ sendEmpty.frame

theorem length_unfilledAndEmpty : unfilledAndEmpty.length ≤ 1024 := by decide +kernel

/-- The frame that follows is taken for the payload, and neither is delivered. -/
theorem next_frame_is_swallowed : ¬ ∀ (sendBuf : List UInt8) (cmd1 cmd2 : UInt16)
    (buf : Option (List UInt8)) (length : UInt16) (ys : List UInt8) (h h' : ParserHandle),
    sendBuf.length = ipcMaximumPacketSize → length.toNat ≤ 509 →
    (∀ bytes, buf = some bytes → length.toNat ≤ bytes.length) →
    Holds h (packageFrame sendBuf cmd1 cmd2 buf length ++ ys) → Holds h' ys →
    Delimits (packageFrame sendBuf cmd1 cmd2 buf length) ys (carried cmd1 cmd2 buf length) h
      h' := by
  intro hclaim
  have hdelimits := hclaim (List.replicate 520 0x00) 0x0102 0x0304 none 12 sendEmpty.frame
    (holding unfilledAndEmpty length_unfilledAndEmpty)
    (holding sendEmpty.frame (by decide +kernel)) List.length_replicate (by decide)
    (fun _ hnone => nomatch hnone) (holds_holding _ _) (holds_holding _ _)
  obtain ⟨t, -, more, hdecode, -, -⟩ := hdelimits.goesOn
  have hnothing : (tcParserDecoder (holding unfilledAndEmpty length_unfilledAndEmpty)).map
      (fun r => r.2) = some [] := by
    decide +kernel
  rw [hdecode] at hnothing
  exact absurd (Option.some.inj hnothing) (List.cons_ne_nil _ _)

end TcIpcCtrl.SelfDelimiting
