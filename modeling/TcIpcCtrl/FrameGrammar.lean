import TcIpcCtrl.Parser
import TcIpcCtrl.Tokens

/-!
What the wire format says. A token is either a frame, whose size its header
gives, or one byte that does not begin a frame; fewer than twelve bytes, or an
incomplete frame, wait for more. The frames of the sender scan to exactly
their messages.
-/
namespace TcIpcCtrl.FrameGrammar

open Crc Package Tokens TcIpcCtrl.Parser

/-- FF 55 AA -/
def StartsFrame (bs : List UInt8) : Prop :=
  bs.getD 0 0 = ipcSyncCode ∧ bs.getD 1 0 = ipcFirstStartCode ∧ bs.getD 2 0 = ipcSecondStartCode

instance (bs : List UInt8) : Decidable (StartsFrame bs) :=
  inferInstanceAs (Decidable (_ ∧ _ ∧ _))

/-- The big-endian 16-bit value at bytes `i` and `i + 1`. -/
def field (bs : List UInt8) (i : ℕ) : UInt16 := joinBytes (bs.getD i 0) (bs.getD (i + 1) 0)

def lengthField (bs : List UInt8) : UInt16 := field bs ipcProtocolLengthHighOffset

/-- Header, payload or dummy byte, and checksum. -/
def frameSize (length : UInt16) : ℕ := max length.toNat 1 + 11

/-- The frame of `size` bytes at the front ends in the checksum of what precedes. -/
def CrcOk (bs : List UInt8) (size : ℕ) : Prop :=
  field bs (size - 2) = tcCrc16 (bs.take (size - 2)) 0

instance (bs : List UInt8) (size : ℕ) : Decidable (CrcOk bs size) :=
  inferInstanceAs (Decidable (_ = _))

def dataOf (bs : List UInt8) (length : UInt16) : Option (List UInt8) :=
  if length = 0 then none else some ((bs.drop ipcProtocolDataOffset).take length.toNat)

/-- The message of the frame at the front. -/
def messageOf (bs : List UInt8) : ReceivedData :=
  { cmd1 := field bs ipcProtocolCommand1HighOffset
    cmd2 := field bs ipcProtocolCommand2HighOffset
    length := lengthField bs
    data := dataOf bs (lengthField bs) }

def nextToken (bs : List UInt8) : Verdict ReceivedData :=
  if bs.length < ipcMinimumPacketSize then .wait
  else if StartsFrame bs then
    if bs.length < frameSize (lengthField bs) then .wait
    else .take (frameSize (lengthField bs))
      (if CrcOk bs (frameSize (lengthField bs)) then [messageOf bs] else [])
  else .take 1 []

theorem frameSize_ge (length : UInt16) : 12 ≤ frameSize length := by
  unfold frameSize
  omega

theorem getD_append (bs ys : List UInt8) (i : ℕ) (h : i < bs.length) :
    (bs ++ ys).getD i 0 = bs.getD i 0 := by
  simp only [List.getD_eq_getElem?_getD, List.getElem?_append_left h]

theorem field_append (bs ys : List UInt8) (i : ℕ) (h : i + 1 < bs.length) :
    field (bs ++ ys) i = field bs i := by
  rw [field, getD_append bs ys i (by omega), getD_append bs ys (i + 1) h]
  rfl

theorem startsFrame_append (bs ys : List UInt8) (h : 12 ≤ bs.length) :
    StartsFrame (bs ++ ys) ↔ StartsFrame bs := by
  simp only [StartsFrame, getD_append bs ys _ (show 0 < bs.length by omega),
    getD_append bs ys _ (show 1 < bs.length by omega),
    getD_append bs ys _ (show 2 < bs.length by omega)]

theorem lengthField_append (bs ys : List UInt8) (h : 12 ≤ bs.length) :
    lengthField (bs ++ ys) = lengthField bs :=
  field_append bs ys _ (by simp only [ipcProtocolLengthHighOffset]; omega)

theorem crcOk_append (bs ys : List UInt8) (size : ℕ) (hsize : 12 ≤ size)
    (h : size ≤ bs.length) : CrcOk (bs ++ ys) size ↔ CrcOk bs size := by
  simp only [CrcOk]
  rw [field_append bs ys _ (by omega), List.take_append_of_le_length (by omega)]

theorem dataOf_append (bs ys : List UInt8) (length : UInt16) (h : frameSize length ≤ bs.length) :
    dataOf (bs ++ ys) length = dataOf bs length := by
  unfold frameSize at h
  unfold dataOf
  split
  · rfl
  · rw [List.drop_append_of_le_length (by simp only [ipcProtocolDataOffset]; omega),
      List.take_append_of_le_length (by
        simp only [ipcProtocolDataOffset, List.length_drop]; omega)]

theorem messageOf_append (bs ys : List UInt8) (h : frameSize (lengthField bs) ≤ bs.length) :
    messageOf (bs ++ ys) = messageOf bs := by
  have hge := frameSize_ge (lengthField bs)
  simp only [messageOf, lengthField_append bs ys (by omega), dataOf_append bs ys _ h,
    field_append bs ys ipcProtocolCommand1HighOffset
      (by simp only [ipcProtocolCommand1HighOffset]; omega),
    field_append bs ys ipcProtocolCommand2HighOffset
      (by simp only [ipcProtocolCommand2HighOffset]; omega)]

/-- A token is one byte that does not begin a frame, or a complete frame. -/
theorem nextToken_take (bs : List UInt8) (n : ℕ) (out : List ReceivedData)
    (h : nextToken bs = .take n out) :
    12 ≤ bs.length ∧
      ((¬ StartsFrame bs ∧ n = 1 ∧ out = []) ∨
        (StartsFrame bs ∧ n = frameSize (lengthField bs) ∧ n ≤ bs.length ∧
          out = if CrcOk bs n then [messageOf bs] else [])) := by
  by_cases hshort : bs.length < 12
  · simp [nextToken, ipcMinimumPacketSize, hshort] at h
  · simp only [nextToken, ipcMinimumPacketSize, hshort, if_false] at h
    refine ⟨by omega, ?_⟩
    by_cases hstart : StartsFrame bs
    · by_cases hwait : bs.length < frameSize (lengthField bs)
      · simp [hstart, hwait] at h
      · simp only [hstart, if_true, hwait, if_false, Verdict.take.injEq] at h
        obtain ⟨rfl, rfl⟩ := h
        exact Or.inr ⟨hstart, rfl, by omega, rfl⟩
    · simp only [hstart, if_false, Verdict.take.injEq] at h
      obtain ⟨rfl, rfl⟩ := h
      exact Or.inl ⟨hstart, rfl, rfl⟩

theorem nextToken_bounds (bs : List UInt8) (n : ℕ) (out : List ReceivedData)
    (h : nextToken bs = .take n out) : 0 < n ∧ n ≤ bs.length := by
  have hge := frameSize_ge (lengthField bs)
  obtain ⟨hlen, ⟨_, hn, _⟩ | ⟨_, hn, hle, _⟩⟩ := nextToken_take bs n out h
  · omega
  · omega

theorem nextToken_stable (bs : List UInt8) (n : ℕ) (out : List ReceivedData) (ys : List UInt8)
    (h : nextToken bs = .take n out) : nextToken (bs ++ ys) = .take n out := by
  have hge := frameSize_ge (lengthField bs)
  by_cases hshort : bs.length < ipcMinimumPacketSize
  · simp [nextToken, hshort] at h
  · simp only [ipcMinimumPacketSize] at hshort
    have hlong : ¬ (bs ++ ys).length < 12 := by
      rw [List.length_append]
      omega
    simp only [nextToken, ipcMinimumPacketSize, hshort, hlong, if_false,
      startsFrame_append bs ys (by omega), lengthField_append bs ys (by omega)] at h ⊢
    by_cases hstart : StartsFrame bs
    · by_cases hwait : bs.length < frameSize (lengthField bs)
      · simp [hstart, hwait] at h
      · have hwait' : ¬ (bs ++ ys).length < frameSize (lengthField bs) := by
          rw [List.length_append]
          omega
        simp only [hstart, if_true, hwait, hwait', if_false,
          crcOk_append bs ys _ hge (by omega), messageOf_append bs ys (by omega)] at h ⊢
        exact h
    · simp only [hstart, if_false] at h ⊢
      exact h

/-! The layout of a frame -/

theorem split_checksum (seg : List UInt8) (h : 2 ≤ seg.length) :
    seg = seg.take (seg.length - 2) ++
      [seg.getD (seg.length - 2) 0, seg.getD (seg.length - 2 + 1) 0] := by
  have hfirst : seg.length - 2 < seg.length := by omega
  have hsecond : seg.length - 2 + 1 < seg.length := by omega
  have hdrop : seg.drop (seg.length - 2) =
      [seg.getD (seg.length - 2) 0, seg.getD (seg.length - 2 + 1) 0] := by
    rw [List.drop_eq_getElem_cons hfirst, List.drop_eq_getElem_cons hsecond,
      List.drop_eq_nil_of_le (by omega)]
    simp only [List.getD_eq_getElem?_getD, List.getElem?_eq_getElem hfirst,
      List.getElem?_eq_getElem hsecond, Option.getD_some]
  rw [← hdrop, List.take_append_drop]

def frames : Tokenizer UInt8 ReceivedData where
  next := nextToken
  take_bounds := nextToken_bounds
  stable := nextToken_stable

/-- The segment `seg` of a stream is a frame that carries the message `m`. -/
structure Carries (seg : List UInt8) (m : ReceivedData) : Prop where
  start : StartsFrame seg
  size : seg.length = frameSize m.length
  crc : field seg (seg.length - 2) = tcCrc16 (seg.take (seg.length - 2)) 0
  cmd1 : m.cmd1 = field seg 3
  cmd2 : m.cmd2 = field seg 5
  length : m.length = field seg 7
  data : m.data = if m.length = 0 then none else some ((seg.drop 9).take m.length.toNat)

/-- The frame at the front of a stream carries its message. -/
theorem carries_messageOf (seg ys : List UInt8) (hstart : StartsFrame (seg ++ ys))
    (hlen : seg.length = frameSize (lengthField (seg ++ ys)))
    (hcrc : CrcOk (seg ++ ys) seg.length) : Carries seg (messageOf (seg ++ ys)) := by
  have hge := frameSize_ge (lengthField (seg ++ ys))
  have hlf : lengthField (seg ++ ys) = lengthField seg := lengthField_append seg ys (by omega)
  rw [hlf] at hlen hge
  rw [startsFrame_append seg ys (by omega)] at hstart
  rw [crcOk_append seg ys _ (by omega) (Nat.le_refl _)] at hcrc
  rw [messageOf_append seg ys (by omega)]
  exact ⟨hstart, hlen, hcrc, rfl, rfl, rfl, rfl⟩

theorem carries_of_token (bs : List UInt8) (n : ℕ) (out : List ReceivedData)
    (h : nextToken bs = .take n out) : out = [] ∨ ∃ m, out = [m] ∧ Carries (bs.take n) m := by
  obtain ⟨_, ⟨_, _, rfl⟩ | ⟨hstart, hn, hle, rfl⟩⟩ := nextToken_take bs n out h
  · exact Or.inl rfl
  · by_cases hcrc : CrcOk bs n
    · refine Or.inr ⟨messageOf bs, by rw [if_pos hcrc], ?_⟩
      have hlen : (bs.take n).length = n := by
        rw [List.length_take]
        omega
      have hsplit : bs.take n ++ bs.drop n = bs := List.take_append_drop n bs
      have hcarries := carries_messageOf (bs.take n) (bs.drop n) (by rwa [hsplit])
        (by rw [hsplit, hlen, hn]) (by rwa [hsplit, hlen])
      rwa [hsplit] at hcarries
    · exact Or.inl (by rw [if_neg hcrc])

/-- A complete frame is one token, whatever follows it. -/
theorem nextToken_complete (seg ys : List UInt8) (hstart : StartsFrame seg)
    (hsize : seg.length = frameSize (lengthField seg)) :
    nextToken (seg ++ ys) =
      .take seg.length (if CrcOk seg seg.length then [messageOf seg] else []) := by
  have hge := frameSize_ge (lengthField seg)
  apply nextToken_stable
  simp only [nextToken, ipcMinimumPacketSize, hstart, if_true, ← hsize, Nat.lt_irrefl, if_false,
    show ¬ seg.length < 12 by omega]

/-- It is also one that gives its message, if its checksum is right. -/
theorem Carries.nextToken {seg : List UInt8} {m : ReceivedData} (hseg : Carries seg m)
    (ys : List UInt8) : nextToken (seg ++ ys) = .take seg.length [m] := by
  have hlength : lengthField seg = m.length := hseg.length.symm
  have hmessage : messageOf seg = m := by
    rw [messageOf, hlength, dataOf]
    obtain ⟨cmd1, cmd2, length, data⟩ := m
    rw [ReceivedData.mk.injEq]
    exact ⟨hseg.cmd1.symm, hseg.cmd2.symm, rfl, hseg.data.symm⟩
  have hcrc : CrcOk seg seg.length := hseg.crc
  have hnext := nextToken_complete seg ys hseg.start (by rw [hlength]; exact hseg.size)
  rwa [if_pos hcrc, hmessage] at hnext

/-! Frames of the sender -/

/-- A message as its sender gives it. -/
structure Message where
  cmd1 : UInt16
  cmd2 : UInt16
  payload : List UInt8
  length_le : payload.length ≤ 509

namespace Message

def length (m : Message) : UInt16 := UInt16.ofNat m.payload.length

/-- The bytes it has on the wire. -/
def wire (m : Message) : List UInt8 := frame m.cmd1 m.cmd2 m.length m.payload

/-- What the receiver is to be given. -/
def delivered (m : Message) : ReceivedData :=
  { cmd1 := m.cmd1, cmd2 := m.cmd2, length := m.length
    data := if m.payload = [] then none else some m.payload }

theorem toNat_length (m : Message) : m.length.toNat = m.payload.length := by
  have hle := m.length_le
  simp only [length, UInt16.toNat_ofNat']
  omega

theorem length_wire (m : Message) : m.wire.length = frameSize m.length := by
  rw [wire, length_frame, frameSize, toNat_length]

theorem length_eq_zero (m : Message) : m.length = 0 ↔ m.payload = [] := by
  rw [← UInt16.toNat_inj, toNat_length, ← List.length_eq_zero_iff]
  rfl

theorem lengthField_wire (m : Message) : lengthField m.wire = m.length :=
  joinBytes_split m.length

theorem messageOf_wire (m : Message) : messageOf m.wire = m.delivered := by
  have hdata : dataOf m.wire m.length = if m.payload = [] then none else some m.payload := by
    simp only [dataOf, length_eq_zero, toNat_length]
    split
    · rfl
    · next hne =>
      have hdrop : m.wire.drop 9 = m.payload ++
          [highByte (tcCrc16 (header m.cmd1 m.cmd2 m.length ++ m.payload) 0),
            lowByte (tcCrc16 (header m.cmd1 m.cmd2 m.length ++ m.payload) 0)] := by
        simp only [wire, frame, payloadBytes, hne, if_false, List.append_assoc]
        rfl
      simp only [ipcProtocolDataOffset, hdrop, List.take_left]
  simp only [messageOf, lengthField_wire, hdata]
  rw [delivered, ReceivedData.mk.injEq]
  exact ⟨joinBytes_split m.cmd1, joinBytes_split m.cmd2, rfl, rfl⟩

theorem crcOk_wire (m : Message) : CrcOk m.wire (frameSize m.length) := by
  have hbody : m.wire.length - 2 = (header m.cmd1 m.cmd2 m.length ++
      payloadBytes m.payload).length := by
    simp only [wire, frame, List.length_append, List.length_cons, List.length_nil]
    omega
  have htake : m.wire.take (m.wire.length - 2) =
      header m.cmd1 m.cmd2 m.length ++ payloadBytes m.payload := by
    rw [hbody]
    exact List.take_left
  rw [CrcOk, ← length_wire, htake, hbody, field]
  simp only [wire, frame, List.getD_eq_getElem?_getD]
  rw [List.getElem?_append_right (Nat.le_refl _), List.getElem?_append_right (Nat.le_add_right _ 1),
    Nat.sub_self, Nat.add_sub_cancel_left]
  exact joinBytes_split _

theorem carries_wire (m : Message) : Carries m.wire m.delivered := by
  have hmessage := m.messageOf_wire
  have hcarries := carries_messageOf m.wire [] ⟨rfl, rfl, rfl⟩
    (by rw [List.append_nil, lengthField_wire, length_wire])
    (by rw [List.append_nil, length_wire]; exact m.crcOk_wire)
  rwa [List.append_nil, hmessage] at hcarries

/-- A frame followed by anything is one token. -/
theorem nextToken_wire (m : Message) (ys : List UInt8) :
    nextToken (m.wire ++ ys) = .take m.wire.length [m.delivered] :=
  m.carries_wire.nextToken ys

end Message

/-- Frames back to back. -/
def wireAll (ms : List Message) : List UInt8 := ms.flatMap Message.wire

/-- The frames of any messages scan to exactly these messages. -/
theorem scans_wireAll (ms : List Message) :
    Scans frames (wireAll ms) (ms.map Message.delivered) [] := by
  induction ms with
  | nil => exact .wait rfl
  | cons m ms ih =>
    have hnext : frames.next (m.wire ++ wireAll ms) = .take m.wire.length [m.delivered] :=
      m.nextToken_wire (wireAll ms)
    refine Scans.take hnext ?_
    rw [List.drop_left]
    exact ih

end TcIpcCtrl.FrameGrammar
