import TcIpcCtrl.Package
import TcIpcCtrl.WhileLoop

/-!
The frame decoder of tc-parser.c. A pass of its loop looks at the bytes from
`offset` on according to `parserState`; a `DecodePass` also records the spans of
`data` that the pass reads and the messages it hands to the callback. After the
loop the bytes not consumed are moved to the front.
-/
namespace TcIpcCtrl.Parser

open CInt Cells Crc Package WhileLoop

def tmmParserBufSize : ℕ := ipcMaximumDataSize * 2

/-! enum DecodeState, as stored in the int32_t field -/

def stateIdle : ℤ := 0
def stateSync : ℤ := 1
def stateStart : ℤ := 2
def stateHader : ℤ := 3
def stateData : ℤ := 4
def stateCrc : ℤ := 5

/-- The message under construction; `data` points into the buffer of the handle,
`none` is NULL. -/
structure IpcMsg where
  cmd1 : UInt16
  cmd2 : UInt16
  length : UInt16
  data : Option ℕ
deriving DecidableEq

/-- What the callback sees: the fields and the bytes behind the pointer. -/
structure ReceivedData where
  cmd1 : UInt16
  cmd2 : UInt16
  length : UInt16
  data : Option (List UInt8)
deriving DecidableEq

structure ParserHandle where
  data : List UInt8
  offset : ℕ
  dataSize : ℕ
  maxSize : ℕ
  parserData : IpcMsg
  parserState : ℤ
  /-- whether the callback pointer is set -/
  parserReceivedData : Bool
  data_length : data.length = tmmParserBufSize

/-- tc_parser_clear -/
def tcParserClear (h : ParserHandle) : ParserHandle :=
  { h with parserState := stateIdle, parserData := ⟨0, 0, 0, none⟩ }

/-- malloc leaves `parserData` and the callback pointer as they are. -/
def ipcParserHandleInit (parserData : IpcMsg) (parserReceivedData : Bool) : ParserHandle :=
  { data := List.replicate tmmParserBufSize 0x00
    offset := 0
    dataSize := 0
    maxSize := u16 tmmParserBufSize
    parserData := parserData
    parserState := stateIdle
    parserReceivedData := parserReceivedData
    data_length := List.length_replicate }

def ipcParserResisterCallback (h : ParserHandle) (cb : Bool) : ParserHandle :=
  if cb then { h with parserReceivedData := cb } else h

def tcParserFreeSpace (h : ParserHandle) : ℕ := u32 (h.maxSize - u32 (h.offset + h.dataSize))

/-- The index in `data` at which the next bytes are stored. -/
def tcParserBufAddr (h : ParserHandle) : ℕ := h.offset

def tcParserPushSize (h : ParserHandle) (size : ℕ) : ParserHandle :=
  { h with dataSize := u32 (h.dataSize + size) }

/-- Bytes stored through a pointer into `data`. -/
def ParserHandle.store (h : ParserHandle) (pos : ℕ) (src : List UInt8) : ParserHandle :=
  { h with
    data := memcpy h.data pos src
    data_length := by rw [length_memcpy, h.data_length] }

structure DecodePass where
  handle : ParserHandle
  stop : Bool
  spans : List Span
  received : List ReceivedData

/-- `inBuffer[i]` -/
def inBuffer (h : ParserHandle) (i : ℕ) : UInt8 := h.data.getD (h.offset + i) 0

def inBufferLen (h : ParserHandle) : ℕ := u16 (u32 (h.dataSize - h.offset))

/-- The three states that wait for one byte of the start pattern. -/
def matchByte (h : ParserHandle) (i : ℕ) (code : UInt8) (next : ℤ) : DecodePass :=
  if inBuffer h i = code then
    { handle := { h with parserState := next }
      stop := false, spans := [⟨h.offset + i, 1⟩], received := [] }
  else
    { handle := { h with parserState := stateIdle, offset := u32 (h.offset + 1) }
      stop := false, spans := [⟨h.offset + i, 1⟩], received := [] }

def latchHeader (h : ParserHandle) : DecodePass :=
  { handle := { h with
      parserData := { h.parserData with
        cmd1 := joinBytes (inBuffer h ipcProtocolCommand1HighOffset)
          (inBuffer h ipcProtocolCommand1LowOffset)
        cmd2 := joinBytes (inBuffer h ipcProtocolCommand2HighOffset)
          (inBuffer h ipcProtocolCommand2LowOffset)
        length := joinBytes (inBuffer h ipcProtocolLengthHighOffset)
          (inBuffer h ipcProtocolLengthLowOffset) }
      parserState := stateData }
    stop := false
    spans := [⟨h.offset + ipcProtocolCommand1HighOffset, 6⟩]
    received := [] }

def waitData (h : ParserHandle) : DecodePass :=
  let length := h.parserData.length
  let ipcDataSize := if length > 0 then (length - 1).toNat else 0
  if inBufferLen h ≥ ipcDataSize + ipcMinimumPacketSize then
    { handle := { h with
        parserData := { h.parserData with
          data := if length = 0 then none else some (h.offset + ipcProtocolDataOffset) }
        parserState := stateCrc }
      stop := false
      spans := if length = 0 then [] else [⟨h.offset + ipcProtocolDataOffset, 1⟩]
      received := [] }
  else { handle := h, stop := true, spans := [], received := [] }

/-- The message as the callback reads it through the pointers. -/
def ParserHandle.message (h : ParserHandle) : ReceivedData :=
  { cmd1 := h.parserData.cmd1
    cmd2 := h.parserData.cmd2
    length := h.parserData.length
    data := h.parserData.data.map fun p => slice h.data p h.parserData.length.toNat }

def crcOffset (length : UInt16) : ℕ :=
  if length > 0 then u16 (length.toNat + ipcProtocolDataOffset) else ipcProtocolDataOffset + 1

def checkCrc (h : ParserHandle) : DecodePass :=
  let crcOffset := crcOffset h.parserData.length
  if inBufferLen h ≥ crcOffset + 2 then
    let crcSrc := joinBytes (inBuffer h crcOffset) (inBuffer h (crcOffset + 1))
    let crcDst := tcCrc16 (slice h.data h.offset crcOffset) 0
    let read : List Span := [⟨h.offset + crcOffset, 2⟩, ⟨h.offset, crcOffset⟩]
    let consumed := { tcParserClear h with offset := u32 (h.offset + (crcOffset + 2)) }
    if crcSrc = crcDst ∧ h.parserReceivedData then
      { handle := consumed
        stop := false
        spans := read ++ (h.parserData.data.map fun p =>
          (⟨p, h.parserData.length.toNat⟩ : Span)).toList
        received := [h.message] }
    else { handle := consumed, stop := false, spans := read, received := [] }
  else { handle := h, stop := true, spans := [], received := [] }

/-- One pass of the while loop of tc_parser_decoder. -/
def decodePass (h : ParserHandle) : DecodePass :=
  if h.parserState = stateIdle then
    matchByte h ipcProtocolSyncOffset ipcSyncCode stateSync
  else if h.parserState = stateSync then
    matchByte h ipcProtocolFirstStartOffset ipcFirstStartCode stateStart
  else if h.parserState = stateStart then
    matchByte h ipcProtocolSecondStartOffset ipcSecondStartCode stateHader
  else if h.parserState = stateHader then latchHeader h
  else if h.parserState = stateData then waitData h
  else if h.parserState = stateCrc then checkCrc h
  else { handle := h, stop := false, spans := [], received := [] }

def decodeGuard (h : ParserHandle) : Bool :=
  h.offset < h.dataSize && ipcMinimumPacketSize ≤ u32 (h.dataSize - h.offset)

def decodeBody (h : ParserHandle) : Pass ParserHandle ReceivedData :=
  { state := (decodePass h).handle, stop := (decodePass h).stop, out := (decodePass h).received }

/-- At most six passes for each byte left, and those of the current state. -/
def decodeFuel (h : ParserHandle) : ℕ := 6 * (h.dataSize - h.offset) + 6

/-- The loop that moves the remaining bytes to the front, from index `i` on. -/
def moveFront (data : List UInt8) (offset i : ℕ) : ℕ → List UInt8
  | 0 => data
  | n + 1 => moveFront (data.set i (data.getD (i + offset) 0)) offset (i + 1) n

theorem length_moveFront (data : List UInt8) (offset i n : ℕ) :
    (moveFront data offset i n).length = data.length := by
  induction n generalizing data i with
  | zero => rfl
  | succ n ih => rw [moveFront, ih, List.length_set]

/-- What follows the loop. -/
def compact (h : ParserHandle) : ParserHandle :=
  let remainSize := u32 (h.dataSize - h.offset)
  { h with
    data := moveFront h.data h.offset 0 remainSize
    offset := 0
    dataSize := remainSize
    data_length := by rw [length_moveFront, h.data_length] }

/-- `none` when the loop does not end. -/
def tcParserDecoder (h : ParserHandle) : Option (ParserHandle × List ReceivedData) :=
  (loop decodeGuard decodeBody (decodeFuel h) h).map fun r => (compact r.1, r.2)

end TcIpcCtrl.Parser
