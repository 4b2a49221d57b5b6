import TcIpcCtrl.CInt
import TcIpcCtrl.Cells

/-!
The ring buffer of tc-buffer.c, operation by operation. The cells are bytes in
the source; no operation looks at one, so their type is a parameter. A `Call`
records besides the new ring the returned status, the bytes stored through the
caller's pointer and the spans of `pBuffer` that were accessed. The mutex is
left out: locking is modelled where the threads interleave.
-/
namespace TcIpcCtrl.RingBuffer

open CInt Cells

def tcBufferError : ℤ := -1
def tcBufferFull : ℤ := -2
def tcBufferEmpty : ℤ := -3
def tcBufferOk : ℤ := 0

structure TcRingbuf (α : Type*) where
  /-- read position -/
  head : ℕ
  /-- write position -/
  tail : ℕ
  maxBufferSize : ℕ
  pBuffer : List α
  pBuffer_length : pBuffer.length = maxBufferSize

structure Call (α : Type*) where
  ring : TcRingbuf α
  ret : ℤ
  out : List α
  spans : List Span

variable {α : Type*}

/-- `memcpy(&pBuffer[pos], src, ...)` -/
def TcRingbuf.store (r : TcRingbuf α) (pos : ℕ) (src : List α) : TcRingbuf α :=
  { r with
    pBuffer := memcpy r.pBuffer pos src
    pBuffer_length := by rw [length_memcpy, r.pBuffer_length] }

def tcBufferInit (buff : List α) (size : ℕ) (hsize : buff.length = size) : TcRingbuf α :=
  { head := 0, tail := 0, maxBufferSize := size, pBuffer := buff, pBuffer_length := hsize }

def tcPushOneByte (r : TcRingbuf α) (data : α) : Call α :=
  let temp := u32 (r.tail + 1) % r.maxBufferSize
  if temp = r.head then
    { ring := r, ret := tcBufferFull, out := [], spans := [] }
  else
    { ring := { r.store r.tail [data] with tail := temp }
      ret := tcBufferOk, out := [], spans := [⟨r.tail, 1⟩] }

def tcPushOneByteOverwrite (r : TcRingbuf α) (data : α) : Call α :=
  let temp := u32 (r.tail + 1) % r.maxBufferSize
  if temp = r.head then
    -- Head is advanced without the modulo that Tail gets.
    { ring := { r.store r.tail [data] with head := u32 (r.head + 1), tail := temp }
      ret := tcBufferOk, out := [], spans := [⟨r.tail, 1⟩] }
  else
    { ring := { r.store r.tail [data] with tail := temp }
      ret := tcBufferOk, out := [], spans := [⟨r.tail, 1⟩] }

def tcPopOneByte (r : TcRingbuf α) : Call α :=
  if r.tail = r.head then
    { ring := r, ret := tcBufferEmpty, out := [], spans := [] }
  else
    { ring := { r with head := u32 (r.head + 1) % r.maxBufferSize }
      ret := tcBufferOk, out := slice r.pBuffer r.head 1, spans := [⟨r.head, 1⟩] }

def tcBufferFlush (r : TcRingbuf α) : TcRingbuf α := { r with head := 0, tail := 0 }

def tcBufferFlushByte (r : TcRingbuf α) (flushSize : ℕ) : TcRingbuf α :=
  let temp := u32 (r.head + flushSize)
  if r.tail < r.head then
    if temp < r.maxBufferSize then { r with head := temp }
    else if r.tail ≤ temp % r.maxBufferSize then { r with head := r.tail }
    else { r with head := temp % r.maxBufferSize }
  else
    if r.tail ≤ temp then { r with head := r.tail }
    else { r with head := temp }

def tcBufferDataAvailable (r : TcRingbuf α) : ℤ :=
  let iRead := i32 r.head
  let iWrite := i32 r.tail
  if iWrite ≥ iRead then iWrite - iRead
  else i32 r.maxBufferSize - (iRead - iWrite)

def tcBufferFreeSpace (r : TcRingbuf α) : ℤ :=
  let iRead := i32 r.head
  let iWrite := i32 r.tail
  if iWrite < iRead then iRead - iWrite - 1
  else i32 r.maxBufferSize - (iWrite - iRead) - 1

/-- `buffer` and `size` are the list of the `size` bytes at `buffer`. -/
def tcPushBuffer (r : TcRingbuf α) (buffer : List α) : Call α :=
  let size := buffer.length
  let freeSpace := u32 (tcBufferFreeSpace r)
  if freeSpace ≥ size then
    let continuousSize := u32 (r.maxBufferSize - r.tail)
    if continuousSize > size then
      { ring := { r.store r.tail buffer with tail := u32 (r.tail + size) }
        ret := i32 size, out := [], spans := [⟨r.tail, size⟩] }
    else
      let remainSize := u32 (size - continuousSize)
      { ring :=
          { (r.store r.tail (buffer.take continuousSize)).store 0 (buffer.drop continuousSize) with
            tail := remainSize }
        ret := i32 size, out := [], spans := [⟨r.tail, continuousSize⟩, ⟨0, remainSize⟩] }
  else
    { ring := r, ret := tcBufferFull, out := [], spans := [] }

/-- The old Head is not looked at: it is rebuilt one past the new Tail. -/
def tcPushBufferOverwrite (r : TcRingbuf α) (buffer : List α) : Call α :=
  let size := buffer.length
  let continuousSize := u32 (r.maxBufferSize - r.tail)
  if continuousSize > size then
    let tail := u32 (r.tail + size)
    { ring := { r.store r.tail buffer with
        tail := tail
        head := u32 (tail + 1) % r.maxBufferSize }
      ret := i32 size, out := [], spans := [⟨r.tail, size⟩] }
  else
    let remainSize := u32 (size - continuousSize)
    { ring :=
        { (r.store r.tail (buffer.take continuousSize)).store 0 (buffer.drop continuousSize) with
          tail := remainSize
          head := u32 (remainSize + 1) % r.maxBufferSize }
      ret := i32 size, out := [], spans := [⟨r.tail, continuousSize⟩, ⟨0, remainSize⟩] }

def tcPopBuffer (r : TcRingbuf α) (size : ℕ) : Call α :=
  if r.tail = r.head then
    { ring := r, ret := tcBufferEmpty, out := [], spans := [] }
  else
    let dataSize := tcBufferDataAvailable r
    -- Both sides are compared as int32_t.
    if dataSize ≥ i32 size then
      let continuousSize := u32 (r.maxBufferSize - r.head)
      if continuousSize > size then
        { ring := { r with head := u32 (r.head + size) }
          ret := tcBufferOk
          out := slice r.pBuffer r.head size
          spans := [⟨r.head, size⟩] }
      else
        let remainSize := u32 (size - continuousSize)
        { ring := { r with head := remainSize }
          ret := tcBufferOk
          out := slice r.pBuffer r.head continuousSize ++ slice r.pBuffer 0 remainSize
          spans := [⟨r.head, continuousSize⟩, ⟨0, remainSize⟩] }
    else
      { ring := r, ret := tcBufferError, out := [], spans := [] }

/-- The body of tc_ipc_write_data between lock and unlock. -/
def tcIpcWriteData (r : TcRingbuf α) (buffer : List α) : Call α :=
  if buffer.length > u32 (tcBufferFreeSpace r) then tcPushBufferOverwrite r buffer
  else tcPushBuffer r buffer

end TcIpcCtrl.RingBuffer
