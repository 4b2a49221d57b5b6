import TcIpcCtrl.RingEffects

/-!
The bulk transfers against the byte operations. tc_push_buffer and tc_pop_buffer
copy in one or two segments and place Tail or Head by their own arithmetic;
tc_push_one_byte and tc_pop_one_byte take one modulo for each byte. As long as
there is room, or there are bytes, both ways end in the same ring.
-/
namespace TcIpcCtrl.RingBytewise

open CInt Cells RingBuffer RingContents RingEffects

variable {α : Type*}

/-- What a sequence of calls leaves and returns. -/
structure Calls (α : Type*) where
  ring : TcRingbuf α
  rets : List ℤ
  out : List α

def callEach (r : TcRingbuf α) : List (TcRingbuf α → Call α) → Calls α
  | [] => { ring := r, rets := [], out := [] }
  | op :: ops =>
    let rest := callEach (op r).ring ops
    { ring := rest.ring, rets := (op r).ret :: rest.rets, out := (op r).out ++ rest.out }

/-- tc_push_one_byte for one byte of `buffer` after another. -/
def pushEach (r : TcRingbuf α) (buffer : List α) : Calls α :=
  callEach r (buffer.map fun data ring => tcPushOneByte ring data)

/-- `n` calls of tc_pop_one_byte. -/
def popEach (r : TcRingbuf α) (n : ℕ) : Calls α :=
  callEach r (List.replicate n tcPopOneByte)

/-! Sequences of calls -/

theorem pushEach_fits (r : TcRingbuf α) (hv : Valid r) (buffer : List α)
    (hfit : count r + buffer.length < r.maxBufferSize) :
    (pushEach r buffer).ring = put r buffer ∧
      (pushEach r buffer).rets = List.replicate buffer.length tcBufferOk := by
  induction buffer generalizing r with
  | nil => exact ⟨(put_nil r hv).symm, rfl⟩
  | cons x xs ih =>
    rw [List.length_cons] at hfit
    obtain ⟨hring, hret⟩ := tcPushOneByte_fits r hv x (by omega)
    have hcount := count_put r hv [x] (by rw [List.length_singleton]; omega)
    rw [List.length_singleton] at hcount
    obtain ⟨hrest, hrets⟩ := ih (put r [x]) (put_valid r hv [x]) (by
      rw [hcount, put_maxBufferSize]
      omega)
    have hcons : pushEach r (x :: xs) =
        { ring := (pushEach (put r [x]) xs).ring
          rets := tcBufferOk :: (pushEach (put r [x]) xs).rets
          out := (tcPushOneByte r x).out ++ (pushEach (put r [x]) xs).out } := by
      rw [← hring, ← hret]
      rfl
    rw [hcons]
    refine ⟨?_, ?_⟩
    · show (pushEach (put r [x]) xs).ring = _
      rw [hrest, put_put]
      rfl
    · show tcBufferOk :: (pushEach (put r [x]) xs).rets = _
      rw [hrets]
      rfl

theorem popEach_ok (r : TcRingbuf α) (hv : Valid r) (n : ℕ) (hn : n ≤ count r) :
    (popEach r n).ring = advance r n ∧ (popEach r n).out = (contents r).take n ∧
      (popEach r n).rets = List.replicate n tcBufferOk := by
  induction n generalizing r with
  | zero => exact ⟨(advance_zero r hv).symm, rfl, rfl⟩
  | succ n ih =>
    obtain ⟨hring, hret, hout⟩ := tcPopOneByte_ok r hv (by omega)
    have hcount := count_advance r hv 1 (by omega)
    obtain ⟨hrest, hbytes, hrets⟩ := ih (advance r 1) (advance_valid r hv 1) (by omega)
    have hcons : popEach r (n + 1) =
        { ring := (popEach (advance r 1) n).ring
          rets := tcBufferOk :: (popEach (advance r 1) n).rets
          out := (contents r).take 1 ++ (popEach (advance r 1) n).out } := by
      rw [← hring, ← hret, ← hout]
      rfl
    rw [hcons]
    refine ⟨?_, ?_, ?_⟩
    · show (popEach (advance r 1) n).ring = _
      rw [hrest, advance_advance, Nat.add_comm]
    · show (contents r).take 1 ++ (popEach (advance r 1) n).out = _
      rw [hbytes, contents_advance r hv 1 (by omega), ← List.take_add, Nat.add_comm]
    · show tcBufferOk :: (popEach (advance r 1) n).rets = _
      rw [hrets]
      rfl

/-- What fits is pushed, and what is there is popped, as by the byte operations one
after another, all of which succeed. -/
theorem bulk_eq_bytewise (r : TcRingbuf α) (hv : Valid r) :
    (∀ buffer : List α, (buffer.length : ℤ) ≤ tcBufferFreeSpace r →
      (tcPushBuffer r buffer).ring = (pushEach r buffer).ring ∧
        ∀ ret ∈ (pushEach r buffer).rets, ret = tcBufferOk) ∧
      ∀ n : ℕ, 1 ≤ n → (n : ℤ) ≤ tcBufferDataAvailable r →
        (tcPopBuffer r n).out = (popEach r n).out ∧ (tcPopBuffer r n).ring = (popEach r n).ring ∧
          ∀ ret ∈ (popEach r n).rets, ret = tcBufferOk := by
  refine ⟨fun buffer hfree => ?_, fun n hpos havailable => ?_⟩
  · have hlt := count_lt r hv
    rw [freeSpace_eq r hv] at hfree
    have hfit : count r + buffer.length < r.maxBufferSize := by omega
    obtain ⟨hring, -, -⟩ := tcPushBuffer_fits r hv buffer hfit
    obtain ⟨hring', hrets⟩ := pushEach_fits r hv buffer hfit
    refine ⟨hring.trans hring'.symm, fun ret hret => ?_⟩
    rw [hrets] at hret
    exact List.eq_of_mem_replicate hret
  · rw [dataAvailable_eq r hv] at havailable
    have hn : n ≤ count r := by omega
    obtain ⟨hring, -, hout, -⟩ := tcPopBuffer_ok r hv n (by omega) hn
    obtain ⟨hring', hout', hrets⟩ := popEach_ok r hv n hn
    refine ⟨hout.trans hout'.symm, hring.trans hring'.symm, fun ret hret => ?_⟩
    rw [hrets] at hret
    exact List.eq_of_mem_replicate hret

/-- One byte, right before the end of the array. -/
def lastCell : TcRingbuf UInt8 where
  head := 3
  tail := 0
  maxBufferSize := 4
  pBuffer := [0x01, 0x02, 0x03, 0x04]
  pBuffer_length := rfl

theorem bulk_eq_bytewise_lastCell :
    (tcPushBuffer lastCell [0x01, 0x02]).ring = (pushEach lastCell [0x01, 0x02]).ring ∧
      (tcPopBuffer lastCell 1).out = (popEach lastCell 1).out :=
  have ⟨hpush, hpop⟩ := bulk_eq_bytewise lastCell ⟨by decide, by decide, by decide, by decide⟩
  ⟨(hpush [0x01, 0x02] (by decide)).1, (hpop 1 (by decide) (by decide)).1⟩

end TcIpcCtrl.RingBytewise
