import TcIpcCtrl.Delivery

/-!
The frames as a code. A run of frames begins another one exactly if its messages
begin the others, so the bytes on the wire, wherever they are cut, stand for one
list of messages and a part of one more frame. A receiver that appends what it
reads hands over each message as soon as the last byte of its frame is taken.
-/
namespace TcIpcCtrl.FrameCode

open Cells Package Runs Tokens FrameGrammar TcIpcCtrl.Parser DecoderPasses DecoderRefinement
  RoundTrip ReceivePath Delivery
open ReadRing (readRingBufferSize)

/-- The message that is given out tells what was sent. -/
theorem delivered_inj {m m' : Message} (h : m.delivered = m'.delivered) : m = m' := by
  obtain ⟨cmd1, cmd2, payload, hle⟩ := m
  obtain ⟨cmd1', cmd2', payload', hle'⟩ := m'
  simp only [Message.delivered, ReceivedData.mk.injEq] at h
  obtain ⟨rfl, rfl, -, hdata⟩ := h
  have hpayload : payload = payload' := by
    split at hdata <;> split at hdata
    · next hnil hnil' => rw [hnil, hnil']
    · cases hdata
    · cases hdata
    · exact Option.some.inj hdata
  subst hpayload
  rfl

theorem frame_eq_of_delivered {s s' : Send} (h : s.delivered = s'.delivered) :
    s.frame = s'.frame := by
  rw [Send.delivered_eq, Send.delivered_eq] at h
  rw [Send.frame_eq, Send.frame_eq, delivered_inj h]

theorem stream_eq_of_delivered {sends sends' : List Send}
    (h : sends.map Send.delivered = sends'.map Send.delivered) :
    stream sends = stream sends' := by
  induction sends generalizing sends' with
  | nil => rw [List.map_eq_nil_iff.mp h.symm]
  | cons s sends ih =>
    obtain ⟨s', rest, rfl, hhead, htail⟩ := List.map_eq_cons_iff.mp h.symm
    simp only [stream, List.flatMap_cons]
    rw [frame_eq_of_delivered hhead]
    exact congrArg (s.frame ++ ·) (ih htail.symm)

/-- The frames of one list of calls are a beginning of those of another exactly if
the messages are. -/
theorem stream_prefix_iff (sends sends' : List Send) :
    stream sends <+: stream sends' ↔ sends.map Send.delivered <+: sends'.map Send.delivered := by
  constructor
  · rintro ⟨rest, hrest⟩
    have hscan := scans_stream sends'
    rw [← hrest] at hscan
    exact Scans.outs_prefix (scans_stream sends) hscan
  · rintro ⟨more, hmore⟩
    obtain ⟨front, back, rfl, hfront, -⟩ := List.map_eq_append_iff.mp hmore.symm
    rw [stream_append, stream_eq_of_delivered hfront]
    exact List.prefix_append _ _

/-- Part of a frame waits for the rest of it. -/
theorem scans_part (s : Send) {bs : List UInt8} (hbs : bs <+: s.frame)
    (hlt : bs.length < s.frame.length) : Scans frames bs [] bs := by
  have hnext : frames.next s.frame = .take s.frame.length [s.delivered] := by
    have htoken := s.carries_frame.nextToken []
    rwa [List.append_nil] at htoken
  exact .wait (frames.wait_of_short hnext hbs hlt)

/-- Wherever the frames are cut, the scan gives the messages whose frames are whole. -/
theorem scans_cut (sends : List Send) {bs : List UInt8} (hbs : bs <+: stream sends) :
    ∃ k rest, bs = stream (sends.take k) ++ rest ∧
      Scans frames bs ((sends.take k).map Send.delivered) rest ∧
      ∀ s ∈ sends[k]?, rest.length < s.frame.length := by
  induction sends generalizing bs with
  | nil =>
    obtain rfl := List.prefix_nil.mp hbs
    exact ⟨0, [], rfl, .wait rfl, fun s hs => nomatch hs⟩
  | cons s sends ih =>
    have hbs' : bs <+: s.frame ++ stream sends := hbs
    rcases Nat.lt_or_ge bs.length s.frame.length with hshort | hlong
    · have hpart := List.prefix_of_prefix_length_le hbs' (List.prefix_append _ _) hshort.le
      refine ⟨0, bs, rfl, scans_part s hpart hshort, fun s' hs' => ?_⟩
      obtain rfl : s = s' := Option.some.inj hs'
      exact hshort
    · obtain ⟨ys, rfl⟩ := List.prefix_of_prefix_length_le (List.prefix_append _ _) hbs' hlong
      obtain ⟨k, rest, rfl, hscan, hlast⟩ := ih ((List.prefix_append_right_inj _).mp hbs')
      refine ⟨k + 1, rest, (List.append_assoc _ _ _).symm, ?_, hlast⟩
      have hnext : frames.next (s.frame ++ (stream (sends.take k) ++ rest)) =
          .take s.frame.length [s.delivered] := s.carries_frame.nextToken _
      refine Scans.take hnext ?_
      rw [List.drop_left]
      exact hscan

/-- While every read appends, the messages delivered are exactly those whose frames
have been taken to the last byte, and the decoder keeps what there is of the next. A
read that finds part of a frame left over is stored on top of it, and appends only
where the buffer comes out the same. -/
theorem delivered_once_whole (sends : List Send) (cells : List UInt8)
    (hcells : cells.length = readRingBufferSize) (parserData : IpcMsg) (stale : Bool)
    {s : Receiver} (h : Reach step FitsAndAppends (start cells hcells parserData stale true) s)
    (harrived : s.arrived <+: stream sends) :
    ∃ k, s.taken = stream (sends.take k) ++ window s.parser ∧
      s.delivered = (sends.take k).map Send.delivered ∧
      ∀ next ∈ sends[k]?, (window s.parser).length < next.frame.length := by
  have htracks : Tracks s := h.invariant Tracks (start_tracks cells hcells parserData stale)
    fun _ _ _ ht hC hstep => step_tracks ht hC.2 hstep
  have hflows : Flows s := h.invariant Flows
    ⟨start_sound cells hcells parserData stale true, rfl⟩
    fun _ _ _ ht hC hstep => step_flows ht hC.1 hstep
  have htaken : s.taken <+: stream sends := by
    refine List.IsPrefix.trans ?_ harrived
    rw [hflows.arrived]
    exact List.prefix_append _ _
  obtain ⟨k, rest, hcut, hscan, hlast⟩ := scans_cut sends htaken
  obtain ⟨hdelivered, hrest⟩ := htracks.scans.det hscan
  rw [hrest]
  exact ⟨k, hcut, hdelivered, hlast⟩

/-- A frame and five bytes of the next. -/
def frameAndPart : List UInt8 := stream [sendEmpty] ++ (stream [sendEmpty]).take 5

theorem delivered_once_whole_part :
    ∃ s, runFrom (guarded step FitsAndAppends) fresh (piecewise [frameAndPart]) = some s ∧
      ∃ k, s.taken = stream ([sendEmpty, sendEmpty].take k) ++ window s.parser ∧
        s.delivered = ([sendEmpty, sendEmpty].take k).map Send.delivered := by
  have hsummary : summary (runFrom (guarded step FitsAndAppends) fresh
      (piecewise [frameAndPart])) =
        some (frameAndPart, frameAndPart, [sendEmpty.delivered]) := by
    decide +kernel
  obtain ⟨s, hrun, harrived, -, -⟩ := exists_of_summary hsummary
  have hpart : s.arrived <+: stream [sendEmpty, sendEmpty] := by
    rw [harrived]
    decide +kernel
  obtain ⟨k, htaken, hdelivered, -⟩ := delivered_once_whole [sendEmpty, sendEmpty] _ _ _ _
    (reach_of_guarded _ hrun) hpart
  exact ⟨s, hrun, k, htaken, hdelivered⟩

end TcIpcCtrl.FrameCode
