import TcIpcCtrl.ReferenceScan

/-!
What the decoder does with a stream that does not begin at a frame. Bytes that
nowhere contain the start pattern are passed over one by one, up to the first
byte of the frame that follows. The rest of a frame whose front is lost may
contain the pattern, with any length behind it; then the frames that lie among
the bytes so announced are lost, and all from the next one on are delivered.
-/
namespace TcIpcCtrl.Resynchronization

open Package WhileLoop Tokens FrameGrammar TcIpcCtrl.Parser DecoderPasses DecoderRefinement
  RoundTrip ReferenceScan

/-- No FF 55 AA. -/
def Noise (g : List UInt8) : Prop :=
  ¬ [ipcSyncCode, ipcFirstStartCode, ipcSecondStartCode] <:+: g

instance (g : List UInt8) : Decidable (Noise g) := inferInstanceAs (Decidable (¬ _))

theorem Noise.drop {g : List UInt8} (h : Noise g) (n : ℕ) : Noise (g.drop n) :=
  fun hpart => h (hpart.trans (List.drop_suffix n g).isInfix)

theorem startsFrame_iff (bs : List UInt8) (hlen : 3 ≤ bs.length) :
    StartsFrame bs ↔ [ipcSyncCode, ipcFirstStartCode, ipcSecondStartCode] <+: bs := by
  match bs, hlen with
  | x :: y :: z :: bs, _ =>
    simp only [StartsFrame, List.cons_prefix_cons, List.nil_prefix, and_true]
    constructor
    · rintro ⟨hx, hy, hz⟩
      exact ⟨hx.symm, hy.symm, hz.symm⟩
    · rintro ⟨hx, hy, hz⟩
      exact ⟨hx.symm, hy.symm, hz.symm⟩

theorem Noise.not_startsFrame {g : List UInt8} (h : Noise g) (hlen : 3 ≤ g.length) :
    ¬ StartsFrame g :=
  fun hstart => h ((startsFrame_iff g hlen).mp hstart).isInfix

/-- No frame begins in the noise: the pattern cannot lie across the border either,
as its first byte occurs in it only once. -/
theorem not_startsFrame_border {b : UInt8} {g rest : List UInt8} (hg : Noise (b :: g))
    (hstart : StartsFrame rest) : ¬ StartsFrame (b :: g ++ rest) := by
  rintro ⟨hsync, hfirst, hsecond⟩
  obtain ⟨hrest, -, -⟩ := hstart
  match g with
  | [] =>
    have hhead : rest.getD 0 0 = ipcFirstStartCode := hfirst
    rw [hrest] at hhead
    exact absurd hhead (by decide)
  | [c] =>
    have hhead : rest.getD 0 0 = ipcSecondStartCode := hsecond
    rw [hrest] at hhead
    exact absurd hhead (by decide)
  | c :: d :: g =>
    refine hg.not_startsFrame ?_ ⟨hsync, hfirst, hsecond⟩
    simp only [List.length_cons]
    omega

theorem reads_noise {g rest : List UInt8} (hg : Noise g) (hstart : StartsFrame rest)
    (hlen : 12 ≤ rest.length) : Reads frames (g ++ rest) [] rest := by
  induction g with
  | nil => exact .refl
  | cons b g ih =>
    have hno := not_startsFrame_border hg hstart
    have hlong : ¬ (b :: g ++ rest).length < 12 := by
      rw [List.length_append]
      omega
    have hnext : frames.next (b :: g ++ rest) = .take 1 [] := by
      show nextToken (b :: g ++ rest) = .take 1 []
      simp only [nextToken, ipcMinimumPacketSize, hlong, hno, if_false]
    exact .take hnext (ih (hg.drop 1))

/-- Noise on its own holds no message. -/
theorem scans_noise {g rest : List UInt8} {outs : List ReceivedData} (hg : Noise g)
    (hscan : Scans frames g outs rest) : outs = [] := by
  induction hscan with
  | wait => rfl
  | @take g rest n out outs ht _ ih =>
    obtain ⟨hlong, ⟨-, rfl, rfl⟩ | ⟨hstart, -⟩⟩ := nextToken_take g n out ht
    · exact ih (hg.drop 1)
    · exact absurd hstart (hg.not_startsFrame (by omega))

/-! Noise before a frame -/

theorem length_of_carries {F : List UInt8} {m : ReceivedData} (hF : Carries F m) :
    12 ≤ F.length := by
  have hge := frameSize_ge m.length
  have hsize := hF.size
  omega

theorem reads_frame {F : List UInt8} {m : ReceivedData} (hF : Carries F m) (ys : List UInt8) :
    Reads frames (F ++ ys) [m] ys := by
  have hsingle := Reads.single (T := frames) (hF.nextToken ys)
  rwa [List.drop_left] at hsingle

/-- The loop reads down to `ys`, however far that is. -/
theorem leads_to {h : ParserHandle} {xs ys : List UInt8} {outs : List ReceivedData}
    (hp : Placed h) (hidle : h.parserState = stateIdle) (hcb : h.parserReceivedData = true)
    (hwindow : window h = xs) (hreads : Reads frames xs outs ys) :
    ∃ u, Leads decodeGuard decodeBody h outs u ∧ Arrives h u ys ∧
      u.offset + ys.length = h.dataSize := by
  obtain ⟨u, hleads, hu⟩ := leads_of_reads hreads h hp hidle hwindow
  rw [heard, if_pos hcb] at hleads
  refine ⟨u, hleads, hu, ?_⟩
  have hlen := hu.placed.length_window
  have hoff := hu.placed.offset_le
  rw [hu.window] at hlen
  rw [hu.keeps.dataSize] at hlen hoff
  omega

/-- The decoder passes over `g` without a word, delivers the message of the frame,
and goes on as if it held only what follows. -/
theorem resyncs_after_noise (g F ys : List UInt8) (m : ReceivedData) (h h' : ParserHandle)
    (hg : Noise g) (hF : Carries F m) (hh : Holds h (g ++ F ++ ys)) (hh' : Holds h' ys) :
    ∃ u v t t' more,
      Leads decodeGuard decodeBody h [] u ∧ u.offset = g.length ∧ u.parserState = stateIdle ∧
      Leads decodeGuard decodeBody u [m] v ∧ v.offset = (g ++ F).length ∧
      v.parserState = stateIdle ∧
      tcParserDecoder h = some (t, m :: more) ∧ tcParserDecoder h' = some (t', more) ∧
      SameRest t t' := by
  have hlen := length_of_carries hF
  have hsize := hh.dataSize
  have hstart : StartsFrame (F ++ ys) := (startsFrame_append F ys hlen).mpr hF.start
  have hnoise : Reads frames (g ++ F ++ ys) [] (F ++ ys) := by
    rw [List.append_assoc]
    exact reads_noise hg hstart (by rw [List.length_append]; omega)
  obtain ⟨u, hskip, hu, huoff⟩ := leads_to hh.placed hh.idle hh.callback hh.window hnoise
  obtain ⟨v, hframe, hv, hvoff⟩ := leads_to hu.placed hu.idle
    (hu.keeps.callback.trans hh.callback) hu.window (reads_frame hF ys)
  obtain ⟨t, t', more, hdecode, hdecode', hsame⟩ :=
    decoder_of_reads hh hh' (hnoise.trans (reads_frame hF ys))
  simp only [List.length_append] at hsize huoff
  refine ⟨u, v, t, t', more, hskip, by omega, hu.idle, hframe, ?_, hv.idle, hdecode, hdecode',
    hsame⟩
  rw [hu.keeps.dataSize] at hvoff
  rw [List.length_append]
  omega

/-- Noise that ends in FF 55, right before a frame. -/
theorem resyncs_after_noise_border :
    ∃ t more, tcParserDecoder (holding ([0xff, 0xff, 0x55] ++ sendEmpty.frame ++ [0xff])
      (by decide +kernel)) = some (t, sendEmpty.delivered :: more) :=
  have ⟨_, _, t, _, more, _, _, _, _, _, _, hdecode, _⟩ :=
    resyncs_after_noise [0xff, 0xff, 0x55] sendEmpty.frame [0xff] sendEmpty.delivered _
      (holding [0xff] (by decide)) (by decide) sendEmpty.carries_frame
      (holds_holding _ (by decide +kernel)) (holds_holding _ _)
  ⟨t, more, hdecode⟩

/-! A stream that has lost its front -/

/-- The last sends, as many as have their frames within the last `n` bytes. -/
def whollyInside : List Send → ℕ → List Send
  | [], _ => []
  | s :: sends, n =>
    if (stream (s :: sends)).length ≤ n then s :: sends else whollyInside sends n

/-- What is left in front of them is less than one frame. -/
theorem exists_cut {sends : List Send} {suffix : List UInt8} (hsuffix : suffix <:+ stream sends) :
    ∃ cut, suffix = cut ++ stream (whollyInside sends suffix.length) ∧
      (cut = [] ∨ ∃ s ∈ sends, cut <:+ s.frame ∧ cut.length < s.frame.length) := by
  induction sends with
  | nil =>
    obtain rfl : suffix = [] := List.suffix_nil.mp hsuffix
    exact ⟨[], rfl, Or.inl rfl⟩
  | cons s sends ih =>
    have hstream : stream (s :: sends) = s.frame ++ stream sends := rfl
    by_cases hall : (stream (s :: sends)).length ≤ suffix.length
    · rw [whollyInside, if_pos hall]
      exact ⟨[], hsuffix.eq_of_length_le hall, Or.inl rfl⟩
    · rw [whollyInside, if_neg hall]
      have hrest : stream sends <:+ stream (s :: sends) := List.suffix_append _ _
      rcases List.suffix_or_suffix_of_suffix hsuffix hrest with hshort | hlong
      · obtain ⟨cut, hcut, hfront⟩ := ih hshort
        refine ⟨cut, hcut, hfront.imp_right ?_⟩
        rintro ⟨s', hs', hsuf⟩
        exact ⟨s', List.mem_cons_of_mem s hs', hsuf⟩
      · obtain ⟨cut, rfl⟩ := hlong
        have hcut : cut <:+ s.frame := by
          rw [hstream] at hsuffix
          obtain ⟨lost, hlost⟩ := hsuffix
          rw [← List.append_assoc] at hlost
          exact ⟨lost, List.append_cancel_right hlost⟩
        have hinside : whollyInside sends (cut ++ stream sends).length = sends := by
          cases sends with
          | nil => rfl
          | cons s' sends =>
            rw [whollyInside, if_pos]
            rw [List.length_append]
            exact Nat.le_add_left _ _
        rw [hinside]
        refine ⟨cut, rfl, Or.inr ⟨s, List.mem_cons_self, hcut, ?_⟩⟩
        rw [hstream, List.length_append, List.length_append] at hall
        omega

/-! Candidates -/

/-- A place at which a scan finds FF 55 AA: where it is, how many bytes its header announces,
and the message of these bytes if they have come and their checksum is right. -/
structure Candidate where
  start : ℕ
  size : ℕ
  message : Option ReceivedData
deriving DecidableEq

def candidateAt (start : ℕ) (b : List UInt8) : Candidate :=
  { start := start
    size := frameSize (lengthField b)
    message := if frameSize (lengthField b) ≤ b.length ∧ CrcOk b (frameSize (lengthField b))
      then some (messageOf b) else none }

/-- The candidates among the bytes from position `start` on, the first `skip` of which
belong to a candidate before them. -/
def candidatesFrom : (start skip : ℕ) → List UInt8 → List Candidate
  | _, _, [] => []
  | start, skip + 1, _ :: b => candidatesFrom (start + 1) skip b
  | start, 0, x :: b =>
    if 12 ≤ (x :: b).length ∧ StartsFrame (x :: b) then
      candidateAt start (x :: b) ::
        candidatesFrom (start + 1) (frameSize (lengthField (x :: b)) - 1) b
    else candidatesFrom (start + 1) 0 b

/-- What a scan from left to right takes for frames. -/
def candidates (b : List UInt8) : List Candidate := candidatesFrom 0 0 b

/-- What begins at `pos` lies among the bytes that a candidate before it announces, whether
or not all of these have come. -/
def Covered (cs : List Candidate) (pos : ℕ) : Prop :=
  ∃ c ∈ cs, c.start < pos ∧ pos < c.start + c.size

instance (cs : List Candidate) (pos : ℕ) : Decidable (Covered cs pos) :=
  inferInstanceAs (Decidable (∃ c ∈ cs, _))

theorem candidatesFrom_skip (start skip : ℕ) (b : List UInt8) :
    candidatesFrom start skip b = candidatesFrom (start + skip) 0 (b.drop skip) := by
  induction skip generalizing start b with
  | zero => rfl
  | succ skip ih =>
    cases b with
    | nil => rfl
    | cons x b =>
      rw [candidatesFrom, ih, List.drop_succ_cons, Nat.add_right_comm]
      rfl

/-! One token of the scan -/

section Token

variable {b : List UInt8}

theorem candidatesFrom_short (start : ℕ) (hshort : b.length < 12) :
    candidatesFrom start 0 b = [] := by
  induction b generalizing start with
  | nil => rfl
  | cons x b ih =>
    rw [candidatesFrom, if_neg (fun hboth => by omega)]
    rw [List.length_cons] at hshort
    exact ih (start + 1) (by omega)

theorem candidatesFrom_byte (start : ℕ) (hlong : 12 ≤ b.length) (hno : ¬ StartsFrame b) :
    candidatesFrom start 0 b = candidatesFrom (start + 1) 0 (b.drop 1) := by
  match b, hlong with
  | x :: b, _ =>
    rw [candidatesFrom, if_neg (fun hboth => hno hboth.2), List.drop_one, List.tail_cons]

theorem candidatesFrom_frame (start : ℕ) (hlong : 12 ≤ b.length) (hstart : StartsFrame b) :
    candidatesFrom start 0 b =
      candidateAt start b :: candidatesFrom (start + frameSize (lengthField b)) 0
        (b.drop (frameSize (lengthField b))) := by
  match b, hlong with
  | x :: b, hlong =>
    have hge := frameSize_ge (lengthField (x :: b))
    obtain ⟨n, hn⟩ : ∃ n, frameSize (lengthField (x :: b)) = n + 1 := ⟨_, (Nat.succ_pred_eq_of_pos
      (by omega)).symm⟩
    rw [candidatesFrom, if_pos ⟨hlong, hstart⟩, candidatesFrom_skip, hn, Nat.add_sub_cancel,
      List.drop_succ_cons, Nat.add_right_comm, Nat.add_assoc]

end Token

theorem start_bounds {start skip : ℕ} {b : List UInt8} {c : Candidate}
    (hc : c ∈ candidatesFrom start skip b) : start ≤ c.start ∧ c.start < start + b.length := by
  induction b generalizing start skip with
  | nil =>
    rw [candidatesFrom] at hc
    cases hc
  | cons x b ih =>
    have hlater : ∀ skip, c ∈ candidatesFrom (start + 1) skip b →
        start ≤ c.start ∧ c.start < start + (x :: b).length := by
      intro skip hc
      have hbounds := ih hc
      rw [List.length_cons]
      omega
    cases skip with
    | succ skip => exact hlater skip hc
    | zero =>
      rw [candidatesFrom] at hc
      split at hc
      · rcases List.mem_cons.mp hc with rfl | hc
        · exact ⟨Nat.le_refl start, Nat.lt_add_of_pos_right (Nat.succ_pos b.length)⟩
        · exact hlater _ hc
      · exact hlater _ hc

theorem message_candidateAt (start : ℕ) {b : List UInt8}
    (hfit : frameSize (lengthField b) ≤ b.length) :
    (candidateAt start b).message.toList =
      if CrcOk b (frameSize (lengthField b)) then [messageOf b] else [] := by
  by_cases hcrc : CrcOk b (frameSize (lengthField b))
  · rw [candidateAt, if_pos ⟨hfit, hcrc⟩, if_pos hcrc, Option.toList_some]
  · rw [candidateAt, if_neg (fun hboth => hcrc hboth.2), if_neg hcrc, Option.toList_none]

theorem messages_cons (c : Candidate) (cs : List Candidate) :
    (c :: cs).filterMap Candidate.message =
      c.message.toList ++ cs.filterMap Candidate.message := by
  cases hm : c.message with
  | none => rw [List.filterMap_cons_none hm, Option.toList_none, List.nil_append]
  | some m => rw [List.filterMap_cons_some hm, Option.toList_some, List.singleton_append]

/-- The candidates that a scan has passed end before the place to which it has come, and
have given the messages read so far. -/
theorem candidates_of_reads {b ys : List UInt8} {outs : List ReceivedData}
    (h : Reads frames b outs ys) (start : ℕ) :
    ∃ n passed, n + ys.length = b.length ∧
      candidatesFrom start 0 b = passed ++ candidatesFrom (start + n) 0 ys ∧
      (∀ c ∈ passed, c.start + c.size ≤ start + n ∧ 0 < c.size) ∧
      outs = passed.filterMap Candidate.message := by
  induction h generalizing start with
  | refl => exact ⟨0, [], Nat.zero_add _, rfl, List.forall_mem_nil _, rfl⟩
  | @take b ys n out outs ht _ ih =>
    obtain ⟨hlong, ⟨hno, rfl, rfl⟩ | ⟨hstart, rfl, hfit, rfl⟩⟩ := nextToken_take b n out ht
    · obtain ⟨n, passed, hlen, hcands, hends, houts⟩ := ih (start + 1)
      rw [List.length_drop] at hlen
      refine ⟨1 + n, passed, by omega, ?_, fun c hc => ?_, houts⟩
      · rw [candidatesFrom_byte start hlong hno, hcands, Nat.add_assoc]
      · rw [← Nat.add_assoc]
        exact hends c hc
    · obtain ⟨n, passed, hlen, hcands, hends, houts⟩ := ih (start + frameSize (lengthField b))
      have hge := frameSize_ge (lengthField b)
      rw [List.length_drop] at hlen
      refine ⟨frameSize (lengthField b) + n, candidateAt start b :: passed, by omega, ?_,
        fun c hc => ?_, ?_⟩
      · rw [candidatesFrom_frame start hlong hstart, hcands, Nat.add_assoc]
        rfl
      · rcases List.mem_cons.mp hc with rfl | hc
        · change start + frameSize (lengthField b) ≤ _ ∧ 0 < frameSize (lengthField b)
          omega
        · rw [← Nat.add_assoc]
          exact hends c hc
      · rw [messages_cons, message_candidateAt start hfit, houts]

/-- Where a scan comes by, no candidate lies across. -/
theorem uncovered_of_reads {b ys : List UInt8} {outs : List ReceivedData}
    (h : Reads frames b outs ys) : ¬ Covered (candidates b) (b.length - ys.length) := by
  obtain ⟨n, passed, hlen, hcands, hends, -⟩ := candidates_of_reads h 0
  rintro ⟨c, hc, hbefore, hafter⟩
  rw [candidates, hcands] at hc
  rcases List.mem_append.mp hc with hc | hc
  · have hend := (hends c hc).1
    omega
  · have hstart := (start_bounds hc).1
    omega

/-- And a scan comes by every place across which none lies. -/
theorem reads_of_uncovered {b : List UInt8} {start pos : ℕ} (hpos : pos + 12 ≤ b.length)
    (h : ¬ Covered (candidatesFrom start 0 b) (start + pos)) :
    ∃ outs, Reads frames b outs (b.drop pos) := by
  obtain ⟨outs, rest, hscan⟩ := Scans.total frames b
  induction hscan generalizing start pos with
  | @wait b hw =>
    cases pos with
    | zero => exact ⟨[], .refl⟩
    | succ pos =>
      obtain ⟨hstart, hwait⟩ := (nextToken_wait b hw).resolve_left (by omega)
      refine absurd ⟨candidateAt start b, ?_, ?_, ?_⟩ h
      · rw [candidatesFrom_frame start (by omega) hstart]
        exact List.mem_cons_self
      · exact Nat.lt_add_of_pos_right (Nat.succ_pos pos)
      · change start + (pos + 1) < start + frameSize (lengthField b)
        omega
  | @take b rest n out outs ht _ ih =>
    have hbounds := nextToken_bounds b n out ht
    -- The place is here, within this token, or behind it.
    rcases Nat.eq_zero_or_pos pos with rfl | hpositive
    · exact ⟨[], .refl⟩
    · obtain ⟨hlong, ⟨hno, rfl, rfl⟩ | ⟨hstart, rfl, hfit, rfl⟩⟩ := nextToken_take b n out ht
      · rw [candidatesFrom_byte start hlong hno] at h
        have hlater : ¬ Covered (candidatesFrom (start + 1) 0 (b.drop 1))
            (start + 1 + (pos - 1)) := by
          rwa [Nat.add_assoc, Nat.add_sub_cancel' hpositive]
        obtain ⟨outs, hreads⟩ := ih (by rw [List.length_drop]; omega) hlater
        rw [List.drop_drop, Nat.add_sub_cancel' hpositive] at hreads
        exact ⟨_, .take ht hreads⟩
      · rw [candidatesFrom_frame start hlong hstart] at h
        by_cases hwithin : pos < frameSize (lengthField b)
        · refine absurd ⟨candidateAt start b, List.mem_cons_self, ?_, ?_⟩ h
          · exact Nat.lt_add_of_pos_right hpositive
          · exact Nat.add_lt_add_left hwithin start
        · have hbehind := Nat.le_of_not_lt hwithin
          have hlater : ¬ Covered (candidatesFrom (start + frameSize (lengthField b)) 0
              (b.drop (frameSize (lengthField b))))
              (start + frameSize (lengthField b) + (pos - frameSize (lengthField b))) := by
            rw [Nat.add_assoc, Nat.add_sub_cancel' hbehind]
            rintro ⟨c, hc, hcovers⟩
            exact h ⟨c, List.mem_cons_of_mem _ hc, hcovers⟩
          obtain ⟨outs, hreads⟩ := ih (by rw [List.length_drop]; omega) hlater
          rw [List.drop_drop, Nat.add_sub_cancel' hbehind] at hreads
          exact ⟨_, .take ht hreads⟩

/-- A scan gives the messages of its candidates. -/
theorem outs_eq_messages {b rest : List UInt8} {outs : List ReceivedData}
    (h : Scans frames b outs rest) : outs = (candidates b).filterMap Candidate.message := by
  obtain ⟨hreads, hw⟩ := h.reads
  obtain ⟨n, passed, -, hcands, -, houts⟩ := candidates_of_reads hreads 0
  have hlast : (candidatesFrom (0 + n) 0 rest).filterMap Candidate.message = [] := by
    by_cases hshort : rest.length < 12
    · rw [candidatesFrom_short _ hshort, List.filterMap_nil]
    · obtain ⟨hstart, hwait⟩ := (nextToken_wait rest hw).resolve_left hshort
      have hnone : (candidateAt (0 + n) rest).message = none :=
        if_neg fun hboth => Nat.not_le_of_lt hwait hboth.1
      rw [candidatesFrom_frame _ (by omega) hstart, List.filterMap_cons_none hnone,
        List.drop_eq_nil_of_le (by omega)]
      rfl
  rw [candidates, hcands, List.filterMap_append, hlast, List.append_nil]
  exact houts

/-- Noise is passed over up to the first frame. -/
theorem reads_after_cut {cut : List UInt8} {whole : List Send} (hcut : Noise cut)
    (hne : whole ≠ []) : Reads frames (cut ++ stream whole) [] (stream whole) := by
  obtain ⟨s, whole, rfl⟩ := List.exists_cons_of_ne_nil hne
  have hframe := s.carries_frame
  have hlen := length_of_carries hframe
  have hstart : StartsFrame (stream (s :: whole)) :=
    (startsFrame_append s.frame (stream whole) hlen).mpr hframe.start
  refine reads_noise hcut hstart ?_
  rw [show stream (s :: whole) = s.frame ++ stream whole from rfl, List.length_append]
  omega

theorem scans_after_cut {cut : List UInt8} {whole : List Send} {outs : List ReceivedData}
    {rest : List UInt8} (hcut : Noise cut) (hscan : Scans frames (cut ++ stream whole) outs rest) :
    outs = whole.map Send.delivered := by
  by_cases hne : whole = []
  · subst hne
    rw [show cut ++ stream [] = cut from List.append_nil cut] at hscan
    exact scans_noise hcut hscan
  · exact (hscan.det ((reads_after_cut hcut hne).scans (scans_stream whole))).1

/-- The messages of the candidates are those that the reference scan gives. -/
theorem messages_referenceScan (b : List UInt8) :
    (referenceScan b).messages = (candidates b).filterMap Candidate.message :=
  outs_eq_messages (scans_referenceScan b).1

theorem reads_stream (front back : List Send) :
    Reads frames (stream (front ++ back)) (front.map Send.delivered) (stream back) := by
  induction front with
  | nil => exact .refl
  | cons s front ih => exact (reads_frame s.carries_frame (stream (front ++ back))).trans ih

/-- The longest front part of a list all of whose places satisfy `P`. -/
theorem exists_break {β : Type*} (P : List β → Prop) (xs : List β) :
    ∃ ys zs, xs = ys ++ zs ∧ (∀ front y back, ys = front ++ y :: back → P front) ∧
      (zs ≠ [] → ¬ P ys) := by
  induction xs generalizing P with
  | nil => exact ⟨[], [], rfl, by simp, fun hne => absurd rfl hne⟩
  | cons x xs ih =>
    by_cases hP : P []
    · obtain ⟨ys, zs, hxs, hall, hstop⟩ := ih fun front => P (x :: front)
      refine ⟨x :: ys, zs, by rw [hxs, List.cons_append], fun front y back hys => ?_, hstop⟩
      cases front with
      | nil => exact hP
      | cons x' front =>
        obtain ⟨rfl, hrest⟩ := List.cons.inj hys
        exact hall front y back hrest
    · exact ⟨[], x :: xs, rfl, by simp, fun _ => hP⟩

/-- The frames from the first one on that no candidate covers: a scan comes by, and the
candidates before it account for what has been read. -/
theorem reads_late {suffix front : List UInt8} {late : List Send}
    (hsuffix : suffix = front ++ stream late) (hlate : late ≠ [])
    (hfree : ¬ Covered (candidates suffix) front.length) :
    Reads frames suffix (((candidates suffix).filter (·.start < front.length)).filterMap
      Candidate.message) (stream late) := by
  obtain ⟨s, late, rfl⟩ := List.exists_cons_of_ne_nil hlate
  have hframe := length_of_carries s.carries_frame
  have hlen : suffix.length = front.length + (stream (s :: late)).length := by
    rw [hsuffix, List.length_append]
  have hlong : 12 ≤ (stream (s :: late)).length := by
    rw [show stream (s :: late) = s.frame ++ stream late from rfl, List.length_append]
    omega
  have huncovered : ¬ Covered (candidatesFrom 0 0 suffix) (0 + front.length) := by
    rwa [Nat.zero_add]
  obtain ⟨outs, hreads⟩ := reads_of_uncovered (by omega) huncovered
  have hdrop : suffix.drop front.length = stream (s :: late) := by
    rw [hsuffix, List.drop_left]
  rw [hdrop] at hreads
  obtain ⟨n, passed, hn, hcands, hends, houts⟩ := candidates_of_reads hreads 0
  have hpassed : (candidates suffix).filter (·.start < front.length) = passed := by
    rw [candidates, hcands, List.filter_append, List.filter_eq_self.mpr, List.filter_eq_nil_iff.mpr,
      List.append_nil]
    · intro c hc
      have hstart := (start_bounds hc).1
      rw [decide_eq_true_eq]
      omega
    · intro c hc
      obtain ⟨hend, hsize⟩ := hends c hc
      rw [decide_eq_true_eq]
      omega
  rwa [hpassed, ← houts]

/-- One call delivers the messages of all whole frames that no candidate covers, in order
and after the messages of the candidates in front of them. The frames that are lost come
first, each covered by such a candidate; there is none if the cut frame shows no start
pattern. -/
theorem suffix_delivers (sends : List Send) (suffix : List UInt8)
    (hsuffix : suffix <:+ stream sends) (h : ParserHandle) (hh : Holds h suffix) :
    ∃ cut lost late t before,
      suffix = cut ++ stream (lost ++ late) ∧
      lost ++ late = whollyInside sends suffix.length ∧
      tcParserDecoder h = some (t, before ++ late.map Send.delivered) ∧
      (∀ front s back, lost = front ++ s :: back →
        Covered (candidates suffix) (cut ++ stream front).length) ∧
      (∀ front s back, late = front ++ s :: back →
        ¬ Covered (candidates suffix) (cut ++ stream (lost ++ front)).length) ∧
      before = ((candidates suffix).filter (·.start < (cut ++ stream lost).length)).filterMap
        Candidate.message ∧
      (Noise cut → lost = [] ∧ before = []) := by
  obtain ⟨cut, hcut, -⟩ := exists_cut hsuffix
  obtain ⟨lost, late, hsplit, hcovered, hfree⟩ := exists_break
    (fun front => Covered (candidates suffix) (cut ++ stream front).length)
    (whollyInside sends suffix.length)
  rw [hsplit] at hcut
  obtain ⟨outs, rest, hscan⟩ := Scans.total frames suffix
  obtain ⟨t, hdecode, -⟩ := hh.decoder hscan
  have hfront : suffix = (cut ++ stream lost) ++ stream late := by
    rw [hcut, stream_append, List.append_assoc]
  -- The scan gives the messages of the candidates, the whole frames at the end among them.
  have houts : outs = ((candidates suffix).filter (·.start < (cut ++ stream lost).length)).filterMap
      Candidate.message ++ late.map Send.delivered := by
    by_cases hlate : late = []
    · have hall : ∀ c ∈ candidates suffix, decide (c.start < (cut ++ stream lost).length) := by
        intro c hc
        have hbound := (start_bounds hc).2
        rw [Nat.zero_add, hfront, hlate, show stream [] = [] from rfl, List.append_nil] at hbound
        exact decide_eq_true hbound
      rw [hlate, List.map_nil, List.append_nil, List.filter_eq_self.mpr hall]
      exact outs_eq_messages hscan
    · exact (hscan.det ((reads_late hfront hlate (hfree hlate)).scans (scans_stream late))).1
  have hclear : Noise cut → lost = [] := by
    intro hnoise
    by_contra hlost
    obtain ⟨s, lost, rfl⟩ := List.exists_cons_of_ne_nil hlost
    have hfirst := hcovered [] s lost rfl
    have hne : s :: lost ++ late ≠ [] := List.cons_ne_nil _ _
    have hreads := reads_after_cut hnoise hne
    have hlen : suffix.length - (stream (s :: lost ++ late)).length =
        (cut ++ stream []).length := by
      rw [hcut, List.length_append, Nat.add_sub_cancel, show stream [] = [] from rfl,
        List.append_nil]
    rw [← hcut] at hreads
    exact uncovered_of_reads hreads (hlen ▸ hfirst)
  refine ⟨cut, lost, late, t, _, hcut, hsplit.symm, houts ▸ hdecode, hcovered, ?_, rfl, ?_⟩
  · rintro front s back rfl
    have hne : front ++ s :: back ≠ [] := by simp
    have hreads := (reads_late hfront hne (hfree hne)).trans (reads_stream front (s :: back))
    have hlen : suffix.length - (stream (s :: back)).length =
        (cut ++ stream (lost ++ front)).length := by
      rw [hcut, ← List.append_assoc lost, stream_append (lost ++ front), ← List.append_assoc,
        List.length_append, Nat.add_sub_cancel]
    rw [← hlen]
    exact uncovered_of_reads hreads
  · intro hnoise
    refine ⟨hclear hnoise, ?_⟩
    rw [hcut] at hscan
    have hmessages := scans_after_cut hnoise hscan
    rw [hclear hnoise, List.nil_append, houts, hclear hnoise] at hmessages
    rw [hclear hnoise]
    exact List.append_left_eq_self.mp hmessages

/-- A payload that looks like the header of a frame of 23 bytes. -/
def sendHeader : Send where
  sendBuf := List.replicate 520 0x01
  cmd1 := 0x0102
  cmd2 := 0x0304
  buf := some [0xff, 0x55, 0xaa, 0x00, 0x00, 0x00, 0x00, 0x00, 0x0c]
  length := 9
  sendBuf_length := List.length_replicate
  payload := ⟨rfl⟩
  length_le := by decide

/-- The two frames without the first nine bytes: payload, checksum, whole frame. -/
def cutInPayload : List UInt8 := (stream [sendHeader, sendEmpty]).drop 9

theorem length_cutInPayload : cutInPayload.length ≤ 1024 := by decide +kernel

/-- The message of the frame without payload, at the end of these bytes, is lost:
the decoder takes it for the payload of the header it sees. -/
theorem later_message_is_lost :
    ¬ ∀ (sends : List Send) (suffix : List UInt8) (h : ParserHandle),
      suffix <:+ stream sends → Holds h suffix →
      ∃ t outs, tcParserDecoder h = some (t, outs) ∧
        ((whollyInside sends suffix.length).map Send.delivered).Sublist outs := by
  intro hclaim
  obtain ⟨t, outs, hdecode, hsublist⟩ := hclaim [sendHeader, sendEmpty] cutInPayload
    (holding cutInPayload length_cutInPayload) (List.drop_suffix _ _) (holds_holding _ _)
  have hinside : (whollyInside [sendHeader, sendEmpty] cutInPayload.length).map Send.delivered =
      [sendEmpty.delivered] := by
    decide +kernel
  have hnothing : (tcParserDecoder (holding cutInPayload length_cutInPayload)).map
      (fun r => r.2) = some [] := by
    decide +kernel
  rw [hdecode] at hnothing
  have houts : outs = [] := Option.some.inj hnothing
  rw [hinside, houts] at hsublist
  cases hsublist

/-- The same two frames and a third, which the header in the cut payload does not reach. -/
def coversOne : List UInt8 := (stream [sendHeader, sendEmpty, sendStartPattern]).drop 9

theorem length_coversOne : coversOne.length ≤ 1024 := by decide +kernel

/-- The first frame cut within the pattern in its payload. -/
def cutInPattern : List UInt8 := (stream [sendStartPattern, sendEmpty]).drop 10

theorem length_cutInPattern : cutInPattern.length ≤ 1024 := by decide +kernel

theorem suffix_delivers_cut :
    (∃ t, tcParserDecoder (holding coversOne length_coversOne) =
      some (t, [sendStartPattern.delivered])) ∧
    ∃ t, tcParserDecoder (holding cutInPattern length_cutInPattern) =
      some (t, [sendEmpty.delivered]) := by
  constructor
  · obtain ⟨cut, lost, late, t, before, hcut, hwhole, hdecode, hcovered, hfree, hbefore, -⟩ :=
      suffix_delivers [sendHeader, sendEmpty, sendStartPattern] coversOne (List.drop_suffix _ _)
        (holding coversOne length_coversOne) (holds_holding _ _)
    have hinside : whollyInside [sendHeader, sendEmpty, sendStartPattern] coversOne.length =
        [sendEmpty, sendStartPattern] := by
      rw [whollyInside, if_neg (by decide +kernel), whollyInside, if_pos (by decide +kernel)]
    have hfront : coversOne = coversOne.take 11 ++ stream [sendEmpty, sendStartPattern] := by
      decide +kernel
    rw [hinside] at hwhole
    rw [hwhole] at hcut
    obtain rfl : cut = coversOne.take 11 := List.append_cancel_right (hcut.symm.trans hfront)
    -- The header in the payload covers the second frame, and not the third.
    have hsecond : Covered (candidates coversOne) (coversOne.take 11 ++ stream []).length := by
      decide +kernel
    have hthird : ¬ Covered (candidates coversOne)
        (coversOne.take 11 ++ stream [sendEmpty]).length := by
      decide +kernel
    cases lost with
    | nil => exact absurd hsecond (hfree [] sendEmpty [sendStartPattern] hwhole)
    | cons s lost =>
      obtain ⟨rfl, hrest⟩ := List.cons.inj hwhole
      cases lost with
      | cons s' lost => exact absurd (hcovered [sendEmpty] s' lost rfl) hthird
      | nil =>
        have hnone : ((candidates coversOne).filter
            (·.start < (coversOne.take 11 ++ stream [sendEmpty]).length)).filterMap
              Candidate.message = [] := by
          decide +kernel
        obtain rfl : late = [sendStartPattern] := hrest
        rw [hbefore, hnone] at hdecode
        exact ⟨t, hdecode⟩
  · obtain ⟨cut, lost, late, t, before, hcut, hwhole, hdecode, -, -, -, hclear⟩ :=
      suffix_delivers [sendStartPattern, sendEmpty] cutInPattern (List.drop_suffix _ _)
        (holding cutInPattern length_cutInPattern) (holds_holding _ _)
    have hinside : whollyInside [sendStartPattern, sendEmpty] cutInPattern.length =
        [sendEmpty] := by
      rw [whollyInside, if_neg (by decide +kernel), whollyInside, if_pos (by decide +kernel)]
    have hfront : cutInPattern = [0x55, 0xaa, 0xe7, 0x1f] ++ stream [sendEmpty] := by
      decide +kernel
    rw [hinside] at hwhole
    rw [hwhole] at hcut
    obtain rfl := List.append_cancel_right (hcut.symm.trans hfront)
    obtain ⟨rfl, rfl⟩ := hclear (by decide)
    rw [List.nil_append] at hwhole hdecode
    rw [hwhole] at hdecode
    exact ⟨t, hdecode⟩

end TcIpcCtrl.Resynchronization
