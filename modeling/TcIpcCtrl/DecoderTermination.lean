import TcIpcCtrl.DecoderPasses

/-!
The decoder loop ends wherever in the buffer it is entered. Nothing is assumed
about the bytes or about the header fields latched earlier, so in the last state
the length may be one that no frame in the buffer has.
-/
namespace TcIpcCtrl.DecoderTermination

open Package WhileLoop DecoderPasses TcIpcCtrl.Parser

/-- Positions that the loop does not leave. -/
structure InLoop (h : ParserHandle) : Prop where
  offset_le : h.offset ≤ h.dataSize
  dataSize_le : h.dataSize ≤ tmmParserBufSize
  inEnum : InEnum h.parserState

theorem pass_advances {h : ParserHandle} (hl : InLoop h) (hg : decodeGuard h = true) :
    Advances h (decodePass h) := by
  rw [decodeGuard_eq hl.offset_le hl.dataSize_le] at hg
  exact decodePass_advances hl.offset_le hl.dataSize_le (of_decide_eq_true hg) hl.inEnum

theorem pass_inLoop {h : ParserHandle} (hl : InLoop h) (hg : decodeGuard h = true) :
    InLoop (decodeBody h).state ∧ (decodeBody h).state.dataSize = h.dataSize := by
  have hadv := pass_advances hl hg
  have hsize : (decodeBody h).state.dataSize = h.dataSize := hadv.dataSize
  refine ⟨⟨?_, ?_, hadv.inEnum⟩, hsize⟩
  · rw [hsize]
    exact hadv.offset_le
  · rw [hsize]
    exact hl.dataSize_le

theorem pass_uses_up {h : ParserHandle} (hl : InLoop h) (hg : decodeGuard h = true)
    (hstop : (decodeBody h).stop = false) :
    InLoop (decodeBody h).state ∧ passesLeft (decodeBody h).state < passesLeft h :=
  ⟨(pass_inLoop hl hg).1, (pass_advances hl hg).less hl.inEnum hstop⟩

theorem passes_inLoop {h t : ParserHandle} (hl : InLoop h)
    (hpasses : Passes decodeGuard decodeBody h t) : InLoop t ∧ t.dataSize = h.dataSize := by
  refine Passes.invariant (I := fun t => InLoop t ∧ t.dataSize = h.dataSize) ⟨hl, rfl⟩ ?_ hpasses
  intro u hu hg _
  obtain ⟨hnext, hsize⟩ := pass_inLoop hu.1 hg
  exact ⟨hnext, hsize.trans hu.2⟩

/-- The empty branch. -/
theorem decodePass_of_not_inEnum {h : ParserHandle} (hs : ¬ InEnum h.parserState) :
    (decodePass h).handle = h ∧ (decodePass h).stop = false := by
  simp only [InEnum, not_or] at hs
  obtain ⟨hidle, hsync, hstart, hhader, hdata, hcrc⟩ := hs
  simp only [decodePass, hidle, hsync, hstart, hhader, hdata, hcrc, if_false, and_self]

theorem decoder_terminates (h : ParserHandle) (hoff : h.offset ≤ h.dataSize)
    (hle : h.dataSize ≤ tmmParserBufSize) (hs : InEnum h.parserState) :
    (∃ t out, Ends decodeGuard decodeBody h out t ∧ tcParserDecoder h = some (compact t, out)) ∧
      (∀ t, Passes decodeGuard decodeBody h t →
        InEnum t.parserState ∧ t.offset ≤ h.dataSize ∧ t.dataSize = h.dataSize ∧
          (decodeGuard t = true → Advances t (decodePass t))) ∧
      (∀ u, decodeGuard u = true → ¬ InEnum u.parserState →
        ∀ out t, ¬ Ends decodeGuard decodeBody u out t) := by
  have hl : InLoop h := ⟨hoff, hle, hs⟩
  refine ⟨?_, ?_, ?_⟩
  · obtain ⟨⟨t, out⟩, hloop⟩ := loop_terminates (fun _ hu hg hstop => pass_uses_up hu hg hstop) hl
      (passesLeft_lt_decodeFuel hs)
    refine ⟨t, out, loop_sound hloop, ?_⟩
    rw [tcParserDecoder, hloop]
    rfl
  · intro t hpasses
    obtain ⟨ht, hsize⟩ := passes_inLoop hl hpasses
    refine ⟨ht.inEnum, ?_, hsize, fun hg => pass_advances ht hg⟩
    rw [← hsize]
    exact ht.offset_le
  · intro u hg hu out t
    obtain ⟨hhandle, hstop⟩ := decodePass_of_not_inEnum hu
    exact not_ends_of_fixed hg hstop hhandle

/-- The checksum of a message of 65530 bytes is looked for after 3 bytes. -/
def wrappedLength : ParserHandle :=
  { ipcParserHandleInit ⟨1, 2, 65530, none⟩ true with
    offset := 3, dataSize := 30, parserState := stateCrc }

theorem decoder_terminates_wrappedLength :
    ∃ t out, Ends decodeGuard decodeBody wrappedLength out t ∧
      tcParserDecoder wrappedLength = some (compact t, out) :=
  (decoder_terminates wrappedLength (by decide) (by decide)
    (Or.inr (Or.inr (Or.inr (Or.inr (Or.inr rfl)))))).1

end TcIpcCtrl.DecoderTermination
