import TcIpcCtrl.ForkJoin
import TcIpcCtrl.LifeCycle

/-!
Opening and closing one handle while its threads run. The calls of the opening and
closing thread are a program of acquiring, forking, joining and releasing; the three
threads go through their loops meanwhile. tc_ipc_ctrl_close clears each flag and joins
each thread before it releases what the thread uses. A tc_ipc_ctrl_open that fails
with a thread running frees the handle under it.
-/
namespace TcIpcCtrl.Teardown

open Runs ForkJoin
open LifeCycle (ThreadKind Results ipcSetparam)

inductive Resource
  /-- the memory of ctrl_handle, with both rings and the run flags of two threads -/
  | ctrlHandle
  /-- the memory of pParserHandle, with the run flag of ParserThread -/
  | parserHandle
  /-- the open descriptor -/
  | device
deriving DecidableEq

/-- What the three thread functions touch. A pass that finds nothing to do is left
early. -/
def code : Code ThreadKind Resource where
  entry
    | .read => []
    | .write => []
    -- `pParserHandle` is loaded once.
    | .parser => [.ctrlHandle]
  test
    | .read => [.ctrlHandle]
    | .write => [.ctrlHandle]
    | .parser => [.parserHandle]
  body
    -- read, then the push
    | .read => [[.ctrlHandle, .device], [.ctrlHandle]]
    -- tc_buffer_data_available, ipc_status, the pop, ipc_write
    | .write => [[.ctrlHandle], [.ctrlHandle, .device], [.ctrlHandle], [.ctrlHandle, .device]]
    -- tc_ipc_read_available_size, tc_parser_freeSpace, tc_ipc_read_data, tc_parser_decoder
    | .parser => [[.ctrlHandle], [.parserHandle], [.ctrlHandle, .parserHandle], [.parserHandle]]

/-- What a call does, and what it returns. -/
structure Part where
  ret : ℤ
  main : List (Instr ThreadKind Resource)

def tcStartReadthread (r : Results) : Part :=
  if r.createRead ≠ 0 then { ret := r.createRead, main := [.touch [.ctrlHandle]] }
  else { ret := 0, main := [.touch [.ctrlHandle], .fork .read] }

def tcStartWritethread (r : Results) : Part :=
  if r.createWrite ≠ 0 then { ret := r.createWrite, main := [.touch [.ctrlHandle]] }
  else { ret := 0, main := [.touch [.ctrlHandle], .fork .write] }

/-- The threads are started in turn, each only if `ret` is still 0. -/
def startThreads (ret : ℤ) (r : Results) : Part :=
  let started := if ret = 0 then tcStartReadthread r else { ret := ret, main := [] }
  if started.ret = 0 then
    { ret := (tcStartWritethread r).ret, main := started.main ++ (tcStartWritethread r).main }
  else started

def tcIpcControlInit (r : Results) : Part :=
  if r.openResult > -1 then
    let started := startThreads (ipcSetparam r.openResult r.ioctl) r
    { started with
      main := [.touch [.ctrlHandle], .acquire .device, .touch [.ctrlHandle, .device]] ++
        started.main }
  else { ret := -1, main := [.touch [.ctrlHandle]] }

def tcStopParserthread (parserThreadRun : Bool) : List (Instr ThreadKind Resource) :=
  .touch [.ctrlHandle, .parserHandle] ::
    if parserThreadRun then [.clear .parser, .join .parser] else []

def tcParserRelease (parserThreadRun : Bool) : List (Instr ThreadKind Resource) :=
  tcStopParserthread parserThreadRun ++ [.release .parserHandle, .touch [.ctrlHandle]]

def tcStartParserthread (r : Results) : Part :=
  if r.createParser ≠ 0 then
    { ret := r.createParser, main := [.touch [.ctrlHandle, .parserHandle]] }
  else { ret := 0, main := [.touch [.ctrlHandle, .parserHandle], .fork .parser] }

def tcParserInit (r : Results) : Part :=
  if r.mallocParser then
    let started := tcStartParserthread r
    let created := [.acquire .parserHandle, .touch [.ctrlHandle, .parserHandle]] ++ started.main
    -- A positive error number passes this test.
    if started.ret < 0 then { ret := started.ret, main := created ++ tcParserRelease false }
    else { ret := 0, main := created }
  else { ret := -1, main := [.touch [.ctrlHandle]] }

/-- With device and callback given. -/
def tcIpcCtrlOpen (r : Results) : Part :=
  if r.malloc then
    let init := tcIpcControlInit r
    let opened :=
      if init.ret = 0 then
        { ret := (tcParserInit r).ret
          main := init.main ++ [.touch [.ctrlHandle]] ++ (tcParserInit r).main }
      else init
    let allocated := [.acquire .ctrlHandle, .touch [.ctrlHandle]] ++ opened.main
    if opened.ret ≠ 0 then { opened with main := allocated ++ [.release .ctrlHandle] }
    else { opened with main := allocated }
  else { ret := -1, main := [] }

def tcIpcControlRelease : List (Instr ThreadKind Resource) :=
  [.touch [.ctrlHandle], .clear .read, .join .read,
    .touch [.ctrlHandle], .clear .write, .join .write,
    .touch [.ctrlHandle], .release .device]

def tcIpcCtrlClose (parserThreadRun : Bool) : List (Instr ThreadKind Resource) :=
  [.touch [.ctrlHandle]] ++ tcParserRelease parserThreadRun ++ tcIpcControlRelease ++
    [.release .ctrlHandle]

/-- An open and, if it returns a handle, any number of tc_ipc_ctrl_msg_send and a close. -/
def program (r : Results) (sends : ℕ) : List (Instr ThreadKind Resource) :=
  (tcIpcCtrlOpen r).main ++
    if (tcIpcCtrlOpen r).ret = 0 then
      List.replicate sends (.touch [.ctrlHandle]) ++ tcIpcCtrlClose (r.createParser = 0)
    else []

/-- The open fails once a thread runs. -/
def Abandons (r : Results) : Prop :=
  r.malloc = true ∧ r.openResult > -1 ∧ r.ioctl = 0 ∧ r.createRead = 0 ∧
    (r.createWrite ≠ 0 ∨ r.mallocParser = false)

/-! The ways through an open -/

/-- A failed pthread_create of ParserThread is not noticed. -/
theorem parserInit_eq (r : Results) : tcParserInit r =
    if r.mallocParser then
      { ret := 0
        main := [.acquire .parserHandle, .touch [.ctrlHandle, .parserHandle],
          .touch [.ctrlHandle, .parserHandle]] ++
            if r.createParser = 0 then [.fork .parser] else [] }
    else { ret := -1, main := [.touch [.ctrlHandle]] } := by
  have hpos : ¬ (r.createParser : ℤ) < 0 := by omega
  unfold tcParserInit tcStartParserthread
  by_cases hc : r.createParser = 0
  · simp [hc]
  · simp [hc, hpos]

/-- All that is done up to the start of ReadThread. -/
def prepared : List (Instr ThreadKind Resource) :=
  [.touch [.ctrlHandle], .acquire .device, .touch [.ctrlHandle, .device]]

theorem controlInit_failed {r : Results}
    (h : ¬ (r.openResult > -1 ∧ r.ioctl = 0 ∧ r.createRead = 0)) :
    (tcIpcControlInit r).ret ≠ 0 ∧ (tcIpcControlInit r).main ∈
      [[.touch [.ctrlHandle]], prepared, prepared ++ [.touch [.ctrlHandle]]] := by
  unfold tcIpcControlInit startThreads tcStartReadthread ipcSetparam
  by_cases ho : r.openResult > -1
  · by_cases hi : r.ioctl = 0
    · have hr : r.createRead ≠ 0 := fun hr => h ⟨ho, hi, hr⟩
      simp [ho, hi, hr, prepared]
    · simp [ho, hi, prepared]
  · simp [ho]

/-- With ReadThread running, only the creation of WriteThread can still fail. -/
theorem controlInit_started {r : Results} (ho : r.openResult > -1) (hi : r.ioctl = 0)
    (hr : r.createRead = 0) : (tcIpcControlInit r).ret = r.createWrite ∧
      (tcIpcControlInit r).main = prepared ++ [.touch [.ctrlHandle], .fork .read] ++
        (tcStartWritethread r).main := by
  have hret : (tcStartWritethread r).ret = r.createWrite := by
    unfold tcStartWritethread
    by_cases hw : r.createWrite = 0
    · simp [hw]
    · simp [hw]
  simp [tcIpcControlInit, startThreads, tcStartReadthread, ipcSetparam, ho, hi, hr, hret, prepared]

/-- The program of an open that returns a handle, with or without ParserThread. -/
def returned (parserThreadRun : Bool) : List (Instr ThreadKind Resource) :=
  [.acquire .ctrlHandle, .touch [.ctrlHandle]] ++ prepared ++
    [.touch [.ctrlHandle], .fork .read, .touch [.ctrlHandle], .fork .write, .touch [.ctrlHandle],
      .acquire .parserHandle, .touch [.ctrlHandle, .parserHandle],
      .touch [.ctrlHandle, .parserHandle]] ++ if parserThreadRun then [.fork .parser] else []

/-- The programs of an open that fails with no thread running. -/
def failed : List (List (Instr ThreadKind Resource)) :=
  [[], [.acquire .ctrlHandle, .touch [.ctrlHandle], .touch [.ctrlHandle], .release .ctrlHandle],
    [.acquire .ctrlHandle, .touch [.ctrlHandle]] ++ prepared ++ [.release .ctrlHandle],
    [.acquire .ctrlHandle, .touch [.ctrlHandle]] ++ prepared ++
      [.touch [.ctrlHandle], .release .ctrlHandle]]

/-- The programs of an open that fails with one or two threads running. -/
def abandoned : List (List (Instr ThreadKind Resource)) :=
  [[.acquire .ctrlHandle, .touch [.ctrlHandle]] ++ prepared ++
      [.touch [.ctrlHandle], .fork .read, .touch [.ctrlHandle], .release .ctrlHandle],
    [.acquire .ctrlHandle, .touch [.ctrlHandle]] ++ prepared ++
      [.touch [.ctrlHandle], .fork .read, .touch [.ctrlHandle], .fork .write,
        .touch [.ctrlHandle], .touch [.ctrlHandle], .release .ctrlHandle]]

theorem open_failed {r : Results}
    (h : ¬ (r.malloc = true ∧ r.openResult > -1 ∧ r.ioctl = 0 ∧ r.createRead = 0)) :
    (tcIpcCtrlOpen r).ret ≠ 0 ∧ (tcIpcCtrlOpen r).main ∈ failed := by
  by_cases hm : r.malloc = true
  · obtain ⟨hret, hmain⟩ := controlInit_failed fun hinit => h ⟨hm, hinit⟩
    simp only [tcIpcCtrlOpen, hm, if_true, hret, if_false, ne_eq, not_false_eq_true]
    refine ⟨trivial, ?_⟩
    simp only [List.mem_cons, List.not_mem_nil, or_false] at hmain
    rcases hmain with hmain | hmain | hmain <;> simp [hmain, failed, prepared]
  · simp [tcIpcCtrlOpen, hm, failed]

theorem open_started {r : Results} (hm : r.malloc = true) (ho : r.openResult > -1)
    (hi : r.ioctl = 0) (hr : r.createRead = 0) :
    ((r.createWrite = 0 ∧ r.mallocParser = true) ∧ (tcIpcCtrlOpen r).ret = 0 ∧
      (tcIpcCtrlOpen r).main = returned (r.createParser = 0)) ∨
    ((r.createWrite ≠ 0 ∨ r.mallocParser = false) ∧ (tcIpcCtrlOpen r).ret ≠ 0 ∧
      (tcIpcCtrlOpen r).main ∈ abandoned) := by
  obtain ⟨hret, hmain⟩ := controlInit_started ho hi hr
  by_cases hw : r.createWrite = 0
  · have hwrite : (tcStartWritethread r).main = [.touch [.ctrlHandle], .fork .write] := by
      simp [tcStartWritethread, hw]
    have hret : (tcIpcControlInit r).ret = 0 := by
      rw [hret, hw]
      rfl
    rw [hwrite] at hmain
    by_cases hp : r.mallocParser = true
    · left
      simp [tcIpcCtrlOpen, hm, hret, hmain, parserInit_eq, hp, hw, returned, prepared]
    · right
      simp [tcIpcCtrlOpen, hm, hret, hmain, parserInit_eq, hp, abandoned, prepared]
  · have hwrite : (tcStartWritethread r).main = [.touch [.ctrlHandle]] := by
      simp [tcStartWritethread, hw]
    rw [hwrite] at hmain
    right
    simp [tcIpcCtrlOpen, hm, hret, hmain, hw, abandoned, prepared]

theorem open_cases (r : Results) :
    (¬ Abandons r ∧ (tcIpcCtrlOpen r).ret = 0 ∧
      (tcIpcCtrlOpen r).main = returned (r.createParser = 0)) ∨
    (¬ Abandons r ∧ (tcIpcCtrlOpen r).ret ≠ 0 ∧ (tcIpcCtrlOpen r).main ∈ failed) ∨
    (Abandons r ∧ (tcIpcCtrlOpen r).ret ≠ 0 ∧ (tcIpcCtrlOpen r).main ∈ abandoned) := by
  by_cases h : r.malloc = true ∧ r.openResult > -1 ∧ r.ioctl = 0 ∧ r.createRead = 0
  · obtain ⟨hm, ho, hi, hr⟩ := h
    rcases open_started hm ho hi hr with ⟨⟨hw, hp⟩, hopen⟩ | ⟨hfails, hopen⟩
    · refine Or.inl ⟨?_, hopen⟩
      rintro ⟨-, -, -, -, hw' | hp'⟩
      · exact hw' hw
      · rw [hp] at hp'
        cases hp'
    · exact Or.inr (Or.inr ⟨⟨hm, ho, hi, hr, hfails⟩, hopen⟩)
  · refine Or.inr (Or.inl ⟨?_, open_failed h⟩)
    rintro ⟨hm, ho, hi, hr, -⟩
    exact h ⟨hm, ho, hi, hr⟩

theorem program_returned {r : Results} (hret : (tcIpcCtrlOpen r).ret = 0) {parserThreadRun : Bool}
    (hmain : (tcIpcCtrlOpen r).main = returned parserThreadRun)
    (hrun : decide (r.createParser = 0) = parserThreadRun) (sends : ℕ) :
    program r sends = returned parserThreadRun ++
      (List.replicate sends (.touch [.ctrlHandle]) ++ tcIpcCtrlClose parserThreadRun) := by
  rw [program, if_pos hret, hmain, hrun]

theorem program_failed {r : Results} (hret : (tcIpcCtrlOpen r).ret ≠ 0) (sends : ℕ) :
    program r sends = (tcIpcCtrlOpen r).main := by
  rw [program, if_neg hret, List.append_nil]

/-! The same open as a whole call -/

/-- The threads that a program creates, the last one first. -/
def created (main : List (Instr ThreadKind Resource)) : List ThreadKind :=
  (main.filterMap fun instr =>
    match instr with
    | .fork kind => some kind
    | _ => none).reverse

/-- A whole call returns what its program returns, and starts the same threads. -/
structure Agrees (address : ℕ) (os : LifeCycle.Os) (outcome : LifeCycle.Outcome)
    (part : Part) : Prop where
  ret : outcome.ret = part.ret
  id : outcome.handle.id = address
  threads : outcome.os.threads =
    (created part.main).map (fun kind => ⟨kind, address⟩) ++ os.threads

theorem startRead_agrees (h : LifeCycle.CtrlHandle) (os : LifeCycle.Os) (r : Results) :
    Agrees h.id os (LifeCycle.tcStartReadthread h os r.createRead) (tcStartReadthread r) := by
  unfold LifeCycle.tcStartReadthread tcStartReadthread
  by_cases hr : r.createRead = 0
  · simp only [hr, ne_eq, not_true_eq_false, if_false]
    exact ⟨rfl, rfl, rfl⟩
  · simp only [hr, ne_eq, not_false_eq_true, if_true]
    exact ⟨rfl, rfl, rfl⟩

theorem startWrite_agrees (h : LifeCycle.CtrlHandle) (os : LifeCycle.Os) (r : Results) :
    Agrees h.id os (LifeCycle.tcStartWritethread h os r.createWrite) (tcStartWritethread r) := by
  unfold LifeCycle.tcStartWritethread tcStartWritethread
  by_cases hw : r.createWrite = 0
  · simp only [hw, ne_eq, not_true_eq_false, if_false]
    exact ⟨rfl, rfl, rfl⟩
  · simp only [hw, ne_eq, not_false_eq_true, if_true]
    exact ⟨rfl, rfl, rfl⟩

theorem created_append (main more : List (Instr ThreadKind Resource)) :
    created (main ++ more) = created more ++ created main := by
  rw [created, List.filterMap_append, List.reverse_append]
  rfl

/-- One call after the other. -/
theorem Agrees.trans {address : ℕ} {os : LifeCycle.Os} {outcome next : LifeCycle.Outcome}
    {part part' : Part} (h : Agrees address os outcome part)
    (h' : Agrees address outcome.os next part') (main : List (Instr ThreadKind Resource))
    (hmain : created main = created (part.main ++ part'.main)) :
    Agrees address os next { ret := part'.ret, main := main } where
  ret := h'.ret
  id := h'.id
  threads := by
    rw [h'.threads, h.threads, hmain, created_append, List.map_append, List.append_assoc]

theorem startThreads_agrees (ret : ℤ) (h : LifeCycle.CtrlHandle) (os : LifeCycle.Os)
    (r : Results) :
    Agrees h.id os (LifeCycle.startThreads ret h os r) (startThreads ret r) := by
  unfold LifeCycle.startThreads startThreads
  by_cases hret : ret = 0
  · have hread := startRead_agrees h os r
    simp only [hret, if_true]
    by_cases hzero : (tcStartReadthread r).ret = 0
    · have hwrite := startWrite_agrees (LifeCycle.tcStartReadthread h os r.createRead).handle
        (LifeCycle.tcStartReadthread h os r.createRead).os r
      rw [hread.id] at hwrite
      rw [if_pos (hread.ret.trans hzero), if_pos hzero]
      exact hread.trans hwrite _ rfl
    · rw [if_neg (fun heq => hzero (hread.ret.symm.trans heq)), if_neg hzero]
      exact hread
  · simp only [hret, if_false]
    exact ⟨rfl, rfl, rfl⟩

theorem controlInit_agrees (h : LifeCycle.CtrlHandle) (os : LifeCycle.Os) (r : Results) :
    Agrees h.id os (LifeCycle.tcIpcControlInit h os r) (tcIpcControlInit r) := by
  unfold LifeCycle.tcIpcControlInit tcIpcControlInit
  by_cases ho : r.openResult > -1
  · rw [if_pos ho, if_pos ho]
    have hstarted := startThreads_agrees (ipcSetparam r.openResult r.ioctl)
      { h with fd := r.openResult } { os with openFds := r.openResult :: os.openFds } r
    exact ⟨hstarted.ret, hstarted.id, hstarted.threads⟩
  · rw [if_neg ho, if_neg ho]
    exact ⟨rfl, rfl, rfl⟩

theorem parserInit_agrees (h : LifeCycle.CtrlHandle) (os : LifeCycle.Os) (r : Results) :
    Agrees h.id os (LifeCycle.tcParserInit h os r) (tcParserInit r) := by
  rw [LifeCycle.parserInit_spec, parserInit_eq]
  by_cases hp : r.mallocParser = true
  · rw [if_pos hp, if_pos hp]
    by_cases hc : r.createParser = 0
    · rw [if_pos hc, if_pos hc]
      exact ⟨rfl, rfl, rfl⟩
    · rw [if_neg hc, if_neg hc]
      exact ⟨rfl, rfl, rfl⟩
  · rw [if_neg hp, if_neg hp]
    exact ⟨rfl, rfl, rfl⟩

/-- The program of an open starts the threads that the whole call leaves running, and
returns 0 exactly if the call returns a handle. -/
theorem open_agrees (w : LifeCycle.World) (r : Results) :
    (LifeCycle.tcIpcCtrlOpen w true true r).os.threads =
      (created (tcIpcCtrlOpen r).main).map (fun kind => ⟨kind, w.nextId⟩) ++ w.os.threads ∧
    (LifeCycle.tcIpcCtrlOpen w true true r).handles.length =
      w.handles.length + if (tcIpcCtrlOpen r).ret = 0 then 1 else 0 := by
  by_cases hm : r.malloc = true
  · have halloc : created [.acquire .ctrlHandle, .touch [.ctrlHandle]] = [] := rfl
    have htouch : created [.touch [.ctrlHandle]] = [] := rfl
    have hfree : created [.release .ctrlHandle] = [] := rfl
    have hinit := controlInit_agrees (LifeCycle.zeroed w.nextId) w.os r
    obtain ⟨init, hwhole⟩ : ∃ init,
        LifeCycle.tcIpcControlInit (LifeCycle.zeroed w.nextId) w.os r = init := ⟨_, rfl⟩
    rw [hwhole, show (LifeCycle.zeroed w.nextId).id = w.nextId from rfl] at hinit
    simp only [LifeCycle.tcIpcCtrlOpen, tcIpcCtrlOpen, hm, hwhole, and_self, if_true]
    by_cases hret : (tcIpcControlInit r).ret = 0
    · have hparser := parserInit_agrees init.handle init.os r
      rw [hinit.id] at hparser
      have hboth := hinit.trans hparser ([.acquire .ctrlHandle, .touch [.ctrlHandle]] ++
        ((tcIpcControlInit r).main ++ [.touch [.ctrlHandle]] ++ (tcParserInit r).main)) (by
          simp only [created_append, halloc, htouch, List.append_nil, List.nil_append])
      rw [if_pos (hinit.ret.trans hret), if_pos hret]
      by_cases hzero : (tcParserInit r).ret = 0
      · simp only [hparser.ret, hzero, ne_eq, not_true_eq_false, if_false, if_true,
          List.length_cons]
        exact ⟨hboth.threads, trivial⟩
      · simp only [hparser.ret, hzero, ne_eq, not_false_eq_true, if_true, if_false, Nat.add_zero]
        refine ⟨?_, trivial⟩
        rw [hboth.threads, created_append _ [.release .ctrlHandle], hfree, List.nil_append]
    · have hne : init.ret ≠ 0 := fun heq => hret (hinit.ret.symm.trans heq)
      simp only [ne_eq, hne, hret, not_false_eq_true, if_true, if_false, Nat.add_zero]
      refine ⟨?_, trivial⟩
      rw [hinit.threads, created_append, created_append, halloc, hfree, List.append_nil,
        List.nil_append]
  · simp [LifeCycle.tcIpcCtrlOpen, tcIpcCtrlOpen, hm, created]

/-! No thread meets what has been released -/

theorem failed_guarded : ∀ main ∈ failed, Guarded code [] [] main := by decide

theorem returned_guarded (parserThreadRun : Bool) (sends : ℕ) :
    Guarded code [] [] (returned parserThreadRun ++
      (List.replicate sends (.touch [.ctrlHandle]) ++ tcIpcCtrlClose parserThreadRun)) := by
  cases parserThreadRun with
  | false =>
    have hclose : Guarded code [.parserHandle, .device, .ctrlHandle] [.write, .read]
        (tcIpcCtrlClose false) := by
      decide
    have hsends := guarded_touches [.ctrlHandle] (by decide) hclose sends
    simpa [returned, prepared, Guarded, code, Code.needs] using hsends
  | true =>
    have hclose : Guarded code [.parserHandle, .device, .ctrlHandle] [.parser, .write, .read]
        (tcIpcCtrlClose true) := by
      decide
    have hsends := guarded_touches [.ctrlHandle] (by decide) hclose sends
    simpa [returned, prepared, Guarded, code, Code.needs] using hsends

/-- The handle is freed, and ReadThread tests its flag in it. -/
theorem abandoned_meets : ∀ main ∈ abandoned, ∃ s,
    runFrom (step code) (start main)
      (List.replicate main.length .main ++ [.thread .read true]) = some s ∧
    s.place .read = .testing ∧ s.flag .read = true ∧ Resource.ctrlHandle ∉ s.held := by
  intro main hmain
  simp only [abandoned, List.mem_cons, List.not_mem_nil, or_false] at hmain
  rcases hmain with rfl | rfl
  · exact ⟨_, rfl, rfl, rfl, by decide⟩
  · exact ⟨_, rfl, rfl, rfl, by decide⟩

theorem abandoned_not_touchesHeld {main : List (Instr ThreadKind Resource)}
    (hmain : main ∈ abandoned) :
    ∃ s, Reach (step code) Free (start main) s ∧ ¬ TouchesHeld code s := by
  obtain ⟨s, hrun, hplace, hflag, hfreed⟩ := abandoned_meets main hmain
  refine ⟨s, reach_of_runFrom _ hrun, ?_⟩
  intro hholds
  have hstep : step code s (.thread .read true) = some (s.at .read (.inBody 0)) := by
    rw [step, hplace, hflag]
    rfl
  have htouched : Resource.ctrlHandle ∈ touches code s (.thread .read true) := by
    rw [touches, hplace]
    exact List.mem_singleton_self _
  exact hfreed (hholds _ _ hstep _ htouched)

/-- However the threads are interleaved with an open, any number of messages sent and a
close, no one touches memory that has been freed or a descriptor that has been closed,
if and only if the open does not fail with a thread running. -/
theorem touches_held_iff (r : Results) (sends : ℕ) :
    (∀ s, Reach (step code) Free (start (program r sends)) s → TouchesHeld code s) ↔
      ¬ Abandons r := by
  rcases open_cases r with ⟨hno, hret, hmain⟩ | ⟨hno, hret, hmain⟩ | ⟨hyes, hret, hmain⟩
  · refine ⟨fun _ => hno, fun _ s hs => ?_⟩
    rw [program_returned hret hmain rfl] at hs
    exact guarded_touchesHeld (returned_guarded _ sends) hs
  · refine ⟨fun _ => hno, fun _ s hs => ?_⟩
    rw [program_failed hret] at hs
    exact guarded_touchesHeld (failed_guarded _ hmain) hs
  · refine ⟨fun hall => ?_, fun hno => absurd hyes hno⟩
    obtain ⟨s, hs, hmeets⟩ := abandoned_not_touchesHeld hmain
    rw [← program_failed hret sends] at hs
    exact absurd (hall s hs) hmeets

/-! A close always comes to its end -/

/-- The longest loop body has four points. -/
theorem stepsLeft_le (kind : ThreadKind) (place : Place) : stepsLeft code kind place ≤ 6 := by
  cases place with
  | inBody n =>
    cases kind <;>
      simp only [stepsLeft, code, List.length_cons, List.length_nil] <;> omega
  | _ => exact Nat.le_of_ble_eq_true rfl

end TcIpcCtrl.Teardown
