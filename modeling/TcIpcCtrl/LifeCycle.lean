import TcIpcCtrl.CInt

/-!
Opening and closing handles. tc_ipc_ctrl_open acquires a handle, a descriptor,
two threads, a parser handle and a third thread, one after the other; the
results of the calls it makes are parameters. A handle is private to the call
until it is returned, so a failed call leaves only what it forgets to undo.
The effect of each call is stated once, as `open_cases` and `close_closed`.
-/
namespace TcIpcCtrl.LifeCycle

inductive ThreadKind
  | read
  | write
  | parser
deriving DecidableEq

/-- A running thread and the handle it was given. -/
structure Thread where
  kind : ThreadKind
  handle : ℕ
deriving DecidableEq

/-- struct ipc_ctrl_handle as far as the calls look at it. `id` is its address;
`pParserHandle` holds `parserThreadRun`, and `none` is NULL. -/
structure CtrlHandle where
  id : ℕ
  fd : ℤ
  readThreadRun : ℤ
  writeThreadRun : ℤ
  pParserHandle : Option ℤ
deriving DecidableEq

/-- What the operating system holds for the process. -/
structure Os where
  threads : List Thread
  openFds : List ℤ
deriving DecidableEq

def Os.spawn (os : Os) (kind : ThreadKind) (handle : ℕ) : Os :=
  { os with threads := ⟨kind, handle⟩ :: os.threads }

/-- pthread_join after the run flag has been cleared. -/
def Os.join (os : Os) (kind : ThreadKind) (handle : ℕ) : Os :=
  { os with threads := os.threads.filter (· ≠ ⟨kind, handle⟩) }

def Os.close (os : Os) (fd : ℤ) : Os :=
  { os with openFds := os.openFds.filter (· ≠ fd) }

/-- The results of the calls that one tc_ipc_ctrl_open makes; pthread_create
returns 0 or a positive error number. -/
structure Results where
  malloc : Bool
  openResult : ℤ
  ioctl : ℤ
  createRead : ℕ
  createWrite : ℕ
  mallocParser : Bool
  createParser : ℕ

structure Outcome where
  ret : ℤ
  handle : CtrlHandle
  os : Os

def tcStartReadthread (h : CtrlHandle) (os : Os) (create : ℕ) : Outcome :=
  if create ≠ 0 then { ret := create, handle := { h with readThreadRun := 0 }, os := os }
  else { ret := 0, handle := { h with readThreadRun := 1 }, os := os.spawn .read h.id }

def tcStartWritethread (h : CtrlHandle) (os : Os) (create : ℕ) : Outcome :=
  -- On failure the source clears `writeThread` and leaves `writeThreadRun` set.
  if create ≠ 0 then { ret := create, handle := { h with writeThreadRun := 1 }, os := os }
  else { ret := 0, handle := { h with writeThreadRun := 1 }, os := os.spawn .write h.id }

def ipcSetparam (fd : ℤ) (ioctl : ℤ) : ℤ := if fd > -1 then ioctl else -1

/-- The threads are started in turn, each only if `ret` is still 0. -/
def startThreads (ret : ℤ) (h : CtrlHandle) (os : Os) (r : Results) : Outcome :=
  let started :=
    if ret = 0 then tcStartReadthread h os r.createRead
    else { ret := ret, handle := h, os := os }
  if started.ret = 0 then tcStartWritethread started.handle started.os r.createWrite
  else started

def tcIpcControlInit (h : CtrlHandle) (os : Os) (r : Results) : Outcome :=
  -- What ipc_status answers after ipc_setparam is only logged.
  if r.openResult > -1 then
    startThreads (ipcSetparam r.openResult r.ioctl) { h with fd := r.openResult }
      { os with openFds := r.openResult :: os.openFds } r
  else startThreads (-1) { h with fd := r.openResult } os r

def tcStopParserthread (h : CtrlHandle) (os : Os) : CtrlHandle × Os :=
  if h.pParserHandle = some 1 then
    ({ h with pParserHandle := some 0 }, os.join .parser h.id)
  else (h, os)

def tcParserRelease (h : CtrlHandle) (os : Os) : CtrlHandle × Os :=
  if h.pParserHandle ≠ none then
    ({ (tcStopParserthread h os).1 with pParserHandle := none }, (tcStopParserthread h os).2)
  else (h, os)

def tcStartParserthread (h : CtrlHandle) (os : Os) (create : ℕ) : Outcome :=
  if create ≠ 0 then { ret := create, handle := { h with pParserHandle := some 0 }, os := os }
  else { ret := 0, handle := { h with pParserHandle := some 1 }, os := os.spawn .parser h.id }

def tcParserInit (h : CtrlHandle) (os : Os) (r : Results) : Outcome :=
  if r.mallocParser then
    let started := tcStartParserthread h os r.createParser
    -- A positive error number passes this test.
    if started.ret < 0 then
      { ret := started.ret
        handle := (tcParserRelease started.handle started.os).1
        os := (tcParserRelease started.handle started.os).2 }
    else { started with ret := 0 }
  else { ret := -1, handle := { h with pParserHandle := none }, os := os }

def tcStopReadthread (h : CtrlHandle) (os : Os) : CtrlHandle × Os :=
  if h.readThreadRun = 1 then ({ h with readThreadRun := 0 }, os.join .read h.id) else (h, os)

def tcStopWritethread (h : CtrlHandle) (os : Os) : CtrlHandle × Os :=
  if h.writeThreadRun = 1 then ({ h with writeThreadRun := 0 }, os.join .write h.id) else (h, os)

def tcIpcControlRelease (h : CtrlHandle) (os : Os) : Os :=
  let afterRead := tcStopReadthread h os
  let afterWrite := tcStopWritethread afterRead.1 afterRead.2
  afterWrite.2.close afterWrite.1.fd

/-- The process between two calls. `handles` are those allocated and not freed;
addresses are not used twice. -/
structure World where
  nextId : ℕ
  handles : List CtrlHandle
  os : Os
deriving DecidableEq

def World.start : World := { nextId := 0, handles := [], os := { threads := [], openFds := [] } }

/-- What memset leaves of a new handle. -/
def zeroed (id : ℕ) : CtrlHandle :=
  { id := id, fd := 0, readThreadRun := 0, writeThreadRun := 0, pParserHandle := none }

/-- The returned pointer is the handle that joins `handles`, or NULL. -/
def tcIpcCtrlOpen (w : World) (device eventCb : Bool) (r : Results) : World :=
  if device ∧ eventCb then
    if r.malloc then
      let init := tcIpcControlInit (zeroed w.nextId) w.os r
      let opened := if init.ret = 0 then tcParserInit init.handle init.os r else init
      if opened.ret ≠ 0 then { w with nextId := w.nextId + 1, os := opened.os }
      else { nextId := w.nextId + 1, handles := opened.handle :: w.handles, os := opened.os }
    else w
  else w

def tcIpcCtrlClose (w : World) (h : CtrlHandle) : World :=
  let released := tcParserRelease h w.os
  { w with
    handles := w.handles.filter (· ≠ h)
    os := tcIpcControlRelease released.1 released.2 }

inductive Call
  | openHandle (device eventCb : Bool) (r : Results)
  | closeNull
  | closeHandle (h : CtrlHandle)

/-- A descriptor that is open is not handed out again, and only handles that have
been returned and not closed are closed. -/
def step (w : World) : Call → Option World
  | .openHandle device eventCb r =>
    if r.openResult ∈ w.os.openFds then none else some (tcIpcCtrlOpen w device eventCb r)
  | .closeNull => some w
  | .closeHandle h => if h ∈ w.handles then some (tcIpcCtrlClose w h) else none

/-- Once the device is open, nothing fails any more. -/
def Clean : Call → Prop
  | .openHandle device eventCb r =>
    device = true → eventCb = true → r.malloc = true → r.openResult > -1 →
      r.ioctl = 0 ∧ r.createRead = 0 ∧ r.createWrite = 0 ∧ r.mallocParser = true ∧
        r.createParser = 0
  | .closeNull => True
  | .closeHandle _ => True


/-- What a handle that has been returned and not closed still has. -/
structure Alive (w : World) (h : CtrlHandle) : Prop where
  recent : h.id < w.nextId
  descriptor : h.fd ∈ w.os.openFds
  reading : h.readThreadRun = 1
  writing : h.writeThreadRun = 1
  parsing : h.pParserHandle = some 1 ∨
    h.pParserHandle = some 0 ∧ (⟨.parser, h.id⟩ : Thread) ∉ w.os.threads

theorem Alive.mono {w u : World} {h : CtrlHandle} (hh : Alive w h) (hid : w.nextId ≤ u.nextId)
    (hfd : h.fd ∈ u.os.openFds)
    (hthreads : ∀ t ∈ u.os.threads, t.handle = h.id → t ∈ w.os.threads) :
    Alive u h := by
  refine ⟨lt_of_lt_of_le hh.recent hid, hfd, hh.reading, hh.writing, ?_⟩
  rcases hh.parsing with hrun | ⟨hstopped, hnone⟩
  · exact .inl hrun
  · exact .inr ⟨hstopped, fun ht => hnone (hthreads _ ht rfl)⟩

theorem Os.mem_threads_spawn (os : Os) (kind : ThreadKind) (handle : ℕ) (t : Thread) :
    t ∈ (os.spawn kind handle).threads ↔ t = ⟨kind, handle⟩ ∨ t ∈ os.threads :=
  List.mem_cons

theorem Os.mem_threads_join (os : Os) (kind : ThreadKind) (handle : ℕ) (t : Thread) :
    t ∈ (os.join kind handle).threads ↔ t ∈ os.threads ∧ t ≠ ⟨kind, handle⟩ := by
  simp [Os.join]

theorem Os.mem_openFds_close (os : Os) (fd d : ℤ) :
    d ∈ (os.close fd).openFds ↔ d ∈ os.openFds ∧ d ≠ fd := by
  simp [Os.close]

/-- What the closing of `h` takes away. -/
structure Closed (w u : World) (h : CtrlHandle) : Prop where
  nextId : u.nextId = w.nextId
  handles : ∀ g, g ∈ u.handles ↔ g ∈ w.handles ∧ g ≠ h
  threads : ∀ t, t ∈ u.os.threads ↔ t ∈ w.os.threads ∧ t.handle ≠ h.id
  descriptors : ∀ fd, fd ∈ u.os.openFds ↔ fd ∈ w.os.openFds ∧ fd ≠ h.fd

/-- tc_parser_release: afterwards no parser thread of the handle runs. -/
theorem parserRelease_spec {w : World} {h : CtrlHandle} (hh : Alive w h) :
    (tcParserRelease h w.os).1 = { h with pParserHandle := none } ∧
      (tcParserRelease h w.os).2.openFds = w.os.openFds ∧
      ∀ t, t ∈ (tcParserRelease h w.os).2.threads ↔
        t ∈ w.os.threads ∧ t ≠ ⟨.parser, h.id⟩ := by
  rcases hh.parsing with hrun | ⟨hstopped, hnone⟩
  · have hne : h.pParserHandle ≠ none := by simp [hrun]
    rw [tcParserRelease, if_pos hne, tcStopParserthread, if_pos hrun]
    exact ⟨rfl, rfl, Os.mem_threads_join w.os .parser h.id⟩
  · have hne : h.pParserHandle ≠ none := by simp [hstopped]
    have hrun : ¬ h.pParserHandle = some 1 := by simp [hstopped]
    rw [tcParserRelease, if_pos hne, tcStopParserthread, if_neg hrun]
    refine ⟨rfl, rfl, fun t => ⟨fun ht => ⟨ht, ?_⟩, fun ht => ht.1⟩⟩
    rintro rfl
    exact hnone ht

theorem controlRelease_spec {h : CtrlHandle} {os : Os} (hread : h.readThreadRun = 1)
    (hwrite : h.writeThreadRun = 1) :
    tcIpcControlRelease h os = ((os.join .read h.id).join .write h.id).close h.fd := by
  have hr : tcStopReadthread h os = ({ h with readThreadRun := 0 }, os.join .read h.id) :=
    if_pos hread
  rw [tcIpcControlRelease, hr, tcStopWritethread, if_pos hwrite]

theorem close_closed {w : World} {h : CtrlHandle} (hh : Alive w h) :
    Closed w (tcIpcCtrlClose w h) h := by
  obtain ⟨hleft, hfds, hthreads⟩ := parserRelease_spec hh
  have hos : (tcIpcCtrlClose w h).os =
      (((tcParserRelease h w.os).2.join .read h.id).join .write h.id).close h.fd := by
    simp only [tcIpcCtrlClose, hleft]
    exact controlRelease_spec (h := { h with pParserHandle := none }) hh.reading hh.writing
  refine ⟨rfl, fun g => ?_, fun t => ?_, fun fd => ?_⟩
  · simp [tcIpcCtrlClose]
  · rw [hos]
    simp only [Os.close, Os.mem_threads_join, hthreads]
    obtain ⟨kind, handle⟩ := t
    cases kind <;> simp
  · rw [hos, Os.mem_openFds_close]
    simp only [Os.join, hfds]

/-- An open that failed with the device open: the handle is freed, and what was
acquired for it stays. -/
structure Abandoned (w u : World) (fd : ℤ) : Prop where
  nextId : u.nextId = w.nextId + 1
  handles : u.handles = w.handles
  threads : ∃ started, u.os.threads = started ++ w.os.threads ∧
    ∀ t ∈ started, t.handle = w.nextId
  descriptors : u.os.openFds = fd :: w.os.openFds

/-- An open that returned the handle `g`. -/
structure Returned (w u : World) (g : CtrlHandle) : Prop where
  nextId : u.nextId = w.nextId + 1
  handles : u.handles = g :: w.handles
  id : g.id = w.nextId
  reading : g.readThreadRun = 1
  writing : g.writeThreadRun = 1
  parsing : g.pParserHandle = some 1 ∨ g.pParserHandle = some 0
  threads : ∀ t, t ∈ u.os.threads ↔ t ∈ w.os.threads ∨
    t.handle = w.nextId ∧ (t.kind = .parser → g.pParserHandle = some 1)
  descriptors : u.os.openFds = g.fd :: w.os.openFds

/-- All that tc_ipc_control_init acquires. -/
def initialized (id : ℕ) (os : Os) (fd : ℤ) : Outcome where
  ret := 0
  handle := ⟨id, fd, 1, 1, none⟩
  os := (({ os with openFds := fd :: os.openFds } : Os).spawn .read id).spawn .write id

theorem controlInit_ok (id : ℕ) (os : Os) {r : Results} (hopen : r.openResult > -1)
    (hioctl : r.ioctl = 0) (hread : r.createRead = 0) (hwrite : r.createWrite = 0) :
    tcIpcControlInit (zeroed id) os r = initialized id os r.openResult := by
  simp [tcIpcControlInit, hopen, startThreads, ipcSetparam, hioctl, tcStartReadthread,
    tcStartWritethread, hread, hwrite, zeroed, initialized]

/-- A failure of tc_ipc_control_init leaves the descriptor open, and the read
thread running if it was started. -/
theorem controlInit_failed (id : ℕ) (os : Os) {r : Results} (hopen : r.openResult > -1)
    (hfail : ¬ (r.ioctl = 0 ∧ r.createRead = 0 ∧ r.createWrite = 0)) :
    (tcIpcControlInit (zeroed id) os r).ret ≠ 0 ∧
      (tcIpcControlInit (zeroed id) os r).os.openFds = r.openResult :: os.openFds ∧
      ∃ started, (tcIpcControlInit (zeroed id) os r).os.threads = started ++ os.threads ∧
        ∀ t ∈ started, t.handle = id := by
  by_cases hioctl : r.ioctl = 0
  case neg =>
    have hu : tcIpcControlInit (zeroed id) os r =
        ⟨r.ioctl, { zeroed id with fd := r.openResult },
          { os with openFds := r.openResult :: os.openFds }⟩ := by
      simp [tcIpcControlInit, hopen, startThreads, ipcSetparam, hioctl]
    rw [hu]
    exact ⟨hioctl, rfl, [], rfl, List.forall_mem_nil _⟩
  by_cases hread : r.createRead = 0
  case neg =>
    have hu : tcIpcControlInit (zeroed id) os r =
        ⟨r.createRead, { zeroed id with fd := r.openResult },
          { os with openFds := r.openResult :: os.openFds }⟩ := by
      simp [tcIpcControlInit, hopen, startThreads, ipcSetparam, hioctl, tcStartReadthread,
        hread, zeroed]
    rw [hu]
    exact ⟨Int.natCast_ne_zero.mpr hread, rfl, [], rfl, List.forall_mem_nil _⟩
  have hwrite : r.createWrite ≠ 0 := fun h => hfail ⟨hioctl, hread, h⟩
  have hu : tcIpcControlInit (zeroed id) os r =
      ⟨r.createWrite, ⟨id, r.openResult, 1, 1, none⟩,
        ({ os with openFds := r.openResult :: os.openFds } : Os).spawn .read id⟩ := by
    simp [tcIpcControlInit, hopen, startThreads, ipcSetparam, hioctl, tcStartReadthread,
      tcStartWritethread, hread, hwrite, zeroed]
  rw [hu]
  refine ⟨Int.natCast_ne_zero.mpr hwrite, rfl, [⟨.read, id⟩], rfl, ?_⟩
  intro t ht
  rw [List.mem_singleton.mp ht]

/-- tc_parser_init on a handle that tc_ipc_control_init has completed. A parser
thread that cannot be created does not make it fail. -/
theorem parserInit_spec (h : CtrlHandle) (os : Os) (r : Results) :
    tcParserInit h os r =
      if r.mallocParser then
        if r.createParser = 0 then ⟨0, { h with pParserHandle := some 1 }, os.spawn .parser h.id⟩
        else ⟨0, { h with pParserHandle := some 0 }, os⟩
      else ⟨-1, { h with pParserHandle := none }, os⟩ := by
  by_cases hmalloc : r.mallocParser = true
  · by_cases hcreate : r.createParser = 0
    · simp [tcParserInit, hmalloc, tcStartParserthread, hcreate]
    · have hpos : ¬ (r.createParser : ℤ) < 0 := by omega
      simp [tcParserInit, hmalloc, tcStartParserthread, hcreate, hpos]
  · simp [tcParserInit, hmalloc]

theorem open_idle (w : World) {device eventCb : Bool} {r : Results}
    (h : ¬ (device = true ∧ eventCb = true ∧ r.malloc = true ∧ r.openResult > -1)) :
    (tcIpcCtrlOpen w device eventCb r).handles = w.handles ∧
      (tcIpcCtrlOpen w device eventCb r).os = w.os ∧
      w.nextId ≤ (tcIpcCtrlOpen w device eventCb r).nextId := by
  by_cases hargs : device ∧ eventCb
  case neg => simp [tcIpcCtrlOpen, hargs]
  by_cases hmalloc : r.malloc = true
  case neg => simp [tcIpcCtrlOpen, hmalloc]
  have hopen : ¬ r.openResult > -1 := fun hopen => h ⟨hargs.1, hargs.2, hmalloc, hopen⟩
  simp [tcIpcCtrlOpen, hargs.1, hargs.2, hmalloc, tcIpcControlInit, hopen, startThreads]

theorem open_abandons (w : World) {r : Results} (hmalloc : r.malloc = true)
    (hopen : r.openResult > -1)
    (hfail : ¬ ((r.ioctl = 0 ∧ r.createRead = 0 ∧ r.createWrite = 0) ∧ r.mallocParser = true)) :
    Abandoned w (tcIpcCtrlOpen w true true r) r.openResult := by
  by_cases hinit : r.ioctl = 0 ∧ r.createRead = 0 ∧ r.createWrite = 0
  · have hparser : ¬ r.mallocParser = true := fun h => hfail ⟨hinit, h⟩
    have hcontrol := controlInit_ok w.nextId w.os hopen hinit.1 hinit.2.1 hinit.2.2
    have hu : tcIpcCtrlOpen w true true r = { w with
        nextId := w.nextId + 1, os := (initialized w.nextId w.os r.openResult).os } := by
      simp [tcIpcCtrlOpen, hmalloc, hcontrol, parserInit_spec, hparser, initialized]
    rw [hu]
    exact ⟨rfl, rfl, ⟨[⟨.write, w.nextId⟩, ⟨.read, w.nextId⟩], rfl, by simp⟩, rfl⟩
  · obtain ⟨hret, hfds, hthreads⟩ := controlInit_failed w.nextId w.os hopen hinit
    have hu : tcIpcCtrlOpen w true true r =
        { w with
          nextId := w.nextId + 1, os := (tcIpcControlInit (zeroed w.nextId) w.os r).os } := by
      simp [tcIpcCtrlOpen, hmalloc, hret]
    rw [hu]
    exact ⟨rfl, rfl, hthreads, hfds⟩

theorem open_returns (w : World) {r : Results} (hmalloc : r.malloc = true)
    (hopen : r.openResult > -1)
    (hinit : r.ioctl = 0 ∧ r.createRead = 0 ∧ r.createWrite = 0) (hparser : r.mallocParser = true) :
    ∃ g, g.fd = r.openResult ∧ Returned w (tcIpcCtrlOpen w true true r) g ∧
      (r.createParser = 0 ↔ g.pParserHandle = some 1) := by
  have hcontrol := controlInit_ok w.nextId w.os hopen hinit.1 hinit.2.1 hinit.2.2
  by_cases hcreate : r.createParser = 0
  · have hu : tcIpcCtrlOpen w true true r =
        ⟨w.nextId + 1, ⟨w.nextId, r.openResult, 1, 1, some 1⟩ :: w.handles,
          (initialized w.nextId w.os r.openResult).os.spawn .parser w.nextId⟩ := by
      simp [tcIpcCtrlOpen, hmalloc, hcontrol, parserInit_spec, hparser, hcreate, initialized]
    rw [hu]
    refine ⟨_, rfl, ⟨rfl, rfl, rfl, rfl, rfl, .inl rfl, ?_, rfl⟩, by simp [hcreate]⟩
    rintro ⟨kind, handle⟩
    simp only [initialized, Os.mem_threads_spawn]
    cases kind <;> simp [or_comm]
  · have hu : tcIpcCtrlOpen w true true r =
        ⟨w.nextId + 1, ⟨w.nextId, r.openResult, 1, 1, some 0⟩ :: w.handles,
          (initialized w.nextId w.os r.openResult).os⟩ := by
      simp [tcIpcCtrlOpen, hmalloc, hcontrol, parserInit_spec, hparser, hcreate, initialized]
    rw [hu]
    refine ⟨_, rfl, ⟨rfl, rfl, rfl, rfl, rfl, .inr rfl, ?_, rfl⟩, by simp [hcreate]⟩
    rintro ⟨kind, handle⟩
    simp only [initialized, Os.mem_threads_spawn]
    cases kind <;> simp [or_comm]

/-- The ways an open can end: nothing happened, it failed halfway, or it returned
a handle. -/
theorem open_cases (w : World) (device eventCb : Bool) (r : Results) :
    (Clean (.openHandle device eventCb r) ∧
      (tcIpcCtrlOpen w device eventCb r).handles = w.handles ∧
      (tcIpcCtrlOpen w device eventCb r).os = w.os ∧
      w.nextId ≤ (tcIpcCtrlOpen w device eventCb r).nextId) ∨
    (¬ Clean (.openHandle device eventCb r) ∧
      Abandoned w (tcIpcCtrlOpen w device eventCb r) r.openResult) ∨
    ∃ g, g.fd = r.openResult ∧ Returned w (tcIpcCtrlOpen w device eventCb r) g ∧
      (Clean (.openHandle device eventCb r) ↔ g.pParserHandle = some 1) := by
  by_cases hacquires : device = true ∧ eventCb = true ∧ r.malloc = true ∧ r.openResult > -1
  case neg =>
    have hclean : Clean (.openHandle device eventCb r) := fun hdevice hcb hmalloc hopen =>
      absurd ⟨hdevice, hcb, hmalloc, hopen⟩ hacquires
    exact .inl ⟨hclean, open_idle w hacquires⟩
  obtain ⟨rfl, rfl, hmalloc, hopen⟩ := hacquires
  have hclean : Clean (.openHandle true true r) ↔ r.ioctl = 0 ∧ r.createRead = 0 ∧
      r.createWrite = 0 ∧ r.mallocParser = true ∧ r.createParser = 0 := by
    simp only [Clean, hmalloc, hopen, forall_true_left]
  rw [hclean]
  by_cases hgot : (r.ioctl = 0 ∧ r.createRead = 0 ∧ r.createWrite = 0) ∧ r.mallocParser = true
  case neg =>
    refine .inr (.inl ⟨fun h => hgot ⟨⟨h.1, h.2.1, h.2.2.1⟩, h.2.2.2.1⟩, ?_⟩)
    exact open_abandons w hmalloc hopen hgot
  obtain ⟨hinit, hparser⟩ := hgot
  obtain ⟨g, hfd, hreturned, hcreate⟩ := open_returns w hmalloc hopen hinit hparser
  refine .inr (.inr ⟨g, hfd, hreturned, ?_⟩)
  rw [← hcreate]
  exact ⟨fun h => h.2.2.2.2, fun h => ⟨hinit.1, hinit.2.1, hinit.2.2, hparser, h⟩⟩

end TcIpcCtrl.LifeCycle
