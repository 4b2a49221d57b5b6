import TcIpcCtrl.LifeCycle
import TcIpcCtrl.Runs

/-!
Who owns the threads and descriptors of a process over whole runs of opens and
closes. Every call keeps the handles apart and their run flags set, failed calls
included. Ownership itself is kept by exactly the calls that do not fail with
the device open, since no path of tc_ipc_ctrl_open closes it again.
-/
namespace TcIpcCtrl.Ownership

open LifeCycle Runs

/-- Threads and descriptors belong to handles, and handles have all of theirs. -/
structure WellOwned (w : World) : Prop where
  threads : ∀ t ∈ w.os.threads, ∃ h ∈ w.handles, h.id = t.handle
  descriptors : ∀ fd ∈ w.os.openFds, ∃ h ∈ w.handles, h.fd = fd
  started : ∀ h ∈ w.handles, h.fd ∈ w.os.openFds ∧
    ∀ kind, (⟨kind, h.id⟩ : Thread) ∈ w.os.threads

/-- Kept by every call, whether or not something fails. -/
structure Consistent (w : World) : Prop where
  alive : ∀ h ∈ w.handles, Alive w h
  recent : ∀ t ∈ w.os.threads, t.handle < w.nextId
  ids : ∀ h ∈ w.handles, ∀ g ∈ w.handles, h.id = g.id → h = g
  fds : ∀ h ∈ w.handles, ∀ g ∈ w.handles, h.fd = g.fd → h = g

theorem start_consistent : Consistent World.start where
  alive _ hh := absurd hh List.not_mem_nil
  recent _ ht := absurd ht List.not_mem_nil
  ids _ hh := absurd hh List.not_mem_nil
  fds _ hh := absurd hh List.not_mem_nil

theorem start_wellOwned : WellOwned World.start where
  threads _ ht := absurd ht List.not_mem_nil
  descriptors _ hfd := absurd hfd List.not_mem_nil
  started _ hh := absurd hh List.not_mem_nil

theorem Consistent.abandon {w u : World} {fd : ℤ} (hw : Consistent w) (h : Abandoned w u fd) :
    Consistent u := by
  obtain ⟨started, hstarted, howner⟩ := h.threads
  refine ⟨fun g hg => ?_, fun t ht => ?_, ?_, ?_⟩
  · rw [h.handles] at hg
    have halive := hw.alive g hg
    refine halive.mono (by rw [h.nextId]; omega) ?_ fun t ht hid => ?_
    · rw [h.descriptors]
      exact List.mem_cons_of_mem _ halive.descriptor
    · rw [hstarted] at ht
      rcases List.mem_append.mp ht with hnew | hold
      · have hhandle := howner t hnew
        have hrecent := halive.recent
        omega
      · exact hold
  · rw [h.nextId]
    rw [hstarted] at ht
    rcases List.mem_append.mp ht with hnew | hold
    · have hhandle := howner t hnew
      omega
    · have hrecent := hw.recent t hold
      omega
  · rw [h.handles]
    exact hw.ids
  · rw [h.handles]
    exact hw.fds

theorem distinct_cons {β : Type} (f : CtrlHandle → β) {g : CtrlHandle} {hs : List CtrlHandle}
    (hnew : ∀ h ∈ hs, f h ≠ f g) (hold : ∀ h ∈ hs, ∀ h' ∈ hs, f h = f h' → h = h') :
    ∀ h ∈ g :: hs, ∀ h' ∈ g :: hs, f h = f h' → h = h' := by
  intro h hh h' hh' heq
  rcases List.mem_cons.mp hh with rfl | hmem
  · rcases List.mem_cons.mp hh' with rfl | hmem'
    · rfl
    · exact absurd heq.symm (hnew h' hmem')
  · rcases List.mem_cons.mp hh' with rfl | hmem'
    · exact absurd heq (hnew h hmem)
    · exact hold h hmem h' hmem' heq

/-- No thread had the address of the new handle before. -/
theorem returned_alive {w u : World} {g : CtrlHandle} (h : Returned w u g) (hw : Consistent w) :
    Alive u g := by
  refine ⟨?_, ?_, h.reading, h.writing, ?_⟩
  · rw [h.id, h.nextId]
    omega
  · rw [h.descriptors]
    exact List.mem_cons_self
  · rcases h.parsing with hrun | hstopped
    · exact .inl hrun
    · refine .inr ⟨hstopped, fun ht => ?_⟩
      rcases (h.threads _).mp ht with hold | ⟨_, hkind⟩
      · have hlt : g.id < w.nextId := hw.recent _ hold
        rw [h.id] at hlt
        exact Nat.lt_irrefl _ hlt
      · simp [hstopped] at hkind

/-- The new handle has a new address and a descriptor that was not open. -/
theorem Consistent.return {w u : World} {g : CtrlHandle} (hw : Consistent w)
    (h : Returned w u g) (hfresh : g.fd ∉ w.os.openFds) : Consistent u := by
  have hnewId : ∀ f ∈ w.handles, f.id ≠ g.id := by
    intro f hf
    rw [h.id]
    exact Nat.ne_of_lt (hw.alive f hf).recent
  have hnewFd : ∀ f ∈ w.handles, f.fd ≠ g.fd := by
    intro f hf hfd
    exact hfresh (hfd ▸ (hw.alive f hf).descriptor)
  refine ⟨fun f hf => ?_, fun t ht => ?_, ?_, ?_⟩
  · rw [h.handles] at hf
    rcases List.mem_cons.mp hf with rfl | hold
    · exact returned_alive h hw
    · have halive := hw.alive f hold
      refine halive.mono (by rw [h.nextId]; omega) ?_ fun t ht hid => ?_
      · rw [h.descriptors]
        exact List.mem_cons_of_mem _ halive.descriptor
      · rcases (h.threads t).mp ht with hwas | ⟨howner, _⟩
        · exact hwas
        · have hrecent := halive.recent
          omega
  · rw [h.nextId]
    rcases (h.threads t).mp ht with hwas | ⟨howner, _⟩
    · have hrecent := hw.recent t hwas
      omega
    · omega
  · rw [h.handles]
    exact distinct_cons CtrlHandle.id hnewId hw.ids
  · rw [h.handles]
    exact distinct_cons CtrlHandle.fd hnewFd hw.fds

theorem Consistent.close {w u : World} {h : CtrlHandle} (hw : Consistent w) (hh : h ∈ w.handles)
    (hclosed : Closed w u h) : Consistent u := by
  refine ⟨fun g hg => ?_, fun t ht => ?_, fun g hg g' hg' => ?_, fun g hg g' hg' => ?_⟩
  · obtain ⟨hg, hne⟩ := (hclosed.handles g).mp hg
    have halive := hw.alive g hg
    refine halive.mono (le_of_eq hclosed.nextId.symm) ?_ fun t ht _ => ?_
    · refine (hclosed.descriptors g.fd).mpr ⟨halive.descriptor, fun hfd => hne ?_⟩
      exact hw.fds g hg h hh hfd
    · exact ((hclosed.threads t).mp ht).1
  · rw [hclosed.nextId]
    exact hw.recent t ((hclosed.threads t).mp ht).1
  · exact hw.ids g ((hclosed.handles g).mp hg).1 g' ((hclosed.handles g').mp hg').1
  · exact hw.fds g ((hclosed.handles g).mp hg).1 g' ((hclosed.handles g').mp hg').1

theorem step_consistent {w u : World} {e : Call} (hw : Consistent w) (h : step w e = some u) :
    Consistent u := by
  cases e with
  | openHandle device eventCb r =>
    obtain ⟨hfresh, hu⟩ := Option.ite_none_left_eq_some.mp h
    obtain rfl := Option.some.inj hu
    rcases open_cases w device eventCb r with ⟨_, hhandles, hos, hid⟩ | ⟨_, hleft⟩ |
      ⟨g, hfd, hreturned, _⟩
    · refine ⟨fun g hg => ?_, fun t ht => ?_, hhandles ▸ hw.ids, hhandles ▸ hw.fds⟩
      · have halive := hw.alive g (hhandles ▸ hg)
        refine halive.mono hid ?_ fun t ht _ => hos ▸ ht
        rw [hos]
        exact halive.descriptor
      · exact lt_of_lt_of_le (hw.recent t (hos ▸ ht)) hid
    · exact hw.abandon hleft
    · exact hw.return hreturned (hfd ▸ hfresh)
  | closeNull =>
    obtain rfl : w = u := Option.some.inj h
    exact hw
  | closeHandle g =>
    obtain ⟨hg, hu⟩ := Option.ite_none_right_eq_some.mp h
    obtain rfl := Option.some.inj hu
    exact hw.close hg (close_closed (hw.alive g hg))

/-- An abandoned descriptor is open and no handle has it. -/
theorem abandoned_not_wellOwned {w u : World} {fd : ℤ} (h : Abandoned w u fd)
    (hw : Consistent w) (hfresh : fd ∉ w.os.openFds) : ¬ WellOwned u := by
  intro howned
  have hmem : fd ∈ u.os.openFds := by
    rw [h.descriptors]
    exact List.mem_cons_self
  obtain ⟨g, hg, rfl⟩ := howned.descriptors fd hmem
  rw [h.handles] at hg
  exact hfresh (hw.alive g hg).descriptor

theorem returned_wellOwned_iff {w u : World} {g : CtrlHandle} (h : Returned w u g)
    (hw : Consistent w) (howned : WellOwned w) :
    WellOwned u ↔ g.pParserHandle = some 1 := by
  have hkept : ∀ f ∈ w.handles, f ∈ u.handles := fun f hf => by
    rw [h.handles]
    exact List.mem_cons_of_mem _ hf
  have hmem : g ∈ u.handles := by
    rw [h.handles]
    exact List.mem_cons_self
  constructor
  · intro hu
    have hthread := (hu.started g hmem).2 .parser
    rcases (h.threads _).mp hthread with hold | ⟨_, hkind⟩
    · have hlt : g.id < w.nextId := hw.recent _ hold
      rw [h.id] at hlt
      exact absurd hlt (Nat.lt_irrefl _)
    · exact hkind rfl
  · intro hrun
    refine ⟨fun t ht => ?_, fun fd hfd => ?_, fun f hf => ?_⟩
    · rcases (h.threads t).mp ht with hold | ⟨howner, _⟩
      · obtain ⟨f, hf, hid⟩ := howned.threads t hold
        exact ⟨f, hkept f hf, hid⟩
      · exact ⟨g, hmem, h.id.trans howner.symm⟩
    · rw [h.descriptors] at hfd
      rcases List.mem_cons.mp hfd with rfl | hold
      · exact ⟨g, hmem, rfl⟩
      · obtain ⟨f, hf, heq⟩ := howned.descriptors fd hold
        exact ⟨f, hkept f hf, heq⟩
    · rw [h.handles] at hf
      rw [h.descriptors]
      rcases List.mem_cons.mp hf with rfl | hold
      · exact ⟨List.mem_cons_self, fun kind => (h.threads _).mpr (.inr ⟨h.id, fun _ => hrun⟩)⟩
      · obtain ⟨hfd, hthreads⟩ := howned.started f hold
        exact ⟨List.mem_cons_of_mem _ hfd, fun kind => (h.threads _).mpr (.inl (hthreads kind))⟩

theorem closed_wellOwned {w u : World} {h : CtrlHandle} (hclosed : Closed w u h)
    (hw : Consistent w) (hh : h ∈ w.handles) (howned : WellOwned w) : WellOwned u := by
  refine ⟨fun t ht => ?_, fun fd hfd => ?_, fun g hg => ?_⟩
  · obtain ⟨ht, hne⟩ := (hclosed.threads t).mp ht
    obtain ⟨g, hg, hid⟩ := howned.threads t ht
    refine ⟨g, (hclosed.handles g).mpr ⟨hg, ?_⟩, hid⟩
    rintro rfl
    exact hne hid.symm
  · obtain ⟨hfd, hne⟩ := (hclosed.descriptors fd).mp hfd
    obtain ⟨g, hg, rfl⟩ := howned.descriptors fd hfd
    refine ⟨g, (hclosed.handles g).mpr ⟨hg, ?_⟩, rfl⟩
    rintro rfl
    exact hne rfl
  · obtain ⟨hg, hne⟩ := (hclosed.handles g).mp hg
    obtain ⟨hfd, hthreads⟩ := howned.started g hg
    refine ⟨(hclosed.descriptors _).mpr ⟨hfd, fun heq => hne ?_⟩, fun kind => ?_⟩
    · exact hw.fds g hg h hh heq
    · refine (hclosed.threads _).mpr ⟨hthreads kind, fun heq => hne ?_⟩
      exact hw.ids g hg h hh heq

theorem step_wellOwned_iff {w u : World} {e : Call} (hw : Consistent w) (howned : WellOwned w)
    (h : step w e = some u) : WellOwned u ↔ Clean e := by
  cases e with
  | openHandle device eventCb r =>
    obtain ⟨hfresh, hu⟩ := Option.ite_none_left_eq_some.mp h
    obtain rfl := Option.some.inj hu
    rcases open_cases w device eventCb r with ⟨hclean, hhandles, hos, _⟩ | ⟨hfailed, hleft⟩ |
      ⟨g, hfd, hreturned, hclean⟩
    · refine iff_of_true ⟨?_, ?_, ?_⟩ hclean
      · rw [hhandles, hos]
        exact howned.threads
      · rw [hhandles, hos]
        exact howned.descriptors
      · rw [hhandles, hos]
        exact howned.started
    · exact iff_of_false (abandoned_not_wellOwned hleft hw hfresh) hfailed
    · exact (returned_wellOwned_iff hreturned hw howned).trans hclean.symm
  | closeNull =>
    obtain rfl : w = u := Option.some.inj h
    exact iff_of_true howned trivial
  | closeHandle g =>
    obtain ⟨hg, hu⟩ := Option.ite_none_right_eq_some.mp h
    obtain rfl := Option.some.inj hu
    exact iff_of_true (closed_wellOwned (close_closed (hw.alive g hg)) hw hg howned) trivial

/-- Whatever is open or running belongs to a handle after every call of a run,
exactly if no open of the run fails with the device open. -/
theorem run_wellOwned_iff (es : List Call) (w : World)
    (hrun : runFrom step World.start es = some w) :
    (∀ u, Visits step World.start es u → WellOwned u) ↔
      ∀ u e, Takes step World.start es u e → Clean e :=
  visits_iff_takes Consistent WellOwned (fun _ e => Clean e) start_consistent start_wellOwned
    (fun _ _ _ hw hs => step_consistent hw hs)
    (fun _ _ _ hw howned hs => step_wellOwned_iff hw howned hs) es hrun

/-- The device opens as descriptor 3 and nothing fails. -/
def granted : Results where
  malloc := true
  openResult := 3
  ioctl := 0
  createRead := 0
  createWrite := 0
  mallocParser := true
  createParser := 0

theorem run_wellOwned_iff_reopened :
    let es := [Call.openHandle true true granted,
      .openHandle true true { granted with openResult := -1 },
      .closeHandle ⟨0, 3, 1, 1, some 1⟩, .openHandle true true granted]
    (∀ u, Visits step World.start es u → WellOwned u) ↔
      ∀ u e, Takes step World.start es u e → Clean e :=
  run_wellOwned_iff _
    { nextId := 3
      handles := [⟨2, 3, 1, 1, some 1⟩]
      os := { threads := [⟨.parser, 2⟩, ⟨.write, 2⟩, ⟨.read, 2⟩], openFds := [3] } } rfl

/-- The device opens but refuses its parameters: the handle is freed and its
descriptor stays open. -/
theorem descriptor_is_leaked :
    ¬ ∀ (es : List Call) (w : World), runFrom step World.start es = some w → WellOwned w := by
  intro h
  have hrun : runFrom step World.start [.openHandle true true { granted with ioctl := -1 }] =
      some { nextId := 1, handles := [], os := { threads := [], openFds := [3] } } := rfl
  obtain ⟨g, hg, _⟩ := (h _ _ hrun).descriptors 3 List.mem_cons_self
  exact absurd hg List.not_mem_nil

end TcIpcCtrl.Ownership
