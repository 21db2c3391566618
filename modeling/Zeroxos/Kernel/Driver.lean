import Zeroxos.Library.Table
import Zeroxos.Library.Transition

/-!
# The driver registry

A driver is loaded, initialized and started, in that order, and it may crash. `init_driver` and
`start` look at the state they find the driver in; `load` and `crash` overwrite whatever is there,
and a crash report about a user-mode driver leaves it in the state `Running`.

## Histories

The system keeps the successful calls next to the registry, each with the name of the driver. A
state of a driver tells how the history of the driver ends (`Traced`), which is the invariant.

## The condition

As long as a user-mode driver is reported to have crashed only while it runs, a running driver was
brought up properly. A report about any other user-mode driver starts it without more ado, so the
condition is exact, call by call (`running_after_bringUp`).
-/

namespace Zeroxos

inductive DriverClass
  | gpu | nvme | usb | display | network | bluetooth | audio | sensor | printer | virtio
deriving DecidableEq, Repr

inductive DriverLocation
  | kernel | user | paravirtualized
deriving DecidableEq, Repr

inductive DriverState
  | notLoaded | loaded | initialized | running | crashed | unloaded
deriving DecidableEq, Repr

structure Driver where
  name : String
  cls : DriverClass
  location : DriverLocation
  state : DriverState
  implements : String
deriving DecidableEq, Repr

def Driver.new (name : String) (cls : DriverClass) (location : DriverLocation)
    (implements : String) : Driver := ⟨name, cls, location, .notLoaded, implements⟩

structure DriverRegistry where
  drivers : List Driver
deriving DecidableEq, Repr

namespace DriverRegistry

def new : DriverRegistry := ⟨[]⟩

def register (driver : Driver) (r : DriverRegistry) : DriverRegistry := ⟨r.drivers ++ [driver]⟩

/-- The drivers that `init` registers. -/
def baseline : List Driver :=
  [ .new "gpu-nvidia" .gpu .kernel "GpuInterface", .new "gpu-amd" .gpu .kernel "GpuInterface",
    .new "gpu-intel" .gpu .kernel "GpuInterface", .new "gpu-mali" .gpu .kernel "GpuInterface",
    .new "gpu-adreno" .gpu .kernel "GpuInterface", .new "nvme" .nvme .kernel "BlockDriver",
    .new "xhci" .usb .kernel "UsbHost", .new "display" .display .kernel "DisplayController",
    .new "audio-hda" .audio .user "AudioInterface", .new "bluetooth" .bluetooth .user "BtInterface",
    .new "virtio-gpu" .virtio .paravirtualized "GpuInterface",
    .new "virtio-blk" .virtio .paravirtualized "BlockDriver",
    .new "virtio-net" .virtio .paravirtualized "NetDriver" ]

def init (r : DriverRegistry) : DriverRegistry := baseline.foldl (fun r d ↦ r.register d) r

/-- Change the driver of the given name, if there is one. -/
def update {β : Type} (name : String) (f : Driver → β × Driver) (none : β) (r : DriverRegistry) :
    β × DriverRegistry :=
  let (b, drivers) := Table.visit Driver.name name f none r.drivers
  (b, ⟨drivers⟩)

def load (name : String) : DriverRegistry → Except String Unit × DriverRegistry :=
  update name (fun d ↦ (.ok (), { d with state := .loaded })) (.error "driver not found")

def initDriver (name : String) : DriverRegistry → Except String Unit × DriverRegistry :=
  update name
    (fun d ↦
      if d.state ≠ .loaded then (.error "driver not loaded", d)
      else (.ok (), { d with state := .initialized }))
    (.error "driver not found")

def start (name : String) : DriverRegistry → Except String Unit × DriverRegistry :=
  update name
    (fun d ↦
      if d.state ≠ .initialized then (.error "driver not initialized", d)
      else (.ok (), { d with state := .running }))
    (.error "driver not found")

/-- `DriverRegistry::crash`: a user-mode driver is restarted. -/
def crash (name : String) : DriverRegistry → Unit × DriverRegistry :=
  update name
    (fun d ↦
      let d := { d with state := .crashed }
      ((), if d.location = .user then { d with state := .running } else d))
    ()

def count (r : DriverRegistry) : ℕ := r.drivers.length

end DriverRegistry

/-! ## The system -/

/-- A successful call about a driver. -/
inductive DriverOp
  | load
  | init
  | start
  /-- The driver was in the given state when the report arrived. -/
  | crash (was : DriverState)
deriving DecidableEq, Repr

/-- The calls. -/
inductive DriverCall
  | register (driver : Driver)
  | load (name : String)
  | initDriver (name : String)
  | start (name : String)
  | crash (name : String)
deriving DecidableEq, Repr

/-- The registry, and the successful calls so far with the names of the drivers. -/
structure DriverSys where
  registry : DriverRegistry
  log : List (String × DriverOp)
deriving DecidableEq

namespace DriverSys

/-- Before the first call. -/
def new : DriverSys := ⟨.new, []⟩

/-- The driver a call with this name is about. -/
def driver (s : DriverSys) (name : String) : Option Driver :=
  Table.lookup Driver.name name s.registry.drivers

/-- The state after a call about a driver that returned `r`. -/
def called (s : DriverSys) (name : String) (op : DriverOp)
    (r : Except String Unit × DriverRegistry) : DriverSys :=
  ⟨r.2, if r.1.toBool then s.log ++ [(name, op)] else s.log⟩

/-- One call. -/
def next (s : DriverSys) : DriverCall → DriverSys
  | .register driver => { s with registry := s.registry.register driver }
  | .load name => s.called name .load (s.registry.load name)
  | .initDriver name => s.called name .init (s.registry.initDriver name)
  | .start name => s.called name .start (s.registry.start name)
  | .crash name =>
    { registry := (s.registry.crash name).2
      log := (s.driver name).elim s.log fun d ↦ s.log ++ [(name, .crash d.state)] }

/-- Registered names are distinct, and drivers start out not loaded. -/
def Legal (s : DriverSys) : DriverCall → Prop
  | .register driver => s.driver driver.name = none ∧ driver.state = .notLoaded
  | _ => True

/-- The registry and its contract, and `guard` on top of it. -/
def machine (guard : DriverSys → DriverCall → Prop) : Machine DriverSys DriverCall where
  init s := s = new
  Legal s call := s.Legal call ∧ guard s call
  next s call := some (s.next call)

/-- The successful calls about a driver. -/
def history (s : DriverSys) (name : String) : List DriverOp :=
  (s.log.filter fun p ↦ p.1 = name).map Prod.snd

end DriverSys

/-- **A proper bring-up**: since the most recent `load` there was that `load`, `init_driver`,
`start`, and then nothing but crash reports that found the driver running. -/
def BroughtUp (ops : List DriverOp) : Prop :=
  ∃ before crashes,
    ops = before ++ [.load, .init, .start] ++ List.replicate crashes (.crash .running)

namespace DriverSys

/-- Every running driver was brought up. -/
def Supervised (s : DriverSys) : Prop :=
  ∀ d ∈ s.registry.drivers, d.state = .running → BroughtUp (s.history d.name)

/-- A report about a user-mode driver arrives while it runs. -/
def ReportedRunning (s : DriverSys) : DriverCall → Prop
  | .crash name => ∀ d, s.driver name = some d → d.location = .user → d.state = .running
  | _ => True

/-- The call makes no driver running that was not. -/
def RevivesNone (s : DriverSys) (call : DriverCall) : Prop :=
  ∀ d ∈ (s.next call).registry.drivers, d.state = .running →
    ∃ d' ∈ s.registry.drivers, d'.name = d.name ∧ d'.state = .running

/-! ## What a call does -/

variable {s : DriverSys} {name : String} {d : Driver} {op : DriverOp} {β : Type}
  {f : Driver → β × Driver} {none : β}

theorem driver_name (hd : s.driver name = some d) : d.name = name := Table.key_of_lookup hd

theorem update_none (hd : s.driver name = .none) :
    s.registry.update name f none = (none, s.registry) := by
  rw [DriverRegistry.update, Table.visit_of_lookup_eq_none hd]

theorem update_self {b : β} (hd : s.driver name = some d) (hf : f d = (b, d)) :
    s.registry.update name f none = (b, s.registry) := by
  rw [DriverRegistry.update, Table.visit_of_lookup_eq_some hd hf]

theorem update_fst (hd : s.driver name = some d) : (s.registry.update name f none).1 = (f d).1 := by
  show (Table.visit Driver.name name f none s.registry.drivers).1 = _
  rw [Table.visit_fst, show Table.lookup _ _ _ = _ from hd]
  rfl

theorem called_error {r : Except String Unit × DriverRegistry} {e : String}
    (hr : r = (.error e, s.registry)) : s.called name op r = s := by
  rw [hr]
  rfl

theorem called_ok {r : Except String Unit × DriverRegistry} (hr : r.1 = .ok ()) :
    s.called name op r = ⟨r.2, s.log ++ [(name, op)]⟩ := by
  rw [called, hr]
  rfl

theorem history_append (r : DriverRegistry) (other : String) :
    (⟨r, s.log ++ [(name, op)]⟩ : DriverSys).history other
      = if name = other then s.history other ++ [op] else s.history other := by
  rw [history, history, List.filter_append, List.map_append]
  split_ifs with h <;> simp [h]

/-! ## The invariant -/

/-- What the state of a driver says about the calls that led to it. -/
def Traced (ops : List DriverOp) : DriverState → Prop
  | .loaded => ∃ before, ops = before ++ [.load]
  | .initialized => ∃ before, ops = before ++ [.load, .init]
  | .running => BroughtUp ops
  | .notLoaded | .crashed | .unloaded => True

/-- **The invariant.** -/
structure Inv (s : DriverSys) : Prop where
  nodup : (s.registry.drivers.map Driver.name).Nodup
  traced : ∀ d ∈ s.registry.drivers, Traced (s.history d.name) d.state

theorem inv_new : new.Inv := ⟨List.nodup_nil, nofun⟩

theorem Inv.update (h : s.Inv) (hd : s.driver name = some d) (hname : ∀ d, (f d).2.name = d.name)
    (htraced : Traced (s.history name ++ [op]) (f d).2.state) :
    Inv ⟨(s.registry.update name f none).2, s.log ++ [(name, op)]⟩ := by
  have hdrivers : (s.registry.update name f none).2.drivers
      = s.registry.drivers.map fun a ↦ if a.name = name then (f a).2 else a :=
    Table.visit_snd_eq_map h.nodup
  refine ⟨?_, fun a ha ↦ ?_⟩
  · show ((Table.visit Driver.name name f none s.registry.drivers).2.map Driver.name).Nodup
    rw [Table.map_key_visit hname]
    exact h.nodup
  · rw [hdrivers] at ha
    obtain ⟨a, hmem, rfl⟩ := List.mem_map.mp ha
    rw [history_append]
    by_cases hkey : a.name = name
    · have hlookup : s.driver name = some a :=
        (Table.lookup_eq_some_iff h.nodup).mpr ⟨hmem, hkey⟩
      obtain rfl := Option.some.inj (hd.symm.trans hlookup)
      rwa [if_pos hkey, hname, if_pos hkey.symm, hkey]
    · rw [if_neg hkey, if_neg (Ne.symm hkey)]
      exact h.traced a hmem

theorem Inv.traced_driver (h : s.Inv) (hd : s.driver name = some d) :
    Traced (s.history name) d.state :=
  driver_name hd ▸ h.traced d (Table.mem_of_lookup hd)

theorem inv_register (h : s.Inv) {driver : Driver} (hl : s.Legal (.register driver)) :
    (s.next (.register driver)).Inv := by
  obtain ⟨hnew, hstate⟩ := hl
  refine ⟨?_, fun d hd ↦ ?_⟩
  · show ((s.registry.drivers ++ [driver]).map Driver.name).Nodup
    rw [List.map_append, List.map_singleton, ← List.concat_eq_append]
    refine h.nodup.concat fun hmem ↦ ?_
    obtain ⟨d, hd, hname⟩ := List.mem_map.mp hmem
    exact Table.lookup_eq_none.mp hnew d hd hname
  · rcases List.mem_append.mp hd with hd | hd
    · exact h.traced d hd
    · rw [List.mem_singleton.mp hd, hstate]
      trivial

theorem inv_load (h : s.Inv) : (s.next (.load name)).Inv := by
  rw [next, DriverRegistry.load]
  cases hd : s.driver name with
  | none =>
    rw [called_error (update_none hd)]
    exact h
  | some d =>
    rw [called_ok (update_fst hd)]
    exact h.update hd (fun _ ↦ rfl) ⟨_, rfl⟩

theorem inv_initDriver (h : s.Inv) : (s.next (.initDriver name)).Inv := by
  rw [next, DriverRegistry.initDriver]
  cases hd : s.driver name with
  | none =>
    rw [called_error (update_none hd)]
    exact h
  | some d =>
    by_cases hstate : d.state = .loaded
    · obtain ⟨before, hbefore⟩ : ∃ before, s.history name = before ++ [.load] := by
        have htraced := h.traced_driver hd
        rwa [hstate] at htraced
      rw [called_ok ((update_fst hd).trans (by rw [if_neg (not_not_intro hstate)]))]
      refine h.update hd (fun d ↦ by split_ifs <;> rfl) ?_
      rw [if_neg (not_not_intro hstate)]
      exact ⟨before, by rw [hbefore, List.append_assoc]; rfl⟩
    · rw [called_error (update_self hd (if_pos hstate))]
      exact h

theorem inv_start (h : s.Inv) : (s.next (.start name)).Inv := by
  rw [next, DriverRegistry.start]
  cases hd : s.driver name with
  | none =>
    rw [called_error (update_none hd)]
    exact h
  | some d =>
    by_cases hstate : d.state = .initialized
    · obtain ⟨before, hbefore⟩ : ∃ before, s.history name = before ++ [.load, .init] := by
        have htraced := h.traced_driver hd
        rwa [hstate] at htraced
      rw [called_ok ((update_fst hd).trans (by rw [if_neg (not_not_intro hstate)]))]
      refine h.update hd (fun d ↦ by split_ifs <;> rfl) ?_
      rw [if_neg (not_not_intro hstate)]
      refine ⟨before, 0, ?_⟩
      rw [hbefore, List.replicate_zero, List.append_nil, List.append_assoc]
      rfl
    · rw [called_error (update_self hd (if_pos hstate))]
      exact h

theorem inv_crash (h : s.Inv) (hrunning : s.ReportedRunning (.crash name)) :
    (s.next (.crash name)).Inv := by
  rw [next, DriverRegistry.crash]
  cases hd : s.driver name with
  | none =>
    rw [update_none hd]
    exact h
  | some d =>
    refine h.update hd (fun d ↦ by dsimp only; split_ifs <;> rfl) ?_
    by_cases huser : d.location = .user
    · have hstate := hrunning d hd huser
      obtain ⟨before, crashes, hbefore⟩ : BroughtUp (s.history name) := by
        have htraced := h.traced_driver hd
        rwa [hstate] at htraced
      dsimp only
      rw [if_pos huser, hstate]
      refine ⟨before, crashes + 1, ?_⟩
      rw [hbefore, List.replicate_succ', List.append_assoc _ _ [_]]
    · dsimp only
      rw [if_neg huser]
      trivial

theorem inv_of_reachable (hs : (machine ReportedRunning).system.Reachable s) : s.Inv := by
  refine hs.invariant (fun s hinit ↦ ?_) fun s call s' _ h hstep ↦ ?_
  · rw [show s = new from hinit]
    exact inv_new
  · obtain ⟨⟨hlegal, hrunning⟩, hnext⟩ := hstep
    rw [← Option.some.inj hnext]
    cases call with
    | register driver => exact inv_register h hlegal
    | load name => exact inv_load h
    | initDriver name => exact inv_initDriver h
    | start name => exact inv_start h
    | crash name => exact inv_crash h hrunning

theorem Inv.supervised (h : s.Inv) : s.Supervised := by
  intro d hd hstate
  have htraced := h.traced d hd
  rwa [hstate] at htraced

/-! ## The report that goes wrong -/

theorem driver_crash (hd : s.driver name = some d) :
    (s.next (.crash name)).driver name
      = some { d with state := if d.location = .user then .running else .crashed } := by
  show Table.lookup _ _ (Table.visit Driver.name name _ _ s.registry.drivers).2 = _
  rw [Table.lookup_visit fun d ↦ by dsimp only; split_ifs <;> rfl, if_pos rfl,
    show Table.lookup _ _ _ = _ from hd, Option.map_some]
  dsimp only
  split_ifs <;> rfl

theorem history_crash (hd : s.driver name = some d) :
    (s.next (.crash name)).history name = s.history name ++ [.crash d.state] := by
  rw [next, hd]
  exact (history_append _ _).trans (if_pos rfl)

/-- A proper bring-up does not end in a report that found the driver in another state. -/
theorem not_broughtUp_append_crash {ops : List DriverOp} {was : DriverState}
    (hwas : was ≠ .running) :
    ¬ BroughtUp (ops ++ [.crash was]) := by
  rintro ⟨before, crashes, h⟩
  cases crashes with
  | zero =>
    have hlast : ops ++ [.crash was] = (before ++ [.load, .init]) ++ [.start] := by
      rw [h, List.replicate_zero, List.append_nil, List.append_assoc]
      rfl
    cases List.append_inj_right' hlast rfl
  | succ crashes =>
    rw [List.replicate_succ', ← List.append_assoc] at h
    have hlast := List.append_inj_right' h rfl
    rw [List.cons.injEq, DriverOp.crash.injEq] at hlast
    exact hwas hlast.1

theorem exists_of_not_reportedRunning (h : ¬ s.ReportedRunning (.crash name)) :
    ∃ d, s.driver name = some d ∧ d.location = .user ∧ d.state ≠ .running := by
  rw [ReportedRunning] at h
  push Not at h
  exact h

theorem supervised_crash_iff (h : s.Inv) :
    (s.next (.crash name)).Supervised ↔ s.ReportedRunning (.crash name) := by
  refine ⟨fun hsup ↦ ?_, fun hrunning ↦ (inv_crash h hrunning).supervised⟩
  by_contra hnot
  obtain ⟨d, hd, huser, hstate⟩ := exists_of_not_reportedRunning hnot
  have hcrash := driver_crash hd
  rw [if_pos huser] at hcrash
  have hup := hsup _ (Table.mem_of_lookup hcrash) rfl
  rw [driver_name hcrash, history_crash hd] at hup
  exact not_broughtUp_append_crash hstate hup

theorem revivesNone_crash_iff (h : s.Inv) :
    s.RevivesNone (.crash name) ↔ s.ReportedRunning (.crash name) := by
  constructor
  · intro hrevives
    by_contra hnot
    obtain ⟨d, hd, huser, hstate⟩ := exists_of_not_reportedRunning hnot
    have hcrash := driver_crash hd
    rw [if_pos huser] at hcrash
    obtain ⟨d', hmem, hname, hrunning⟩ := hrevives _ (Table.mem_of_lookup hcrash) rfl
    have hd' : s.driver name = some d' :=
      (Table.lookup_eq_some_iff h.nodup).mpr ⟨hmem, hname.trans (driver_name hcrash)⟩
    obtain rfl := Option.some.inj (hd.symm.trans hd')
    exact hstate hrunning
  · intro hrunning
    refine Table.forall_mem_visit (fun d hd hstate ↦ ⟨d, hd, rfl, hstate⟩) fun d hd ↦ ?_
    dsimp only
    split_ifs with huser
    · exact fun _ ↦ ⟨d, Table.mem_of_lookup hd, rfl, hrunning d hd huser⟩
    · exact nofun

/-- **A running driver was brought up properly**, as long as a crash of a user-mode driver is
reported only while it runs. That is when a report makes no driver running that was not, and any
other report about a user-mode driver leaves it running without a bring-up. -/
theorem running_after_bringUp (hs : (machine ReportedRunning).system.Reachable s) :
    s.Supervised ∧ ∀ name,
      ((s.next (.crash name)).Supervised ↔ s.ReportedRunning (.crash name)) ∧
      (s.RevivesNone (.crash name) ↔ s.ReportedRunning (.crash name)) :=
  have h := inv_of_reachable hs
  ⟨h.supervised, fun _ ↦ ⟨supervised_crash_iff h, revivesNone_crash_iff h⟩⟩

/-- A user-mode driver that is brought up, crashes and is restarted. -/
theorem running_after_bringUp_restarted :
    let audio := Driver.new "audio-hda" .audio .user "AudioInterface"
    let s := ((((new.next (.register audio)).next (.load "audio-hda")).next
      (.initDriver "audio-hda")).next (.start "audio-hda")).next (.crash "audio-hda")
    s.driver "audio-hda" = some { audio with state := .running } ∧ s.Supervised := by
  intro audio s
  have hregistered : (machine ReportedRunning).system.Reachable (new.next (.register audio)) :=
    .step (e := .register audio) (.init rfl) ⟨⟨⟨rfl, rfl⟩, trivial⟩, rfl⟩
  have hloaded : (machine ReportedRunning).system.Reachable
      ((new.next (.register audio)).next (.load "audio-hda")) :=
    .step (e := .load "audio-hda") hregistered ⟨⟨trivial, trivial⟩, rfl⟩
  have hinit : (machine ReportedRunning).system.Reachable
      (((new.next (.register audio)).next (.load "audio-hda")).next (.initDriver "audio-hda")) :=
    .step (e := .initDriver "audio-hda") hloaded ⟨⟨trivial, trivial⟩, rfl⟩
  have hstarted : (machine ReportedRunning).system.Reachable
      ((((new.next (.register audio)).next (.load "audio-hda")).next
        (.initDriver "audio-hda")).next (.start "audio-hda")) :=
    .step (e := .start "audio-hda") hinit ⟨⟨trivial, trivial⟩, rfl⟩
  have hrunning : ReportedRunning ((((new.next (.register audio)).next (.load "audio-hda")).next
      (.initDriver "audio-hda")).next (.start "audio-hda")) (.crash "audio-hda") := by
    intro d hd _
    have hstate : some DriverState.running = some d.state := congrArg (Option.map Driver.state) hd
    exact (Option.some.inj hstate).symm
  have hcrashed : (machine ReportedRunning).system.Reachable s :=
    .step (e := .crash "audio-hda") hstarted ⟨⟨trivial, hrunning⟩, rfl⟩
  exact ⟨by decide, (running_after_bringUp hcrashed).1⟩

/-- A user-mode driver that was never loaded runs once a crash of it is reported. -/
theorem crash_starts_unloaded :
    let audio := Driver.new "audio-hda" .audio .user "AudioInterface"
    let s := new.next (.register audio)
    (machine fun _ _ ↦ True).system.Reachable (s.next (.crash "audio-hda")) ∧
      ¬ (s.next (.crash "audio-hda")).Supervised ∧ ¬ s.RevivesNone (.crash "audio-hda") := by
  intro audio s
  have hs : (machine fun _ _ ↦ True).system.Reachable s :=
    .step (e := .register audio) (.init rfl) ⟨⟨⟨rfl, rfl⟩, trivial⟩, rfl⟩
  have hmem :
      { audio with state := .running } ∈ (s.next (.crash "audio-hda")).registry.drivers := by
    decide
  refine ⟨.step (e := .crash "audio-hda") hs ⟨⟨trivial, trivial⟩, rfl⟩, fun hsup ↦ ?_,
    fun hrevives ↦ ?_⟩
  · obtain ⟨before, crashes, h⟩ := hsup _ hmem rfl
    have hlength := congrArg List.length h
    rw [show (s.next (.crash "audio-hda")).history _ = [.crash .notLoaded] by decide] at hlength
    simp only [List.length_append, List.length_cons, List.length_nil] at hlength
    omega
  · obtain ⟨d, hd, -, hstate⟩ := hrevives _ hmem rfl
    rw [show s.registry.drivers = [audio] from rfl, List.mem_singleton] at hd
    rw [hd] at hstate
    cases hstate

end DriverSys

end Zeroxos
