import Tombstash.Opening
import Tombstash.Touches

set_option autoImplicit false

namespace Tombstash

-- A process and its directory. todo are the file-system steps that the critical
-- section under way has left, doomed the files of the objects it marks obsolete,
-- garbage those of objects that were marked before and may still have readers.
structure Sys where
  cfg : Config
  db : DB
  disk : Disk Bytes
  todo : List DiskOp := []
  doomed : List Bytes := []
  garbage : List Bytes := []

-- Steps of the whole system: a thread takes the lock, a worker does a part of
-- its off-lock work, the holder of the lock makes a file-system step, the last
-- reader of an obsolete file goes, the store is closed and opened again, or the
-- machine crashes and the store is opened again.
inductive Event where
  | lock (label : Label)
  | work (label : Label)
  | io
  | collect (name : Bytes)
  | reopen (cfg : Config)
  | crash (cfg : Config)

-- The constructor on a directory.
structure Opens (cfg : Config) (disk : Disk Bytes) (s : Sys) : Prop where
  opened : ∃ listing, Lists disk listing ∧ openDB cfg listing disk = .ok (s.db, s.todo)
  limits : WithinLimits s.db
  cfg : s.cfg = cfg
  disk : s.disk = disk
  doomed : s.doomed = []
  garbage : s.garbage = []

-- gc finds the file at its new path as it is. Generations are 32-bit numbers;
-- runs that would use them up are not modelled.
def GcFinds (s : Sys) (label : Label) : Prop :=
  ∀ existing, label = .gc existing →
    existing = (fileData s.disk (vlogName (s.db.currentGen + 1))).getD [] ∧ s.db.currentGen.toNat + 1 < 2 ^ 32

-- The destructor has joined both threads and no object is left.
structure Closed (s : Sys) : Prop where
  todo : s.todo = []
  flusher : s.db.flusher = none
  merges : inFlight s.db = []
  doomed : s.doomed = []
  garbage : s.garbage = []

-- The effects of a critical section on the members become visible when the lock
-- is taken; workers touch none of the members that sections read.
inductive Sys.Step (s : Sys) : Event → Sys → Prop
  | lock (label : Label) (effect : Effect) (free : s.todo = []) (locked : label.kind ≠ .worked)
      (finds : GcFinds s label) (done : step s.cfg s.db label = some effect) :
      Step s (.lock label) ⟨s.cfg, effect.db, s.disk, effect.ops, effect.garbage, s.garbage ++ s.doomed⟩
  | work (label : Label) (effect : Effect) (off : label.kind = .worked) (done : step s.cfg s.db label = some effect) :
      Step s (.work label) { s with db := effect.db, disk := applyAll s.disk effect.ops }
  | io (op : DiskOp) (rest : List DiskOp) (next : s.todo = op :: rest) :
      Step s .io { s with disk := op.apply s.disk, todo := rest }
  | collect (name : Bytes) (marked : name ∈ s.garbage ∨ s.todo = [] ∧ name ∈ s.doomed) :
      Step s (.collect name)
        { s with
          disk := (FsOp.unlink name).apply s.disk
          doomed := s.doomed.filter (fun other => decide (other ≠ name))
          garbage := s.garbage.filter (fun other => decide (other ≠ name)) }
  | reopen (cfg : Config) (next : Sys) (closed : Closed s) (opens : Opens cfg s.disk next) : Step s (.reopen cfg) next
  | crash (cfg : Config) (image : Disk Bytes) (next : Sys) (cut : CrashImage s.disk image)
      (opens : Opens cfg image next) :
      Step s (.crash cfg) next

-- The file-system steps that a step of the system makes.
def Sys.performed (s : Sys) : Event → List DiskOp
  | .io => s.todo.take 1
  | .work label => ((step s.cfg s.db label).map Effect.ops).getD []
  | .collect name => [.unlink name]
  | .lock _ | .reopen _ | .crash _ => []

def Sys.Run : Sys → List Event → Sys → Prop
  | s, [], last => last = s
  | s, event :: rest, last => ∃ next, s.Step event next ∧ next.Run rest last

-- A store made in an empty directory.
def Sys.Starts (cfg : Config) (s : Sys) : Prop := Opens cfg (fun _ => none) s

instance (s : Sys) (label : Label) : Decidable (GcFinds s label) :=
  match label with
  | .gc existing => decidable_of_iff (existing = (fileData s.disk (vlogName (s.db.currentGen + 1))).getD [] ∧
      s.db.currentGen.toNat + 1 < 2 ^ 32) ⟨fun both _ same => by cases same; exact both, fun all => all existing rfl⟩
  | .put _ _ _ | .del _ _ | .wakeSeal | .sync | .flush | .setBloomEnabled _ | .flusherSnapshot | .flusherSeparate
  | .flusherBuild | .flusherIo | .flusherPublish | .compactorPick | .compactAllPick | .mergeRun _ | .mergeReserve
  | .mergeIo _ | .mergeInstall _ => .isTrue nofun

-- The steps within a session, as a function.
def Sys.exec (s : Sys) : Event → Option Sys
  | .lock label =>
      if s.todo = [] ∧ label.kind ≠ .worked ∧ GcFinds s label then
        (step s.cfg s.db label).map (fun effect =>
          ⟨s.cfg, effect.db, s.disk, effect.ops, effect.garbage, s.garbage ++ s.doomed⟩)
      else none
  | .work label =>
      if label.kind = .worked then
        (step s.cfg s.db label).map (fun effect => { s with db := effect.db, disk := applyAll s.disk effect.ops })
      else none
  | .io =>
      match s.todo with
      | op :: rest => some { s with disk := op.apply s.disk, todo := rest }
      | [] => none
  | .collect name =>
      if name ∈ s.garbage ∨ s.todo = [] ∧ name ∈ s.doomed then
        some { s with
          disk := (FsOp.unlink name).apply s.disk
          doomed := s.doomed.filter (fun other => decide (other ≠ name))
          garbage := s.garbage.filter (fun other => decide (other ≠ name)) }
      else none
  | .reopen _ | .crash _ => none

def Sys.execAll : Sys → List Event → Option Sys
  | s, [] => some s
  | s, event :: rest => (s.exec event).bind (fun next => next.execAll rest)

-- A critical section with its file-system steps.
def whole (label : Label) (steps : Nat) : List Event := .lock label :: List.replicate steps .io

theorem exec_step (s next : Sys) (event : Event) (done : s.exec event = some next) : s.Step event next := by
  cases event with
  | lock label =>
      simp only [Sys.exec] at done
      split at done
      · next guard =>
          obtain ⟨effect, stepped, rfl⟩ := Option.map_eq_some_iff.mp done
          exact .lock label effect guard.1 guard.2.1 guard.2.2 stepped
      · cases done
  | work label =>
      simp only [Sys.exec] at done
      split at done
      · next off =>
          obtain ⟨effect, stepped, rfl⟩ := Option.map_eq_some_iff.mp done
          exact .work label effect off stepped
      · cases done
  | io =>
      simp only [Sys.exec] at done
      split at done
      · next op rest todo =>
          cases done
          exact .io op rest todo
      · cases done
  | collect name =>
      simp only [Sys.exec] at done
      split at done
      · next marked =>
          cases done
          exact .collect name marked
      · cases done
  | reopen cfg => cases done
  | crash cfg => cases done

theorem exec_all_run (s last : Sys) (events : List Event) (done : s.execAll events = some last) :
    s.Run events last := by
  induction events generalizing s with
  | nil =>
      cases done
      rfl
  | cons event rest ih =>
      obtain ⟨next, stepped, remaining⟩ := Option.bind_eq_some_iff.mp done
      exact ⟨next, exec_step s next event stepped, ih next remaining⟩

-- The process that has just run the constructor in an empty directory, up to
-- its file-system steps.
def Sys.fresh (cfg : Config) : Sys :=
  ⟨cfg, DB.fresh, fun _ => none, blankOps [] ++ writeManifestLocked DB.fresh, [], []⟩

theorem blank_nothing : Blank (fun _ => none) := ⟨nofun, nofun, nofun⟩

theorem lists_nothing : Lists (fun _ => none) [] := ⟨List.nodup_nil, fun name => by simp⟩

theorem fresh_limits : WithinLimits DB.fresh := by decide

theorem fresh_starts (cfg : Config) : (Sys.fresh cfg).Starts cfg :=
  ⟨⟨[], lists_nothing, open_blank cfg [] _ blank_nothing lists_nothing⟩, fresh_limits, rfl, rfl, rfl, rfl⟩

end Tombstash
