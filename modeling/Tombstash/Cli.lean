import Tombstash.Durability
import Tombstash.Progress
import Tombstash.Snapshots

set_option autoImplicit false

namespace Tombstash

-- What a process leaves on its streams, and the status it exits with, unless an
-- exception ends it.
structure Outcome where
  status : Nat
  stdout : Bytes := []
  stderr : String := ""
deriving DecidableEq

structure Invocation where
  argv : List Bytes
  outcome : Except Error Outcome

def usage : Outcome where
  status := 2
  stderr := "usage:\n  lsmkv <dir> put <key> <value>\n  lsmkv <dir> get <key>\n  lsmkv <dir> del <key>\n" ++
    "  lsmkv <dir> scan <start> <end>\n  lsmkv <dir> gc\n"

inductive Call where
  | put (key value : Bytes)
  | get (key : Bytes)
  | del (key : Bytes)
  | scan (low high : Bytes)
  | gc
deriving DecidableEq

-- Usage is printed before the store is opened or after.
inductive Plan where
  | refused
  | misused
  | call (call : Call)
deriving DecidableEq

-- "put", "get", "del", "scan" and "gc".
def putWord : Bytes := [0x70, 0x75, 0x74]
def getWord : Bytes := [0x67, 0x65, 0x74]
def delWord : Bytes := [0x64, 0x65, 0x6c]
def scanWord : Bytes := [0x73, 0x63, 0x61, 0x6e]
def gcWord : Bytes := [0x67, 0x63]

-- main, from argv.
def plan : List Bytes → Plan
  | _ :: _ :: cmd :: args =>
      if cmd = putWord then
        match args with
        | [key, value] => .call (.put key value)
        | _ => .misused
      else if cmd = getWord then
        match args with
        | [key] => .call (.get key)
        | _ => .misused
      else if cmd = delWord then
        match args with
        | [key] => .call (.del key)
        | _ => .misused
      else if cmd = scanWord then
        match args with
        | [low, high] => .call (.scan low high)
        | _ => .misused
      else if cmd = gcWord then
        match args with
        | [] => .call .gc
        | _ => .misused
      else .misused
  | _ => .refused

-- "OK\n"
def okOutcome : Outcome := { status := 0, stdout := [0x4f, 0x4b, 0x0a] }

def getOutcome : Option Bytes → Outcome
  | some value => { status := 0, stdout := value ++ [0x0a] }
  | none => { status := 1, stderr := "(not found)\n" }

def scanOutcome (pairs : List (Bytes × Bytes)) : Outcome :=
  { status := 0, stdout := pairs.flatMap (fun pair => pair.1 ++ [0x09] ++ pair.2 ++ [0x0a]) }

-- DB db(dir). The buckets of a size ratio of 2, the budgets of the levels and
-- the sizes of the filters are what floating point makes them.
def defaultConfig (bucket : Nat → Int) (budget : Int → Nat) (bloom : Nat → BloomSize) : Config where
  threshold := 4 * 1024 * 1024
  minMerge := 4
  bucket := bucket
  valueSepThreshold := 128
  leveled := false
  leveledTargetBytes := 2 * (4 * 1024 * 1024)
  levelBudget := budget
  bloomSize := bloom

-- What goes on in a process besides its call: the two threads, the wait of
-- maybe_seal and the end of objects.
def Event.Quiet : Event → Prop
  | .lock .wakeSeal => True
  | event => event.Background

-- The calls that take the lock to change the store.
def Call.Locks : Call → Label → Prop
  | .put key value, label => label = .put key value true
  | .del key, label => label = .del key true
  | .gc, label => ∃ existing, label = .gc existing
  | _, _ => False

-- The exception that the section of such a call ends with.
def Label.Throws (cfg : Config) (db : DB) (e : Error) : Label → Prop
  | .put key value synced => applyWrite cfg db (key, some value) synced = .error e
  | .del key synced => applyWrite cfg db (key, none) synced = .error e
  | .gc existing => gcStarts db = true ∧ gcValueLog cfg db existing = .error e
  | _ => False

-- What ends a process from outside its call: a step of the file system that
-- fails, or an exception in the work of a thread. Nothing catches either.
inductive Sys.Aborts (s : Sys) : Error → Prop
  | fails (event : Event) (next : Sys) (what : String) (stepped : s.Step event next)
      (owner : event = .io ∨ ∃ label, event = .work label) (makes : s.performed event ≠ []) : Aborts s (.system what)
  | thread (label : Label) (e : Error) (background : label.background = true)
      (throws : thrown s.cfg s.db label = some e) :
      Aborts s e

-- What the processes have left of the directory. What is there after an
-- exception that nobody catches is not modelled.
inductive Left where
  | nothing
  | store (s : Sys)
  | unknown

def Left.after (last : Sys) : Except Error Outcome → Left
  | .ok _ => .store last
  | .error _ => .unknown

-- A call on a store that was opened as s, up to the end of the destructor or to
-- an exception. get and scan read values after they have released the lock.
inductive Serves (s : Sys) : Call → Except Error Outcome → Left → Prop
  | locks (call : Call) (label : Label) (before after : List Event) (mid next last : Sys) (locks : call.Locks label)
      (first : s.Run before mid) (stepped : mid.Step (.lock label) next) (second : next.Run after last)
      (quiet : ∀ event ∈ before ++ after, event.Quiet) (returned : last.db.sealWaiters = 0) :
      Serves s call (.ok okOutcome) (.store last)
  | throws (call : Call) (label : Label) (before : List Event) (mid : Sys) (e : Error) (locks : call.Locks label)
      (first : s.Run before mid) (free : mid.todo = []) (quiet : ∀ event ∈ before, event.Quiet)
      (fails : label.Throws mid.cfg mid.db e) : Serves s call (.error e) .unknown
  | get (key : Bytes) (before during after : List Event) (mid late last : Sys) (outcome : Except Error Outcome)
      (first : s.Run before mid) (free : mid.todo = []) (second : mid.Run during late) (third : late.Run after last)
      (quiet : ∀ event ∈ before ++ during ++ after, event.Quiet)
      (shows : outcome = ((getLocked mid.db key).finish late.db.logs key).map getOutcome) :
      Serves s (.get key) outcome (.after last outcome)
  | scan (low high : Bytes) (before after : List Event) (mid last : Sys) (during : Bytes → List Event)
      (moment : Bytes → Sys)
      (outcome : Except Error Outcome) (first : s.Run before mid) (free : mid.todo = []) (second : mid.Run after last)
      (quiet : ∀ event ∈ before ++ after, event.Quiet)
      (inside : ∀ key, during key <+: after ∧ mid.Run (during key) (moment key)) (shows : outcome =
        ((scanLocked mid.db low high).finish (fun key => (moment key).db.logs) low high).map scanOutcome) :
      Serves s (.scan low high) outcome (.after last outcome)

-- The first process finds no store, each later one what the last one left.
def Entered (cfg : Config) : Left → Sys → Prop
  | .nothing, s => s.Starts cfg
  | .store left, s => left.Step (.reopen cfg) s
  | .unknown, _ => False

-- The constructor throws.
def Unopened (cfg : Config) (e : Error) : Left → Prop
  | .nothing => ∃ listing, Lists (fun _ => none) listing ∧ openDB cfg listing (fun _ => none) = .error e
  | .store left => Closed left ∧ ∃ listing, Lists left.disk listing ∧ openDB cfg listing left.disk = .error e
  | .unknown => False

-- Invocations with one directory, one after the other.
inductive Shell (cfg : Config) : List Invocation → Left → Prop
  | start : Shell cfg [] .nothing
  | refused (runs : List Invocation) (left : Left) (argv : List Bytes) (before : Shell cfg runs left)
      (asks : plan argv = .refused) : Shell cfg (runs ++ [⟨argv, .ok usage⟩]) left
  | unopened (runs : List Invocation) (left : Left) (argv : List Bytes) (e : Error) (before : Shell cfg runs left)
      (asks : plan argv ≠ .refused) (throws : Unopened cfg e left) : Shell cfg (runs ++ [⟨argv, .error e⟩]) .unknown
  | aborted (runs : List Invocation) (left : Left) (argv : List Bytes) (s mid next last : Sys)
      (before after : List Event)
      (e : Error) (shell : Shell cfg runs left) (asks : plan argv ≠ .refused) (enters : Entered cfg left s)
      (first : s.Run before mid)
      (calls : next = mid ∨ ∃ call label, plan argv = .call call ∧ call.Locks label ∧ mid.Step (.lock label) next)
      (second : next.Run after last) (quiet : ∀ event ∈ before ++ after, event.Quiet) (aborts : last.Aborts e) :
      Shell cfg (runs ++ [⟨argv, .error e⟩]) .unknown
  | misused (runs : List Invocation) (left : Left) (argv : List Bytes) (s last : Sys) (events : List Event)
      (before : Shell cfg runs left) (asks : plan argv = .misused) (enters : Entered cfg left s)
      (quiet : ∀ event ∈ events, event.Quiet) (done : s.Run events last) :
      Shell cfg (runs ++ [⟨argv, .ok usage⟩]) (.store last)
  | served (runs : List Invocation) (left after : Left) (argv : List Bytes) (s : Sys) (call : Call)
      (outcome : Except Error Outcome) (before : Shell cfg runs left) (asks : plan argv = .call call)
      (enters : Entered cfg left s) (serves : Serves s call outcome after) : Shell cfg (runs ++ [⟨argv, outcome⟩]) after

def Plan.writes : Plan → List Write
  | .call (.put key value) => [(key, some value)]
  | .call (.del key) => [(key, none)]
  | _ => []

def asked (runs : List Invocation) : List Write := runs.flatMap (fun run => (plan run.argv).writes)

-- What comes out if the store is a map with these writes.
def Prints (history : List Write) (outcome : Except Error Outcome) : Plan → Prop
  | .refused | .misused => outcome = .ok usage
  | .call (.get key) => outcome = .ok (getOutcome (valueOf history key))
  | .call (.scan low high) => ∃ pairs, outcome = .ok (scanOutcome pairs) ∧ pairs.Pairwise (fun a b => a.1 < b.1) ∧
      ∀ key value, (key, value) ∈ pairs ↔ low ≤ key ∧ key < high ∧ valueOf history key = some value
  | .call _ => outcome = .ok okOutcome

structure Serving (s : Sys) (history : List Write) : Prop where
  background : Background s history
  tiered : s.cfg.leveled = false

theorem quiet_event (event : Event) (quiet : event.Quiet) :
    event.Within ∧ event ≠ .lock .compactAllPick ∧ event.write = none := by
  have background : event.Background → event.Within ∧ event ≠ .lock .compactAllPick ∧ event.write = none := by
    intro allowed
    cases event with
    | lock label =>
        refine ⟨trivial, fun same => ?_, ?_⟩
        · cases same
          cases allowed
        · cases label <;> first | rfl | cases allowed
    | work label => exact ⟨trivial, by simp, rfl⟩
    | io => exact ⟨trivial, by simp, rfl⟩
    | collect name => exact ⟨trivial, by simp, rfl⟩
    | reopen cfg => cases allowed
    | crash cfg => cases allowed
  unfold Event.Quiet at quiet
  split at quiet
  · exact ⟨trivial, by simp, rfl⟩
  · exact background quiet

theorem step_serving (s next : Sys) (event : Event) (history : List Write) (holds : Serving s history)
    (alone : event ≠ .lock .compactAllPick) (within : event.Within) (stepped : s.Step event next) :
    Serving next (history ++ event.write.toList) := by
  have ready : EventReady s event := by
    unfold EventReady
    split
    · exact fun leveled => absurd leveled (by rw [holds.tiered]; decide)
    · trivial
  refine ⟨(background_follows s next event history holds.background alone (fun cfg same => ?_) ready stepped).1, ?_⟩
  · rw [same] at within
    exact within
  · rcases step_cfg s next event stepped with same | opened | crashed
    · rw [same]
      exact holds.tiered
    · rw [opened] at within
      exact within.elim
    · rw [crashed] at within
      exact within.elim

theorem quiet_serving (s last : Sys) (events : List Event) (history : List Write) (holds : Serving s history)
    (quiet : ∀ event ∈ events, event.Quiet) (done : s.Run events last) : Serving last history := by
  induction events generalizing s with
  | nil =>
      cases done
      exact holds
  | cons event rest ih =>
      obtain ⟨next, stepped, remaining⟩ := done
      obtain ⟨within, alone, none⟩ := quiet_event event (quiet event (by simp))
      have after := step_serving s next event history holds alone within stepped
      rw [none, Option.toList_none, List.append_nil] at after
      exact ih next after (fun other member => quiet other (by simp [member])) remaining

-- What a sequence of invocations leaves holds the writes they asked for.
def Left.Holds (history : List Write) : Left → Prop
  | .nothing => history = []
  | .store left => Serving left history
  | .unknown => True

theorem entered_serving (cfg : Config) (tiered : cfg.leveled = false) (left : Left) (s : Sys) (history : List Write)
    (holds : left.Holds history) (enters : Entered cfg left s) : Serving s history := by
  cases left with
  | nothing =>
      cases holds
      exact ⟨start_background cfg s enters, by rw [show s.cfg = cfg from enters.cfg]; exact tiered⟩
  | store left =>
      have opened : s.cfg = cfg := by
        cases enters with
        | reopen _ _ _ opens => exact opens.cfg
      have follows :=
        (background_follows left s (.reopen cfg) history (Serving.background holds) (by simp)
        (by simp) trivial enters).1
      exact ⟨by simpa [Event.write] using follows, by rw [opened]; exact tiered⟩
  | unknown => cases enters

theorem serving_reopens (cfg : Config) (left : Sys) (history : List Write) (listing : List Bytes)
    (holds : Serving left history) (lists : Lists left.disk listing) : Reopens cfg listing left.disk := by
  obtain ⟨split, kept, _⟩ := holds.background.kept
  exact openable_reopens cfg listing left.disk kept.inv.names lists
    (openable_committed left.disk (inv_openable _ _ left kept.inv))

theorem unopened_system (cfg : Config) (left : Left) (history : List Write) (e : Error) (holds : left.Holds history)
    (throws : Unopened cfg e left) : ∃ what, e = .system what := by
  cases left with
  | nothing =>
      obtain ⟨listing, lists, fails⟩ := throws
      rw [open_blank cfg listing _ blank_nothing lists] at fails
      cases fails
  | store left =>
      obtain ⟨_, listing, lists, fails⟩ := throws
      rcases serving_reopens cfg left history listing holds lists with ⟨_, returns⟩ | ⟨_, _, what, _, _, same⟩
      · rw [returns] at fails
        cases fails
      · exact ⟨what, Except.error.inj (fails.symm.trans same)⟩
  | unknown => cases throws

theorem plan_logged (argv : List Bytes) (short : ∀ arg ∈ argv, arg.length ≤ uint32Max) :
    ∀ write ∈ (plan argv).writes, Logged (writeRecord write) := by
  intro write member
  unfold plan at member
  -- A write is a put or a del, and its fields are arguments of the process.
  repeat' split at member
  all_goals simp only [Plan.writes, List.mem_singleton, List.not_mem_nil] at member
  · subst member
    exact ⟨rfl, rfl, short _ (by simp [writeRecord]), short _ (by simp [writeRecord])⟩
  · subst member
    exact ⟨rfl, rfl, short _ (by simp [writeRecord]), by simp [writeRecord]⟩

theorem write_returns (cfg : Config) (db : DB) (write : Write) (sync : Bool) (e : Error)
    (logged : Logged (writeRecord write)) : applyWrite cfg db write sync ≠ .error e := by
  intro fails
  have fits : ¬ ((writeRecord write).key.length > uint32Max ∨ (writeRecord write).value.length > uint32Max) :=
    not_or.mpr ⟨Nat.not_lt.mpr logged.keyFits, Nat.not_lt.mpr logged.valueFits⟩
  rw [applyWrite, walAppend, if_neg fits] at fails
  cases fails

theorem kept_sized (s : Sys) (split : Split) (kept : Kept anyStore True s split) : SizedMems s.db := by
  obtain ⟨_, _, _, _, hist⟩ := kept.held.refined
  refine ⟨⟨split.active, hist.memtable, fun write member => ?_⟩, split.sealed, hist.flushing, fun write member => ?_⟩
  · exact kept.journaled.fits write (List.mem_append_right _ member)
  · exact kept.journaled.fits write (List.mem_append_left _ member)

theorem throws_system (s : Sys) (history : List Write) (call : Call) (label : Label) (e : Error)
    (holds : Serving s history) (locks : call.Locks label) (fails : label.Throws s.cfg s.db e)
    (logged : ∀ write ∈ (Plan.call call).writes, Logged (writeRecord write)) : ∃ what, e = .system what := by
  cases call with
  | put key value =>
      cases locks
      exact absurd fails (write_returns _ _ _ _ e (logged _ (List.mem_singleton_self _)))
  | del key =>
      cases locks
      exact absurd fails (write_returns _ _ _ _ e (logged _ (List.mem_singleton_self _)))
  | gc =>
      obtain ⟨existing, rfl⟩ := locks
      obtain ⟨starts, thrown⟩ := fails
      obtain ⟨split, kept, _⟩ := holds.background.kept
      obtain ⟨i, log, _, sound, _⟩ := kept.held.refined
      simp only [gcStarts, Bool.and_eq_true, Bool.not_eq_true'] at starts
      exact gc_only_io s.cfg s.db i log sound (kept_sized s split kept).1 starts.2 existing e thrown
  | get key => cases locks
  | scan low high => cases locks

theorem aborts_system (s : Sys) (history : List Write) (e : Error) (holds : Serving s history) (aborts : s.Aborts e) :
    ∃ what, e = .system what := by
  cases aborts with
  | fails event next what stepped owner makes => exact ⟨what, rfl⟩
  | thread label e background throws =>
      obtain ⟨split, kept, _⟩ := holds.background.kept
      obtain ⟨i, log, _, sound, _⟩ := kept.held.refined
      refine thrown_system s.cfg s.db i log sound (kept_sized s split kept) (fun job running => ?_) label background e
        throws
      exact kept.held.arranged.strategy holds.tiered job (by simp [inFlight, running])

theorem locks_write (call : Call) (label : Label) (history : List Write) (locks : call.Locks label) :
    label.write.toList = (Plan.call call).writes ∧ label ≠ .compactAllPick ∧
    Prints history (.ok okOutcome) (.call call) := by
  cases call with
  | put key value =>
      cases locks
      exact ⟨rfl, by simp, rfl⟩
  | del key =>
      cases locks
      exact ⟨rfl, by simp, rfl⟩
  | gc =>
      obtain ⟨existing, rfl⟩ := locks
      exact ⟨rfl, by simp, rfl⟩
  | get key => cases locks
  | scan low high => cases locks

theorem serves_prints (s : Sys) (after : Left) (call : Call) (outcome : Except Error Outcome) (history : List Write)
    (holds : Serving s history) (logged : ∀ write ∈ (Plan.call call).writes, Logged (writeRecord write))
    (serves : Serves s call outcome after) :
    after.Holds (history ++ (Plan.call call).writes) ∧
      (Prints history outcome (.call call) ∨ ∃ what, outcome = .error (.system what)) := by
  cases serves with
  | locks call label before after mid next last locks first stepped second quiet returned =>
      obtain ⟨early, late⟩ := List.forall_mem_append.mp quiet
      have middle := quiet_serving s mid before history holds early first
      obtain ⟨changed, alone, prints⟩ := locks_write call label history locks
      have called := step_serving mid next (.lock label) history middle (by simpa using alone) trivial stepped
      rw [show (Event.lock label).write = label.write from rfl, changed] at called
      exact ⟨quiet_serving next last after _ called late second, .inl prints⟩
  | throws call label before mid e locks first free quiet fails =>
      have middle := quiet_serving s mid before history holds quiet first
      obtain ⟨what, rfl⟩ := throws_system mid history call label e middle locks fails logged
      exact ⟨trivial, .inr ⟨what, rfl⟩⟩
  | get key before during after mid late last outcome first free second third quiet shows =>
      obtain ⟨others, ending⟩ := List.forall_mem_append.mp quiet
      obtain ⟨early, reading⟩ := List.forall_mem_append.mp others
      have middle := quiet_serving s mid before history holds early first
      rw [background_get mid late history during middle.background
        (fun event member => (quiet_event event (reading event member)).1)
        second key] at shows
      cases shows
      refine ⟨?_, .inl rfl⟩
      rw [show (Plan.call (.get key)).writes = [] from rfl, List.append_nil]
      exact quiet_serving late last after history
        (quiet_serving mid late during history middle reading second) ending third
  | scan low high before after mid last during moment outcome first free second quiet inside shows =>
      obtain ⟨early, late⟩ := List.forall_mem_append.mp quiet
      have middle := quiet_serving s mid before history holds early first
      have logs : ∀ key, LogsGrow mid.db.logs (moment key).db.logs ∧
        ∀ log ∈ (moment key).db.logs, log.file.length < offMax := fun key =>
        session_logs mid (moment key) (during key) middle.background.running
          (fun event member => (quiet_event event (late event ((inside key).1.subset member))).1) (inside key).2
      have ending := quiet_serving mid last after history middle late second
      obtain ⟨split, kept, rfl⟩ := middle.background.kept
      obtain ⟨pairs, scanned, listed⟩ :=
        held_scan mid.cfg mid.db split _ kept.held (fun key => (logs key).1) (fun key => (logs key).2)
        low high
      rw [scanned] at shows
      cases shows
      rw [show (Plan.call (.scan low high)).writes = [] from rfl, List.append_nil]
      exact ⟨ending, .inl ⟨pairs, rfl, listed⟩⟩

-- What an invocation shows after others that asked for some writes.
def Shows (history : List Write) (run : Invocation) : Prop :=
  Prints history run.outcome (plan run.argv) ∨ ∃ what, run.outcome = .error (.system what)

theorem shows_append (runs : List Invocation) (run : Invocation)
    (before : ∀ front other back, runs = front ++ other :: back → Shows (asked front) other)
    (here : Shows (asked runs) run) :
    ∀ front other back, runs ++ [run] = front ++ other :: back → Shows (asked front) other := by
  intro front other back split
  rcases List.eq_nil_or_concat back with rfl | ⟨rest, last, rfl⟩
  · obtain ⟨rfl, same⟩ := List.append_inj' split rfl
    cases same
    exact here
  · rw [List.concat_eq_append, ← List.cons_append, ← List.append_assoc] at split
    exact before front other rest (List.append_inj' split rfl).1

theorem asked_append (runs : List Invocation) (argv : List Bytes) (outcome : Except Error Outcome) :
    asked (runs ++ [⟨argv, outcome⟩]) = asked runs ++ (plan argv).writes := by
  simp [asked]

theorem shell_shows (cfg : Config) (tiered : cfg.leveled = false) (runs : List Invocation) (left : Left)
    (shell : Shell cfg runs left) (short : ∀ run ∈ runs, ∀ arg ∈ run.argv, arg.length ≤ uint32Max) :
    left.Holds (asked runs) ∧ ∀ front run back, runs = front ++ run :: back → Shows (asked front) run := by
  induction shell with
  | start =>
      refine ⟨rfl, fun front run back split => ?_⟩
      simp at split
  | refused runs left argv before asks ih =>
      obtain ⟨holds, shows⟩ := ih (fun run member => short run (by simp [member]))
      rw [asked_append, asks, show Plan.refused.writes = [] from rfl, List.append_nil]
      exact ⟨holds, shows_append runs ⟨argv, .ok usage⟩ shows (.inl (by rw [asks]; rfl))⟩
  | unopened runs left argv e before asks throws ih =>
      obtain ⟨holds, shows⟩ := ih (fun run member => short run (by simp [member]))
      obtain ⟨what, rfl⟩ := unopened_system cfg left _ e holds throws
      exact ⟨trivial, shows_append runs ⟨argv, .error (.system what)⟩ shows (.inr ⟨what, rfl⟩)⟩
  | aborted runs left argv s mid next last before after e shell asks enters first calls second quiet aborts ih =>
      obtain ⟨holds, shows⟩ := ih (fun run member => short run (by simp [member]))
      obtain ⟨early, late⟩ := List.forall_mem_append.mp quiet
      have middle := quiet_serving s mid before _ (entered_serving cfg tiered left s _ holds enters) early first
      have called : ∃ history, Serving next history := by
        rcases calls with rfl | ⟨call, label, _, locks, stepped⟩
        · exact ⟨_, middle⟩
        · obtain ⟨_, alone, _⟩ := locks_write call label [] locks
          exact ⟨_, step_serving mid next (.lock label) _ middle (by simpa using alone) trivial stepped⟩
      obtain ⟨history, serving⟩ := called
      obtain ⟨what, rfl⟩ :=
        aborts_system last history e (quiet_serving next last after history serving late second) aborts
      exact ⟨trivial, shows_append runs ⟨argv, .error (.system what)⟩ shows (.inr ⟨what, rfl⟩)⟩
  | misused runs left argv s last events before asks enters quiet done ih =>
      obtain ⟨holds, shows⟩ := ih (fun run member => short run (by simp [member]))
      have opened := entered_serving cfg tiered left s _ holds enters
      rw [asked_append, asks, show Plan.misused.writes = [] from rfl, List.append_nil]
      exact ⟨quiet_serving s last events _ opened quiet done,
        shows_append runs ⟨argv, .ok usage⟩ shows (.inl (by rw [asks]; rfl))⟩
  | served runs left after argv s call outcome before asks enters serves ih =>
      obtain ⟨holds, shows⟩ := ih (fun run member => short run (by simp [member]))
      have logged := plan_logged argv (short ⟨argv, outcome⟩ (by simp))
      rw [asks] at logged
      obtain ⟨holds, here⟩ :=
        serves_prints s after call outcome _ (entered_serving cfg tiered left s _ holds enters) logged serves
      rw [asked_append, asks]
      exact ⟨holds, shows_append runs ⟨argv, outcome⟩ shows (by rw [Shows, asks]; exact here)⟩

-- Whatever sequence of commands is run on a directory, whatever the threads of
-- each process do, every command prints what a map would have it print or ends
-- with an error of the file system. The constructor that comes next returns, as
-- long as a flush of its own goes through.
theorem invocations_show_map (bucket : Nat → Int) (budget : Int → Nat) (bloom : Nat → BloomSize)
    (runs : List Invocation) (left : Left) (shell : Shell (defaultConfig bucket budget bloom) runs left)
    (short : ∀ run ∈ runs, ∀ arg ∈ run.argv, arg.length ≤ uint32Max) :
    (∀ front run back, runs = front ++ run :: back → Shows (asked front) run) ∧
      ∀ s listing, left = .store s → Lists s.disk listing →
      Reopens (defaultConfig bucket budget bloom) listing s.disk := by
  obtain ⟨holds, shows⟩ := shell_shows _ rfl runs left shell short
  refine ⟨shows, fun s listing same lists => ?_⟩
  rw [same] at holds
  exact serving_reopens _ s _ listing holds lists

-- A put and, in a process of its own, a get.
theorem put_then_get_prints :
    ∃ left outcome, Shell (defaultConfig (fun size => Int.ofNat (Nat.log2 size)) (fun _ => 2 ^ 26) smallBloom)
        [⟨[[], [], putWord, [1], [2]], .ok okOutcome⟩, ⟨[[], [], getWord, [1]], outcome⟩] left ∧
      outcome = .ok { status := 0, stdout := [2, 0x0a] } := by
  generalize same : defaultConfig (fun size => Int.ofNat (Nat.log2 size)) (fun _ => 2 ^ 26) smallBloom = cfg
  have value : ((Sys.fresh cfg).execAllIn (storeNames 1) (fun _ _ => true) (List.replicate 7 .io)).bind (fun mid =>
      (mid.execAllIn (storeNames 1) (fun _ _ => true) (whole (.put [1] [2] true) 2)).bind (fun left =>
        (left.execAllIn (storeNames 1) (fun _ _ => true) ([.reopen cfg] ++ List.replicate 2 .io)).map (fun late =>
          (late.todo.isEmpty, left.db.sealWaiters, (late.db.get [1]).isOk)))) = some (true, 0, true) := by
    subst same
    decide +kernel
  obtain ⟨mid, opening, value⟩ := Option.bind_eq_some_iff.mp value
  obtain ⟨left, putting, value⟩ := Option.bind_eq_some_iff.mp value
  obtain ⟨late, reading, ready⟩ := Option.map_eq_some_iff.mp value
  simp only [Prod.mk.injEq, List.isEmpty_iff] at ready
  have distinct : (storeNames 1).Nodup := by decide +kernel
  obtain ⟨first, confined⟩ :=
    exec_all_in_run _ _ _ mid _ distinct (fresh_confined _ _ (by subst same; decide +kernel)) opening
  obtain ⟨⟨_, next, stepped, second⟩, confined⟩ := exec_all_in_run _ _ _ left _ distinct confined putting
  obtain ⟨⟨_, again, reopened, third⟩, _⟩ := exec_all_in_run _ _ _ late _ distinct confined reading
  have quiet : ∀ n, ∀ event ∈ List.replicate n Event.io, event.Quiet := by
    intro n event member
    rw [List.eq_of_mem_replicate member]
    trivial
  have put : Serves (Sys.fresh cfg) (.put [1] [2]) (.ok okOutcome) (.store left) :=
    .locks _ (.put [1] [2] true) _ _ mid next left rfl (run_with_run _ _ _ _ first) stepped
      (run_with_run _ _ _ _ second) (List.forall_mem_append.mpr ⟨quiet 7, quiet 2⟩) ready.2.1
  have got := Serves.get (s := again) [1] (List.replicate 2 .io) [] [] late late late _
    (run_with_run _ _ _ _ third) ready.1 rfl rfl (by simpa using quiet 2) rfl
  have shell := Shell.served _ _ _ [[], [], getWord, [1]] again (.get [1]) _
    (.served [] .nothing _ [[], [], putWord, [1], [2]] _ _ _ .start rfl (fresh_starts cfg) put) rfl reopened got
  refine ⟨_, _, shell, ?_⟩
  subst same
  have shown := (invocations_show_map _ _ _ _ _ shell (by simp [putWord, getWord, uint32Max])).1
    [⟨[[], [], putWord, [1], [2]], .ok okOutcome⟩] _ [] rfl
  rcases shown with prints | ⟨what, fails⟩
  · exact prints
  · have answers := ready.2.2
    cases read : late.db.get [1] with
    | error e =>
        rw [read] at answers
        cases answers
    | ok answer =>
        rw [show (getLocked late.db [1]).finish late.db.logs [1] = .ok answer from read] at fails
        cases fails

end Tombstash
