import Tombstash.Collect

set_option autoImplicit false

namespace Tombstash

variable {found : Bytes} {serial : Prop}

-- Where flush_locked can throw: in an append to the value log, with the records
-- before it and some bytes of its own written; from the sync of the log to the
-- opening of the table; in the MANIFEST; at the new write-ahead log.
inductive FlushPoint where
  | append (done torn : Nat)
  | table
  | manifest
  | wal

-- And gc_value_log before its own commit: in its flush, from the merge to the
-- sync of the new log, or with a table number taken.
inductive GcPoint where
  | flush (point : FlushPoint)
  | relocate
  | table

-- The members as flush_locked leaves them when it throws; none where it does
-- not come to the point.
def flushThrows (cfg : Config) (db : DB) : FlushPoint → Option DB
  | .append done torn =>
      match logIndex db.vlogs db.currentGen, lookupLog db.logs db.vlogs db.currentGen,
        db.memtable.snapshot.drop done with
      | some i, some log, rec :: _ =>
          if shouldSeparate cfg rec && decide (torn < (vlogEntry rec.key rec.value).length) then
            (separateAll cfg log (db.memtable.snapshot.take done)).toOption.map (fun separated =>
              { db with
                nextSeq := db.nextSeq + 1
                logs := db.logs.set i (tornAppend separated.1 (vlogEntry rec.key rec.value) torn) })
          else none
      | _, _, _ => none
  | .table =>
      if db.memtable.isEmpty then none
      else
        match logIndex db.vlogs db.currentGen, lookupLog db.logs db.vlogs db.currentGen with
        | some i, some log =>
            (separateAll cfg log db.memtable.snapshot).toOption.map (fun separated =>
              { db with nextSeq := db.nextSeq + 1, logs := db.logs.set i separated.1 })
        | _, _ => none
  | .manifest =>
      if db.memtable.isEmpty then none
      else (flushLocked cfg db).toOption.map (fun flushed => { flushed.1 with memtable := db.memtable })
  | .wal => if db.memtable.isEmpty then none else (flushLocked cfg db).toOption.map Prod.fst

-- compacting_ is raised first and nothing lowers it on the way out.
def gcThrows (cfg : Config) (db : DB) : GcPoint → Option DB
  | .flush point => (flushThrows cfg db point).map (fun next => { next with compacting := true })
  | .relocate =>
      (flushLocked cfg db).toOption.bind (fun flushed =>
        if flushed.1.sstables.isEmpty then none else some { flushed.1 with compacting := true })
  | .table =>
      (flushLocked cfg db).toOption.bind (fun flushed =>
        if flushed.1.sstables.isEmpty then none
        else some { flushed.1 with compacting := true, nextSeq := flushed.1.nextSeq + 1 })

-- A call that throws: compact_all between its two sections, gc_value_log under
-- the lock once its wait is over.
inductive Failure where
  | compactAll (index : Nat)
  | gc (point : GcPoint)

def throws (cfg : Config) (db : DB) : Failure → Option DB
  | .compactAll index => if index < db.callers.length then some (db.endJob (.caller index)) else none
  | .gc point => if gcStarts db then gcThrows cfg db point else none

theorem torn_grows (log : ValueLog) (entry : Bytes) (torn : Nat) (aligned : log.Aligned) :
    Grows log (tornAppend log entry torn) := by
  refine ⟨rfl, rfl, ?_⟩
  rw [tornAppend, aligned.atEnd]
  exact ⟨entry.take torn, (overwrite_end log.file (entry.take torn)).symm⟩

theorem grown_log_get (db next : DB) (i : Nat) (log later : ValueLog) (sound : Sound serial db i log)
    (grows : Grows log later) (memtable : next.memtable = db.memtable)
    (flushing : next.flushingMemtable = db.flushingMemtable) (slot : next.hasFlushing = db.hasFlushing)
    (tables : next.sstables = db.sstables) (vlogs : next.vlogs = db.vlogs) (logs : next.logs = db.logs.set i later)
    (key : Bytes) (steady : Steady db log key) : next.get key = db.get key := by
  have bound := (List.getElem?_eq_some_iff.mp sound.object).1
  have runs : lookupRuns next = lookupRuns db := by
    rw [lookupRuns, lookupRuns, memRuns, memRuns, memtable, flushing, slot, tables]
  rw [DB.get, DB.get, lookup_reads next next.logs key (by rw [tables]; exact sound.formed),
    lookup_reads db db.logs key sound.formed, runs, vlogs, logs]
  cases hit : firstMatch Record.key key (lookupRuns db) with
  | none => rfl
  | some rec =>
      exact answer_grows db i log later _ rec sound (by simp [bound]) (fun kept separated current =>
        steady rec hit kept separated current later grows)

section Points

variable (cfg : Config) (db : DB) (i : Nat) (log : ValueLog) (sound : Sound serial db i log)
    (free : db.hasFlushing = false)
variable (key : Bytes) (steady : Steady db log key)

include sound free steady in
theorem unflushed_get (next : DB) (ops : List DiskOp) (done : flushLocked cfg db = .ok (next, ops)) :
    DB.get { next with memtable := db.memtable } key = db.get key := by
  rcases flush_returns cfg db next ops done with
    ⟨_, rfl, _⟩ | ⟨k, current, grown, recs, vlogOps, bytes, sst, _, index, object, separated, built, rfl, _⟩
  · rfl
  obtain ⟨rfl, rfl⟩ := sound_current db i log sound k current index object
  obtain ⟨appended, separations⟩ := separate_all_spec cfg log grown _ recs vlogOps sound.aligned separated
  obtain ⟨represents, _⟩ := snapshot_table cfg db.memtable grown recs bytes sst separations built
  have made := sound_flushed cfg db i log grown recs vlogOps bytes sst sound free separated built
  have grownGet := grown_log_get db { db with logs := db.logs.set i grown } i log grown sound appended.grows
    rfl rfl rfl rfl rfl rfl key steady
  have longer := lookup_reads { db with logs := db.logs.set i grown } (db.logs.set i grown) key sound.formed
  have shadowed :=
    lookup_reads { flushedDb db i grown sst with memtable := db.memtable } (db.logs.set i grown) key made.formed
  have runs : ∀ rest : List (List Record), firstMatch Record.key key (db.memtable.snapshot :: recs :: rest) =
      firstMatch Record.key key (db.memtable.snapshot :: rest) := by
    intro rest
    rw [first_match_cons, first_match_cons, first_match_cons]
    rcases find_key_related Record.key _ _ recs separations (fun _ _ separation => separation.key) key with
      ⟨missing, gone⟩ | ⟨original, stored, hit, _⟩
    · rw [missing, gone, Option.none_or, Option.none_or]
    · rw [hit, Option.some_or, Option.some_or]
  have before : lookupRuns { db with logs := db.logs.set i grown } = db.memtable.snapshot :: tableRuns db.sstables := by
    rw [lookupRuns, memRuns, free]
    rfl
  have after : lookupRuns { flushedDb db i grown sst with memtable := db.memtable } =
      db.memtable.snapshot :: recs :: tableRuns db.sstables := by
    rw [lookupRuns, memRuns, show (flushedDb db i grown sst).hasFlushing = false from free,
      ← represents_records sst recs represents]
    rfl
  rw [after, runs, ← before] at shadowed
  exact shadowed.trans (longer.symm.trans grownGet)

include sound free steady in
theorem flush_throws_get (point : FlushPoint) (next : DB) (thrown : flushThrows cfg db point = some next) :
    next.get key = db.get key := by
  obtain ⟨index, object⟩ := sound_index db i log sound
  cases point with
  | append done torn =>
      simp only [flushThrows, index, object] at thrown
      split at thrown
      · next k other rec rest slot same left =>
          cases slot
          cases same
          split at thrown
          · obtain ⟨separated, found, rfl⟩ := Option.map_eq_some_iff.mp thrown
            obtain ⟨later, recs, ops⟩ := separated
            obtain ⟨appended, _⟩ := separate_all_spec cfg log later _ recs ops sound.aligned (to_option_ok _ _ found)
            have grows := grows_trans log later _ appended.grows
              (torn_grows later (vlogEntry rec.key rec.value) torn appended.aligned)
            exact grown_log_get db { db with
              nextSeq := db.nextSeq + 1
              logs := db.logs.set i (tornAppend later (vlogEntry rec.key rec.value) torn) } i log _ sound grows
              rfl rfl rfl rfl rfl rfl key steady
          · cases thrown
      · cases thrown
  | table =>
      simp only [flushThrows, index, object] at thrown
      split at thrown
      · cases thrown
      · obtain ⟨separated, found, rfl⟩ := Option.map_eq_some_iff.mp thrown
        obtain ⟨later, recs, ops⟩ := separated
        obtain ⟨appended, _⟩ := separate_all_spec cfg log later _ recs ops sound.aligned (to_option_ok _ _ found)
        exact grown_log_get db { db with nextSeq := db.nextSeq + 1, logs := db.logs.set i later } i log later sound
          appended.grows rfl rfl rfl rfl rfl rfl key steady
  | manifest =>
      simp only [flushThrows] at thrown
      split at thrown
      · cases thrown
      · obtain ⟨flushed, found, rfl⟩ := Option.map_eq_some_iff.mp thrown
        exact unflushed_get cfg db i log sound free key steady flushed.1 flushed.2 (to_option_ok _ _ found)
  | wal =>
      simp only [flushThrows] at thrown
      split at thrown
      · cases thrown
      · obtain ⟨flushed, found, rfl⟩ := Option.map_eq_some_iff.mp thrown
        exact flush_keeps_get cfg db flushed.1 i log flushed.2 sound free (to_option_ok _ _ found) key steady

include sound free steady in
theorem gc_throws_get (point : GcPoint) (next : DB) (thrown : gcThrows cfg db point = some next) :
    next.get key = db.get key := by
  have committed : ∀ flushed : DB × List DiskOp, (flushLocked cfg db).toOption = some flushed →
    flushed.1.get key = db.get key :=
    fun flushed found => flush_keeps_get cfg db flushed.1 i log flushed.2 sound free (to_option_ok _ _ found) key steady
  cases point with
  | flush point =>
      obtain ⟨half, stopped, rfl⟩ := Option.map_eq_some_iff.mp thrown
      exact flush_throws_get cfg db i log sound free key steady point half stopped
  | relocate =>
      obtain ⟨flushed, found, rest⟩ := Option.bind_eq_some_iff.mp thrown
      split at rest
      · cases rest
      · cases rest
        exact committed flushed found
  | table =>
      obtain ⟨flushed, found, rest⟩ := Option.bind_eq_some_iff.mp thrown
      split at rest
      · cases rest
      · cases rest
        exact committed flushed found

end Points

theorem flush_throws_jobs (cfg : Config) (db next : DB) (point : FlushPoint)
    (thrown : flushThrows cfg db point = some next) :
    inFlight next = inFlight db := by
  have committed : ∀ flushed : DB × List DiskOp, (flushLocked cfg db).toOption = some flushed →
    inFlight flushed.1 = inFlight db :=
    fun flushed found => (flush_keeps_jobs cfg db flushed.1 flushed.2 (to_option_ok _ _ found)).1
  cases point with
  | append done torn =>
      simp only [flushThrows] at thrown
      split at thrown
      · split at thrown
        · obtain ⟨_, _, rfl⟩ := Option.map_eq_some_iff.mp thrown
          rfl
        · cases thrown
      · cases thrown
  | table =>
      simp only [flushThrows] at thrown
      split at thrown
      · cases thrown
      · split at thrown
        · obtain ⟨_, _, rfl⟩ := Option.map_eq_some_iff.mp thrown
          rfl
        · cases thrown
  | manifest =>
      simp only [flushThrows] at thrown
      split at thrown
      · cases thrown
      · obtain ⟨flushed, found, rfl⟩ := Option.map_eq_some_iff.mp thrown
        exact committed flushed found
  | wal =>
      simp only [flushThrows] at thrown
      split at thrown
      · cases thrown
      · obtain ⟨flushed, found, rfl⟩ := Option.map_eq_some_iff.mp thrown
        exact committed flushed found

theorem gc_throws_flag (cfg : Config) (db next : DB) (point : GcPoint) (thrown : gcThrows cfg db point = some next) :
    next.compacting = true ∧ inFlight next = inFlight db := by
  have committed : ∀ flushed : DB × List DiskOp, (flushLocked cfg db).toOption = some flushed →
    inFlight flushed.1 = inFlight db :=
    fun flushed found => (flush_keeps_jobs cfg db flushed.1 flushed.2 (to_option_ok _ _ found)).1
  cases point with
  | flush point =>
      obtain ⟨half, stopped, rfl⟩ := Option.map_eq_some_iff.mp thrown
      exact ⟨rfl, flush_throws_jobs cfg db half point stopped⟩
  | relocate =>
      obtain ⟨flushed, found, rest⟩ := Option.bind_eq_some_iff.mp thrown
      split at rest
      · cases rest
      · cases rest
        exact ⟨rfl, committed flushed found⟩
  | table =>
      obtain ⟨flushed, found, rest⟩ := Option.bind_eq_some_iff.mp thrown
      split at rest
      · cases rest
      · cases rest
        exact ⟨rfl, committed flushed found⟩

-- The flag is up though no merge is in flight that would lower it: gc_value_log
-- and wait_for_idle wait for whatever the compactor installs next.
def FlagStuck (db : DB) : Prop := db.compacting = true ∧ inFlight db = []

-- The flag, and how many merges have picked and not installed.
structure Marks where
  raised : Bool
  merges : Nat

def Marks.next : Marks → Event → Marks
  | marks, .lock .compactorPick | marks, .lock .compactAllPick => ⟨true, marks.merges + 1⟩
  | marks, .lock (.mergeInstall _) => ⟨false, marks.merges - 1⟩
  | _, .reopen _ | _, .crash _ => ⟨false, 0⟩
  | marks, _ => marks

def marksAfter (events : List Event) : Marks := events.foldl Marks.next ⟨false, 0⟩

-- The runs after which a failing call does not leave the flag up: another merge
-- has picked and not installed or, for compact_all, one has installed since the
-- last pick.
def OthersLower (events : List Event) : Failure → Prop
  | .compactAll _ => 2 ≤ (marksAfter events).merges ∨ (marksAfter events).raised = false
  | .gc _ => 0 < (marksAfter events).merges

def DB.marks (db : DB) : Marks := ⟨db.compacting, (inFlight db).length⟩

theorem seal_marks (db : DB) : (sealLocked db).1.marks = db.marks := by
  unfold sealLocked
  split <;> rfl

theorem write_marks (cfg : Config) (db next : DB) (write : Write) (sync : Bool) (ops : List DiskOp)
    (done : applyWrite cfg db write sync = .ok (next, ops)) : next.marks = db.marks := by
  obtain ⟨bytes, _, rfl, _⟩ := apply_write_returns cfg db next write sync ops done
  unfold maybeSeal
  split
  · rfl
  · split
    · rfl
    · exact seal_marks _

theorem flush_marks (cfg : Config) (db next : DB) (ops : List DiskOp) (done : flushLocked cfg db = .ok (next, ops)) :
    next.marks = db.marks := by
  rcases flush_returns cfg db next ops done with ⟨_, rfl, _⟩ | ⟨_, _, _, _, _, _, _, _, _, _, _, _, rfl, _⟩
  · rfl
  · rfl

theorem client_marks (cfg : Config) (db : DB) (label : Label) (effect : Effect) (client : label.works = false)
    (done : perform cfg db label = some effect) : effect.db.marks = db.marks := by
  cases label with
  | put key value sync =>
      obtain ⟨next, ops, wrote, rfl⟩ := of_except_some _ _ done
      exact write_marks cfg db next _ sync ops wrote
  | del key sync =>
      obtain ⟨next, ops, wrote, rfl⟩ := of_except_some _ _ done
      exact write_marks cfg db next _ sync ops wrote
  | wakeSeal =>
      simp only [perform] at done
      split at done
      · cases done
        exact seal_marks { db with sealWaiters := db.sealWaiters - 1 }
      · cases done
  | sync =>
      cases done
      rfl
  | flush =>
      simp only [perform] at done
      split at done
      · cases done
      · obtain ⟨next, ops, flushed, rfl⟩ := of_except_some _ _ done
        exact flush_marks cfg db next ops flushed
  | gc existing =>
      simp only [perform] at done
      split at done
      · cases done
      · obtain ⟨flushed, ops, flush, outcome⟩ := gc_returns cfg db existing effect (to_option_ok _ _ done)
        rw [← flush_marks cfg db flushed ops flush]
        rcases outcome with ⟨_, rfl⟩ | ⟨_, _, _, _, _, _, _, _, _, _, _, _, rfl⟩
        · rfl
        · rfl
  | setBloomEnabled on =>
      cases done
      rfl
  | _ => cases client

theorem work_marks (cfg : Config) (db : DB) (label : Label) (effect : Effect) (work : Work cfg db label effect) :
    effect.db.marks = db.marks.next (.lock label) := by
  have set : ∀ worker job next, db.job worker = some job → (db.setJob next worker).marks = db.marks := by
    intro worker job next running
    obtain ⟨before, after, jobs, changed, _⟩ := job_split db worker job running
    rw [DB.marks, DB.marks, jobs, changed]
    cases worker <;> simp [DB.setJob]
  cases work with
  | picked next job noJob picks =>
      obtain ⟨⟨seq, rfl, _⟩, _⟩ := pick_job_fresh cfg db next job picks
      simp [DB.marks, Marks.next, inFlight, noJob]
  | pickedAll many => simp [DB.marks, Marks.next, inFlight, Nat.add_assoc]
  | merged worker job next running unmerged merges => exact set worker job next running
  | reserved job next groups running grouped unbuilt builds => simp [DB.marks, Marks.next, inFlight, running]
  | mergeIo worker job op rest outputs running building => exact set worker job _ running
  | installed worker job outputs running complete =>
      obtain ⟨before, after, jobs, _, ended⟩ := job_split db worker job running
      obtain ⟨_, _, frame⟩ := install_job_frame db job outputs
      have same : inFlight (mergeInstall db worker job outputs).db = inFlight (db.endJob worker) :=
        ended_jobs db _ worker (by rw [frame]) (by rw [frame])
      have flag : (mergeInstall db worker job outputs).db.compacting = false := by cases worker <;> rfl
      rw [DB.marks, DB.marks, same, flag, jobs, ended]
      simp [Marks.next]
  | _ => rfl

theorem opened_marks (cfg : Config) (disk : Disk Bytes) (s : Sys) (opens : Opens cfg disk s) :
    s.db.marks = ⟨false, 0⟩ := by
  obtain ⟨listing, _, opened⟩ := opens.opened
  have unstarted := opened_unstarted cfg listing disk s.db s.todo opened
  rw [DB.marks, unstarted.flag, unstarted.merges]
  rfl

theorem step_marks (s next : Sys) (event : Event) (stepped : s.Step event next) :
    next.db.marks = s.db.marks.next event := by
  have label : ∀ label effect, step s.cfg s.db label = some effect →
    effect.db.marks = s.db.marks.next (.lock label) := by
    intro label effect done
    obtain ⟨performed, _⟩ := Option.filter_eq_some_iff.mp done
    cases works : label.works with
    | true => exact work_marks s.cfg s.db label effect (perform_work s.cfg s.db effect label works performed)
    | false =>
        rw [client_marks s.cfg s.db label effect works performed]
        cases label <;> first | rfl | cases works
  cases stepped with
  | lock other effect free locked finds done => exact label other effect done
  | work other effect off done =>
      rw [label other effect done]
      cases other <;> first | rfl | cases off
  | io op rest todo => rfl
  | collect name marked => rfl
  | reopen cfg next closed opens => exact opened_marks cfg s.disk _ opens
  | crash cfg image next cut opens => exact opened_marks cfg image _ opens

theorem run_marks (s last : Sys) (events : List Event) (done : s.Run events last) :
    last.db.marks = events.foldl Marks.next s.db.marks := by
  induction events generalizing s with
  | nil =>
      cases done
      rfl
  | cons event rest ih =>
      obtain ⟨next, stepped, remaining⟩ := done
      rw [ih next remaining, List.foldl_cons, step_marks s next event stepped]

theorem thrown_flag (cfg : Config) (db next : DB) (failure : Failure) (thrown : throws cfg db failure = some next)
    (events : List Event) (marks : db.marks = marksAfter events) : ¬ FlagStuck next ↔ OthersLower events failure := by
  cases failure with
  | compactAll index =>
      simp only [throws] at thrown
      split at thrown
      · next inside =>
          cases thrown
          have count : (inFlight db).length = (inFlight (db.endJob (.caller index))).length + 1 := by
            obtain ⟨before, after, jobs, _, ended⟩ :=
              job_split db (.caller index) db.callers[index] (List.getElem?_eq_getElem inside)
            rw [jobs, ended]
            simp only [List.length_append, List.length_cons]
            omega
          have flag : (db.endJob (.caller index)).compacting = db.compacting := rfl
          rw [FlagStuck, OthersLower, ← marks, DB.marks, flag, count, ← List.length_eq_zero_iff,
            not_and_or, Bool.not_eq_true]
          constructor
          · rintro (lowered | others)
            · exact .inr lowered
            · exact .inl (Nat.succ_le_succ (Nat.one_le_iff_ne_zero.mpr others))
          · rintro (others | lowered)
            · exact .inr (Nat.one_le_iff_ne_zero.mp (Nat.le_of_succ_le_succ others))
            · exact .inl lowered
      · cases thrown
  | gc point =>
      simp only [throws] at thrown
      split at thrown
      · obtain ⟨raised, jobs⟩ := gc_throws_flag cfg db next point thrown
        rw [FlagStuck, OthersLower, ← marks, DB.marks, raised, jobs, List.length_pos_iff]
        simp
      · cases thrown

theorem thrown_get (cfg : Config) (db next : DB) (i : Nat) (log : ValueLog) (failure : Failure)
    (sound : Sound serial db i log) (thrown : throws cfg db failure = some next) (key : Bytes)
    (steady : Steady db log key) : next.get key = db.get key := by
  cases failure with
  | compactAll index =>
      simp only [throws] at thrown
      split at thrown
      · cases thrown
        rfl
      · cases thrown
  | gc point =>
      simp only [throws] at thrown
      split at thrown
      · next starts =>
          simp only [gcStarts, Bool.and_eq_true, Bool.not_eq_true'] at starts
          exact gc_throws_get cfg db i log sound starts.2 key steady point next thrown
      · cases thrown

-- In every state and at every point a failing call changes no get that answers
-- and, unless a crash has met overlapping merges, none that throws either. Whether
-- it leaves the flag up depends on the merges that the run has begun and ended.
theorem failed_call_flag (cfg : Config) (start last : Sys) (events : List Event) (starts : start.Starts cfg)
    (done : start.Run events last) (failure : Failure) (next : DB)
    (thrown : throws last.cfg last.db failure = some next) :
    (∀ key value, last.db.get key = .ok value → next.get key = .ok value) ∧
      ((∀ cfg, .crash cfg ∉ events) ∨ CalmEvents start events → ∀ key, next.get key = last.db.get key) ∧
      (¬ FlagStuck next ↔ OthersLower events failure) := by
  refine ⟨fun key value answered => ?_, fun path key => ?_, ?_⟩
  · obtain ⟨i, log, sound, _⟩ := (run_running carried_nothing cfg start last events starts done).inv.state
    rw [← answered]
    exact thrown_get last.cfg last.db next i log failure sound thrown key
      (answered_steady last.db i log sound key value answered)
  · rcases path with clean | calm
    · obtain ⟨i, log, sound, pointed⟩ := (run_traced cfg start last events starts clean done).pointed
      exact thrown_get last.cfg last.db next i log failure sound thrown key
        (pointed_steady last.db i log sound pointed key)
    · obtain ⟨i, log, sound, _⟩ :=
        (calm_events_running carried_nothing cfg start last events starts calm done).inv.state
      have pointed := sound_pointed last.db i log sound
      exact thrown_get last.cfg last.db next i log failure sound thrown key
        (pointed_steady last.db i log sound pointed key)
  · refine thrown_flag last.cfg last.db next failure thrown events ?_
    rw [run_marks start last events done, opened_marks cfg _ start starts, marksAfter]

-- One value in the memtable; gc fails in its flush, and the next gc waits.
def unflushedValue : List Event := List.replicate 7 .io ++ whole (.put [1] [2, 3] false) 1

theorem failed_gc_blocks_gc :
    ((Sys.fresh (smallStore 1000 1)).execAll unflushedValue).map (fun s =>
      (throws s.cfg s.db (.gc (.flush .table))).map
        (fun next => (next.compacting, (inFlight next).length, gcStarts next))) =
    some (some (true, 0, false)) := by
  decide +kernel

-- compact_all fails while the compactor has picked and not installed.
def overlappedFailure : List Event :=
  List.replicate 7 .io ++ whole (.put [1] [2, 3] false) 1 ++ whole .flush 13 ++ whole (.put [2] [4] false) 1 ++
    whole .flush 13 ++ [.lock .compactorPick, .lock .compactAllPick]

theorem overlapped_failure_lowers :
    ∃ last next, (Sys.fresh (smallStore 1000 1)).execAll overlappedFailure = some last ∧
      throws last.cfg last.db (.compactAll 0) = some next ∧ next.get [1] = .ok (some [2, 3]) ∧ ¬ FlagStuck next := by
  obtain ⟨last, done⟩ := Option.isSome_iff_exists.mp
    (by decide +kernel : ((Sys.fresh (smallStore 1000 1)).execAll overlappedFailure).isSome = true)
  have callers :
    ((Sys.fresh (smallStore 1000 1)).execAll overlappedFailure).map (fun s => s.db.callers.length) = some 1 := by
    decide +kernel
  have value : ((Sys.fresh (smallStore 1000 1)).execAll overlappedFailure).map (fun s => s.db.get [1]) =
      some (.ok (some [2, 3])) := by
    decide +kernel
  rw [done, Option.map_some, Option.some.injEq] at callers value
  have thrown : throws last.cfg last.db (.compactAll 0) = some (last.db.endJob (.caller 0)) := by
    rw [throws, if_pos (by omega)]
  obtain ⟨gets, _, flag⟩ := failed_call_flag (smallStore 1000 1) _ last overlappedFailure (fresh_starts _)
    (exec_all_run _ last overlappedFailure done) (.compactAll 0) _ thrown
  exact ⟨last, _, done, thrown, gets [1] _ value, flag.mpr (.inl (by decide))⟩

end Tombstash
