import Tombstash.Bootstrap
import Tombstash.Journal

set_option autoImplicit false

namespace Tombstash

variable {found : Bytes}

theorem alone_move (cfg : Config) (db next : DB) (k : Nat) (log : ValueLog) (kind : Kind) (ops : List DiskOp)
    (plain : kind = .flushed ∨ kind = .idle) (index : logIndex db.vlogs db.currentGen = some k)
    (object : db.logs[k]? = some log) (move : Move cfg found db kind next ops []) :
    ∃ later, Move cfg found (db.alone log) kind (next.alone later) ops [] ∧ next.logs = db.logs.set k later ∧
      next.vlogs = db.vlogs ∧ next.currentGen = db.currentGen := by
  have same : db.logs = db.logs.set k log := by
    refine List.ext_getElem? (fun i => ?_)
    rw [List.getElem?_set]
    split
    · next here =>
        rw [← here, object, if_pos (List.getElem?_eq_some_iff.mp object).1]
    · rfl
  rcases plain with rfl | rfl
  · cases move with
    | flushed i current later recs vlogOps bytes sst filled free atIndex atObject separated built =>
        rw [index] at atIndex
        cases atIndex
        rw [object] at atObject
        cases atObject
        refine ⟨later, ?_, rfl, rfl, rfl⟩
        exact .flushed 0 log later recs vlogOps bytes sst filled free (by simp [DB.alone, logIndex]) rfl separated built
  · cases move with
    | rest => exact ⟨log, .rest, same, rfl, rfl⟩
    | waits waiters => exact ⟨log, .waits waiters, same, rfl, rfl⟩
    | bloom on => exact ⟨log, .bloom on, same, rfl, rfl⟩

theorem rewritten_backed (db : DB) (log : ValueLog) (disk : Disk Bytes) (sound : Sound False db 0 log)
    (numbered : Numbered db) (bounds : LevelBounds db) (limits : Listable db) (backed : Backed False db log disk) :
    Backed False db log (applyAll disk (writeManifestLocked db)) := by
  obtain ⟨stored, text, known, vlog⟩ := committed_db_stored db log disk backed.committed
  obtain ⟨j, later, soundLater, after, _⟩ :=
    advances_commit db log disk db 0 log [] [] text sound numbered bounds limits (by simp [Apart])
    (by simp) (throughout_nil _ _ backed.committed) stored known vlog backed.vlog backed.flush backed.merges
  rw [List.nil_append, List.append_nil] at after
  obtain ⟨_, rfl⟩ := sound_unique db 0 j log later sound soundLater
  exact after

theorem manifest_forgotten (left right : Disk Bytes) (db : DB) (ops : List DiskOp) (splits : ∀ op ∈ ops, Splits op)
    (same : ∀ name, name ∉ manifestFiles → left name = right name) :
    applyAll left (ops ++ writeManifestLocked db) = applyAll right (ops ++ writeManifestLocked db) := by
  have written : ∀ disk : Disk Bytes, applyAll disk (writeManifestLocked db) manifestName = some
    (durable (manifestBytes (manifestOf db))) ∧
      applyAll disk (writeManifestLocked db) manifestTmpName = none := by
    intro disk
    have different : manifestName ≠ manifestTmpName := by decide
    simp [writeManifestLocked, manifestOps, FsOp.apply, Disk.set, different, durable]
  have all : ∀ op ∈ ops ++ writeManifestLocked db, Splits op := by
    intro op member
    rcases List.mem_append.mp member with inOps | inManifest
    · exact splits op inOps
    · refine .inl (fun name touched => ?_)
      rcases manifest_files _ op inManifest name touched with rfl | rfl <;> decide
  funext name
  by_cases inside : name ∈ manifestFiles
  · rw [apply_all_append, apply_all_append]
    simp only [manifestFiles, List.mem_cons, List.not_mem_nil, or_false] at inside
    rcases inside with rfl | rfl
    · rw [(written _).1, (written _).1]
    · rw [(written _).2, (written _).2]
  · exact apply_all_agree (fun name => name ∉ manifestFiles) left right _ (fun op member => (all op member).symm.imp id
      (fun within name touched outside => outside (within name touched))) same name inside

-- A state after the steps of the constructor: with its current log alone the
-- store is complete on disk.
structure Settled (disk : Disk Bytes) (db : DB) (log : ValueLog) : Prop where
  sound : Sound False (db.alone log) 0 log
  backed : Backed False (db.alone log) log disk
  numbered : Numbered (db.alone log)
  bounds : LevelBounds (db.alone log)
  slot : db.hasFlushing = false
  flusher : db.flusher = none
  merges : inFlight db = []

-- The steps of the flush of what was replayed.
structure FlushSteps (kind : Kind) (front : List DiskOp) : Prop where
  splits : ∀ op ∈ front, Splits op
  names : ∀ op ∈ front, ∀ name ∈ op.touches, StoreName name
  phases : ∃ work, front = work ++ kind.walOps ∧ Apart walFiles work

section Replayed

variable (cfg : Config) (disk : Disk Bytes) (m : ManifestData) (ssts : List SSTable) (file : File)
    (replayed : List Write)
variable (committed : Committed False disk m [] ssts) (present : disk (vlogName m.currentGen) = some file)
    (valid : disk.Valid)
variable (db : DB) (log : ValueLog) (kind : Kind) (front : List DiskOp) (plain : kind = .flushed ∨ kind = .idle)
variable (move : Move cfg [] (loadedDb m ssts file.data replayed) kind (db.alone log) front [])
variable (gen : db.currentGen = m.currentGen) (limits : Listable db)

include committed present valid plain move gen limits in
theorem replayed_flush_steps : FlushSteps kind front := by
  have sound := loaded_sound disk m [] ssts committed file present replayed
  have numbered := loaded_numbered disk m [] ssts committed file replayed
  have locked : kind ≠ .worked := by rcases plain with rfl | rfl <;> nofun
  refine ⟨fun op member => ?_, fun op member name touched => ?_, ?_⟩
  · have objects : Objects (loadedDb m ssts file.data replayed) := by
      refine ⟨fun table inside => ?_, fun other inside => ?_⟩
      · rw [numbered.named table inside]
        exact sst_is_table _
      · rw [List.mem_singleton.mp inside]
        exact ⟨sound.aligned, vlog_log_name _⟩
    obtain ⟨seqs, shape, _⟩ := locked_ops cfg _ _ kind front [] objects move locked
    exact section_splits _ seqs front shape op member
  · exact touch_store_name _ _ committed.prepared.fits.nextSeq name
      (locked_touches cfg _ _ 0 _ kind front [] sound move locked op member name touched)
  · obtain ⟨_, _, _, _, work, steps, apart, _⟩ :=
      move_advances cfg _ 0 _ disk (db.alone log) kind front [] sound numbered
      (loaded_bounds disk m [] ssts committed file replayed) move (fun never => never.elim) valid
      (loaded_backed disk m [] ssts committed file present replayed) limits (fun other => absurd gen other)
    exact ⟨work, steps, apart⟩

include committed present valid plain move gen limits in
theorem replayed_settles (hadFlushing : Bool) : Settled (applyAll disk (front ++ dropFlushing hadFlushing)) db log := by
  have loadedSound := loaded_sound disk m [] ssts committed file present replayed
  have loadedNumbered := loaded_numbered disk m [] ssts committed file replayed
  have loadedBounds := loaded_bounds disk m [] ssts committed file replayed
  obtain ⟨j, later, sound, backed, _⟩ :=
    move_advances cfg _ 0 _ disk (db.alone log) kind front [] loadedSound loadedNumbered loadedBounds
    move (fun never => never.elim) valid (loaded_backed disk m [] ssts committed file present replayed) limits
    (fun other => absurd gen other)
  have single : (0 : Nat) = j := by
    have entries := sound.vlogs
    simp only [DB.alone, List.cons.injEq, Prod.mk.injEq, true_and, and_true] at entries
    exact entries
  subst single
  have current : log = later := by simpa [DB.alone] using sound.object
  subst current
  have numbered := move_numbered cfg _ _ 0 _ kind front [] loadedSound loadedNumbered move limits.1
  obtain ⟨flusher, merges⟩ := flush_keeps_workers cfg [] _ _ kind front plain move
  have dropped := backed_apart _ 0 log _ (dropFlushing hadFlushing) sound backed
    (wal_files_live _ numbered _ (drop_flushing_files hadFlushing))
    (by rw [idle_work_files _ flusher merges]; simp [Apart])
  rw [← apply_all_append] at dropped
  exact ⟨sound, dropped, numbered, move_level_bounds cfg _ _ 0 _ kind front [] loadedSound loadedBounds move,
    (flush_keeps_slot cfg _ _ kind front [] plain move).1, flusher, merges⟩

end Replayed

theorem adopted_settles (cfg : Config) (listing : List Bytes) (disk : Disk Bytes) (loaded db : DB)
    (loadOps front ops : List DiskOp) (man : Option ManifestData) (kind : Kind) (m : ManifestData) (ssts : List SSTable)
    (file : File) (k : Nat) (valid : disk.Valid)
    (returns : OpenReturns cfg listing disk db ops man loaded loadOps kind front)
    (adopts : Adopts disk loaded loadOps m ssts file k)
    (kept : man.isSome = true →
      applyAll disk ([.create walName] ++ loadOps) manifestName = some (durable (manifestBytes m)))
    (limits : Listable db) :
    ∃ log, Settled (applyAll disk ops) db log ∧ db.logs = loaded.logs.set k log ∧ db.vlogs = loaded.vlogs ∧
      db.currentGen = loaded.currentGen ∧ FlushSteps kind front := by
  obtain ⟨log, move, logs, vlogs, gen⟩ :=
    alone_move cfg { loaded with memtable := memOf (replayedWrites disk) } db k _ kind front
    returns.plain adopts.index adopts.object returns.move
  have state : DB.alone { loaded with memtable := memOf (replayedWrites disk) }
      (ValueLog.opened (vlogName m.currentGen) m.currentGen file.data) = loadedDb m ssts file.data
      (replayedWrites disk) :=
    congrArg (fun db : DB => { db with memtable := memOf (replayedWrites disk) }) adopts.state
  rw [state] at move
  have loadedGen : loaded.currentGen = m.currentGen := congrArg DB.currentGen adopts.state
  have present := (set_other (applyAll disk ([.create walName] ++ loadOps)) manifestName (vlogName m.currentGen)
    (some (durable (manifestBytes m))) (ne_of_kind _ _ (by simp))).trans adopts.present
  have middle :=
    valid_set (applyAll disk ([.create walName] ++ loadOps)) manifestName (some (durable (manifestBytes m)))
    (apply_all_valid disk _ valid) (fun f same => by cases same; exact Nat.le_refl _)
  have steps :=
    replayed_flush_steps cfg _ m ssts file _ adopts.committed present middle db log kind front returns.plain move
    (gen.trans loadedGen) limits
  have settled :=
    replayed_settles cfg _ m ssts file _ adopts.committed present middle db log kind front returns.plain move
    (gen.trans loadedGen) limits (disk flushingWalName).isSome
  refine ⟨log, ?_, logs, vlogs, gen, steps⟩
  rw [returns.ops, apply_all_append]
  cases man with
  | some m' =>
      have unchanged :
        (applyAll disk ([.create walName] ++ loadOps)).set manifestName (some (durable (manifestBytes m))) =
          applyAll disk ([.create walName] ++ loadOps) := by
        funext name
        by_cases here : name = manifestName
        · rw [here, set_same, kept rfl]
        · exact set_other _ _ _ _ here
      rw [unchanged] at settled
      simpa using settled
  | none =>
      have splits : ∀ op ∈ front ++ dropFlushing (disk flushingWalName).isSome, Splits op := fun op member =>
        (List.mem_append.mp member).elim (steps.splits op)
          (fun drop => .inr (fun name touched => wal_not_manifest name (drop_flushing_files _ op drop name touched)))
      have same := manifest_forgotten (applyAll disk ([.create walName] ++ loadOps)) _ db _ splits (fun name outside =>
        (set_other _ manifestName name (some (durable (manifestBytes m)))
          (fun here => outside (by rw [here]; decide))).symm)
      rw [Option.isNone_none, if_pos rfl, same, apply_all_append]
      exact { settled with
        backed :=
          rewritten_backed (db.alone log) log _ settled.sound settled.numbered settled.bounds limits settled.backed }

structure SameLogs (db next : DB) : Prop where
  logs : next.logs = db.logs
  vlogs : next.vlogs = db.vlogs
  gen : next.currentGen = db.currentGen

theorem install_alone (db : DB) (job : MergeJob) (outputs : List (Bytes × SSTable)) (log : ValueLog) :
    installJob (db.alone log) job outputs = (installJob db job outputs).alone log ∧
    SameLogs db (installJob db job outputs) := by
  unfold installJob
  split
  · exact ⟨rfl, rfl, rfl, rfl⟩
  · split <;> exact ⟨rfl, rfl, rfl, rfl⟩

theorem pick_alone (cfg : Config) (db picked : DB) (job : MergeJob) (log : ValueLog)
    (picks : pickJob cfg db = some (picked, job)) :
    pickJob cfg (db.alone log) = some (picked.alone log, job) ∧ SameLogs db picked := by
  unfold pickJob at picks ⊢
  split at picks
  · next leveled =>
      obtain ⟨pick, chosen, same⟩ := Option.map_eq_some_iff.mp picks
      cases same
      rw [if_pos leveled]
      exact ⟨Option.map_eq_some_iff.mpr ⟨pick, chosen, rfl⟩, rfl, rfl, rfl⟩
  · next tiered =>
      obtain ⟨pick, chosen, same⟩ := Option.map_eq_some_iff.mp picks
      cases same
      rw [if_neg tiered]
      exact ⟨Option.map_eq_some_iff.mpr ⟨pick, chosen, rfl⟩, rfl, rfl, rfl⟩

-- The background threads of a store without a sealed memtable do not look at
-- the value logs.
theorem perform_alone (cfg : Config) (db : DB) (label : Label) (effect : Effect) (log : ValueLog)
    (background : label.background = true) (slot : db.hasFlushing = false) (idle : db.flusher = none)
    (done : perform cfg db label = some effect) :
    perform cfg (db.alone log) label = some { effect with db := effect.db.alone log } ∧ SameLogs db effect.db := by
  cases perform_work cfg db effect label (background_works label background) done with
  | snapshot i has noJob index =>
      rw [slot] at has
      cases has
  | picked next job noJob picks =>
      obtain ⟨same, logs⟩ := pick_alone cfg db next job log picks
      have free : (db.alone log).compactor = none := noJob
      exact ⟨by simp only [perform, free, same, Option.map_some]; rfl, logs.logs, logs.vlogs, logs.gen⟩
  | pickedAll many => cases background
  | merged worker job next running unmerged merges =>
      cases worker with
      | compactor =>
          have mine : (db.alone log).compactor = some job := running
          exact ⟨by simp only [perform, DB.job, mine, unmerged, Option.isNone_none, if_true, merges]; rfl, rfl, rfl,
            rfl⟩
      | caller index => cases background
  | reserved job next groups running grouped unbuilt builds =>
      have mine : (db.alone log).compactor = some job := running
      have counter : (db.alone log).nextSeq = db.nextSeq := rfl
      exact ⟨by simp only [perform, mine, grouped, unbuilt, counter, builds]; rfl, rfl, rfl, rfl⟩
  | mergeIo worker job op rest outputs running building =>
      cases worker with
      | compactor =>
          have mine : (db.alone log).compactor = some job := running
          exact ⟨by simp only [perform, DB.job, mine, building]; rfl, rfl, rfl, rfl⟩
      | caller index => cases background
  | installed worker job outputs running complete =>
      cases worker with
      | compactor =>
          have mine : (db.alone log).compactor = some job := running
          obtain ⟨same, logs⟩ := install_alone db job outputs log
          exact ⟨by simp only [perform, DB.job, mine, complete, mergeInstall, same]; rfl, logs.logs,
            logs.vlogs, logs.gen⟩
      | caller index => cases background
  | separated job rec stored rest other later ops running unbuilt waiting object separates =>
      rw [idle] at running
      cases running
  | built job other bytes sst running unbuilt finished object builds =>
      rw [idle] at running
      cases running
  | flushIo job op rest sst running building =>
      rw [idle] at running
      cases running
  | published job sst running complete =>
      rw [idle] at running
      cases running

theorem step_alone (cfg : Config) (db : DB) (label : Label) (effect : Effect) (log : ValueLog)
    (background : label.background = true) (slot : db.hasFlushing = false) (idle : db.flusher = none)
    (done : step cfg db label = some effect) :
    step cfg (db.alone log) label = some { effect with db := effect.db.alone log } ∧ SameLogs db effect.db := by
  obtain ⟨performed, limits⟩ := Option.filter_eq_some_iff.mp done
  obtain ⟨same, logs⟩ := perform_alone cfg db label effect log background slot idle performed
  exact ⟨Option.filter_eq_some_iff.mpr ⟨same, limits⟩, logs⟩

def Sys.alone (s : Sys) (log : ValueLog) : Sys := { s with db := s.db.alone log }

theorem background_not_gc (label : Label) (background : label.background = true) :
    ∀ existing, label ≠ .gc existing := by
  rintro existing rfl
  cases background

theorem sys_step_alone (s next : Sys) (event : Event) (log : ValueLog) (background : event.Background)
    (slot : s.db.hasFlushing = false) (idle : s.db.flusher = none) (stepped : s.Step event next) :
    (s.alone log).Step event (next.alone log) ∧ SameLogs s.db next.db := by
  cases stepped with
  | lock label effect free locked finds done =>
      obtain ⟨same, logs⟩ := step_alone s.cfg s.db label effect log background slot idle done
      exact ⟨.lock (s := s.alone log) label { effect with db := effect.db.alone log } free locked
        (fun existing gc => absurd gc (background_not_gc label background existing)) same, logs⟩
  | work label effect off done =>
      obtain ⟨same, logs⟩ := step_alone s.cfg s.db label effect log background slot idle done
      exact ⟨.work (s := s.alone log) label { effect with db := effect.db.alone log } off same, logs⟩
  | io op rest todo => exact ⟨.io op rest todo, rfl, rfl, rfl⟩
  | collect name marked => exact ⟨.collect name marked, rfl, rfl, rfl⟩
  | reopen cfg next closed opens => exact background.elim
  | crash cfg image next cut opens => exact background.elim

theorem run_alone (first : DB) (wal : Option File) (s last : Sys) (events : List Event) (log : ValueLog)
    (idling : Idling first wal (s.alone log)) (background : ∀ event ∈ events, event.Background)
    (done : s.Run events last) :
    Idling first wal (last.alone log) ∧ SameLogs s.db last.db := by
  induction events generalizing s with
  | nil =>
      cases done
      exact ⟨idling, rfl, rfl, rfl⟩
  | cons event rest ih =>
      obtain ⟨next, stepped, remaining⟩ := done
      obtain ⟨i, current, sound, _⟩ := idling.running.inv.state
      have slot : s.db.hasFlushing = false := idling.state.slot
      have idle : s.db.flusher = none := sound.idle slot
      obtain ⟨mirrored, same⟩ := sys_step_alone s next event log (background event (by simp)) slot idle stepped
      obtain ⟨final, logs⟩ := ih next (idling_step first wal _ _ event idling (background event (by simp)) mirrored)
        (fun other member => background other (by simp [member])) remaining
      exact ⟨final, logs.logs.trans same.logs, logs.vlogs.trans same.vlogs, logs.gen.trans same.gen⟩

-- The constructor has the store to itself until its last step.
def Sys.drained (s : Sys) : Sys := { s with disk := applyAll s.disk s.todo, todo := [] }

theorem idle_perform (cfg : Config) (db : DB) (label : Label) (background : label.background = true)
    (off : label.kind = .worked) (flusher : db.flusher = none) (merges : inFlight db = []) :
    perform cfg db label = none := by
  have noJob : db.compactor = none := by
    cases running : db.compactor with
    | none => rfl
    | some job => simp [inFlight, running] at merges
  unfold Label.background at background
  split at background <;> first | cases off; done | cases background; done | simp [perform, DB.job, flusher, noJob]

theorem drains (s last : Sys) (events : List Event) (flusher : s.db.flusher = none) (merges : inFlight s.db = [])
    (doomed : s.doomed = []) (garbage : s.garbage = []) (background : ∀ event ∈ events, event.Background)
    (done : s.Run events last) (closed : last.todo = []) :
    ∃ rest, s.drained.Run rest last ∧ ∀ event ∈ rest, event.Background := by
  induction events generalizing s with
  | nil =>
      cases done
      exact ⟨[], by rw [Sys.drained, closed, apply_all_nil]; rw [← closed]; rfl, by simp⟩
  | cons event rest ih =>
      cases todo : s.todo with
      | nil =>
          have same : s.drained = s := by
            rw [Sys.drained, todo, apply_all_nil, ← todo]
          exact ⟨event :: rest, by rw [same]; exact done, background⟩
      | cons op more =>
          obtain ⟨next, stepped, remaining⟩ := done
          obtain ⟨here, later⟩ := List.forall_mem_cons.mp background
          cases stepped with
          | lock label effect free locked finds performed =>
              rw [todo] at free
              cases free
          | work label effect off performed =>
              have stuck := idle_perform s.cfg s.db label here off flusher merges
              simp [step, stuck] at performed
          | io first others split =>
              obtain ⟨events, run, all⟩ :=
                ih { s with disk := first.apply s.disk, todo := others } flusher merges doomed garbage later
                remaining
              refine ⟨events, ?_, all⟩
              have same : Sys.drained { s with disk := first.apply s.disk, todo := others } = s.drained := by
                simp only [Sys.drained, split, apply_all_cons]
              rw [same] at run
              exact run
          | collect name marked =>
              rw [garbage, doomed, todo] at marked
              simp at marked
          | reopen cfg next closed opens => exact here.elim
          | crash cfg image next cut opens => exact here.elim

theorem settled_idles (s : Sys) (log : ValueLog) (settled : Settled s.drained.disk s.db log)
    (limits : WithinLimits s.db) (valid : s.drained.disk.Valid)
    (names : ∀ name, (s.drained.disk name).isSome = true → StoreName name) (doomed : s.doomed = [])
    (garbage : s.garbage = []) (tiered : s.cfg.leveled = false) (flushing : s.drained.disk flushingWalName = none) :
    Idling (s.db.alone log) (s.drained.disk walName) (s.drained.alone log) := by
  have merges : s.db.compactor = none ∧ s.db.callers = [] := by simpa [inFlight] using settled.merges
  have noWork := idle_work_files (s.db.alone log) settled.flusher settled.merges
  obtain ⟨seq, text, _, _, committed⟩ := settled.backed.committed
  have fence : Fence (s.db.alone log) s.garbage (manifestAt seq (s.db.alone log)) := by
    rw [garbage]
    exact idle_fence _ _ settled.flusher settled.merges (committed_db_named _ log _ settled.backed.committed seq)
  have inv : SysInv False (storeGood (fun _ _ => True)) True (s.drained.alone log) :=
    { state := ⟨0, log, settled.sound, settled.backed⟩
      numbered := settled.numbered
      bounds := settled.bounds
      listable := within_limits_listable s.db limits
      known := idle_known _ settled.merges
      valid := valid
      names := names
      touches := by simp [Sys.alone, Sys.drained]
      guarded := throughout_nil _ _ (.inr ⟨_, text, _, committed, fence, trivial⟩)
      apart := by simp [Sys.alone, Sys.drained, Apart]
      away := by simp [Sys.alone, Sys.drained, Apart]
      stale := by simp [Sys.alone, Sys.drained, doomed, garbage] }
  refine ⟨⟨inv, limits, trivial⟩, ⟨merges.2, settled.slot, rfl, rfl, rfl, rfl, fun job running => ?_, fun key => rfl⟩,
    tiered, rfl, flushing⟩
  rw [show (s.drained.alone log).db.compactor = s.db.compactor from rfl, merges.1] at running
  cases running

-- The logs after the constructor: the sealed one is gone, and the active one
-- holds what is in the memtable.
theorem opened_logs (cfg : Config) (listing : List Bytes) (disk : Disk Bytes) (loaded db : DB)
    (loadOps front ops : List DiskOp) (man : Option ManifestData) (kind : Kind) (m : ManifestData) (ssts : List SSTable)
    (file : File) (k : Nat) (returns : OpenReturns cfg listing disk db ops man loaded loadOps kind front)
    (adopts : Adopts disk loaded loadOps m ssts file k) (work : List DiskOp) (phases : front = work ++ kind.walOps)
    (apart : Apart walFiles work) :
    applyAll disk ops flushingWalName = none ∧ db.memtable = memOf (replayFile (applyAll disk ops) walName) := by
  have manifest : Apart walFiles (if man.isNone then writeManifestLocked db else []) := by
    intro op member name touched inside
    split at member
    · have outside := wal_not_manifest name inside
      rcases manifest_files _ op member name touched with rfl | rfl <;> exact outside (by decide)
    · cases member
  have steps : ∀ name ∈ walFiles, applyAll disk ops name = applyAll (applyAll disk ([.create walName] ++ loadOps))
      (front ++ dropFlushing (disk flushingWalName).isSome) name := by
    intro name inside
    rw [returns.ops, apply_all_append, apply_all_append]
    exact apart_frame _ _ _ manifest name inside
  have dropped : ∀ (d : Disk Bytes) had, applyAll d (dropFlushing had) walName = d walName := by
    intro d had
    refine apply_all_frame d _ walName (fun op member touched => ?_)
    cases had with
    | false => cases member
    | true =>
        simp only [dropFlushing, if_true, List.mem_cons, List.not_mem_nil, or_false] at member
        rcases member with rfl | rfl <;> exact absurd touched (by decide)
  have worked := apart_frame walFiles (applyAll disk ([.create walName] ++ loadOps)) work apart
  have atWal : applyAll disk ops walName = applyAll (applyAll (applyAll disk ([.create walName] ++ loadOps)) work)
    kind.walOps walName := by
    rw [steps walName (by decide), apply_all_append, dropped, phases, apply_all_append]
  have kept : kind = .idle → replayFile (applyAll disk ops) walName = replayFile disk walName := by
    rintro rfl
    rw [← replay_created disk walName]
    exact replay_file_same _ _ _ (atWal.trans ((worked walName (by decide)).trans (adopts.wal walName (by decide))))
  refine ⟨?_, ?_⟩
  · rw [steps flushingWalName (by decide), apply_all_append]
    cases left : (disk flushingWalName).isSome with
    | true => simp [dropFlushing, FsOp.apply, set_same]
    | false =>
        obtain ⟨rfl, _⟩ := returns.unflushed left
        rw [phases, apply_all_append]
        refine (worked flushingWalName (by decide)).trans ((adopts.wal flushingWalName (by decide)).trans ?_)
        rw [apply_frame disk _ _ (by decide)]
        simpa using left
  · rcases returns.plain with rfl | rfl
    · rw [replay_file_empty _ walName 0 (by rw [atWal]; simp [Kind.walOps, FsOp.apply, set_same])]
      have move := returns.move
      generalize front = steps at move
      cases move
      rfl
    · obtain ⟨memtable, _⟩ := (flush_keeps_slot cfg _ db .idle front [] (.inr rfl) returns.move).2 rfl
      rw [kept rfl, memtable]
      change memOf (replayedWrites disk) = _
      cases left : (disk flushingWalName).isSome with
      | false => rw [replayedWrites, replay_file_none disk flushingWalName (by simpa using left), List.nil_append]
      | true =>
          have empty := returns.emptied left
          rw [memtable] at empty
          have none := (mem_of_is_empty (replayedWrites disk)).mp empty
          rw [none, (List.append_eq_nil_iff.mp none).2]

theorem flush_keeps_tables (cfg : Config) (db next : DB) (kind : Kind) (ops : List DiskOp)
    (plain : kind = .flushed ∨ kind = .idle) (move : Move cfg found db kind next ops []) :
    db.sstables.Sublist next.sstables := by
  rcases plain with rfl | rfl
  · cases move
    exact List.sublist_cons_self _ _
  · cases move <;> exact List.Sublist.refl _

theorem opened_idles (cfg : Config) (disk : Disk Bytes) (s : Sys) (directory : StoreDirectory disk)
    (opens : Opens cfg disk s) (formed : ∀ table ∈ s.db.sstables, table.sst.WellFormed) (tiered : cfg.leveled = false) :
    ∃ log, Idling (s.db.alone log) (s.drained.disk walName) (s.drained.alone log) ∧
      lookupLog s.db.logs s.db.vlogs s.db.currentGen = some log ∧
      s.db.memtable = memOf (replayFile s.drained.disk walName) ∧
      s.db.flusher = none ∧ inFlight s.db = [] ∧
      ((disk manifestName).isSome = true → s.db.vlogs = [(s.db.currentGen, 0)]) := by
  obtain ⟨⟨listing, lists, opened⟩, limits, rfl, rfl, noDoomed, noGarbage⟩ := opens
  obtain ⟨man, loaded, loadOps, kind, front, returns⟩ := open_returns s.cfg listing s.disk s.db s.todo opened
  have tables := flush_keeps_tables s.cfg _ s.db kind front returns.plain returns.move
  have sub : loaded.sstables.Sublist s.db.sstables := tables
  have loadedFormed : ∀ table ∈ loaded.sstables, table.sst.WellFormed := fun table member =>
    formed table (sub.subset member)
  have few : loaded.sstables.length < 2 ^ 32 := Nat.lt_of_le_of_lt sub.length_le (Nat.lt_trans limits.2 (by decide))
  have listable := within_limits_listable s.db limits
  obtain ⟨m, ssts, file, k, adopts, kept⟩ : ∃ m ssts file k, Adopts s.disk loaded loadOps m ssts file k ∧
      (man.isSome = true →
        applyAll s.disk ([.create walName] ++ loadOps) manifestName = some (durable (manifestBytes m)) ∧
        loaded.vlogs = [(loaded.currentGen, 0)]) := by
    rcases returns.loads with ⟨m, rfl, loads⟩ | ⟨rfl, loads⟩
    · obtain ⟨⟨ssts, file, adopts⟩, manifest⟩ :=
        manifest_adopts listing s.disk lists directory m loaded loadOps returns.reads loads
        loadedFormed
      obtain ⟨_, _, _, _, _, _, rfl, _⟩ := load_manifest_returns listing s.disk m loaded loadOps loads
      exact ⟨m, ssts, file, 0, adopts, fun _ => ⟨manifest, rfl⟩⟩
    · obtain ⟨m, ssts, file, k, adopts⟩ :=
        bare_adopts listing s.disk lists directory loaded loadOps loads loadedFormed few
      exact ⟨m, ssts, file, k, adopts, nofun⟩
  have valid := valid_rest s.disk directory.rest
  obtain ⟨log, settled, logs, vlogs, gen, steps⟩ :=
    adopted_settles s.cfg listing s.disk loaded s.db loadOps front s.todo man
    kind m ssts file k valid returns adopts (fun some => (kept some).1) listable
  obtain ⟨work, phases, apart⟩ := steps.phases
  obtain ⟨flushing, memtable⟩ :=
    opened_logs s.cfg listing s.disk loaded s.db loadOps front s.todo man kind m ssts file k returns adopts
    work phases apart
  have touches : ∀ op ∈ s.todo, ∀ name ∈ op.touches, StoreName name := by
    intro op member name touched
    rw [returns.ops, List.mem_append, List.mem_append, List.mem_append, List.mem_append] at member
    rcases member with (create | load) | (inFront | drop) | manifest
    · rw [List.mem_singleton.mp create, FsOp.touches, List.mem_singleton] at touched
      exact .inl (by rw [touched]; decide)
    · exact adopts.names op load name touched
    · exact steps.names op inFront name touched
    · exact .inl (List.mem_append_left _ (drop_flushing_files _ op drop name touched))
    · split at manifest
      · rcases manifest_files _ op manifest name touched with rfl | rfl <;> exact .inl (by decide)
      · cases manifest
  have idling := settled_idles s log settled limits (apply_all_valid _ _ valid)
    (apply_all_names s.disk s.todo directory.names touches)
    noDoomed noGarbage tiered flushing
  refine ⟨log, idling, ?_, memtable, settled.flusher, settled.merges, fun some => ?_⟩
  · have inside := (List.getElem?_eq_some_iff.mp adopts.object).1
    rw [lookupLog, vlogs, gen, adopts.index, logs]
    simp [inside]
  · rw [vlogs, gen]
    refine (kept ?_).2
    obtain ⟨old, there⟩ := Option.isSome_iff_exists.mp some
    obtain ⟨m', data, fits, _⟩ := directory.manifest old there
    have reads := returns.reads
    rw [fileData, there, Option.map_some, data, manifest_round_trip m' fits] at reads
    cases reads
    rfl

end Tombstash
