import Tombstash.SessionRuns

set_option autoImplicit false

namespace Tombstash

variable {found : Bytes}

-- What the tables show of a key: the newest record, unless it is a tombstone.
def shown (tables : List Table) (key : Bytes) :
    Option Record := (firstMatch Record.key key (tableRuns tables)).filter isLive

theorem answer_live (logs : List ValueLog) (vlogs : List (UInt32 × Nat)) (found : Option Record) :
    answer logs vlogs (found.filter isLive) = answer logs vlogs found := by
  cases found with
  | none => rfl
  | some rec =>
      by_cases gone : rec.op = Op.delete
      · simp [Option.filter_some, isLive, gone, answer]
      · simp [Option.filter_some, isLive, gone]

theorem table_runs_append (front back : List Table) :
    tableRuns (front ++ back) = tableRuns front ++ tableRuns back := by
  simp [tableRuns]

theorem merged_shown (front inputs back : List Table) (output : Table) (drop : Bool) (records : List Record)
    (formed : ∀ table ∈ inputs, table.sst.WellFormed) (merges : mergeRecords (inputs.map Table.sst) drop = .ok records)
    (holds : output.sst.records = records) (reaches : drop = true → back = []) (key : Bytes) :
    shown (front ++ [output] ++ back) key = shown (front ++ inputs ++ back) key := by
  obtain ⟨merged, done, _, _, finds⟩ := merge_tables_spec inputs formed drop
  rw [merges] at done
  cases done
  simp only [shown, table_runs_append]
  have holdsMerged : tableRuns [output] = [records] := by rw [tableRuns, List.map_singleton, holds]
  rw [holdsMerged]
  exact merged_run_shown _ _ _ records drop finds (fun dropped => by rw [reaches dropped]; rfl) key

-- A store on which no client is at work, seen from the state it was opened in:
-- nothing changes but that neighbours are merged.
structure Unattended (first db : DB) : Prop where
  callers : db.callers = []
  slot : db.hasFlushing = false
  memtable : db.memtable = first.memtable
  logs : db.logs = first.logs
  vlogs : db.vlogs = first.vlogs
  gen : db.currentGen = first.currentGen
  placed : ∀ job, db.compactor = some job → job.leveled = false ∧ TieredPlaced db.sstables job
  tables : ∀ key, shown db.sstables key = shown first.sstables key

-- The moves of the background threads.
def Kind.Background : Kind → Prop
  | .picked | .published | .worked | .internal | .idle => True
  | _ => False

theorem unattended_job (first db : DB) (worker : Worker) (job : MergeJob) (state : Unattended first db)
    (running : db.job worker = some job) : worker = .compactor ∧ db.compactor = some job := by
  cases worker with
  | compactor => exact ⟨rfl, running⟩
  | caller n =>
      rw [DB.job, state.callers] at running
      cases running

theorem unattended_same_job (first db : DB) (job next : MergeJob) (state : Unattended first db)
    (running : db.compactor = some job) (same : SameJob job next) :
    Unattended first { db with compactor := some next } := by
  refine { state with placed := fun other eq => ?_ }
  cases eq
  obtain ⟨tiered, front, back, shape, reaches⟩ := state.placed job running
  refine ⟨same.leveled.trans tiered, front, back, ?_, ?_⟩
  · rw [same.inputs]
    exact shape
  · rw [same.drop]
    exact reaches

theorem unattended_installed (first db : DB) (i : Nat) (log : ValueLog) (job : MergeJob)
    (outputs : List (Bytes × SSTable)) (sound : Sound False db i log) (state : Unattended first db)
    (running : db.compactor = some job) (complete : job.built = some ([], outputs)) :
    Unattended first ({ installJob db job outputs with compacting := false }.endJob .compactor) := by
  have merge := sound.merges job (by simp [inFlight, running])
  obtain ⟨tiered, front, back, shape, reaches⟩ := state.placed job running
  obtain ⟨groups, grouped, represent⟩ := merge.built [] outputs complete
  obtain ⟨records, merges, _, whole, _⟩ := merge.merged groups grouped
  rw [whole tiered] at represent
  obtain ⟨⟨name, sst⟩, tail, represents, none, rfl⟩ := List.forall₂_cons_right_iff.mp represent
  rw [List.forall₂_nil_right_iff] at none
  subst none
  have distinct := sound.distinct
  rw [shape] at distinct
  obtain ⟨awayFront, awayBack⟩ := nodup_middle front job.inputs back distinct
  have tables : (installJob db job [(name, sst)]).sstables = front ++ [⟨db.nextId, name, 0, sst⟩] ++ back := by
    simp only [installJob, tiered, installMergeResult]
    rw [shape]
    exact replace_inputs_segment (tableIds job.inputs) _ front job.inputs back merge.nonempty
      (fun table member => List.mem_map_of_mem member) awayFront awayBack
  have eq : installJob db job [(name, sst)] =
      { db with sstables := front ++ [⟨db.nextId, name, 0, sst⟩] ++ back, nextId := db.nextId + 1 } := by
    rw [← tables]
    simp [installJob, tiered, installMergeResult]
  rw [eq]
  refine { state with
    placed := fun other running => absurd running.symm (Option.some_ne_none other), tables := fun key => ?_ }
  rw [← state.tables, shape]
  exact merged_shown front job.inputs back _ job.dropTombstones records merge.formed merges
    (represents_records sst records represents) reaches key

theorem unattended_move (cfg : Config) (first db next : DB) (i : Nat) (log : ValueLog) (kind : Kind) (ops : List DiskOp)
    (garbage : List Bytes) (tiered : cfg.leveled = false) (sound : Sound False db i log) (state : Unattended first db)
    (background : kind.Background) (move : Move cfg found db kind next ops garbage) : Unattended first next := by
  have noFlusher := sound.idle state.slot
  have noJob : ∀ job, db.flusher ≠ some job := fun job running => by
    rw [noFlusher] at running
    cases running
  cases move with
  | rest => exact state
  | waits waiters => exact { state with }
  | bloom on => exact { state with }
  | snapshot k has noJob index =>
      rw [state.slot] at has
      cases has
  | separated job rec stored rest current grown io running => exact absurd running (noJob job)
  | flushBuilt job current bytes sst running => exact absurd running (noJob job)
  | flushIo job op rest sst running => exact absurd running (noJob job)
  | published job sst running => exact absurd running (noJob job)
  | picked picked job noJob picks =>
      obtain ⟨rfl, shape, _, placed⟩ := pick_job_tiered cfg db picked job tiered picks
      refine { state with placed := fun other eq => ?_ }
      cases eq
      exact ⟨by rw [shape], placed⟩
  | merged worker job later running unmerged merges =>
      obtain ⟨rfl, mine⟩ := unattended_job first db worker job state running
      have merge := sound.merges job (by simp [inFlight, mine])
      exact unattended_same_job first db job later state mine
        (run_merge_sound cfg db.sstables job later merge unmerged merges).2
  | reserved job later groups running grouped unbuilt builds =>
      have same : SameJob job later := by
        obtain ⟨_, _, _, rfl⟩ := start_build_spec cfg job later _ groups builds
        exact ⟨rfl, rfl, rfl, rfl⟩
      exact unattended_same_job first { db with nextSeq := db.nextSeq + groups.length } job later
        { state with } running same
  | mergeIo worker job op rest outputs running building =>
      obtain ⟨rfl, running⟩ := unattended_job first db worker job state running
      exact unattended_same_job first db job _ state running ⟨rfl, rfl, rfl, rfl⟩
  | installed worker job outputs running complete =>
      obtain ⟨rfl, running⟩ := unattended_job first db worker job state running
      exact unattended_installed first db i log job outputs sound state running complete
  | _ => exact background.elim

-- The labels of the background threads.
def Label.background : Label → Bool
  | .flusherSnapshot | .flusherSeparate | .flusherBuild | .flusherIo | .flusherPublish | .compactorPick
  | .mergeRun .compactor | .mergeReserve | .mergeIo .compactor | .mergeInstall .compactor => true
  | _ => false

theorem background_works (label : Label) (background : label.background = true) : label.works = true := by
  cases label <;> first | rfl | cases background

-- A step that no client takes, within a session.
def Event.Background : Event → Prop
  | .lock label | .work label => label.background = true
  | .io | .collect _ => True
  | .reopen _ | .crash _ => False

theorem background_takes (label : Label) (first second : Kind) (background : label.background = true)
    (takes : label.Takes first second) :
    first.Background ∧ second = .idle := by
  have kinds : label.kind.Background ∧ label.after = .idle := by
    unfold Label.background at background
    split at background <;> first | exact ⟨trivial, rfl⟩ | cases background
  obtain ⟨one, two⟩ := takes
  refine ⟨?_, by rw [kinds.2, or_self] at two; exact two⟩
  rcases one with rfl | ⟨_, rfl⟩
  · exact kinds.1
  · trivial

theorem background_wal_ops (cfg : Config) (first db next : DB) (i : Nat) (log : ValueLog) (kind : Kind)
    (ops : List DiskOp) (garbage : List Bytes) (sound : Sound False db i log) (state : Unattended first db)
    (background : kind.Background) (move : Move cfg found db kind next ops garbage) : kind.walOps = [] := by
  cases kind with
  | published =>
      cases move with
      | published job sst running complete =>
          rw [sound.idle state.slot] at running
          cases running
  | _ => first | rfl | exact background.elim

-- A session without clients, from the state the store was opened in.
structure Idling (first : DB) (wal : Option File) (s : Sys) : Prop where
  running : Running False (fun _ => True) (fun _ _ => True) s
  state : Unattended first s.db
  tiered : s.cfg.leveled = false
  wal : applyAll s.disk s.todo walName = wal
  flushing : applyAll s.disk s.todo flushingWalName = none

theorem idling_moves (first : DB) (wal : Option File) (s : Sys) (label : Label) (effect : Effect)
    (idling : Idling first wal s) (background : label.background = true) (done : step s.cfg s.db label = some effect) :
    Unattended first effect.db := by
  obtain ⟨⟨middle, front, back, early, late, one, two, takes, moveOne, moveTwo, _⟩, _⟩ :=
    step_moves s.cfg s.db label effect done
  obtain ⟨kind, rfl⟩ := background_takes label one two background takes
  obtain ⟨i, log, sound, _⟩ := idling.running.inv.state
  obtain ⟨j, later, soundMiddle, _⟩ :=
    move_sound s.cfg s.db i log one middle front early sound moveOne (fun never => never.elim)
  have half :=
    unattended_move s.cfg first s.db middle i log one front early idling.tiered sound idling.state kind moveOne
  exact unattended_move s.cfg first middle effect.db j later .idle back late idling.tiered soundMiddle
    half trivial moveTwo

theorem idling_step (first : DB) (wal : Option File) (s next : Sys) (event : Event) (idling : Idling first wal s)
    (background : event.Background) (stepped : s.Step event next) : Idling first wal next := by
  have running := sys_step_running carried_nothing s next event idling.running (fun never => never.elim) stepped
  have inv := idling.running.inv
  -- Where the logs are as before there is nothing more to show.
  have same : next.cfg = s.cfg → Unattended first next.db →
      (∀ name ∈ walFiles, applyAll next.disk next.todo name = applyAll s.disk s.todo name) → Idling first wal next := by
    intro cfg state files
    exact ⟨running, state, by rw [cfg]; exact idling.tiered, (files walName (by decide)).trans idling.wal,
      (files flushingWalName (by decide)).trans idling.flushing⟩
  cases stepped with
  | lock label effect free locked finds done =>
      obtain ⟨middle, front, back, early, late, one, two, takes, moveOne, moveTwo, ops, _, meetsOne, meetsTwo⟩ :=
        lock_moves s _ _ label effect inv idling.running.limits locked finds done (fun never => never.elim)
      obtain ⟨kind, rfl⟩ := background_takes label one two background takes
      obtain ⟨i, log, sound, backed⟩ := inv.state
      rw [free, apply_all_nil] at backed
      obtain ⟨j, later, moved⟩ :=
        locked_moved s.cfg s.db middle i log one s.disk front early sound backed inv.numbered inv.bounds
        inv.known inv.valid moveOne meetsOne
      have none := background_wal_ops s.cfg first s.db middle i log one front early sound idling.state kind moveOne
      obtain ⟨work, shape, apart, _⟩ := moved.phased
      rw [none, List.append_nil] at shape
      refine same rfl (idling_moves first wal s label effect idling background done) (fun name member => ?_)
      change applyAll s.disk effect.ops name = _
      rw [ops, idle_ops s.cfg middle effect.db back late moveTwo, List.append_nil, free, shape]
      exact apart_frame walFiles s.disk work apart name member
  | work label effect off done =>
      refine same rfl (idling_moves first wal s label effect idling background done) (fun name member => ?_)
      obtain ⟨⟨middle, front, back, early, late, one, two, takes, moveOne, moveTwo, ops, _⟩, _⟩ :=
        step_moves s.cfg s.db label effect done
      obtain ⟨rfl, rfl⟩ := takes_worked label one two takes off
      obtain ⟨apart, swap⟩ := quiet_wal_files _ _ _ s middle .worked front early (.inl rfl) inv moveOne
      change applyAll (applyAll s.disk effect.ops) s.todo name = _
      rw [ops, idle_ops s.cfg middle effect.db back late moveTwo, List.append_nil, swap]
      exact apart_frame walFiles _ front apart name member
  | io op rest todo =>
      refine same rfl idling.state (fun name _ => ?_)
      rw [todo]
      rfl
  | collect name marked => exact same rfl idling.state (collect_wal_files _ _ s name inv marked)
  | reopen cfg next closed opens => exact background.elim
  | crash cfg image next cut opens => exact background.elim

end Tombstash
