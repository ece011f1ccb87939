import Tombstash.Base.Pinning
import Tombstash.Pointers
import Tombstash.Strategies

set_option autoImplicit false

namespace Tombstash

variable {found : Bytes} {serial : Prop}

-- What get and scan hold outside the lock: pointers to the tables and to the
-- value logs, here with the objects' contents at that time.
structure Reader where
  tables : List Table
  vlogs : List (UInt32 × Nat)
  logs : List ValueLog

def DB.reader (db : DB) : Reader := ⟨db.sstables, db.vlogs, db.logs⟩

def Reader.held (reader : Reader) : List ValueLog := reader.vlogs.filterMap (fun entry => reader.logs[entry.2]?)

def Reader.files (reader : Reader) : List Bytes := reader.tables.map Table.name ++ reader.held.map ValueLog.name

-- The shared lock is free between sections. An obsolete file goes with the last
-- object that holds it, and a process that ends takes its readers with it.
def readers : Pinning Sys Event Reader Bytes where
  step := Sys.Step
  frees event name := event = .collect name
  ends event := ¬ event.Within
  takes s reader := s.todo = [] ∧ reader = s.db.reader
  uses reader name := name ∈ reader.files

-- A table that is complete: its number was given out and no worker holds it.
structure Complete (db : DB) (table : Table) : Prop where
  named : table.name = sstName (tableSeq table)
  given : tableSeq table < db.nextSeq
  free : tableSeq table ∉ workSeqs db

theorem listed_complete (db : DB) (numbered : Numbered db) (table : Table) (member : table ∈ db.sstables) :
    Complete db table := by
  refine ⟨numbered.named table member, table_seq_fresh db numbered table member, fun held => ?_⟩
  obtain ⟨flushes, merges⟩ := reserved_apart db numbered
  rcases List.mem_append.mp held with flushing | merging
  · exact (flushes _ flushing).1 (List.mem_map_of_mem member)
  · exact (merges _ merging).1 (List.mem_map_of_mem member)

theorem complete_traces (db next : DB) (traces : Traces db next) (table : Table) (complete : Complete db table) :
    Complete next table := by
  refine ⟨complete.named, Nat.lt_of_lt_of_le complete.given traces.counter, fun held => ?_⟩
  have given := complete.given
  rcases traces.work _ held with old | new
  · exact complete.free old
  · omega

theorem complete_untouched (db next : DB) (small : db.nextSeq < 2 ^ 64) (table : Table) (complete : Complete db table)
    (name : Bytes) (touch : Touch db next name) : name ≠ table.name := by
  have given := complete.given
  rw [complete.named]
  rintro rfl
  rcases touch with other | ⟨files, _⟩ | ⟨same, _⟩
  · exact (other_first _ other).1 (sst_first _)
  · have same := table_files_injective (tableSeq table) db.nextSeq (by omega) small _ (by simp [tableFiles]) files
    omega
  · exact absurd ((sst_first _).symm.trans ((congrArg (fun text => text[0]?) same).trans (vlog_first _))) (by decide)

theorem complete_not_work (db : DB) (i : Nat) (log : ValueLog) (sound : Sound serial db i log) (numbered : Numbered db)
    (small : db.nextSeq < 2 ^ 64) (table : Table) (complete : Complete db table) : table.name ∉ workFiles db := by
  have given := complete.given
  exact unheld_not_work db i log sound numbered small (tableSeq table) (by omega) complete.free _
    (by rw [complete.named]; simp [tableFiles])

-- A log object as a reader knows it: of an earlier generation, or the one the
-- store appends to, with what it had then.
def Retained (db : DB) (log : ValueLog) : Prop :=
  ∃ gen : UInt32, log.name = vlogName gen ∧ (gen.toNat < db.currentGen.toNat ∨
    gen = db.currentGen ∧ ∃ current, lookupLog db.logs db.vlogs db.currentGen = some current ∧
    log.file <+: current.file)

theorem vlog_write_spares (log current : ValueLog) (key value : Bytes) (name : Bytes) (grows : Grows log current)
    (aligned : current.Aligned) : (vlogWrite current key value).Spares name log.file.length := by
  intro _
  rw [aligned.atEnd]
  exact grows.file.length_le

theorem separate_record_spares (cfg : Config) (log current later : ValueLog) (rec stored : Record) (ops : List DiskOp)
    (name : Bytes) (grows : Grows log current) (aligned : current.Aligned)
    (done : separateRecord cfg current rec = .ok (later, stored, ops)) :
    ∀ op ∈ ops, op.Spares name log.file.length := by
  rw [separateRecord] at done
  by_cases large : shouldSeparate cfg rec = true
  · rw [if_pos large] at done
    obtain ⟨result, appended, done⟩ := bind_returns _ _ _ done
    cases done
    exact List.forall_mem_singleton.mpr (vlog_write_spares log current _ _ name grows aligned)
  · rw [if_neg large] at done
    cases done
    exact List.forall_mem_nil _

theorem separate_all_spares (cfg : Config) (log current later : ValueLog) (originals records : List Record)
    (ops : List DiskOp) (name : Bytes) (grows : Grows log current) (aligned : current.Aligned)
    (done : separateAll cfg current originals = .ok (later, records, ops)) :
    ∀ op ∈ ops, op.Spares name log.file.length := by
  induction originals generalizing current records ops with
  | nil =>
      cases done
      exact List.forall_mem_nil _
  | cons rec rest ih =>
      rw [separateAll] at done
      obtain ⟨⟨middle, stored, front⟩, first, done⟩ := bind_returns _ _ _ done
      obtain ⟨⟨final, others, back⟩, second, done⟩ := bind_returns _ _ _ done
      cases done
      obtain ⟨appended, _⟩ := separate_record_spec cfg current middle rec stored front aligned first
      exact List.forall_mem_append.mpr
        ⟨separate_record_spares cfg log current middle rec stored front name grows aligned first,
        ih middle others back (grows_trans _ _ _ grows appended.grows) appended.aligned second⟩

theorem other_spares (gen : UInt32) (size : Nat) (op : DiskOp) (others : ∀ name ∈ op.touches, name ≠ vlogName gen) :
    op.Spares (vlogName gen) size :=
  untouched_spares op _ size (fun touched => others _ touched rfl)

theorem table_file_not_log (seq : Nat) (name : Bytes) (gen : UInt32) (files : name ∈ tableFiles seq) :
    name ≠ vlogName gen := by
  rintro rfl
  exact absurd ((vlog_first _).symm.trans (table_file_first _ _ files)) (by decide)

theorem other_file_not_log (name : Bytes) (gen : UInt32) (other : name ∈ otherFiles) : name ≠ vlogName gen := by
  rintro rfl
  exact (other_first _ other).2 (vlog_first _)

section Spares

variable (cfg : Config) (db next : DB) (i : Nat) (log : ValueLog) (disk : Disk Bytes) (ops : List DiskOp)
    (garbage : List Bytes)

theorem table_spares (gen : UInt32) (size seq : Nat) (op : DiskOp)
    (files : ∀ name ∈ op.touches, name ∈ tableFiles seq) :
    op.Spares (vlogName gen) size :=
  other_spares gen size op (fun name touched => table_file_not_log seq name gen (files name touched))

theorem manifest_spares (gen : UInt32) (size : Nat) (base : DB) :
    ∀ op ∈ writeManifestLocked base, op.Spares (vlogName gen) size := by
  intro op member
  refine other_spares gen size op (fun name touched => other_file_not_log name gen ?_)
  rcases manifest_files _ op member name touched with rfl | rfl <;> decide

theorem flushed_spares (sound : Sound serial db i log) (move : Move cfg found db .flushed next ops garbage) :
    ∀ op ∈ ops, op.Spares (vlogName db.currentGen) log.file.length := by
  cases move with
  | flushed k current later recs vlogOps bytes sst filled free index object separated built =>
      obtain ⟨rfl, rfl⟩ := sound_current db i log sound k current index object
      intro op member
      simp only [flushOps, List.mem_append] at member
      rcases member with ((((inLog | inSync) | inTable) | dir) | inManifest) | inWal
      · exact separate_all_spares cfg log log later _ recs vlogOps _ (grows_refl log) sound.aligned separated op inLog
      · split at inSync
        · cases inSync
        · rw [List.mem_singleton.mp inSync]
          trivial
      · exact table_spares _ _ db.nextSeq op (write_ops_touches db.nextSeq bytes op (List.mem_append_left _ inTable))
      · rw [List.mem_singleton.mp dir]
        trivial
      · exact manifest_spares _ _ _ op inManifest
      · exact other_spares _ _ op (fun name touched => other_file_not_log name _
          (List.mem_append_left _ (wal_ops_files .flushed op inWal name touched)))

theorem collected_spares (size : Nat) (move : Move cfg found db .collected next ops garbage) :
    ∀ op ∈ ops, op.Spares (vlogName db.currentGen) size := by
  cases move with
  | collected merged relocated opened later vlogOps bytes sst free quiet flushed merges opens relocates built =>
      obtain ⟨rfl, aligned⟩ := open_log_spec _ _ _ opened opens
      obtain ⟨appended, _⟩ := relocate_all_spec db.logs db.vlogs _ later merged relocated vlogOps aligned relocates
      have fresh : vlogName (db.currentGen + 1) ≠ vlogName db.currentGen := fun same =>
        absurd (vlog_name_injective _ _ same) (by simp)
      intro op member
      simp only [List.mem_append] at member
      rcases member with ((((made | inLog) | inSync) | inTable) | dir) | inManifest
      · rw [List.mem_singleton.mp made]
        trivial
      · refine other_spares _ _ op (fun name touched => ?_)
        rw [appended.touches op inLog, List.mem_singleton] at touched
        rw [touched]
        exact fresh
      · rw [List.mem_singleton.mp inSync]
        trivial
      · exact table_spares _ _ db.nextSeq op (write_ops_touches db.nextSeq bytes op (List.mem_append_left _ inTable))
      · rw [List.mem_singleton.mp dir]
        trivial
      · exact manifest_spares _ _ _ op inManifest

theorem worked_spares (sound : Sound serial db i log) (backed : Backed serial db log disk)
    (move : Move cfg found db .worked next ops garbage) :
    ∀ op ∈ ops, op.Spares (vlogName db.currentGen) log.file.length := by
  cases move with
  | separated job rec stored rest current later io running unbuilt pending object separates =>
      obtain ⟨rfl, _⟩ := sound_separated cfg db i log job rec stored rest current later ops sound running unbuilt
        pending object separates
      exact separate_record_spares cfg current current later rec stored ops _
        (grows_refl current) sound.aligned separates
  | flushIo job op rest sst running building =>
      refine List.forall_mem_singleton.mpr ?_
      rcases (backed.flush job running).touches _ sst building op (by simp) with rfl | files
      · trivial
      · exact table_spares _ _ job.seq op files
  | mergeIo worker job op rest outputs running building =>
      refine List.forall_mem_singleton.mpr (other_spares _ _ op (fun name touched => ?_))
      have files :=
        (backed.merges job (job_running db worker job running)).touches _ outputs building op (by simp) name touched
      obtain ⟨seq, _, there⟩ := List.mem_flatMap.mp files
      exact table_file_not_log seq name _ there
  | _ => exact List.forall_mem_nil _

theorem move_spares (kind : Kind) (sound : Sound serial db i log) (backed : Backed serial db log disk)
    (move : Move cfg found db kind next ops garbage) :
    ∀ op ∈ ops, op.Spares (vlogName db.currentGen) log.file.length := by
  by_cases flushes : kind = .flushed
  · exact flushed_spares cfg db next i log ops garbage sound (flushes ▸ move)
  by_cases collects : kind = .collected
  · exact collected_spares cfg db next ops garbage _ (collects ▸ move)
  by_cases works : kind = .worked
  · exact worked_spares cfg db next i log disk ops garbage sound backed (works ▸ move)
  intro op member
  exact other_spares _ _ op (fun name touched => other_file_not_log name _
    (other_moves_touch cfg db next kind ops garbage move works flushes collects op member name touched))

end Spares

theorem retained_move (cfg : Config) (db next : DB) (i : Nat) (current : ValueLog) (kind : Kind) (ops : List DiskOp)
    (garbage : List Bytes) (log : ValueLog) (j : Nat) (later : ValueLog) (sound : Sound serial db i current)
    (soundNext : Sound serial next j later) (grow : LogsGrow db.logs next.logs)
    (move : Move cfg found db kind next ops garbage)
    (gens : next.currentGen ≠ db.currentGen → db.currentGen.toNat < next.currentGen.toNat)
      (retained : Retained db log) :
    Retained next log := by
  obtain ⟨gen, name, place⟩ := retained
  refine ⟨gen, name, ?_⟩
  by_cases same : next.currentGen = db.currentGen
  · refine place.imp (fun older => by rw [same]; exact older)
      (fun ⟨here, _, found, starts⟩ => ⟨here.trans same.symm, later, ?_, ?_⟩)
    · exact (sound_index next j later soundNext).2
    · rw [(sound_index db i current sound).2] at found
      cases found
      exact starts.trans (sound_grows db next i j current later sound soundNext grow
        (move_vlogs cfg db i current kind next ops garbage sound move same)).file
  · have up := gens same
    refine .inl ?_
    rcases place with older | ⟨rfl, _⟩
    · omega
    · exact up

-- Some steps of the store leave alone what readers hold.
structure Passes (db next : DB) (ops : List DiskOp) : Prop where
  tables : ∀ table, Complete db table → Complete next table ∧ ∀ op ∈ ops, table.name ∉ op.touches
  logs : ∀ log, Retained db log → Retained next log ∧ ∀ op ∈ ops, op.Spares log.name log.file.length

theorem passes_trans (first second third : DB) (front back : List DiskOp) (one : Passes first second front)
    (two : Passes second third back) : Passes first third (front ++ back) := by
  refine ⟨fun table complete => ?_, fun log retained => ?_⟩
  · obtain ⟨middle, early⟩ := one.tables table complete
    obtain ⟨final, late⟩ := two.tables table middle
    exact ⟨final, List.forall_mem_append.mpr ⟨early, late⟩⟩
  · obtain ⟨middle, early⟩ := one.logs log retained
    obtain ⟨final, late⟩ := two.logs log middle
    exact ⟨final, List.forall_mem_append.mpr ⟨early, late⟩⟩

section Moves

variable (good : Good) (empty : Prop) (s : Sys) (next : DB) (kind : Kind) (ops : List DiskOp) (garbage : List Bytes)

theorem locked_passes (inv : SysInv serial good empty s) (move : Move s.cfg found s.db kind next ops garbage)
    (meets : Meets serial found (applyAll s.disk s.todo) s.db next kind) : Passes s.db next ops := by
  obtain ⟨i, log, sound, backed⟩ := inv.state
  obtain ⟨j, later, moved⟩ :=
    locked_moved s.cfg s.db next i log kind (applyAll s.disk s.todo) ops garbage sound backed inv.numbered
    inv.bounds inv.known (apply_all_valid _ _ inv.valid) move meets
  obtain ⟨_, _, _, grow⟩ := move_sound s.cfg s.db i log kind next ops garbage sound move meets.calm
  have up : next.currentGen ≠ s.db.currentGen → s.db.currentGen.toNat < next.currentGen.toNat := by
    intro different
    have above := moved.gens
    have apart : next.currentGen.toNat ≠ s.db.currentGen.toNat := fun same => different (UInt32.toNat_inj.mp same)
    omega
  refine ⟨fun table complete => ⟨complete_traces _ _ moved.traces table complete, fun op member touched => ?_⟩,
    fun held retained =>
    ⟨retained_move s.cfg s.db next i log kind ops garbage held j later sound moved.sound grow move up retained,
      fun op member => ?_⟩⟩
  · exact complete_untouched s.db next inv.listable.1 table complete _ (moved.touches op member _ touched) rfl
  · obtain ⟨gen, name, older | ⟨rfl, _, found, starts⟩⟩ := retained
    · refine untouched_spares op _ _ (fun touched => ?_)
      rw [name] at touched
      rcases moved.touches op member _ touched with other | ⟨files, _⟩ | ⟨same, _⟩
      · exact other_file_not_log _ gen other rfl
      · exact table_file_not_log _ _ gen files rfl
      · have gens := moved.gens
        rw [← vlog_name_injective _ _ same] at gens
        omega
    · rw [(sound_index s.db i log sound).2] at found
      cases found
      rw [name]
      exact spares_less op _ _ _ starts.length_le
        (move_spares s.cfg s.db next i log _ ops garbage kind sound backed move op member)

theorem quiet_passes (quiet : kind = .worked ∨ kind = .idle) (inv : SysInv serial good empty s)
    (move : Move s.cfg found s.db kind next ops garbage) : Passes s.db next ops := by
  obtain ⟨i, log, sound, backed⟩ := inv.state
  obtain ⟨frames, _⟩ := quiet_frames s.cfg s.db next kind ops garbage quiet move
  obtain ⟨touches, _⟩ := quiet_touches good empty s next kind ops garbage quiet inv move
  have small := inv.listable.1
  have traces := move_traces s.cfg s.db next i log kind ops garbage sound inv.numbered move
    (by rw [frames.counter]; exact small)
  obtain ⟨j, later, soundNext, grow⟩ := move_sound s.cfg s.db i log kind next ops garbage sound move
    (fun _ picks => absurd picks (quiet_calm kind quiet))
  refine ⟨fun table complete => ⟨complete_traces _ _ traces table complete, fun op member touched => ?_⟩,
    fun held retained => ⟨retained_move s.cfg s.db next i log kind ops garbage held j later sound soundNext grow move
      (fun different => absurd frames.gen different) retained, fun op member => ?_⟩⟩
  · exact complete_not_work s.db i log sound inv.numbered small table complete (touches op member _ touched)
  · obtain ⟨gen, name, older | ⟨rfl, _, found, starts⟩⟩ := retained
    · refine untouched_spares op _ _ (fun touched => ?_)
      rw [name] at touched
      rcases work_file_seq s.db i log sound inv.numbered small _ (touches op member _ touched) with
        ⟨same, _⟩ | ⟨seq, _, _, files⟩
      · rw [vlog_name_injective _ _ same] at older
        omega
      · exact table_file_not_log _ _ gen files rfl
    · rw [(sound_index s.db i log sound).2] at found
      cases found
      rw [name]
      exact spares_less op _ _ _ starts.length_le
        (move_spares s.cfg s.db next i log _ ops garbage kind sound backed move op member)

end Moves

theorem lock_passes (s : Sys) (label : Label) (effect : Effect)
    (running : Running serial (fun _ => True) (fun _ _ => True) s) (free : s.todo = []) (locked : label.kind ≠ .worked)
    (finds : GcFinds s label) (done : step s.cfg s.db label = some effect)
    (calm : serial → label.Picks → inFlight s.db = []) : Passes s.db effect.db effect.ops := by
  obtain ⟨middle, front, back, early, late, first, second, takes, one, two, ops, _, meetsOne, meetsTwo⟩ :=
    lock_moves s _ True label effect running.inv running.limits locked finds done calm
  have opened :=
    first_inv (storeGood (fun _ _ => True)) (storeGood (fun _ _ => True)) True True s middle first front early free
    running.inv one meetsOne (fun _ _ _ _ _ _ => trivial) (fun _ _ _ _ _ _ _ _ => trivial)
  rw [ops]
  refine passes_trans s.db middle effect.db front back (locked_passes _ _ s middle first front early running.inv one ?_)
    (locked_passes _ _ _ effect.db second back late opened two meetsTwo)
  rw [free]
  exact meetsOne

theorem work_passes (s : Sys) (label : Label) (effect : Effect)
    (running : Running serial (fun _ => True) (fun _ _ => True) s) (off : label.kind = .worked)
    (done : step s.cfg s.db label = some effect) : Passes s.db effect.db effect.ops := by
  obtain ⟨⟨middle, front, back, early, late, first, second, takes, one, two, ops, _, _⟩, _⟩ :=
    step_moves s.cfg s.db label effect done
  obtain ⟨rfl, rfl⟩ := takes_worked label first second takes off
  have worked := quiet_inv _ _ s middle .worked front early (.inl rfl) running.inv one
  rw [ops]
  exact passes_trans s.db middle effect.db front back
    (quiet_passes _ _ s middle .worked front early (.inl rfl) running.inv one)
    (quiet_passes _ _ _ effect.db .idle back late (.inr rfl) worked two)

-- What a reader relies on: its files are there as it knows them, and the section
-- under way leaves them so.
structure Reader.Safe (s : Sys) (reader : Reader) : Prop where
  tables : ∀ table ∈ reader.tables, Complete s.db table ∧ Stored s.disk table.name table.sst ∧ Apart [table.name] s.todo
  logs : ∀ log ∈ reader.held, Retained s.db log ∧ Begins s.disk log.name log.file ∧
    ∀ op ∈ s.todo, op.Spares log.name log.file.length

theorem apart_single (name : Bytes) (ops : List DiskOp) : Apart [name] ops ↔ ∀ op ∈ ops, name ∉ op.touches := by
  refine ⟨fun apart op member touched => apart op member name touched (by simp),
    fun untouched op member other touched same => ?_⟩
  rw [List.mem_singleton.mp same] at touched
  exact untouched op member touched

theorem taken_safe (s : Sys) (running : Running serial (fun _ => True) (fun _ _ => True) s) (free : s.todo = []) :
    s.db.reader.Safe s := by
  obtain ⟨i, log, sound, backed⟩ := running.inv.state
  rw [free, apply_all_nil] at backed
  obtain ⟨stored, _⟩ := committed_db_stored s.db log s.disk backed.committed
  refine ⟨fun table member => ⟨listed_complete s.db running.inv.numbered table member, stored table member, ?_⟩,
    fun held member => ?_⟩
  · rw [free]
    exact List.forall_mem_nil _
  · have only : held = log := by
      simpa [Reader.held, DB.reader, sound.vlogs, sound.object, eq_comm] using member
    obtain ⟨synced, present⟩ := backed.vlog
    rw [only, free]
    refine ⟨⟨s.db.currentGen, sound.name, .inr ⟨rfl, log, (sound_index s.db i log sound).2, List.prefix_rfl⟩⟩, ?_,
      List.forall_mem_nil _⟩
    rw [sound.name]
    exact ⟨_, present, List.prefix_rfl⟩

theorem safe_kept (s next : Sys) (event : Event) (reader : Reader)
    (running : Running serial (fun _ => True) (fun _ _ => True) s) (calm : EventCalm serial s event)
    (stepped : s.Step event next) (within : event.Within) (spared : ∀ name, event = .collect name → name ∉ reader.files)
    (safe : reader.Safe s) : reader.Safe next := by
  cases stepped with
  | lock label effect free locked finds done =>
      have passes := lock_passes s label effect running free locked finds done (fun one => calm one label rfl)
      refine ⟨fun table member => ?_, fun log member => ?_⟩
      · obtain ⟨complete, stored, _⟩ := safe.tables table member
        obtain ⟨after, apart⟩ := passes.tables table complete
        exact ⟨after, stored, (apart_single _ _).mpr apart⟩
      · obtain ⟨retained, begins, _⟩ := safe.logs log member
        obtain ⟨after, spares⟩ := passes.logs log retained
        exact ⟨after, begins, spares⟩
  | work label effect off done =>
      have passes := work_passes s label effect running off done
      refine ⟨fun table member => ?_, fun log member => ?_⟩
      · obtain ⟨complete, stored, apart⟩ := safe.tables table member
        obtain ⟨after, untouched⟩ := passes.tables table complete
        exact ⟨after, stored_same _ _ _ _ (apply_all_frame _ _ _ untouched) stored, apart⟩
      · obtain ⟨retained, begins, spares⟩ := safe.logs log member
        obtain ⟨after, passed⟩ := passes.logs log retained
        exact ⟨after, spares_all_begins _ _ _ _ passed begins, spares⟩
  | io op rest todo =>
      refine ⟨fun table member => ?_, fun log member => ?_⟩
      · obtain ⟨complete, stored, apart⟩ := safe.tables table member
        rw [todo] at apart
        have untouched := (apart_single _ _).mp apart
        exact ⟨complete, stored_same _ _ _ _ (apply_frame _ _ _ (untouched op (by simp))) stored,
          (apart_single _ _).mpr (fun other later => untouched other (by simp [later]))⟩
      · obtain ⟨retained, begins, spares⟩ := safe.logs log member
        rw [todo] at spares
        exact ⟨retained, spares_begins _ _ _ _ (spares op (by simp)) begins, fun other later =>
          spares other (by simp [later])⟩
  | collect name marked =>
      have kept : ∀ other ∈ reader.files, (FsOp.unlink name).apply s.disk other = s.disk other := fun other member =>
        set_other _ _ _ _ (fun same => spared name rfl (same ▸ member))
      refine ⟨fun table member => ?_, fun log member => ?_⟩
      · obtain ⟨complete, stored, apart⟩ := safe.tables table member
        exact ⟨complete, stored_same _ _ _ _ (kept _ (List.mem_append_left _ (List.mem_map_of_mem member))) stored,
          apart⟩
      · obtain ⟨retained, ⟨file, present, starts⟩, spares⟩ := safe.logs log member
        exact ⟨retained, ⟨file, (kept _ (List.mem_append_right _ (List.mem_map_of_mem member))).trans present, starts⟩,
          spares⟩
  | reopen cfg next closed opens => exact within.elim
  | crash cfg image next cut opens => exact within.elim

theorem readers_rely :
    readers.Relies (Running False (fun _ => True) (fun _ _ => True)) (fun s reader => reader.Safe s) where
  kept s event next running stepped :=
    sys_step_running carried_nothing s next event running (fun one => one.elim) stepped
  taken s reader running takes := by
    rw [takes.2]
    exact taken_safe s running takes.1
  spared s event next reader running stepped goesOn spared safe :=
    safe_kept s next event reader running (fun one => one.elim) stepped (not_not.mp goesOn) spared safe

-- However flushes, merges, collections and crashes interleave, as long as a
-- reader holds its snapshot its tables are on disk, complete and unchanged, and
-- its value logs begin with what they held when it took them.
theorem readers_keep_their_files (cfg : Config) (start : Sys) (starts : start.Starts cfg)
    (events : List (PinEvent Event Reader)) (last : Sys × List Reader) (done : readers.Run (start, []) events last) :
    ∀ reader ∈ last.2, (∀ table ∈ reader.tables, Stored last.1.disk table.name table.sst) ∧
      ∀ log ∈ reader.held, Begins last.1.disk log.name log.file := by
  obtain ⟨_, all⟩ :=
    pinned_run readers_rely (start, []) last events done
    ⟨start_running carried_nothing cfg start starts, List.forall_mem_nil _⟩
  intro reader member
  have safe := all reader member
  exact ⟨fun table inside => (safe.tables table inside).2.1, fun log inside => (safe.logs log inside).2.1⟩

theorem own_runs (s last : Sys) (holders : List Reader) (events : List Event) (rest : List (PinEvent Event Reader))
    (final : Sys × List Reader) (within : ∀ event ∈ events, event.Within) (kept : ∀ name, .collect name ∉ events)
    (done : s.execAll events = some last) (after : readers.Run (last, holders) rest final) :
    readers.Run (s, holders) (events.map .own ++ rest) final := by
  induction events generalizing s with
  | nil =>
      cases done
      exact after
  | cons event others ih =>
      obtain ⟨next, here, later⟩ := Option.bind_eq_some_iff.mp done
      obtain ⟨inside, insideLater⟩ := List.forall_mem_cons.mp within
      have collects : ∀ name, event ≠ .collect name := fun name same => kept name (by simp [same])
      exact ⟨(next, holders), .own s next holders event (exec_step s next event here) (not_not.mpr inside)
        (fun _ _ name freed => absurd freed (collects name)),
        ih next insideLater (fun name member => kept name (List.mem_cons_of_mem _ member)) later⟩

-- A reader that is overtaken by a merge of its two tables.
def readerOpened : List Event := List.replicate 7 .io ++ putAndFlush [5] [] ++ putAndFlush [6] []

theorem overtaken_reader_keeps_its_files :
    ∃ mid last, (Sys.fresh (leveledBy 2)).execAll readerOpened = some mid ∧ mid.execAll leveledMerge = some last ∧
      mid.db.sstables.map Table.name = [sstName 1, sstName 0] ∧ last.db.sstables.map Table.name = [sstName 2] ∧
      ∀ table ∈ mid.db.sstables, Stored last.disk table.name table.sst := by
  have value :
    ((Sys.fresh (leveledBy 2)).execAll readerOpened).bind (fun mid => (mid.execAll leveledMerge).map (fun last =>
      (mid.todo, mid.db.sstables.map Table.name, last.db.sstables.map Table.name))) =
        some ([], [sstName 1, sstName 0], [sstName 2]) := by
    decide +kernel
  obtain ⟨mid, opened, rest⟩ := Option.bind_eq_some_iff.mp value
  obtain ⟨last, merged, eq⟩ := Option.map_eq_some_iff.mp rest
  simp only [Prod.mk.injEq] at eq
  refine ⟨mid, last, opened, merged, eq.2.1, eq.2.2, fun table member => ?_⟩
  have run :
    readers.Run (Sys.fresh (leveledBy 2), []) (readerOpened.map .own ++ .take mid.db.reader :: leveledMerge.map .own)
      (last, [mid.db.reader]) := by
    refine own_runs _ mid [] readerOpened _ _ (by simp [readerOpened, putAndFlush, whole, Event.Within])
      (by simp [readerOpened, putAndFlush, whole]) opened ⟨_, .take mid [] mid.db.reader ⟨eq.1, rfl⟩, ?_⟩
    have goes := own_runs mid last [mid.db.reader] leveledMerge [] _ (by simp [leveledMerge, whole, Event.Within])
      (by simp [leveledMerge, whole]) merged rfl
    rwa [List.append_nil] at goes
  exact (readers_keep_their_files (leveledBy 2) _ (fresh_starts _) _ _ run mid.db.reader (by simp)).1 table member

end Tombstash
