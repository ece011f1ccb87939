import Tombstash.Failures
import Tombstash.Reopen

set_option autoImplicit false

namespace Tombstash

variable {found : Bytes} {serial : Prop}

-- A pointer of the current generation stays inside the log, however merges
-- overlap; others are of generations that gc has dropped.
def Reaches (log : ValueLog) (rec : Record) : Prop :=
  rec.separated = true → rec.vptr.gen.toNat ≤ log.gen.toNat ∧
    (rec.vptr.gen = log.gen → rec.vptr.offset.toNat + rec.vptr.len.toNat ≤ log.file.length)

-- The records of the tables and of the inputs of merges in flight.
def Held (db : DB) (rec : Record) : Prop :=
  (∃ table ∈ db.sstables, rec ∈ table.sst.records) ∨ ∃ job ∈ inFlight db, ∃ table ∈ job.inputs, rec ∈ table.sst.records

def Pointed (db : DB) (log : ValueLog) : Prop := ∀ rec, Held db rec → Reaches log rec

theorem in_range_reaches (log : ValueLog) (rec : Record) (inRange : InRange log rec) : Reaches log rec := by
  intro separated
  obtain ⟨gen, inside⟩ := inRange separated
  exact ⟨by rw [gen], fun _ => inside⟩

theorem reaches_grows (log later : ValueLog) (rec : Record) (grows : Grows log later) (reaches : Reaches log rec) :
    Reaches later rec := by
  intro separated
  obtain ⟨le, inside⟩ := reaches separated
  rw [grows.gen]
  exact ⟨le, fun same => Nat.le_trans (inside same) grows.file.length_le⟩

theorem sound_pointed (db : DB) (i : Nat) (log : ValueLog) (sound : Sound True db i log) : Pointed db log := by
  rintro rec (⟨table, member, inside⟩ | ⟨job, running, table, member, inside⟩)
  · exact in_range_reaches log rec (sound.ranges trivial table member rec inside)
  · exact in_range_reaches log rec
      (sound.ranges trivial table ((sound.merges job running).present trivial table member) rec inside)

theorem held_same (db next : DB) (rec : Record) (held : Held next rec) (tables : next.sstables = db.sstables)
    (jobs : inFlight next = inFlight db) : Held db rec := by
  rw [Held, tables, jobs] at held
  exact held

theorem held_push (db next : DB) (table : Table) (rec : Record) (held : Held next rec)
    (tables : next.sstables = table :: db.sstables) (jobs : inFlight next = inFlight db) :
    Held db rec ∨ rec ∈ table.sst.records := by
  rw [Held, tables, jobs] at held
  rcases held with ⟨other, member, inside⟩ | job
  · rcases List.mem_cons.mp member with rfl | old
    · exact .inr inside
    · exact .inl (.inl ⟨other, old, inside⟩)
  · exact .inl (.inr job)

theorem held_jobs (db next : DB) (rec : Record) (held : Held next rec) (tables : next.sstables = db.sstables)
    (jobs : ∀ job ∈ inFlight next, (∃ before ∈ inFlight db, job.inputs = before.inputs) ∨
      ∀ table ∈ job.inputs, table ∈ db.sstables) :
    Held db rec := by
  rcases held with ⟨table, member, inside⟩ | ⟨job, running, table, member, inside⟩
  · exact .inl ⟨table, tables ▸ member, inside⟩
  · rcases jobs job running with ⟨before, there, same⟩ | present
    · exact .inr ⟨before, there, table, same ▸ member, inside⟩
    · exact .inl ⟨table, present table member, inside⟩

theorem held_set_job (db : DB) (worker : Worker) (job later : MergeJob) (rec : Record)
    (running : db.job worker = some job) (same : SameJob job later) (held : Held (db.setJob later worker) rec) :
    Held db rec := by
  obtain ⟨before, after, jobs, set, _⟩ := job_split db worker job running
  refine held_jobs db (db.setJob later worker) rec held (by cases worker <;> rfl) (fun other member => .inl ?_)
  rw [set later] at member
  rcases List.mem_append.mp member with front | back
  · exact ⟨other, by simp [jobs, front], rfl⟩
  · rcases List.mem_cons.mp back with rfl | rest
    · exact ⟨job, by simp [jobs], same.inputs⟩
    · exact ⟨other, by simp [jobs, rest], rfl⟩

theorem held_installed (db : DB) (i : Nat) (log : ValueLog) (worker : Worker) (job : MergeJob)
    (outputs : List (Bytes × SSTable)) (rec : Record) (sound : Sound serial db i log)
    (running : db.job worker = some job) (complete : job.built = some ([], outputs))
    (held : Held ({ installJob db job outputs with compacting := false }.endJob worker) rec) : Held db rec := by
  have inside := job_running db worker job running
  obtain ⟨whole, good⟩ := built_outputs db.sstables job [] outputs (sound.merges job inside) complete
  obtain ⟨tables, eq, perm⟩ := install_job_spec db job outputs whole
  rw [eq] at held
  have left := ended_jobs db
    { db with sstables := tables, nextId := db.nextId + outputs.length, compacting := false } worker rfl rfl
  rcases held with ⟨table, member, row⟩ | ⟨other, member, rest⟩
  · have present : table ∈ tables := by
      cases worker <;> exact member
    rcases List.mem_append.mp (perm.mem_iff.mp present) with kept | made
    · exact .inl ⟨table, (List.mem_filter.mp kept).1, row⟩
    · obtain ⟨input, inInputs, origin⟩ := (good _ (output_tables_member _ _ _ table made).2.2.2).2 rec row
      exact .inr ⟨job, inside, input, inInputs, origin⟩
  · obtain ⟨before, after, jobs, _, ended⟩ := job_split db worker job running
    rw [left, ended] at member
    refine .inr ⟨other, ?_, rest⟩
    rw [jobs]
    rcases List.mem_append.mp member with front | back
    · exact List.mem_append_left _ front
    · exact List.mem_append_right _ (List.mem_cons_of_mem _ back)

theorem move_held (cfg : Config) (db : DB) (i : Nat) (log : ValueLog) (kind : Kind) (next : DB) (ops : List DiskOp)
    (garbage : List Bytes) (j : Nat) (later : ValueLog) (sound : Sound serial db i log)
    (after : Sound serial next j later) (move : Move cfg found db kind next ops garbage) (rec : Record)
    (held : Held next rec) : Held db rec ∨ InRange later rec := by
  cases move with
  | flushed k current grown recs vlogOps bytes sst filled free index object separated built =>
      obtain ⟨indexed, same⟩ := sound_index db i log sound
      rw [indexed] at index
      cases index
      rw [sound.object] at object
      cases object
      obtain ⟨appended, separations⟩ := separate_all_spec cfg log grown _ recs vlogOps sound.aligned separated
      obtain ⟨_, _, ranges⟩ := snapshot_table cfg db.memtable grown recs bytes sst separations built
      have made := sound_flushed cfg db i log grown recs vlogOps bytes sst sound free separated built
      rw [← (sound_unique _ _ _ _ _ made after).2]
      exact (held_push db _ ⟨db.nextId, sstName db.nextSeq, 0, sst⟩ rec held rfl rfl).imp id (ranges rec)
  | published job sst running complete =>
      obtain ⟨represents, separations⟩ := published_table db i log job [] sst sound running complete
      have made := sound_published db i log job sst sound running complete
      rw [← (sound_unique _ _ _ _ _ made after).2]
      refine (held_push db _ ⟨db.nextId, sstName job.seq, 0, sst⟩ rec held rfl rfl).imp id (fun inside => ?_)
      rw [represents_records sst job.finished represents] at inside
      exact separations_in_range log _ _ separations (fun rec member => (snapshot_shaped _ rec member).2) rec inside
  | collected merged relocated opened grown vlogOps bytes sst free quiet flushed merges opens relocates built =>
      obtain ⟨made, represents⟩ :=
        sound_collected cfg db i log found merged relocated opened grown vlogOps bytes sst sound free
        (calm_no_jobs db i log sound quiet) merges opens relocates built
      obtain ⟨_, aligned⟩ := open_log_spec _ _ found opened opens
      obtain ⟨_, relocations⟩ :=
        relocate_all_spec db.logs db.vlogs opened grown merged relocated vlogOps aligned relocates
      rw [← (sound_unique _ _ _ _ _ made after).2]
      rcases held with ⟨table, member, inside⟩ | job
      · rw [List.mem_singleton.mp member, represents_records sst relocated represents] at inside
        obtain ⟨original, _, relocation⟩ := forall_two_right _ merged relocated relocations rec inside
        exact .inr (relocation_in_range _ _ grown original rec relocation)
      · exact .inl (.inr job)
  | picked picked job noJob picks =>
      obtain ⟨⟨seq, rfl, _⟩, fresh⟩ := pick_job_fresh cfg db picked job picks
      refine .inl (held_jobs db _ rec held rfl (fun other member => ?_))
      rcases List.mem_append.mp member with here | callers
      · have same : other = job := by simpa using here
        rw [same]
        exact .inr fresh.present
      · exact .inl ⟨other, List.mem_append_right _ callers, rfl⟩
  | pickedAll many =>
      refine .inl (held_jobs db _ rec held rfl (fun other member => ?_))
      rcases List.mem_append.mp member with compactor | callers
      · exact .inl ⟨other, List.mem_append_left _ compactor, rfl⟩
      · rcases List.mem_append.mp callers with old | new
        · exact .inl ⟨other, List.mem_append_right _ old, rfl⟩
        · rw [List.mem_singleton.mp new]
          exact .inr (fun _ there => there)
  | merged worker job next running unmerged merges =>
      exact .inl (held_set_job db worker job next rec running
        (run_merge_sound cfg db.sstables job next (sound.merges job (job_running db worker job running))
          unmerged merges).2 held)
  | reserved job next groups running grouped unbuilt builds =>
      have same : SameJob job next := by
        obtain ⟨_, _, _, rfl⟩ := start_build_spec cfg job next _ groups builds
        exact ⟨rfl, rfl, rfl, rfl⟩
      exact .inl (held_set_job db .compactor job next rec running same held)
  | mergeIo worker job op rest outputs running building =>
      exact .inl
        (held_set_job db worker job { job with built := some (rest, outputs) } rec running ⟨rfl, rfl, rfl, rfl⟩ held)
  | installed worker job outputs running complete =>
      exact .inl (held_installed db i log worker job outputs rec sound running complete held)
  | _ => exact .inl (held_same db _ rec held rfl rfl)

theorem move_vlogs (cfg : Config) (db : DB) (i : Nat) (log : ValueLog) (kind : Kind) (next : DB) (ops : List DiskOp)
    (garbage : List Bytes) (sound : Sound serial db i log) (move : Move cfg found db kind next ops garbage)
    (same : next.currentGen = db.currentGen) : next.vlogs = db.vlogs := by
  cases move with
  | collected merged relocated opened grown vlogOps bytes sst free quiet flushed merges opens relocates built =>
      have up : db.currentGen + 1 = db.currentGen := same
      simp at up
  | picked picked job noJob picks =>
      obtain ⟨⟨seq, rfl, _⟩, _⟩ := pick_job_fresh cfg db picked job picks
      rfl
  | merged worker job later running unmerged merges => cases worker <;> rfl
  | mergeIo worker job op rest outputs running building => cases worker <;> rfl
  | installed worker job outputs running complete =>
      obtain ⟨whole, _⟩ :=
        built_outputs db.sstables job [] outputs (sound.merges job (job_running db worker job running)) complete
      obtain ⟨tables, eq, _⟩ := install_job_spec db job outputs whole
      rw [eq]
      cases worker <;> rfl
  | _ => rfl

theorem move_pointed (cfg : Config) (db : DB) (i : Nat) (log : ValueLog) (kind : Kind) (next : DB) (ops : List DiskOp)
    (garbage : List Bytes) (j : Nat) (later : ValueLog) (sound : Sound serial db i log)
    (after : Sound serial next j later) (pointed : Pointed db log) (move : Move cfg found db kind next ops garbage)
    (grow : LogsGrow db.logs next.logs) (room : next.currentGen ≠ db.currentGen → db.currentGen.toNat + 1 < 2 ^ 32) :
    Pointed next later := by
  intro rec held
  rcases move_held cfg db i log kind next ops garbage j later sound after move rec held with old | new
  · by_cases same : next.currentGen = db.currentGen
    · exact reaches_grows log later rec
        (sound_grows db next i j log later sound after grow
          (move_vlogs cfg db i log kind next ops garbage sound move same))
        (pointed rec old)
    · -- After gc what merges still hold is of an earlier generation.
      rcases move_gen cfg db next i log kind ops garbage sound move with unchanged | ⟨up, _⟩
      · exact absurd unchanged same
      · have above := gen_above db next up (room same)
        intro separated
        obtain ⟨le, _⟩ := pointed rec old separated
        rw [sound.gen] at le
        rw [after.gen]
        refine ⟨by omega, fun equal => ?_⟩
        rw [equal] at le
        omega
  · exact in_range_reaches later rec new

theorem sized_carried : Carried serial SizedMems (fun _ _ => True) where
  fresh := ⟨logged_empty, logged_empty⟩
  moves := fun cfg _ db i log kind next ops garbage sound _ move =>
    move_sized cfg db i log kind next ops garbage sound move
  saved := fun _ _ _ => trivial
  loaded := fun _ _ _ _ _ replayed _ _ logged _ => ⟨⟨replayed, rfl, logged⟩, logged_empty⟩

-- The system between crashes: sound, with pointers that stay inside the log.
structure Traced (serial : Prop) (s : Sys) : Prop where
  running : Running serial (fun _ => True) (fun _ _ => True) s
  pointed : ∃ i log, Sound serial s.db i log ∧ Pointed s.db log

theorem move_traced (cfg : Config) (db : DB) (kind : Kind) (next : DB) (ops : List DiskOp)
    (garbage : List Bytes) (before : ∃ i log, Sound serial db i log ∧ Pointed db log)
    (move : Move cfg found db kind next ops garbage) (calm : serial → kind.Picks → inFlight db = [])
    (room : next.currentGen ≠ db.currentGen → db.currentGen.toNat + 1 < 2 ^ 32) :
    ∃ i log, Sound serial next i log ∧ Pointed next log := by
  obtain ⟨i, log, sound, pointed⟩ := before
  obtain ⟨j, later, after, grow⟩ := move_sound cfg db i log kind next ops garbage sound move calm
  exact ⟨j, later, after, move_pointed cfg db i log kind next ops garbage j later sound after pointed move grow room⟩

theorem reopen_traced (cfg : Config) (s next : Sys) (traced : Traced serial s) (closed : Closed s)
    (opens : Opens cfg s.disk next) :
    ∃ i log, Sound serial next.db i log ∧ Pointed next.db log := by
  obtain ⟨i, log, seq, synced, kind, orphans, work, reopened⟩ :=
    reopen_loads _ True cfg s next traced.running.inv closed opens
  have loads := reopened.loads
  obtain ⟨k, other, sound, pointed⟩ := traced.pointed
  obtain ⟨rfl, rfl⟩ := sound_unique s.db k i other log sound reopened.sound
  refine move_traced cfg _ kind next.db _ [] ⟨0, _, loads.sound, ?_⟩ loads.move ?_ ?_
  · rintro rec (⟨table, member, inside⟩ | ⟨job, running, _⟩)
    · have held : Held s.db rec := by
        obtain ⟨seq', text, _, _, committed⟩ := reopened.backed.committed
        obtain ⟨_, there⟩ := loaded_entry s.disk (manifestAt seq' s.db) text _ committed table member
        obtain ⟨old, present, same⟩ := List.mem_map.mp there
        exact .inl ⟨old, present, same ▸ inside⟩
      have reaches := pointed rec held
      intro separated
      obtain ⟨le, within⟩ := reaches separated
      rw [sound.gen] at le within
      exact ⟨le, within⟩
    · cases running
  · intro _ picks
    rcases loads.plain with rfl | rfl <;> cases picks
  · intro different
    rcases move_gen cfg _ next.db 0 _ kind _ [] loads.sound loads.move with same | ⟨_, _, collected⟩
    · exact absurd same different
    · rcases loads.plain with rfl | rfl <;> cases collected

theorem step_traced (s next : Sys) (event : Event) (traced : Traced False s) (clean : ∀ cfg, event ≠ .crash cfg)
    (stepped : s.Step event next) : Traced False next := by
  refine ⟨sys_step_running carried_nothing s next event traced.running nofun stepped, ?_⟩
  cases stepped with
  | lock label effect free locked finds done =>
      obtain ⟨middle, front, back, early, late, first, second, takes, one, two, _, _, meetsOne, meetsTwo⟩ :=
        lock_moves s _ True label effect traced.running.inv traced.running.limits locked finds done nofun
      exact move_traced s.cfg middle second effect.db back late
        (move_traced s.cfg s.db first middle front early traced.pointed one meetsOne.calm
          (fun different => (meetsOne.finds different).2)) two meetsTwo.calm (fun different =>
          (meetsTwo.finds different).2)
  | work label effect off done =>
      obtain ⟨⟨middle, front, back, early, late, first, second, takes, one, two, _⟩, _⟩ :=
        step_moves s.cfg s.db label effect done
      obtain ⟨rfl, rfl⟩ := takes_worked label first second takes off
      have still : ∀ kind db next ops garbage, (kind = .worked ∨ kind = .idle) →
          Move s.cfg label.found db kind next ops garbage → next.currentGen = db.currentGen := by
        intro kind db next ops garbage quiet move
        exact (quiet_frames s.cfg db next kind ops garbage quiet move).1.gen
      exact move_traced s.cfg middle .idle effect.db back late
        (move_traced s.cfg s.db .worked middle front early traced.pointed one nofun
          (fun different => absurd (still _ _ _ _ _ (.inl rfl) one) different)) two nofun
        (fun different => absurd (still _ _ _ _ _ (.inr rfl) two) different)
  | io op rest todo => exact traced.pointed
  | collect name marked => exact traced.pointed
  | reopen cfg next closed opens => exact reopen_traced cfg s next traced closed opens
  | crash cfg image next cut opens => exact absurd rfl (clean cfg)

theorem run_traced (cfg : Config) (start last : Sys) (events : List Event) (starts : start.Starts cfg)
    (clean : ∀ cfg, .crash cfg ∉ events) (done : start.Run events last) : Traced False last := by
  refine sys_run_induction (Traced False) (fun _ event => ∀ cfg, event ≠ .crash cfg)
    (fun s event next traced allowed stepped => step_traced s next event traced allowed stepped) start
    last events ?_ ?_ done
  · have running : Running False (fun _ => True) (fun _ _ => True) start :=
      start_running carried_nothing cfg start starts
    obtain ⟨_, same⟩ := @open_blank_inv False (storeGood fun _ _ => True) True cfg _ start blank_nothing trivial
      (fun _ _ present => by cases present) starts (fun _ _ => trivial)
    obtain ⟨i, log, sound, _⟩ := running.inv.state
    refine ⟨running, i, log, sound, ?_⟩
    rw [same]
    rintro rec (⟨_, member, _⟩ | ⟨_, member, _⟩) <;> cases member
  · intro before event after mid split _ cfg' same
    exact clean cfg' (by rw [split, same]; simp)

end Tombstash
