import Tombstash.Reopen
import Tombstash.Strategies

set_option autoImplicit false

namespace Tombstash

variable {found : Bytes}

-- The write-ahead logs, and the .tmp files that a rename takes away.
def Passing (name : Bytes) : Prop := name ∈ walFiles ∨ ∃ base, name = tmpName base

-- The tables that workers have built and are writing.
def buildingTables (db : DB) : List Bytes :=
  (db.flusher.toList.filter (fun job => job.built.isSome)).map (fun job => sstName job.seq) ++
    ((inFlight db).filter (fun job => job.built.isSome)).flatMap (fun job => job.seqs.map sstName)

-- A file that the store has a use for: it is live, a worker builds it, or it is
-- marked obsolete.
def Expected (db : DB) (marked : List Bytes) (name : Bytes) : Prop :=
  name ∈ liveFiles db ∨ name ∈ buildingTables db ∨ name ∈ marked

-- There are no other tables and no other value logs.
def Accounted (db : DB) (marked : List Bytes) (disk : Disk Bytes) : Prop :=
  ∀ name, ¬ Passing name → (disk name).isSome = true → Expected db marked name

theorem building_idle (db : DB) (flusher : db.flusher = none) (merges : inFlight db = []) : buildingTables db = [] := by
  rw [buildingTables, flusher, merges]
  rfl

theorem building_flusher (db next : DB) (merges : inFlight next = inFlight db)
    (kept : ∀ job, db.flusher = some job → job.built.isSome = true →
      ∃ later, next.flusher = some later ∧ later.built.isSome = true ∧ later.seq = job.seq) :
    ∀ name ∈ buildingTables db, name ∈ buildingTables next := by
  intro name member
  rcases List.mem_append.mp member with flushes | others
  · obtain ⟨job, inside, rfl⟩ := List.mem_map.mp flushes
    obtain ⟨running, built⟩ := List.mem_filter.mp inside
    obtain ⟨later, after, still, same⟩ := kept job (Option.mem_toList.mp running) built
    refine List.mem_append_left _ (List.mem_map.mpr ⟨later, List.mem_filter.mpr ⟨?_, still⟩, by rw [same]⟩)
    exact Option.mem_toList.mpr after
  · rw [← merges] at others
    exact List.mem_append_right _ others

theorem building_merges (db next : DB) (flusher : next.flusher = db.flusher)
    (kept : ∀ job ∈ inFlight db, job.built.isSome = true → ∃ later ∈ inFlight next, later.built.isSome = true ∧
      later.seqs = job.seqs) :
    ∀ name ∈ buildingTables db, name ∈ buildingTables next := by
  intro name member
  rcases List.mem_append.mp member with flushes | others
  · rw [← flusher] at flushes
    exact List.mem_append_left _ flushes
  · obtain ⟨job, inside, names⟩ := List.mem_flatMap.mp others
    obtain ⟨running, built⟩ := List.mem_filter.mp inside
    obtain ⟨later, after, still, same⟩ := kept job running built
    exact List.mem_append_right _ (List.mem_flatMap.mpr ⟨later, List.mem_filter.mpr ⟨after, still⟩, same ▸ names⟩)

theorem building_set_job (db : DB) (worker : Worker) (job next : MergeJob) (running : db.job worker = some job)
    (kept : job.built.isSome = true → next.built.isSome = true ∧ next.seqs = job.seqs) :
    ∀ name ∈ buildingTables db, name ∈ buildingTables (db.setJob next worker) := by
  obtain ⟨before, after, jobs, set, _⟩ := job_split db worker job running
  refine building_merges db _ (by cases worker <;> rfl) (fun other member built => ?_)
  rw [jobs] at member
  rw [set next]
  rcases List.mem_append.mp member with left | right
  · exact ⟨other, List.mem_append_left _ left, built, rfl⟩
  · rcases List.mem_cons.mp right with rfl | right
    · exact ⟨next, by simp, kept built⟩
    · exact ⟨other, by simp [right], built, rfl⟩

theorem table_file_passing (seq : Nat) (name : Bytes) (member : name ∈ tableFiles seq) :
    Passing name ∨ name = sstName seq := by
  rcases List.mem_pair.mp member with same | same
  · exact .inr same
  · exact .inl (.inr ⟨_, same⟩)

theorem commit_touches (base : DB) (wal : List DiskOp) (onWal : ∀ op ∈ wal, ∀ name ∈ op.touches, name ∈ walFiles) :
    ∀ op ∈ writeManifestLocked base ++ wal, ∀ name ∈ op.touches, Passing name ∨ name = manifestName := by
  intro op member name touched
  rcases List.mem_append.mp member with commits | rest
  · rcases manifest_files _ op commits name touched with same | same
    · exact .inr same
    · exact .inl (.inr ⟨manifestName, same⟩)
  · exact .inl (.inl (onWal op rest name touched))

theorem accounted_after (db next : DB) (marked more : List Bytes) (disk : Disk Bytes) (ops : List DiskOp)
    (accounted : Accounted db marked disk)
    (touched : ∀ op ∈ ops, ∀ name ∈ op.touches, Passing name ∨ Expected next more name)
    (kept : ∀ name, Expected db marked name → Expected next more name) : Accounted next more (applyAll disk ops) := by
  intro name other present
  by_cases untouched : ∀ op ∈ ops, name ∉ op.touches
  · rw [apply_all_frame disk ops name untouched] at present
    exact kept name (accounted name other present)
  · simp only [not_forall, not_not] at untouched
    obtain ⟨op, member, touches⟩ := untouched
    exact (touched op member name touches).resolve_left other

theorem expected_kept (db next : DB) (marked garbage : List Bytes)
    (live : ∀ name ∈ liveFiles db, name ∈ liveFiles next ∨ name ∈ garbage)
    (building : ∀ name ∈ buildingTables db, name ∈ liveFiles next ∨ name ∈ buildingTables next) (name : Bytes)
    (expected : Expected db marked name) : Expected next (marked ++ garbage) name := by
  rcases expected with here | built | old
  · exact (live name here).imp id (fun marks => .inr (List.mem_append_right _ marks))
  · exact (building name built).imp id .inl
  · exact .inr (.inr (List.mem_append_left _ old))

theorem touch_expected (db next : DB) (more : List Bytes) (name : Bytes) (touch : Touch db next name)
    (listed : sstName db.nextSeq ∈ liveFiles next) : Passing name ∨ Expected next more name := by
  rcases touch with other | ⟨files, _⟩ | ⟨same, _⟩
  · rcases List.mem_append.mp other with wal | rest
    · exact .inl (.inl wal)
    · rcases List.mem_pair.mp rest with same | same
      · exact .inr (.inl (by simp [liveFiles, same]))
      · exact .inl (.inr ⟨manifestName, same⟩)
  · exact (table_file_passing db.nextSeq name files).imp id
      (fun same : name = sstName db.nextSeq => .inl (same ▸ listed))
  · exact .inr (.inl (by simp [liveFiles, same]))

section Files

variable (cfg : Config) (db next : DB) (i : Nat) (log : ValueLog) (marked : List Bytes) (disk : Disk Bytes)
    (ops : List DiskOp)
variable (garbage : List Bytes) (sound : Sound True db i log) (accounted : Accounted db marked disk)

include sound accounted

theorem flushed_accounted (move : Move cfg found db .flushed next ops garbage) :
    Accounted next (marked ++ garbage) (applyAll disk ops) := by
  have touches := locked_touches cfg db next i log .flushed ops garbage sound move (by simp)
  cases move with
  | flushed k current later recs vlogOps bytes sst filled free index object separated built =>
      refine accounted_after db _ marked _ disk _ accounted (fun op member name touched => ?_)
        (expected_kept db (flushedDb db k later sst) marked [] (fun name member => .inl ?_)
          (fun name member => .inr member))
      · exact touch_expected db _ _ name (touches op member name touched) (by simp [liveFiles, flushedDb])
      · simp only [liveFiles, flushedDb, List.map_cons, List.mem_cons] at member ⊢
        tauto

theorem collected_accounted (move : Move cfg found db .collected next ops garbage) :
    Accounted next (marked ++ garbage) (applyAll disk ops) := by
  have touches := locked_touches cfg db next i log .collected ops garbage sound move (by simp)
  cases move with
  | collected merged relocated opened later vlogOps bytes sst free quiet flushed merges opens relocates built =>
      have old : vlogName db.currentGen ∈ staleLogs db (db.currentGen + 1) := by
        simp [staleLogs, sound.vlogs, sound.object, sound.name]
      refine accounted_after db _ marked _ disk _ accounted (fun op member name touched => ?_)
        (expected_kept db _ marked _ (fun name member => ?_) (fun name member => .inr member))
      · exact touch_expected db _ _ name (touches op member name touched) (by simp [liveFiles, collectedDb])
      · rcases List.mem_cons.mp member with rfl | rest
        · exact .inl (by simp [liveFiles])
        · rcases List.mem_cons.mp rest with rfl | inTables
          · exact .inr (List.mem_append_right _ old)
          · exact .inr (List.mem_append_left _ inTables)

omit sound in
theorem published_accounted (move : Move cfg found db .published next ops garbage) :
    Accounted next (marked ++ garbage) (applyAll disk ops) := by
  cases move with
  | published job sst running complete =>
      refine accounted_after db _ marked _ disk _ accounted (fun op member name touched => ?_)
        (expected_kept db _ marked [] (fun name member => .inl ?_) (fun name member => ?_))
      · refine (commit_touches _ _ (wal_ops_files .published) op member name touched).imp id (fun same => .inl ?_)
        simp [liveFiles, same]
      · simp only [liveFiles, flusherPublish, List.map_cons, List.mem_cons] at member ⊢
        tauto
      · rcases List.mem_append.mp member with flushes | merges
        · simp only [running, Option.toList_some, List.mem_map, List.mem_filter, List.mem_singleton] at flushes
          obtain ⟨_, ⟨rfl, _⟩, rfl⟩ := flushes
          exact .inl (by simp [liveFiles, flusherPublish])
        · exact .inr (List.mem_append_right _ merges)

theorem installed_accounted (worker : Worker) (job : MergeJob) (outputs : List (Bytes × SSTable))
    (running : db.job worker = some job) (complete : job.built = some ([], outputs)) :
    Accounted ({ installJob db job outputs with compacting := false }.endJob worker)
    (marked ++ job.inputs.map Table.name)
      (applyAll disk (writeManifestLocked (installJob db job outputs))) := by
  have merge := sound.merges job (job_running db worker job running)
  obtain ⟨whole, _⟩ := built_outputs db.sstables job [] outputs merge complete
  obtain ⟨tables, eq, perm⟩ := install_job_spec db job outputs whole
  have single := (only_job db worker job (sound.single trivial) running).1
  rw [eq]
  -- The store after the merge, for either worker.
  have live : ∀ name, name = manifestName ∨ name = vlogName db.currentGen ∨ name ∈ tables.map Table.name →
      name ∈ liveFiles
      (({ db with sstables := tables, nextId := db.nextId + outputs.length, compacting := false } : DB).endJob
      worker) := by
    intro name member
    cases worker <;> simpa [liveFiles, DB.endJob] using member
  have listed : ∀ table : Table, table ∈ db.sstables.filter (notAmong (tableIds job.inputs)) ∨
      table ∈ outputTables db.nextId job.outputLevel outputs → table.name ∈ tables.map Table.name := fun table there =>
    List.mem_map_of_mem (perm.mem_iff.mpr (List.mem_append.mpr there))
  refine accounted_after db _ marked _ disk _ accounted (fun op member name touched => ?_)
    (expected_kept db _ marked _ (fun name member => ?_) (fun name member => ?_))
  · rw [← List.append_nil (writeManifestLocked _)] at member
    refine (commit_touches _ [] (List.forall_mem_nil _) op member name touched).imp id (fun same => .inl ?_)
    exact live name (.inl same)
  · rcases List.mem_cons.mp member with same | rest
    · exact .inl (live name (.inl same))
    · rcases List.mem_cons.mp rest with same | inTables
      · exact .inl (live name (.inr (.inl same)))
      · obtain ⟨table, there, rfl⟩ := List.mem_map.mp inTables
        by_cases taken : table.id ∈ tableIds job.inputs
        · obtain ⟨input, mine, sameId⟩ := List.mem_map.mp taken
          have same : input = table :=
            List.inj_on_of_nodup_map sound.distinct (merge.present trivial input mine) there sameId
          exact .inr (same ▸ List.mem_map_of_mem mine)
        · refine .inl (live _ (.inr (.inr (listed table (.inl (List.mem_filter.mpr ⟨there, ?_⟩))))))
          simpa [notAmong] using taken
  · rcases List.mem_append.mp member with flushes | merges
    · exact .inr (List.mem_append_left _ (by cases worker <;> exact flushes))
    · rw [single] at merges
      have mine : name ∈ (outputTables db.nextId job.outputLevel outputs).map Table.name := by
        rw [output_names, merge.named [] outputs complete]
        simpa [complete] using merges
      obtain ⟨table, there, rfl⟩ := List.mem_map.mp mine
      exact .inl (live _ (.inr (.inr (listed table (.inr there)))))

theorem worked_accounted (backed : Backed True db log disk) (move : Move cfg found db .worked next ops garbage) :
    Accounted next (marked ++ garbage) (applyAll disk ops) := by
  obtain ⟨frames, _⟩ := worked_frames cfg db next ops garbage move
  have live : liveFiles next = liveFiles db := by rw [liveFiles, liveFiles, frames.gen, frames.tables]
  have after : (∀ name ∈ buildingTables db, name ∈ buildingTables next) →
      (∀ op ∈ ops, ∀ name ∈ op.touches, Passing name ∨ name ∈ liveFiles db ∨ name ∈ buildingTables next) →
      Accounted next (marked ++ garbage) (applyAll disk ops) := fun kept touched => by
    refine accounted_after db next marked _ disk ops accounted (fun op member name touches => ?_)
      (expected_kept db next marked garbage (fun name member => .inl (live ▸ member))
        (fun name member => .inr (kept name member)))
    exact (touched op member name touches).imp id (fun there => there.imp (fun here => live ▸ here) .inl)
  cases move with
  | separated job rec stored rest current later io running unbuilt pending object separates =>
      obtain ⟨rfl, _, appended, _, _⟩ :=
        sound_separated cfg db i log job rec stored rest current later ops sound running unbuilt
        pending object separates
      refine after (building_flusher db _ rfl (fun other there built => ?_)) (fun op member name touched => ?_)
      · cases running.symm.trans there
        rw [unbuilt] at built
        cases built
      · rw [appended.touches op member, List.mem_singleton, sound.name] at touched
        exact .inr (.inl (by simp [liveFiles, touched]))
  | flushBuilt job current bytes sst running unbuilt finished object built =>
      refine after (building_flusher db _ rfl (fun other there built => ?_)) (List.forall_mem_nil _)
      cases running.symm.trans there
      rw [unbuilt] at built
      cases built
  | flushIo job op rest sst running building =>
      refine after (building_flusher db _ rfl (fun other there built => ?_)) (fun other member name touched => ?_)
      · cases running.symm.trans there
        exact ⟨_, rfl, rfl, rfl⟩
      · rw [List.mem_singleton.mp member] at touched
        have mine := flush_touches disk db log job _ sst (backed.flush job running) running building op
          (by simp) name touched
        rcases (mem_flusher_files db job running name).mp mine with same | files
        · exact .inr (.inl (by simp [liveFiles, same]))
        · refine (table_file_passing job.seq name files).imp id (fun same => .inr (List.mem_append_left _ ?_))
          simp [same]
  | merged worker job later running unmerged merges =>
      refine after (building_set_job db worker job later running (fun built => ?_)) (List.forall_mem_nil _)
      rw [(sound.merges job (job_running db worker job running)).waiting unmerged] at built
      cases built
  | mergeIo worker job op rest outputs running building =>
      have inside := job_running db worker job running
      refine after (building_set_job db worker job _ running (fun _ => ⟨rfl, rfl⟩))
        (fun other member name touched => ?_)
      rw [List.mem_singleton.mp member] at touched
      obtain ⟨seq, held, files⟩ :=
        List.mem_flatMap.mp ((backed.merges job inside).touches _ outputs building op (by simp) name touched)
      refine (table_file_passing seq name files).imp id (fun same => .inr (List.mem_append_right _ ?_))
      rw [(only_job db worker job (sound.single trivial) running).2.1]
      simpa [same] using ⟨seq, held, rfl⟩

-- The moves that change no table and finish none.
omit sound in
theorem plain_accounted (wal : ∀ op ∈ ops, ∀ name ∈ op.touches, name ∈ walFiles) (live : liveFiles next = liveFiles db)
    (building : ∀ name ∈ buildingTables db, name ∈ buildingTables next) :
    Accounted next (marked ++ []) (applyAll disk ops) := by
  exact accounted_after db next marked _ disk ops accounted
    (fun op member name touched => .inl (.inl (wal op member name touched)))
    (expected_kept db next marked [] (fun name member => .inl (live ▸ member))
      (fun name member => .inr (building name member)))

theorem move_accounted (kind : Kind) (backed : Backed True db log disk)
    (move : Move cfg found db kind next ops garbage) :
    Accounted next (marked ++ garbage) (applyAll disk ops) := by
  by_cases works : kind = .worked
  · exact worked_accounted cfg db next i log marked disk ops garbage sound accounted backed (works ▸ move)
  have nothing : ∀ op ∈ ([] : List DiskOp), ∀ name ∈ FsOp.touches op, name ∈ walFiles := List.forall_mem_nil _
  have whole := move
  cases move with
  | flushed => exact flushed_accounted cfg db _ i log marked disk _ _ sound accounted whole
  | collected => exact collected_accounted cfg db _ i log marked disk _ _ sound accounted whole
  | published => exact published_accounted cfg db _ marked disk _ _ accounted whole
  | wrote write bytes sync encoded =>
      refine plain_accounted db _ marked disk _ accounted ?_ rfl (fun name member => member)
      rw [wal_append_bytes (writeRecord write) bytes encoded]
      exact wal_ops_files (.wrote write sync)
  | synced => exact plain_accounted db _ marked disk _ accounted (wal_ops_files .synced) rfl (fun name member => member)
  | sealed filled free =>
      exact plain_accounted db _ marked disk _ accounted (wal_ops_files .sealed) rfl (fun name member => member)
  | snapshot k has noJob index =>
      refine plain_accounted db _ marked disk _ accounted nothing rfl
        (building_flusher db _ rfl (fun job running => ?_))
      rw [noJob] at running
      cases running
  | picked picked job noJob picks =>
      obtain ⟨⟨seq, rfl, _⟩, _⟩ := pick_job_fresh cfg db picked job picks
      refine plain_accounted db _ marked disk _ accounted nothing rfl
        (building_merges db _ rfl (fun other inside built => ?_))
      rw [inFlight, noJob] at inside
      exact ⟨other, List.mem_append_right _ inside, built, rfl⟩
  | pickedAll many =>
      refine plain_accounted db _ marked disk _ accounted nothing rfl
        (building_merges db _ rfl (fun other inside built => ?_))
      refine ⟨other, ?_, built, rfl⟩
      exact (List.mem_append.mp inside).elim (List.mem_append_left _)
        (fun old => List.mem_append_right _ (List.mem_append_left _ old))
  | reserved job later groups running grouped unbuilt builds =>
      refine plain_accounted db _ marked disk _ accounted nothing rfl
        (building_merges db _ rfl (fun other inside built => ?_))
      rw [inFlight, running] at inside
      rcases List.mem_cons.mp inside with rfl | old
      · rw [unbuilt] at built
        cases built
      · exact ⟨other, List.mem_append_right _ old, built, rfl⟩
  | installed worker job outputs running complete =>
      exact installed_accounted db i log marked disk sound accounted worker job outputs running complete
  | separated | flushBuilt | flushIo | merged | mergeIo => exact absurd rfl works
  | _ => exact plain_accounted db _ marked disk _ accounted nothing rfl (fun name member => member)

end Files

theorem lock_accounted (s : Sys) (label : Label) (effect : Effect) (marked : List Bytes)
    (running : Running True (fun _ => True) (fun _ _ => True) s) (free : s.todo = []) (locked : label.kind ≠ .worked)
    (finds : GcFinds s label) (done : step s.cfg s.db label = some effect) (calm : label.Picks → inFlight s.db = [])
    (accounted : Accounted s.db marked s.disk) :
    Accounted effect.db (marked ++ effect.garbage) (applyAll s.disk effect.ops) := by
  obtain ⟨middle, front, back, early, late, first, second, takes, one, two, ops, marks, meetsOne, _⟩ :=
    lock_moves s _ True label effect running.inv running.limits locked finds done (fun _ => calm)
  have opened :=
    first_inv (storeGood (fun _ _ => True)) (storeGood (fun _ _ => True)) True True s middle first front early free
    running.inv one meetsOne (fun _ _ _ _ _ _ => trivial) (fun _ _ _ _ _ _ _ _ => trivial)
  obtain ⟨i, log, sound, backed⟩ := running.inv.state
  rw [free, apply_all_nil] at backed
  obtain ⟨j, later, soundLater, backedLater⟩ := opened.state
  have half := move_accounted s.cfg s.db middle i log marked s.disk front early sound accounted first backed one
  rw [ops, marks, apply_all_append, ← List.append_assoc]
  exact move_accounted s.cfg middle effect.db j later (marked ++ early) _ back late soundLater half
    second backedLater two

theorem quiet_accounted (good : Good) (empty : Prop) (s : Sys) (next : DB) (kind : Kind) (ops : List DiskOp)
    (marked : List Bytes) (quiet : kind = .worked ∨ kind = .idle) (inv : SysInv True good empty s)
    (move : Move s.cfg found s.db kind next ops []) (accounted : Accounted s.db marked (applyAll s.disk s.todo)) :
    Accounted next marked (applyAll (applyAll s.disk ops) s.todo) := by
  obtain ⟨i, log, sound, backed⟩ := inv.state
  rw [(quiet_wal_files good empty found s next kind ops [] quiet inv move).2]
  have moved := move_accounted s.cfg s.db next i log marked _ ops [] sound accounted kind backed move
  rwa [List.append_nil] at moved

theorem work_accounted (s : Sys) (label : Label) (effect : Effect) (marked : List Bytes)
    (running : Running True (fun _ => True) (fun _ _ => True) s) (off : label.kind = .worked)
    (done : step s.cfg s.db label = some effect) (accounted : Accounted s.db marked (applyAll s.disk s.todo)) :
    Accounted effect.db marked (applyAll (applyAll s.disk effect.ops) s.todo) := by
  obtain ⟨⟨middle, front, back, early, late, first, second, takes, one, two, ops, _, _⟩, _⟩ :=
    step_moves s.cfg s.db label effect done
  obtain ⟨rfl, rfl⟩ := takes_worked label first second takes off
  obtain ⟨_, rfl⟩ := quiet_frames s.cfg s.db middle .worked front early (.inl rfl) one
  obtain ⟨_, rfl⟩ := quiet_frames s.cfg middle effect.db .idle back late (.inr rfl) two
  have half := quiet_accounted _ _ s middle .worked front marked (.inl rfl) running.inv one accounted
  rw [ops, apply_all_append]
  exact quiet_accounted _ _ _ effect.db .idle back marked (.inr rfl)
    (quiet_inv _ _ s middle .worked front [] (.inl rfl) running.inv one)
    two half

theorem collect_accounted (s : Sys) (name : Bytes) (running : Running True (fun _ => True) (fun _ _ => True) s)
    (marked : name ∈ s.garbage ∨ s.todo = [] ∧ name ∈ s.doomed)
    (accounted : Accounted s.db (s.garbage ++ s.doomed) (applyAll s.disk s.todo)) :
    Accounted s.db
    (s.garbage.filter (fun other => decide (other ≠ name)) ++ s.doomed.filter (fun other => decide (other ≠ name)))
      (applyAll ((FsOp.unlink name).apply s.disk) s.todo) := by
  have swap : applyAll ((FsOp.unlink name).apply s.disk) s.todo = (FsOp.unlink name).apply
    (applyAll s.disk s.todo) := by
    refine apply_all_comm s.disk (.unlink name) s.todo (fun other member touched inside both => ?_)
    rw [List.mem_singleton.mp inside] at both
    rcases marked with old | ⟨done, _⟩
    · exact running.inv.away other member name both old
    · rw [done] at member
      cases member
  intro other away present
  rw [swap] at present
  by_cases same : other = name
  · rw [same, show (FsOp.unlink name).apply (applyAll s.disk s.todo) name = none from set_same _ _ _] at present
    cases present
  · rw [show (FsOp.unlink name).apply (applyAll s.disk s.todo) other = applyAll s.disk s.todo other from set_other _ _ _
      _ same] at present
    refine (accounted other away present).imp id (fun rest => rest.imp id (fun marks => ?_))
    rw [← List.filter_append]
    exact List.mem_filter.mpr ⟨marks, by simpa using same⟩

theorem swept_accounted (listing : List Bytes) (disk : Disk Bytes) (m : ManifestData) (text : Bytes)
    (ssts : List SSTable) (file : File) (replayed : List Write) (orphans : List DiskOp)
    (committed : Committed True disk m text ssts) (lists : Lists disk listing)
    (names : ∀ name, (disk name).isSome = true → StoreName name)
    (swept : cleanupOrphans (m.tables.map ManifestEntry.name) m.currentGen listing = .ok orphans) :
    Accounted (loadedDb m ssts file.data replayed) [] (applyAll disk (startOps m orphans)) := by
  have spec := cleanup_spec _ _ listing orphans swept
  intro name away present
  by_cases onLog : name = vlogName m.currentGen
  · exact .inl (by simp [liveFiles, loadedDb, onLog])
  have unlinks : ∀ op ∈ orphans, ∃ gone, op = .unlink gone := by
    intro op member
    obtain ⟨gone, _, same, _⟩ := (spec op).mp member
    exact ⟨gone, same⟩
  have shape : applyAll disk (startOps m orphans) =
      applyAll ((FsOp.create (vlogName m.currentGen)).apply ((FsOp.create walName).apply disk)) orphans := rfl
  have first : (FsOp.create (vlogName m.currentGen)).apply ((FsOp.create walName).apply disk) name = disk name := by
    have notWal : name ≠ walName := fun same => away (.inl (by simp [walFiles, same]))
    simp [FsOp.apply, set_other _ _ _ _ onLog, set_other _ _ _ _ notWal]
  rw [shape, apply_all_unlinks _ orphans unlinks name, first] at present
  split at present
  · cases present
  · rename_i kept
    obtain ⟨orphan, decided, spared⟩ :=
      orphan_decided (m.tables.map ManifestEntry.name) m.currentGen name (names name present)
    cases orphan with
    | true => exact absurd ((spec (.unlink name)).mpr ⟨name, (lists.2 name).mpr present, rfl, decided⟩) kept
    | false =>
        rcases spared rfl with wal | manifest | table | log
        · exact absurd (.inl wal) away
        · exact .inl (by simp [liveFiles, manifest])
        · rw [← (loaded_fields disk m text ssts committed).2.1, List.map_map] at table
          exact .inl (List.mem_cons_of_mem _ (List.mem_cons_of_mem _ table))
        · exact absurd log onLog

theorem open_committed_accounted (cfg : Config) (disk : Disk Bytes) (s : Sys) (m : ManifestData) (text : Bytes)
    (ssts : List SSTable) (committed : Committed True disk m text ssts)
    (names : ∀ name, (disk name).isSome = true → StoreName name) (opens : Opens cfg disk s) :
    Accounted s.db [] (applyAll s.disk s.todo) := by
  obtain ⟨file, present, _⟩ := committed.prepared.vlog
  obtain ⟨listing, lists, opened⟩ := opens.opened
  obtain ⟨orphans, kind, front, swept, plain, move, shape, _⟩ :=
    opened_move cfg listing disk m text ssts committed file present
    s.db s.todo opened
  obtain ⟨during, atLog, _⟩ := start_ops_committed listing disk m text ssts committed file present orphans swept
  have started := throughout_last _ _ _ during
  have loaded := swept_accounted listing disk m text ssts file (replayedWrites disk) orphans committed lists names swept
  have flushed := move_accounted cfg _ s.db 0 _ [] _ front []
    (loaded_sound _ m text ssts started file atLog (replayedWrites disk)) loaded
    kind (loaded_backed _ m text ssts started file atLog (replayedWrites disk)) move
  rw [opens.disk, shape, apply_all_append, apply_all_append]
  exact plain_accounted s.db s.db [] _ _ flushed (drop_flushing_files _) rfl (fun name member => member)

theorem open_blank_accounted (cfg : Config) (disk : Disk Bytes) (s : Sys) (blank : Blank disk)
    (opens : Opens cfg disk s) :
    Accounted s.db [] (applyAll s.disk s.todo) := by
  obtain ⟨listing, lists, opened⟩ := opens.opened
  rw [open_blank cfg listing disk blank lists] at opened
  simp only [Except.ok.injEq, Prod.mk.injEq] at opened
  have before := throughout_last _ _ _ (blank_ops_throughout listing disk blank lists).1
  rw [opens.disk, ← opened.1, ← opened.2, apply_all_append]
  refine accounted_after DB.fresh DB.fresh [] [] _ _ (fun name away present => ?_)
    (fun op member name touched => ?_) (fun name => id)
  · have few := before.few name present
    simp only [blankFiles, List.mem_cons, List.not_mem_nil, or_false] at few
    rcases few with rfl | rfl | rfl
    · exact absurd (.inl (by decide)) away
    · exact .inl (by decide)
    · exact absurd (.inr ⟨manifestName, rfl⟩) away
  · rw [← List.append_nil (writeManifestLocked _)] at member
    refine (commit_touches _ [] (List.forall_mem_nil _) op member name touched).imp id (fun same => .inl ?_)
    simp [liveFiles, same]

theorem step_accounted (s next : Sys) (event : Event) (running : Running True (fun _ => True) (fun _ _ => True) s)
    (calm : EventCalm True s event) (stepped : s.Step event next)
    (accounted : Accounted s.db (s.garbage ++ s.doomed) (applyAll s.disk s.todo)) :
    Accounted next.db (next.garbage ++ next.doomed) (applyAll next.disk next.todo) := by
  have opening : ∀ cfg disk, (∀ name, (disk name).isSome = true → StoreName name) →
      (Blank disk ∨ ∃ m text ssts, Committed True disk m text ssts) → Opens cfg disk next →
      Accounted next.db (next.garbage ++ next.doomed) (applyAll next.disk next.todo) := by
    intro cfg disk names openable opens
    rw [opens.garbage, opens.doomed]
    rcases openable with blank | ⟨m, text, ssts, committed⟩
    · exact open_blank_accounted cfg disk next blank opens
    · exact open_committed_accounted cfg disk next m text ssts committed names opens
  cases stepped with
  | lock label effect free locked finds done =>
      rw [free] at accounted
      exact lock_accounted s label effect _ running free locked finds done (calm trivial label rfl) accounted
  | work label effect off done => exact work_accounted s label effect _ running off done accounted
  | io op rest todo =>
      rw [todo] at accounted
      exact accounted
  | collect name marked => exact collect_accounted s name running marked accounted
  | reopen cfg next closed opens =>
      refine opening cfg s.disk running.inv.names ?_ opens
      exact openable_committed s.disk (inv_openable _ _ s running.inv)
  | crash cfg image next cut opens =>
      obtain ⟨_, names, openable⟩ := crash_openable _ _ s image running.inv cut
      exact opening cfg image names (openable_committed image openable) opens

theorem live_files_there (s : Sys) (running : Running True (fun _ => True) (fun _ _ => True) s) :
    ∀ name ∈ liveFiles s.db, (applyAll s.disk s.todo name).isSome = true := by
  obtain ⟨i, log, _, backed⟩ := running.inv.state
  obtain ⟨synced, atLog⟩ := backed.vlog
  obtain ⟨_, _, _, _, committed⟩ := backed.committed
  intro name live
  rcases List.mem_cons.mp live with rfl | rest
  · simp [committed.manifest]
  · rcases List.mem_cons.mp rest with rfl | inTables
    · simp [atLog]
    · obtain ⟨table, member, rfl⟩ := List.mem_map.mp inTables
      obtain ⟨_, present, _⟩ := (committed_db_stored s.db log _ backed.committed).1 table member
      simp [present]

-- No table and no value log is ever left behind: each is live, being written or
-- marked obsolete, and in the directory of a closed store each is live.
theorem directory_accounted (cfg : Config) (start last : Sys) (events : List Event) (starts : start.Starts cfg)
    (done : start.RunWith (EventCalm True) events last) :
    (∀ name, ¬ Passing name → (applyAll last.disk last.todo name).isSome = true →
      name ∈ liveFiles last.db ∨ name ∈ buildingTables last.db ∨ name ∈ last.garbage ++ last.doomed) ∧
    (∀ name ∈ liveFiles last.db, (applyAll last.disk last.todo name).isSome = true) ∧
    (Closed last → ∀ name, ¬ Passing name → ((last.disk name).isSome = true ↔ name ∈ liveFiles last.db)) := by
  have fresh : Running True (fun _ => True) (fun _ _ => True) start ∧
      Accounted start.db (start.garbage ++ start.doomed) (applyAll start.disk start.todo) := by
    refine ⟨start_running carried_nothing cfg start starts, ?_⟩
    rw [starts.garbage, starts.doomed]
    exact open_blank_accounted cfg _ start blank_nothing starts
  obtain ⟨running, accounted⟩ := run_with_induction
    (fun s _ => Running True (fun _ => True) (fun _ _ => True) s ∧
      Accounted s.db (s.garbage ++ s.doomed) (applyAll s.disk s.todo))
    (EventCalm True)
    (fun s event next _ state calm stepped => ⟨sys_step_running carried_nothing s next event state.1 calm stepped,
      step_accounted s next event state.1 calm stepped state.2⟩) start last [] events fresh done
  have there := live_files_there last running
  refine ⟨accounted, there, fun closed name away => ?_⟩
  rw [closed.todo, closed.garbage, closed.doomed, apply_all_nil] at accounted
  rw [closed.todo, apply_all_nil] at there
  refine ⟨fun present => ?_, there name⟩
  rcases accounted name away present with live | building | marked
  · exact live
  · rw [building_idle last.db closed.flusher closed.merges] at building
    cases building
  · cases marked

def calmEvent (s : Sys) : Event → Bool
  | .lock .compactorPick | .lock .compactAllPick => (inFlight s.db).isEmpty
  | _ => true

theorem calm_event (s : Sys) (event : Event) (calm : calmEvent s event = true) : EventCalm True s event := by
  rintro _ label rfl (rfl | rfl)
  · exact List.isEmpty_iff.mp calm
  · exact List.isEmpty_iff.mp calm

-- Two flushes, a merge and the end of its inputs.
theorem merged_directory_accounted :
    ∃ last, (Sys.fresh (leveledBy 2)).RunWith (EventCalm True) leveledSession last ∧
      ∀ name, ¬ Passing name → ((last.disk name).isSome = true ↔ name ∈ [manifestName, vlogName 0, sstName 2]) := by
  have value : ((Sys.fresh (leveledBy 2)).execAllIn (storeNames 8) calmEvent leveledSession).map (fun last =>
      (liveFiles last.db, decide (Closed last))) = some ([manifestName, vlogName 0, sstName 2], true) := by
    decide +kernel
  obtain ⟨last, done, eq⟩ := Option.map_eq_some_iff.mp value
  simp only [Prod.mk.injEq, decide_eq_true_eq] at eq
  have run := run_with_imp _ (EventCalm True) calm_event _ last _
    (exec_all_in_run (storeNames 8) _ _ last _ (by decide +kernel) (fresh_confined _ _ (by decide +kernel)) done).1
  refine ⟨last, run, fun name away => ?_⟩
  rw [(directory_accounted (leveledBy 2) _ last leveledSession (fresh_starts _) run).2.2 eq.2 name away, eq.1]

end Tombstash
