import Tombstash.Picks

set_option autoImplicit false

namespace Tombstash

variable {found : Bytes} {serial : Prop}

variable (cfg : Config) (db : DB) (i : Nat) (log : ValueLog)

theorem sound_log_set (later : ValueLog) (flusher : Option FlushJob) (sound : Sound serial db i log)
    (grows : Grows log later) (aligned : later.Aligned) (idle : db.hasFlushing = false → flusher = none)
    (job : ∀ job, flusher = some job → FlushSound db.flushingMemtable db.flushingSeq i later job) :
    Sound serial { db with logs := db.logs.set i later, flusher := flusher } i later := by
  have bound := (List.getElem?_eq_some_iff.mp sound.object).1
  exact { vlogs := sound.vlogs
          object := by simp [bound]
          gen := grows.gen.trans sound.gen
          name := grows.name.trans sound.name
          aligned := aligned
          small := small_set db.logs i later sound.small aligned
          formed := sound.formed
          ranges := fun one table member rec inside =>
            in_range_grows log later rec grows (sound.ranges one table member rec inside)
          distinct := sound.distinct
          older := sound.older
          idle := idle
          flusher := job
          single := sound.single
          flag := sound.flag
          merges := sound.merges }

theorem sound_push (name : Bytes) (sst : SSTable) (sound : Sound serial db i log) (formed : sst.WellFormed)
    (ranges : serial → ∀ rec ∈ sst.records, InRange log rec) :
    Sound serial { db with sstables := ⟨db.nextId, name, 0, sst⟩ :: db.sstables, nextId := db.nextId + 1 } i log := by
  have fresh : ∀ table ∈ db.sstables, table.id ≠ db.nextId := fun table member =>
    Nat.ne_of_lt (sound.older table member)
  exact { sound with
          formed := List.forall_mem_cons.mpr ⟨formed, sound.formed⟩
          ranges := fun one => List.forall_mem_cons.mpr ⟨ranges one, sound.ranges one⟩
          distinct := by
            refine List.nodup_cons.mpr ⟨fun member => ?_, sound.distinct⟩
            obtain ⟨table, inside, same⟩ := List.mem_map.mp member
            exact fresh table inside same
          older := List.forall_mem_cons.mpr ⟨Nat.lt_succ_self _, fun table member =>
            Nat.lt_succ_of_lt (sound.older table member)⟩
          merges := fun job running => merge_sound_mono _ _ job (fun _ table member => List.mem_cons_of_mem _ member)
            (sound.merges job running) }

theorem flushed_table (later : ValueLog) (recs : List Record) (originals : List Record) (bytes : Bytes) (sst : SSTable)
    (ascending : Ascending Record.key originals) (shaped : ∀ rec ∈ originals, Shaped rec ∧ rec.separated = false)
    (separations : List.Forall₂ (Separation later) originals recs) (built : buildAndOpen cfg recs = .ok (bytes, sst)) :
    Represents sst recs ∧ sst.WellFormed ∧ ∀ rec ∈ sst.records, InRange later rec := by
  have fits : ∀ rec ∈ recs, Shaped rec := by
    intro rec member
    obtain ⟨original, inside, separation⟩ := forall_two_right _ originals recs separations rec member
    exact separation_shaped later original rec (shaped original inside).1 separation
  obtain ⟨represents, _⟩ := build_and_open_spec cfg recs bytes sst
    (separations_ascending later originals recs separations ascending) fits built
  refine ⟨represents, represents_well_formed sst recs represents, ?_⟩
  rw [represents_records sst recs represents]
  exact separations_in_range later originals recs separations (fun rec member => (shaped rec member).2)

theorem snapshot_table (table : Memtable) (later : ValueLog) (recs : List Record) (bytes : Bytes) (sst : SSTable)
    (separations : List.Forall₂ (Separation later) table.snapshot recs)
    (built : buildAndOpen cfg recs = .ok (bytes, sst)) :
    Represents sst recs ∧ sst.WellFormed ∧ ∀ rec ∈ sst.records, InRange later rec :=
  flushed_table cfg later recs table.snapshot bytes sst (snapshot_ascending table)
    (snapshot_shaped table) separations built

theorem sound_flushed (later : ValueLog) (recs : List Record) (ops : List DiskOp) (bytes : Bytes) (sst : SSTable)
    (sound : Sound serial db i log) (free : db.hasFlushing = false)
    (separated : separateAll cfg log db.memtable.snapshot = .ok (later, recs, ops))
    (built : buildAndOpen cfg recs = .ok (bytes, sst)) : Sound serial (flushedDb db i later sst) i later := by
  obtain ⟨appended, separations⟩ := separate_all_spec cfg log later _ recs ops sound.aligned separated
  obtain ⟨_, formed, ranges⟩ := snapshot_table cfg db.memtable later recs bytes sst separations built
  have grown := sound_log_set db i log later db.flusher sound appended.grows appended.aligned (sound.idle)
    (fun job running => by rw [sound.idle free] at running; cases running)
  have pushed := sound_push _ i later (sstName db.nextSeq) sst grown formed (fun _ => ranges)
  exact { pushed with }

theorem calm_no_jobs (sound : Sound serial db i log) (calm : db.compacting = false) : serial → inFlight db = [] := by
  intro one
  have flag := sound.flag one
  rw [calm] at flag
  simpa using flag

theorem sound_collected (existing : Bytes) (merged relocated : List Record) (opened later : ValueLog)
    (ops : List DiskOp) (bytes : Bytes) (sst : SSTable) (sound : Sound serial db i log) (free : db.hasFlushing = false)
    (noJobs : serial → inFlight db = []) (merges : mergeRecords (db.sstables.map Table.sst) true = .ok merged)
    (opens : openLog (vlogName (db.currentGen + 1)) (db.currentGen + 1) existing = .ok opened)
    (relocates : relocateAll db.logs db.vlogs opened merged = .ok (later, relocated, ops))
    (built : buildAndOpen cfg relocated = .ok (bytes, sst)) :
    Sound serial (collectedDb db later sst) db.logs.length later ∧ Represents sst relocated := by
  obtain ⟨shape, aligned⟩ := open_log_spec _ _ existing opened opens
  obtain ⟨appended, relocations⟩ :=
    relocate_all_spec db.logs db.vlogs opened later merged relocated ops aligned relocates
  obtain ⟨ascending, shaped, _⟩ := merged_records_fit db.sstables sound.formed true merged merges
  have fits : ∀ rec ∈ relocated, Shaped rec := by
    intro rec member
    obtain ⟨original, inside, relocation⟩ := forall_two_right _ merged relocated relocations rec member
    exact relocation_shaped _ _ later original rec (shaped original inside) relocation
  obtain ⟨represents, _⟩ := build_and_open_spec cfg relocated bytes sst
    (relocations_ascending _ _ later merged relocated relocations ascending) fits built
  have noFlusher := sound.idle free
  refine ⟨?_, represents⟩
  exact { vlogs := rfl
          object := by simp [collectedDb]
          gen := by rw [appended.grows.gen, shape]; rfl
          name := by rw [appended.grows.name, shape]; rfl
          aligned := appended.aligned
          small := by
            intro other member
            rcases List.mem_append.mp member with old | new
            · exact sound.small other old
            · rw [List.mem_singleton.mp new]
              exact appended.aligned.small
          formed := List.forall_mem_cons.mpr ⟨represents_well_formed sst relocated represents, by simp⟩
          ranges := by
            refine fun _ => List.forall_mem_cons.mpr ⟨?_, by simp⟩
            rw [represents_records sst relocated represents]
            intro rec member
            obtain ⟨original, _, relocation⟩ := forall_two_right _ merged relocated relocations rec member
            exact relocation_in_range _ _ later original rec relocation
          distinct := List.nodup_singleton _
          older := List.forall_mem_cons.mpr ⟨Nat.lt_succ_self _, by simp⟩
          idle := fun _ => noFlusher
          flusher := fun job running => by
            rw [show (collectedDb db later sst).flusher = db.flusher from rfl, noFlusher] at running
            cases running
          single := sound.single
          flag := sound.flag
          merges := fun job running => by
            refine { sound.merges job running with present := fun one => ?_ }
            rw [show inFlight (collectedDb db later sst) = inFlight db from rfl, noJobs one] at running
            cases running }

theorem sound_installed (worker : Worker) (job : MergeJob) (outputs : List (Bytes × SSTable))
    (sound : Sound serial db i log) (running : db.job worker = some job) (complete : job.built = some ([], outputs)) :
    Sound serial ({ installJob db job outputs with compacting := false }.endJob worker) i log := by
  have merge := sound.merges job (job_running db worker job running)
  obtain ⟨whole, good⟩ := built_outputs db.sstables job [] outputs merge complete
  obtain ⟨tables, eq, perm⟩ := install_job_spec db job outputs whole
  rw [eq]
  have origin : ∀ table ∈ tables, table ∈ db.sstables ∨ table ∈ outputTables db.nextId job.outputLevel outputs := by
    intro table member
    rcases List.mem_append.mp (perm.mem_iff.mp member) with kept | new
    · exact .inl (List.mem_filter.mp kept).1
    · exact .inr new
  have distinct : (tableIds tables).Nodup :=
    (perm.map Table.id).nodup_iff.mpr
      (installed_ids_nodup db.sstables db.nextId _ _ outputs sound.distinct sound.older)
  have left := ended_jobs db { db with sstables := tables, nextId := db.nextId + outputs.length, compacting := false }
    worker rfl rfl
  have nothing : serial → inFlight (db.endJob worker) = [] := fun one =>
    (only_job db worker job (sound.single one) running).2.2
  have formed : ∀ table ∈ tables, table.sst.WellFormed := by
    intro table member
    rcases origin table member with old | new
    · exact sound.formed table old
    · exact (good _ (output_tables_member _ _ _ table new).2.2.2).1
  have ranges : serial → ∀ table ∈ tables, ∀ rec ∈ table.sst.records, InRange log rec := by
    intro one table member rec inside
    rcases origin table member with old | new
    · exact sound.ranges one table old rec inside
    · obtain ⟨source, input, there⟩ := (good _ (output_tables_member _ _ _ table new).2.2.2).2 rec inside
      exact sound.ranges one source (merge.present one source input) rec there
  have older : ∀ table ∈ tables, table.id < db.nextId + outputs.length := by
    intro table member
    rcases origin table member with old | new
    · exact Nat.lt_add_right _ (sound.older table old)
    · exact (output_tables_member _ _ _ table new).2.1
  have others : ∀ other ∈ inFlight (db.endJob worker), MergeSound serial tables other := by
    intro other member
    refine { sound.merges other (end_job_members db worker job other running member) with present := fun one => ?_ }
    rw [nothing one] at member
    cases member
  cases worker <;>
    exact { sound with
            formed := formed, ranges := ranges, distinct := distinct, older := older
            single := fun one => by rw [left, nothing one]; simp
            flag := fun one => by rw [left, nothing one]; rfl
            merges := fun other member => others other (left ▸ member) }

theorem sound_snapshot (sound : Sound serial db i log) (has : db.hasFlushing = true) :
    Sound serial { db with flusher := some ⟨db.flushingSeq, i, db.flushingMemtable.snapshot, [], false, none⟩ } i
    log := by
  refine { sound with idle := fun free => ?_, flusher := fun job running => ?_ }
  · rw [show db.hasFlushing = false from free] at has
    cases has
  · cases running
    exact ⟨rfl, rfl, ⟨[], rfl, .nil⟩, by simp⟩

theorem sound_separated (job : FlushJob) (rec stored : Record) (rest : List Record) (current later : ValueLog)
    (ops : List DiskOp) (sound : Sound serial db i log) (running : db.flusher = some job) (unbuilt : job.built = none)
    (next : job.pending = rec :: rest) (object : db.logs[job.log]? = some current)
    (separates : separateRecord cfg current rec = .ok (later, stored, ops)) :
    current = log ∧ job.log = i ∧ Appended log later ops ∧ Separation later rec stored ∧
      Sound serial (separatedDb db job later rest stored (!ops.isEmpty)) i later := by
  have working := sound.flusher job running
  rw [working.target, sound.object] at object
  cases object
  obtain ⟨appended, separation⟩ := separate_record_spec cfg log later rec stored ops sound.aligned separates
  obtain ⟨originals, split, separations⟩ := working.progress
  refine ⟨rfl, working.target, appended, separation, ?_⟩
  have stepped : FlushSound db.flushingMemtable db.flushingSeq i later
      { job with pending := rest, finished := job.finished ++ [stored], written := job.written || !ops.isEmpty } := by
    refine ⟨working.reserved, working.target, ⟨originals ++ [rec], ?_, ?_⟩, ?_⟩
    · rw [split, next]
      simp
    · exact List.rel_append (separations_grow log later _ _ appended.grows separations) (.cons separation .nil)
    · intro io sst built
      rw [show job.built = some (io, sst) from built] at unbuilt
      cases unbuilt
  have grown := sound_log_set db i log later (some { job with
      pending := rest, finished := job.finished ++ [stored], written := job.written || !ops.isEmpty })
    sound appended.grows appended.aligned
    (fun free => by rw [sound.idle free] at running; cases running)
    (fun other eq => by cases eq; exact stepped)
  have place : db.logs.set i later = db.logs.set job.log later := by rw [working.target]
  rw [place] at grown
  exact grown

theorem sound_flusher (job next : FlushJob) (sound : Sound serial db i log) (running : db.flusher = some job)
    (works : FlushSound db.flushingMemtable db.flushingSeq i log next) :
    Sound serial { db with flusher := some next } i log := by
  refine { sound with idle := fun free => ?_, flusher := fun other eq => ?_ }
  · rw [sound.idle free] at running
    cases running
  · cases eq
    exact works

theorem sound_flush_built (job : FlushJob) (io : List DiskOp) (bytes : Bytes) (sst : SSTable)
    (sound : Sound serial db i log) (running : db.flusher = some job) (finished : job.pending = [])
    (built : buildAndOpen cfg job.finished = .ok (bytes, sst)) :
    Sound serial { db with flusher := some { job with built := some (io, sst) } } i log := by
  have working := sound.flusher job running
  obtain ⟨originals, split, separations⟩ := working.progress
  rw [finished, List.append_nil] at split
  obtain ⟨represents, _⟩ :=
    snapshot_table cfg db.flushingMemtable log job.finished bytes sst (split ▸ separations) built
  refine sound_flusher db i log job _ sound running
    ⟨working.reserved, working.target, working.progress, fun _ _ eq => ?_⟩
  cases eq
  exact ⟨finished, represents⟩

theorem published_table (job : FlushJob) (io : List DiskOp) (sst : SSTable) (sound : Sound serial db i log)
    (running : db.flusher = some job) (complete : job.built = some (io, sst)) :
    Represents sst job.finished ∧ List.Forall₂ (Separation log) db.flushingMemtable.snapshot job.finished := by
  have working := sound.flusher job running
  obtain ⟨finished, represents⟩ := working.built io sst complete
  obtain ⟨originals, split, separations⟩ := working.progress
  rw [finished, List.append_nil] at split
  exact ⟨represents, split ▸ separations⟩

theorem sound_published (job : FlushJob) (sst : SSTable) (sound : Sound serial db i log)
    (running : db.flusher = some job) (complete : job.built = some ([], sst)) :
    Sound serial (flusherPublish db job sst) i log := by
  obtain ⟨represents, separations⟩ := published_table db i log job [] sst sound running complete
  have ranges := separations_in_range log _ _ separations (fun rec member => (snapshot_shaped _ rec member).2)
  rw [← represents_records sst job.finished represents] at ranges
  have pushed :=
    sound_push db i log (sstName job.seq) sst sound (represents_well_formed sst _ represents) (fun _ => ranges)
  exact { pushed with idle := fun _ => rfl, flusher := fun _ eq => by cases eq }

theorem sound_started (next : DB) (job : MergeJob) (sound : Sound serial db i log) (seq : Nat)
    (fresh : FreshJob db.sstables job) (quiet : serial → inFlight db = [])
    (started : (db.compactor = none ∧ next = { db with nextSeq := seq, compacting := true, compactor := some job }) ∨
      next = { db with nextSeq := seq, compacting := true, callers := db.callers ++ [job] }) :
    Sound serial next i log := by
  have merge : MergeSound serial db.sstables job := fresh_job_sound db.sstables job fresh sound.formed
  have jobs : (inFlight next).Perm (job :: inFlight db) := by
    rcases started with ⟨noJob, rfl⟩ | rfl
    · simp [inFlight, noJob]
    · simp only [inFlight, ← List.append_assoc]
      exact List.perm_append_singleton _ _
  have single : serial → (inFlight next).length ≤ 1 := fun one => by rw [jobs.length_eq, quiet one]; simp
  have some : (inFlight next).isEmpty = false := by
    cases shape : inFlight next with
    | nil =>
        have none := jobs.length_eq
        simp [shape] at none
    | cons first rest => rfl
  have merges : ∀ other ∈ inFlight next, MergeSound serial db.sstables other := by
    intro other member
    rcases List.mem_cons.mp (jobs.mem_iff.mp member) with same | old
    · rw [same]
      exact merge
    · exact sound.merges other old
  rcases started with ⟨_, rfl⟩ | rfl <;>
    exact { sound with single := single, flag := fun _ => by rw [some]; rfl, merges := merges }

theorem sound_set_job (worker : Worker) (job next : MergeJob) (sound : Sound serial db i log)
    (running : db.job worker = some job) (merge : MergeSound serial db.sstables next) :
    Sound serial (db.setJob next worker) i log := by
  obtain ⟨before, after, jobs, set, _⟩ := job_split db worker job running
  have only := set next
  have single : serial → (inFlight (db.setJob next worker)).length ≤ 1 := by
    intro one
    have bound := sound.single one
    rw [jobs] at bound
    rw [only]
    simpa using bound
  have flag : serial → db.compacting = !(inFlight (db.setJob next worker)).isEmpty := by
    intro one
    rw [sound.flag one, jobs, only]
    cases before <;> rfl
  have merges : ∀ other ∈ inFlight (db.setJob next worker), MergeSound serial db.sstables other := by
    intro other member
    rcases set_job_members db worker job next other running member with same | old
    · rw [same]
      exact merge
    · exact sound.merges other old
  cases worker <;> exact { sound with single := single, flag := flag, merges := merges }

def Kind.Picks : Kind → Prop
  | .picked => True
  | .pickedAll => True
  | _ => False

theorem no_jobs (idle : inFlight db = []) : db.compactor = none ∧ db.callers = [] := by
  obtain ⟨noCompactor, noCallers⟩ := List.append_eq_nil_iff.mp idle
  exact ⟨by simpa using noCompactor, noCallers⟩

theorem merge_io_sound (tables : List Table) (job : MergeJob) (op : DiskOp) (rest : List DiskOp)
    (outputs : List (Bytes × SSTable)) (sound : MergeSound serial tables job)
    (building : job.built = some (op :: rest, outputs)) :
    MergeSound serial tables { job with built := some (rest, outputs) } := by
  obtain ⟨groups, grouped, represent⟩ := sound.built _ outputs building
  refine ⟨sound.present, sound.formed, sound.nonempty, fun none => ?_, sound.seqs, sound.merged, fun io others eq => ?_,
    fun io others eq => ?_⟩
  · rw [show job.groups = Option.none from none] at grouped
    cases grouped
  · cases eq
    exact ⟨groups, grouped, represent⟩
  · cases eq
    exact sound.named _ outputs building

theorem move_sound (kind : Kind) (next : DB) (ops : List DiskOp) (garbage : List Bytes) (sound : Sound serial db i log)
    (move : Move cfg found db kind next ops garbage) (calm : serial → kind.Picks → inFlight db = []) :
    ∃ j later, Sound serial next j later ∧ LogsGrow db.logs next.logs := by
  have refl := logs_grow_refl db.logs
  cases move with
  | rest => exact ⟨i, log, sound, refl⟩
  | wrote write bytes sync encoded => exact ⟨i, log, { sound with }, refl⟩
  | waits waiters => exact ⟨i, log, { sound with }, refl⟩
  | bloom on => exact ⟨i, log, { sound with }, refl⟩
  | synced => exact ⟨i, log, sound, refl⟩
  | sealed filled free =>
      have noFlusher := sound.idle free
      refine ⟨i, log, { sound with idle := fun _ => noFlusher, flusher := fun job running => ?_ }, refl⟩
      rw [show (sealedDb db).flusher = db.flusher from rfl, noFlusher] at running
      cases running
  | flushed k current later recs vlogOps bytes sst filled free index object separated built =>
      obtain ⟨rfl, rfl⟩ := sound_current db i log sound k current index object
      obtain ⟨appended, _⟩ := separate_all_spec cfg _ later _ recs vlogOps sound.aligned separated
      exact ⟨i, later, sound_flushed cfg db i _ later recs vlogOps bytes sst sound free separated built,
        logs_grow_set db.logs i _ later sound.object appended.grows⟩
  | collected merged relocated opened later vlogOps bytes sst free quiet flushed merges opens relocates built =>
      exact ⟨db.logs.length, later, (sound_collected cfg db i log found merged relocated opened later vlogOps bytes sst
        sound free (calm_no_jobs db i log sound quiet) merges opens relocates built).1, logs_grow_append db.logs later⟩
  | snapshot k has noJob index =>
      obtain ⟨here, _⟩ := sound_index db i log sound
      rw [here] at index
      cases index
      exact ⟨i, log, sound_snapshot db i log sound has, refl⟩
  | separated job rec stored rest current later io running unbuilt next object separates =>
      obtain ⟨_, target, appended, _, moved⟩ :=
        sound_separated cfg db i log job rec stored rest current later _ sound running
        unbuilt next object separates
      have grown := logs_grow_set db.logs i log later sound.object appended.grows
      rw [← target] at grown
      exact ⟨i, later, moved, grown⟩
  | flushBuilt job current bytes sst running unbuilt finished object built =>
      exact ⟨i, log, sound_flush_built cfg db i log job _ bytes sst sound running finished built, refl⟩
  | flushIo job op rest sst running building =>
      have working := sound.flusher job running
      refine ⟨i, log, sound_flusher db i log job _ sound running
        ⟨working.reserved, working.target, working.progress, fun io table eq => ?_⟩, refl⟩
      cases eq
      exact working.built _ sst building
  | published job sst running complete => exact ⟨i, log, sound_published db i log job sst sound running complete, refl⟩
  | picked picked job noJob picks =>
      obtain ⟨⟨seq, rfl, _⟩, fresh⟩ := pick_job_fresh cfg db picked job picks
      exact ⟨i, log, sound_started db i log _ job sound seq fresh (fun one => calm one trivial) (.inl ⟨noJob, rfl⟩),
        refl⟩
  | pickedAll many =>
      exact ⟨i, log, sound_started db i log _ _ sound (db.nextSeq + 1) (pick_all_fresh db many)
        (fun one => calm one trivial) (.inr rfl), refl⟩
  | merged worker job next running unmerged merges =>
      have merge := sound.merges job (job_running db worker job running)
      have stepped := (run_merge_sound cfg db.sstables job next merge unmerged merges).1
      refine ⟨i, log, sound_set_job db i log worker job next sound running stepped, ?_⟩
      cases worker <;> exact refl
  | reserved job next groups running grouped unbuilt builds =>
      have merge := sound.merges job (job_running db .compactor job running)
      have stepped := (reserve_merge_sound cfg db.sstables job next _ groups merge grouped (by simp) builds).1
      exact ⟨i, log, { sound_set_job db i log .compactor job next sound running stepped with }, refl⟩
  | mergeIo worker job op rest outputs running building =>
      have merge := sound.merges job (job_running db worker job running)
      refine ⟨i, log, sound_set_job db i log worker job _ sound running
        (merge_io_sound db.sstables job op rest outputs merge building), ?_⟩
      cases worker <;> exact refl
  | installed worker job outputs running complete =>
      have merge := sound.merges job (job_running db worker job running)
      obtain ⟨whole, _⟩ := built_outputs db.sstables job [] outputs merge complete
      obtain ⟨tables, eq, _⟩ := install_job_spec db job outputs whole
      refine ⟨i, log, sound_installed db i log worker job outputs sound running complete, ?_⟩
      rw [eq]
      cases worker <;> exact refl

theorem fresh_sound : Sound serial DB.fresh 0 (ValueLog.opened (vlogName 0) 0 []) := by
  have aligned : (ValueLog.opened (vlogName 0) 0 []).Aligned := ⟨rfl, by decide⟩
  exact { vlogs := rfl, object := rfl, gen := rfl, name := rfl, aligned := aligned
          small := fun log member => by rw [List.mem_singleton.mp member]; exact aligned.small
          formed := by simp [DB.fresh]
          ranges := fun _ => by simp [DB.fresh]
          distinct := List.nodup_nil
          older := by simp [DB.fresh]
          idle := fun _ => rfl
          flusher := fun job running => by cases running
          single := fun _ => by simp [inFlight, DB.fresh]
          flag := fun _ => rfl
          merges := by simp [inFlight, DB.fresh] }

end Tombstash
