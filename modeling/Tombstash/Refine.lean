import Tombstash.Install

set_option autoImplicit false

namespace Tombstash

variable {found : Bytes}

-- The writes of a history by where they are: in tables, in the sealed
-- memtable and in the active one.
structure Split where
  done : List Write
  sealed : List Write
  active : List Write

def Split.all (split : Split) : List Write := split.done ++ split.sealed ++ split.active

-- Where the writes are after a move.
def Kind.shift : Kind → Split → Split
  | .wrote write _, split => { split with active := split.active ++ [write] }
  | .sealed, split => ⟨split.done, split.active, []⟩
  | .flushed, split => ⟨split.done ++ split.active, [], []⟩
  | .published, split => ⟨split.done ++ split.sealed, [], split.active⟩
  | _, split => split

theorem sound_grows {serial : Prop} (db next : DB) (i j : Nat) (log later : ValueLog) (sound : Sound serial db i log)
    (soundNext : Sound serial next j later) (grow : LogsGrow db.logs next.logs) (same : next.vlogs = db.vlogs) :
    Grows log later := by
  have index : i = j := by
    have entries := sound.vlogs.symm.trans (same.symm.trans soundNext.vlogs)
    simp only [List.cons.injEq, Prod.mk.injEq, and_true] at entries
    exact entries.2
  obtain ⟨grown, present, grows⟩ := grow i log sound.object
  rw [index, soundNext.object] at present
  cases present
  exact grows

section Histories

variable (db next : DB) (log later : ValueLog) (done sealed active : List Write) (stamp : Nat → Layer Bytes)

theorem hist_same (hist : Hist db log done sealed active stamp) (grows : Grows log later)
    (memtable : next.memtable = db.memtable) (flushing : next.flushingMemtable = db.flushingMemtable)
    (slot : next.hasFlushing = db.hasFlushing) (tables : next.sstables = db.sstables) :
    Hist next later done sealed active stamp :=
  { memtable := memtable.trans hist.memtable
    flushing := flushing.trans hist.flushing
    free := fun free => hist.free (slot.symm.trans free)
    faithful := by rw [tables]; exact hist.faithful
    stamped := by
      rw [tables]
      exact fun table member => answers_grows log later done _ _ grows (hist.stamped table member) }

def pushStamp (id : Nat) (layer : Layer Bytes) : Nat → Layer Bytes := fun n => if n = id then layer else stamp n

theorem push_stamp_old (id : Nat) (layer : Layer Bytes) (tables : List Table)
    (older : ∀ table ∈ tables, table.id < id) :
    ∀ table ∈ tables, pushStamp stamp id layer table.id = stamp table.id := by
  intro table member
  rw [pushStamp, if_neg (Nat.ne_of_lt (older table member))]

theorem push_faithful (batch : List Write) (table : Table) (tables : List Table)
    (faithful : Faithful done (layersOf stamp tables)) (older : ∀ other ∈ tables, other.id < table.id) :
    Faithful (done ++ batch)
      (layersOf (pushStamp stamp table.id (batchLayer done.length batch)) (table :: tables)) := by
  have layers : layersOf (pushStamp stamp table.id (batchLayer done.length batch)) (table :: tables) =
      batchLayer done.length batch :: layersOf stamp tables := by
    rw [layersOf, List.map_cons, pushStamp, if_pos rfl, layersOf, List.cons.injEq]
    refine ⟨rfl, List.map_inj_left.mpr ?_⟩
    exact push_stamp_old stamp table.id _ tables older
  rw [layers]
  exact faithful_batch done batch _ faithful

theorem push_stamped (batch : List Write) (table : Table) (tables : List Table) (records : List Record)
    (stamped : ∀ other ∈ tables, Stamped log done (stamp other.id) other.sst.records) (grows : Grows log later)
    (older : ∀ other ∈ tables, other.id < table.id) (same : table.sst.records = records)
    (separations : List.Forall₂ (Separation later) (memOf batch).snapshot records) :
    ∀ other ∈ table :: tables, Stamped later (done ++ batch)
      (pushStamp stamp table.id (batchLayer done.length batch) other.id) other.sst.records := by
  refine List.forall_mem_cons.mpr ⟨?_, fun other member => ?_⟩
  · rw [pushStamp, if_pos rfl, same]
    exact answers_batch later done batch records separations
  · rw [push_stamp_old stamp table.id _ tables older other member]
    exact answers_append later done batch _ _ (answers_grows log later done _ _ grows (stamped other member))

variable (i : Nat)

theorem hist_flushed (cfg : Config) (recs : List Record) (ops : List DiskOp) (bytes : Bytes) (sst : SSTable)
    (sound : Sound True db i log) (hist : Hist db log done sealed active stamp) (free : db.hasFlushing = false)
    (separated : separateAll cfg log db.memtable.snapshot = .ok (later, recs, ops))
    (built : buildAndOpen cfg recs = .ok (bytes, sst)) :
    Hist (flushedDb db i later sst) later (done ++ active) [] []
      (pushStamp stamp db.nextId (batchLayer done.length active)) := by
  obtain ⟨appended, separations⟩ := separate_all_spec cfg log later _ recs ops sound.aligned separated
  obtain ⟨represents, _⟩ := snapshot_table cfg db.memtable later recs bytes sst separations built
  rw [hist.memtable] at separations
  refine ⟨rfl, ?_, fun _ => rfl, ?_, ?_⟩
  · rw [show (flushedDb db i later sst).flushingMemtable = db.flushingMemtable from rfl, hist.flushing, hist.free free]
  · exact push_faithful done stamp active ⟨db.nextId, _, 0, sst⟩ db.sstables hist.faithful sound.older
  · exact push_stamped log later done stamp active ⟨db.nextId, _, 0, sst⟩ db.sstables recs hist.stamped appended.grows
      sound.older (represents_records sst recs represents) separations

theorem hist_published (job : FlushJob) (sst : SSTable) (sound : Sound True db i log)
    (hist : Hist db log done sealed active stamp) (running : db.flusher = some job)
    (complete : job.built = some ([], sst)) :
    Hist (flusherPublish db job sst) log (done ++ sealed) [] active
      (pushStamp stamp db.nextId (batchLayer done.length sealed)) := by
  obtain ⟨represents, separations⟩ := published_table db i log job [] sst sound running complete
  rw [hist.flushing] at separations
  refine ⟨hist.memtable, rfl, fun _ => rfl, ?_, ?_⟩
  · exact push_faithful done stamp sealed ⟨db.nextId, _, 0, sst⟩ db.sstables hist.faithful sound.older
  · exact push_stamped log log done stamp sealed ⟨db.nextId, _, 0, sst⟩ db.sstables job.finished hist.stamped
      (grows_refl log) sound.older (represents_records sst job.finished represents) separations

theorem hist_collected (cfg : Config) (existing : Bytes) (merged relocated : List Record) (opened : ValueLog)
    (ops : List DiskOp) (bytes : Bytes) (sst : SSTable) (sound : Sound True db i log)
    (hist : Hist db log done sealed active stamp) (free : db.hasFlushing = false) (calm : db.compacting = false)
    (merges : mergeRecords (db.sstables.map Table.sst) true = .ok merged)
    (opens : openLog (vlogName (db.currentGen + 1)) (db.currentGen + 1) existing = .ok opened)
    (relocates : relocateAll db.logs db.vlogs opened merged = .ok (later, relocated, ops))
    (built : buildAndOpen cfg relocated = .ok (bytes, sst)) :
    Hist (collectedDb db later sst) later done sealed active (mergedStamp stamp db.nextId db.sstables [merged]) := by
  obtain ⟨_, represents⟩ := sound_collected cfg db i log existing merged relocated opened later ops bytes sst sound free
    (calm_no_jobs db i log sound calm) merges opens relocates built
  obtain ⟨_, aligned⟩ := open_log_spec _ _ existing opened opens
  obtain ⟨_, relocations⟩ := relocate_all_spec db.logs db.vlogs opened later merged relocated ops aligned relocates
  obtain ⟨records, same, _, _, answers⟩ := merge_tables_spec db.sstables sound.formed true
  rw [merges] at same
  cases same
  have finds : (fun key => findKey Record.key key merged) =
      fun key => (firstMatch Record.key key (tableRuns db.sstables)).filter (keptBy true) := funext answers
  have tables := answers_tables log done stamp db.sstables hist.stamped
  have output : mergedStamp stamp db.nextId db.sstables [merged] db.nextId = mergedLayer stamp db.sstables merged := by
    simp [mergedStamp]
  refine ⟨hist.memtable, hist.flushing, hist.free, ?_, ?_⟩
  · have whole := faithful_segment done [] (layersOf stamp db.sstables) [] (mergedLayer stamp db.sstables merged) true
      (by simpa using hist.faithful)
      (by rw [mergedLayer, finds]; exact filter_merges log done _ _ true tables) (fun _ => rfl)
    simpa [layersOf, collectedDb, output] using whole
  · refine List.forall_mem_cons.mpr ⟨?_, by simp⟩
    simp only [output, represents_records sst relocated represents]
    have object : lookupLog db.logs db.vlogs log.gen = some log := by
      rw [sound.gen]
      exact (sound_index db i log sound).2
    refine answers_relocated db.logs db.vlogs log later done _ merged relocated object
      sound.aligned.small relocations ?_
    refine answers_restrict log done _ _ _ tables (fun key rec found => ?_)
    have hit := answers key
    rw [show findKey Record.key key merged = some rec from found] at hit
    exact (Option.filter_eq_some_iff.mp hit.symm).1

theorem hist_installed (worker : Worker) (job : MergeJob) (outputs : List (Bytes × SSTable))
    (sound : Sound True db i log) (hist : Hist db log done sealed active stamp) (running : db.job worker = some job)
    (complete : job.built = some ([], outputs)) (placed : Placed db.sstables job) :
    ∃ groups, Hist ({ installJob db job outputs with compacting := false }.endJob worker) log done sealed active
      (mergedStamp stamp db.nextId job.inputs groups) := by
  have merge := sound.merges job (by simp [(only_job db worker job (sound.single trivial) running).1])
  obtain ⟨whole, _⟩ := built_outputs db.sstables job [] outputs merge complete
  obtain ⟨groups, finished⟩ :=
    finished_merge log done stamp db.sstables job [] outputs merge sound.formed complete hist.stamped
  obtain ⟨tables, eq, perm⟩ := install_job_spec db job outputs whole
  refine ⟨groups, ?_⟩
  have faithful :
    Faithful done (layersOf (mergedStamp stamp db.nextId job.inputs groups) (installJob db job outputs).sstables) := by
    by_cases leveled : job.leveled = true
    · have shape : (installJob db job outputs).sstables =
          reorderSstables (db.sstables.filter (notAmong (tableIds job.inputs)) ++
            outputTables db.nextId job.destLevel outputs) := by
        unfold installJob
        rw [if_pos leveled]
        rfl
      rw [shape]
      exact leveled_install_faithful log done stamp db.sstables db.nextId job outputs groups hist.faithful sound.formed
        hist.stamped sound.older (placed.leveled leveled) finished job.destLevel rfl sound.distinct
    · have tiered : job.leveled = false := Bool.eq_false_iff.mpr leveled
      obtain ⟨⟨name, sst⟩, rfl⟩ := whole tiered
      obtain ⟨records, rfl⟩ := finished.whole tiered
      have shape : (installJob db job [(name, sst)]).sstables =
          replaceInputs (tableIds job.inputs) ⟨db.nextId, name, 0, sst⟩ false db.sstables := by
        unfold installJob
        rw [if_neg leveled]
        rfl
      rw [shape]
      exact tiered_install_faithful done stamp db.sstables db.nextId job name sst records hist.faithful sound.distinct
        sound.older merge.nonempty (placed.tiered tiered) (by simpa using finished.merges)
  have stamped : ∀ table ∈ tables, Stamped log done (mergedStamp stamp db.nextId job.inputs groups table.id)
      table.sst.records := by
    intro table member
    rcases List.mem_append.mp (perm.mem_iff.mp member) with kept | new
    · obtain ⟨present, _, old⟩ := kept_member stamp db.sstables db.nextId job groups sound.older table kept
      rw [old]
      exact hist.stamped table present
    · obtain ⟨k, group, atK, _, records, new⟩ :=
        merged_stamp_output stamp db.nextId job.inputs groups job.outputLevel outputs
        finished.represent table new
      rw [new, records]
      exact finished.stamped group (List.mem_of_getElem? atK)
  rw [eq] at faithful ⊢
  cases worker <;> exact ⟨hist.memtable, hist.flushing, hist.free, faithful, stamped⟩

theorem move_hist (cfg : Config) (kind : Kind) (ops : List DiskOp) (garbage : List Bytes) (j : Nat)
    (sound : Sound True db i log) (hist : Hist db log done sealed active stamp)
    (placed : ∀ job ∈ inFlight db, Placed db.sstables job) (move : Move cfg found db kind next ops garbage)
    (soundNext : Sound True next j later) (grow : LogsGrow db.logs next.logs) :
    (∃ stamp', Hist next later (kind.shift ⟨done, sealed, active⟩).done (kind.shift ⟨done, sealed, active⟩).sealed
        (kind.shift ⟨done, sealed, active⟩).active stamp') ∧
      (kind.shift ⟨done, sealed, active⟩).all = done ++ sealed ++ active ++ kind.writes := by
  -- All moves but the seal, the flushes, gc and the installs leave the data
  -- where it is; stays is for them.
  have stays : next.vlogs = db.vlogs → next.memtable = db.memtable → next.flushingMemtable = db.flushingMemtable →
      next.hasFlushing = db.hasFlushing → next.sstables = db.sstables →
      ∃ stamp', Hist next later done sealed active stamp' := by
    intro vlogs memtable flushing slot tables
    have grows := sound_grows db next i j log later sound soundNext grow vlogs
    exact ⟨stamp, hist_same db next log later done sealed active stamp hist grows memtable flushing slot tables⟩
  have whole : done ++ sealed ++ active = done ++ sealed ++ active ++ [] := by simp
  cases move with
  | rest => exact ⟨stays rfl rfl rfl rfl rfl, whole⟩
  | waits waiters => exact ⟨stays rfl rfl rfl rfl rfl, whole⟩
  | bloom on => exact ⟨stays rfl rfl rfl rfl rfl, whole⟩
  | synced => exact ⟨stays rfl rfl rfl rfl rfl, whole⟩
  | snapshot k has noJob index => exact ⟨stays rfl rfl rfl rfl rfl, whole⟩
  | separated job rec stored rest current grown io running unbuilt next object separates =>
      exact ⟨stays rfl rfl rfl rfl rfl, whole⟩
  | flushBuilt job current bytes sst running unbuilt finished object built => exact ⟨stays rfl rfl rfl rfl rfl, whole⟩
  | flushIo job op rest sst running building => exact ⟨stays rfl rfl rfl rfl rfl, whole⟩
  | picked picked job noJob picks =>
      obtain ⟨⟨seq, rfl, _⟩, _⟩ := pick_job_fresh cfg db picked job picks
      exact ⟨stays rfl rfl rfl rfl rfl, whole⟩
  | pickedAll many => exact ⟨stays rfl rfl rfl rfl rfl, whole⟩
  | merged worker job next running unmerged merges => cases worker <;> exact ⟨stays rfl rfl rfl rfl rfl, whole⟩
  | reserved job next groups running grouped unbuilt builds => exact ⟨stays rfl rfl rfl rfl rfl, whole⟩
  | mergeIo worker job op rest outputs running building => cases worker <;> exact ⟨stays rfl rfl rfl rfl rfl, whole⟩
  | wrote write bytes sync encoded =>
      have grows := sound_grows db _ i j log later sound soundNext grow rfl
      refine ⟨⟨stamp, ?_⟩, by simp [Kind.writes, Kind.shift, Split.all]⟩
      have same := hist_same db db log later done sealed active stamp hist grows rfl rfl rfl rfl
      exact { same with memtable := by rw [Kind.shift, mem_of_append, ← hist.memtable] }
  | sealed filled free =>
      have grows := sound_grows db _ i j log later sound soundNext grow rfl
      refine ⟨⟨stamp, ?_⟩, by simp [Kind.writes, Kind.shift, Split.all, hist.free free]⟩
      have same := hist_same db db log later done sealed active stamp hist grows rfl rfl rfl rfl
      exact { same with memtable := rfl, flushing := hist.memtable, free := fun no => by cases no }
  | flushed k current grown recs vlogOps bytes sst filled free index object separated built =>
      obtain ⟨rfl, rfl⟩ := sound_current db i log sound k current index object
      have grownSound := sound_flushed cfg db i _ grown recs vlogOps bytes sst sound free separated built
      obtain ⟨rfl, rfl⟩ := sound_unique _ i j grown later grownSound soundNext
      exact ⟨⟨_, hist_flushed db _ grown done sealed active stamp i cfg recs vlogOps bytes sst sound hist free
        separated built⟩, by simp [Kind.writes, Kind.shift, Split.all, hist.free free]⟩
  | collected merged relocated opened grown vlogOps bytes sst free quiet flushed merges opens relocates built =>
      obtain ⟨grownSound, _⟩ := sound_collected cfg db i log found merged relocated opened grown vlogOps bytes sst sound
        free (calm_no_jobs db i log sound quiet) merges opens relocates built
      obtain ⟨rfl, rfl⟩ := sound_unique _ _ j grown later grownSound soundNext
      exact ⟨⟨_, hist_collected db log grown done sealed active stamp i cfg found merged relocated opened vlogOps
        bytes sst sound hist free quiet merges opens relocates built⟩, whole⟩
  | published job sst running complete =>
      obtain ⟨rfl, rfl⟩ :=
        sound_unique _ i j log later (sound_published db i log job sst sound running complete) soundNext
      exact ⟨⟨_, hist_published db log done sealed active stamp i job sst sound hist running complete⟩,
        by simp [Kind.writes, Kind.shift, Split.all]⟩
  | installed worker job outputs running complete =>
      obtain ⟨rfl, rfl⟩ := sound_unique _ i j log later
        (sound_installed db i log worker job outputs sound running complete) soundNext
      have alone := (only_job db worker job (sound.single trivial) running).1
      obtain ⟨groups, installed⟩ :=
        hist_installed db log done sealed active stamp i worker job outputs sound hist running
        complete (placed job (by simp [alone]))
      exact ⟨⟨_, installed⟩, whole⟩

end Histories

end Tombstash
