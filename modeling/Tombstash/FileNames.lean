import Tombstash.Touches

set_option autoImplicit false

namespace Tombstash

variable {found : Bytes}

-- "sst-*.sst"
def IsTable (name : Bytes) : Prop := nameKind name = (some 0x73, some 0x2d, some 0x74)

instance (name : Bytes) : Decidable (IsTable name) := inferInstanceAs (Decidable (_ = _))

-- "v*", of a length that a directory entry may have.
def LogName (name : Bytes) : Prop := name[0]? = some 0x76 ∧ name.length < 2 ^ 32

theorem sst_is_table (seq : Nat) : IsTable (sstName seq) := kind_sst seq

theorem tmp_not_table (seq : Nat) : ¬ IsTable (tmpName (sstName seq)) := by
  rw [IsTable, kind_sst_tmp]
  decide

theorem table_first (name : Bytes) (table : IsTable name) : name[0]? = some 0x73 := congrArg Prod.fst table

theorem log_not_table (name : Bytes) (log : LogName name) : ¬ IsTable name := fun table =>
  absurd (log.1.symm.trans (table_first name table)) (by decide)

theorem other_not_table (name : Bytes) (other : name ∈ otherFiles) : ¬ IsTable name := fun table =>
  (other_first name other).1 (table_first name table)

theorem vlog_log_name (gen : UInt32) : LogName (vlogName gen) :=
  ⟨vlog_first gen, Nat.lt_of_le_of_lt (length_vlog_name gen) (by decide)⟩

-- The table names that a step renames a file to.
def installed : DiskOp → Option Bytes
  | .rename _ target => if IsTable target then some target else none
  | _ => none

def installs (ops : List DiskOp) : List Bytes := ops.filterMap installed

-- Steps that write the tables of some numbers, next to value logs and some
-- other files. A table gets its name by a rename and in no other way.
structure WritesTables (others : List Bytes) (seqs : List Nat) (ops : List DiskOp) : Prop where
  installs : (installs ops).Sublist (seqs.map sstName)
  renames : ∀ op ∈ ops, ∀ name ∈ op.touches, IsTable name → installed op = some name
  touches : ∀ op ∈ ops, ∀ name ∈ op.touches, name ∈ seqs.flatMap tableFiles ∨ LogName name ∨ name ∈ others

section Writes

variable (others : List Bytes) (seqs more : List Nat) (ops back : List DiskOp)

theorem writes_append (first : WritesTables others seqs ops) (second : WritesTables others more back) :
    WritesTables others (seqs ++ more) (ops ++ back) := by
  refine ⟨?_, fun op member => ?_, fun op member name touched => ?_⟩
  · rw [installs, List.filterMap_append, List.map_append]
    exact first.installs.append second.installs
  · exact (List.mem_append.mp member).elim (first.renames op) (second.renames op)
  · rw [List.flatMap_append, List.mem_append]
    rcases List.mem_append.mp member with early | late
    · exact (first.touches op early name touched).imp .inl id
    · exact (second.touches op late name touched).imp .inr id

theorem writes_part (part : List DiskOp) (inside : part.Sublist ops) (writes : WritesTables others seqs ops) :
    WritesTables others seqs part :=
  ⟨(inside.filterMap installed).trans writes.installs, fun op member => writes.renames op (inside.subset member),
    fun op member => writes.touches op (inside.subset member)⟩

theorem writes_tail (op : DiskOp) (writes : WritesTables others seqs (op :: ops)) : WritesTables others seqs ops :=
  writes_part others seqs _ ops (List.sublist_cons_self op ops) writes

theorem writes_within (wider : seqs.Sublist more) (writes : WritesTables others seqs ops) :
    WritesTables others more ops := by
  refine ⟨writes.installs.trans (wider.map sstName), writes.renames, fun op member name touched => ?_⟩
  refine (writes.touches op member name touched).imp (fun file => ?_) id
  obtain ⟨seq, inside, there⟩ := List.mem_flatMap.mp file
  exact List.mem_flatMap.mpr ⟨seq, wider.subset inside, there⟩

theorem writes_apart (apart : ∀ op ∈ ops, ∀ name ∈ op.touches, LogName name ∨ name ∈ others)
    (strange : ∀ name ∈ others, ¬ IsTable name) : WritesTables others [] ops := by
  have away : ∀ op ∈ ops, ∀ name ∈ op.touches, ¬ IsTable name := fun op member name touched =>
    (apart op member name touched).elim (log_not_table name) (strange name)
  refine ⟨?_, fun op member name touched table => absurd table (away op member name touched),
    fun op member name touched => .inr (apart op member name touched)⟩
  have none : installs ops = [] := by
    refine List.filterMap_eq_nil_iff.mpr (fun op member => ?_)
    cases op with
    | rename source target => exact if_neg (away _ member target (by simp [FsOp.touches]))
    | _ => rfl
  rw [none]
  exact List.nil_sublist _

theorem writes_sync : WritesTables others [] [.fsyncDir] :=
  ⟨List.nil_sublist _, by simp [FsOp.touches], by simp [FsOp.touches]⟩

theorem writes_table (seq : Nat) (bytes : Bytes) : WritesTables others [seq] (writeTable (sstName seq) bytes) := by
  refine ⟨?_, fun op member name touched table => ?_, fun op member name touched => .inl ?_⟩
  · have only : Tombstash.installs (writeTable (sstName seq) bytes) = [sstName seq] := by
      simp [Tombstash.installs, writeTable, List.filterMap_cons, installed, sst_is_table]
    rw [only]
    exact List.Sublist.refl _
  · simp only [writeTable, List.mem_cons, List.not_mem_nil, or_false] at member
    rcases member with rfl | rfl | rfl | rfl
    · exact absurd (List.mem_singleton.mp touched ▸ table) (tmp_not_table seq)
    · exact absurd (List.mem_singleton.mp touched ▸ table) (tmp_not_table seq)
    · exact absurd (List.mem_singleton.mp touched ▸ table) (tmp_not_table seq)
    · simp only [FsOp.touches, List.mem_cons, List.not_mem_nil, or_false] at touched
      rcases touched with rfl | rfl
      · exact absurd table (tmp_not_table seq)
      · exact if_pos table
  · rw [List.flatMap_singleton]
    exact write_ops_touches seq bytes op (List.mem_append_left _ member) name touched

theorem writes_log (log later : ValueLog) (named : LogName log.name) (appended : Appended log later ops)
    (strange : ∀ name ∈ others, ¬ IsTable name) : WritesTables others [] ops := by
  refine writes_apart others ops (fun op member name touched => .inl ?_) strange
  rw [appended.touches op member, List.mem_singleton] at touched
  rw [touched]
  exact named

theorem writes_one_log (log : Bytes) (named : LogName log) (op : DiskOp) (touches : op.touches = [log])
    (strange : ∀ name ∈ others, ¬ IsTable name) : WritesTables others [] [op] := by
  refine writes_apart others _ (fun one member name touched => .inl ?_) strange
  rw [List.mem_singleton.mp member, touches, List.mem_singleton] at touched
  rw [touched]
  exact named

end Writes

-- The steps of a section: the new table, if there is one, the commit, if there
-- is one, and the write-ahead logs.
def SectionOps (next : DB) (seqs : List Nat) (ops : List DiskOp) : Prop :=
  ∃ front commit back, ops = front ++ commit ++ back ∧ WritesTables [] seqs front ∧
    (commit = [] ∨ commit = writeManifestLocked next) ∧ ∀ op ∈ back, ∀ name ∈ op.touches, name ∈ walFiles

theorem writes_more (others more : List Bytes) (seqs : List Nat) (ops : List DiskOp)
    (writes : WritesTables others seqs ops) (wider : ∀ name ∈ others, name ∈ more) : WritesTables more seqs ops :=
  ⟨writes.installs, writes.renames, fun op member name touched =>
    (writes.touches op member name touched).imp id (Or.imp id (wider name))⟩

theorem writes_others (ops : List DiskOp) (apart : ∀ op ∈ ops, ∀ name ∈ op.touches, name ∈ otherFiles) :
    WritesTables otherFiles [] ops :=
  writes_apart otherFiles ops (fun op member name touched => .inr (apart op member name touched)) other_not_table

theorem manifest_others (m : ManifestData) : ∀ op ∈ manifestOps m, ∀ name ∈ op.touches, name ∈ otherFiles := by
  intro op member name touched
  rcases manifest_files m op member name touched with rfl | rfl
  · decide
  · decide

theorem section_writes (next : DB) (seqs : List Nat) (ops : List DiskOp) (shape : SectionOps next seqs ops) :
    WritesTables otherFiles seqs ops := by
  obtain ⟨front, commit, back, rfl, writes, commits, wal⟩ := shape
  have first := writes_more [] otherFiles seqs front writes (by simp)
  have manifest : WritesTables otherFiles [] commit := by
    rcases commits with rfl | rfl
    · exact ⟨List.nil_sublist _, by simp, by simp⟩
    · exact writes_others _ (manifest_others _)
  have last := writes_others back (fun op member name touched => List.mem_append_left _ (wal op member name touched))
  have whole := writes_append otherFiles _ [] _ _ (writes_append otherFiles seqs [] _ _ first manifest) last
  rw [List.append_nil, List.append_nil] at whole
  exact whole

theorem installed_touches (op : DiskOp) (name : Bytes) (found : installed op = some name) :
    name ∈ op.touches ∧ IsTable name := by
  cases op with
  | rename source target =>
      simp only [installed] at found
      split at found
      · next table =>
          cases found
          exact ⟨by simp [FsOp.touches], table⟩
      · cases found
  | _ => cases found

theorem installs_member (others : List Bytes) (seqs : List Nat) (ops : List DiskOp)
    (writes : WritesTables others seqs ops) (op : DiskOp) (member : op ∈ ops) (name : Bytes)
    (touched : name ∈ op.touches) (table : IsTable name) :
    name ∈ installs ops :=
  List.mem_filterMap.mpr ⟨op, member, writes.renames op member name touched table⟩

theorem build_groups_writes (cfg : Config) (seqs : List Nat) (groups : List (List Record)) (ops : List DiskOp)
    (outputs : List (Bytes × SSTable)) (done : buildGroups cfg seqs groups = .ok (ops, outputs)) :
    WritesTables [] seqs ops ∧ (seqs.length = groups.length → outputs.map Prod.fst = seqs.map sstName) := by
  have nothing : ∀ more : List Nat, WritesTables [] more [] := fun more => ⟨List.nil_sublist _, by simp, by simp⟩
  induction groups generalizing seqs ops outputs with
  | nil =>
      cases seqs with
      | nil =>
          cases done
          exact ⟨nothing [], fun _ => rfl⟩
      | cons seq seqs =>
          cases done
          exact ⟨nothing _, fun same => by simp at same⟩
  | cons group groups ih =>
      cases seqs with
      | nil =>
          cases done
          exact ⟨nothing [], fun same => by simp at same⟩
      | cons seq seqs =>
          rw [buildGroups] at done
          obtain ⟨table, built, done⟩ := bind_returns _ _ _ done
          obtain ⟨⟨others, rest⟩, later, done⟩ := bind_returns _ _ _ done
          cases done
          obtain ⟨writes, names⟩ := ih seqs others rest later
          refine ⟨writes_append [] [seq] seqs _ _ (writes_table [] seq _) writes, fun same => ?_⟩
          simp [names (by simpa using same)]

-- What workers have built or have yet to build.
structure WorkFiles (db : DB) : Prop where
  named : WorkNamed db
  flush : ∀ job, db.flusher = some job → ∀ io sst, job.built = some (io, sst) → WritesTables [] [job.seq] io
  merges : ∀ job ∈ inFlight db, ∀ io outputs, job.built = some (io, outputs) → WritesTables [] job.seqs io
  waiting : ∀ job ∈ inFlight db, job.groups = none → job.built = none
  whole : ∀ job ∈ inFlight db, job.leveled = false → ∀ groups, job.groups = some groups → groups.length = 1
  inputs : ∀ job ∈ inFlight db, ∀ table ∈ job.inputs, IsTable table.name

-- The objects that the members refer to have names of their kinds.
structure Objects (db : DB) : Prop where
  tables : ∀ table ∈ db.sstables, IsTable table.name
  logs : ∀ log ∈ db.logs, log.Aligned ∧ LogName log.name

-- One merge of WorkNamed and WorkFiles.
structure MergeFiles (job : MergeJob) : Prop where
  single : job.leveled = false → ∃ seq, job.seqs = [seq]
  outputs : ∀ io outputs, job.built = some (io, outputs) → outputs.map Prod.fst = job.seqs.map sstName
  writes : ∀ io outputs, job.built = some (io, outputs) → WritesTables [] job.seqs io
  waiting : job.groups = none → job.built = none
  whole : job.leveled = false → ∀ groups, job.groups = some groups → groups.length = 1
  inputs : ∀ table ∈ job.inputs, IsTable table.name

theorem work_merge_files (db : DB) (work : WorkFiles db) (job : MergeJob) (inside : job ∈ inFlight db) :
    MergeFiles job :=
  ⟨work.named.single job inside, work.named.outputs job inside, work.merges job inside, work.waiting job inside,
    work.whole job inside, work.inputs job inside⟩

theorem work_files_of (db : DB)
    (flusher : ∀ job, db.flusher = some job → db.hasFlushing = true ∧ job.seq = db.flushingSeq)
    (flush : ∀ job, db.flusher = some job → ∀ io sst, job.built = some (io, sst) → WritesTables [] [job.seq] io)
    (merges : ∀ job ∈ inFlight db, MergeFiles job) : WorkFiles db :=
  ⟨⟨flusher, fun job inside => (merges job inside).single, fun job inside => (merges job inside).outputs⟩, flush,
    fun job inside => (merges job inside).writes, fun job inside => (merges job inside).waiting,
    fun job inside => (merges job inside).whole, fun job inside => (merges job inside).inputs⟩

theorem work_idle (db : DB) (work : WorkFiles db) (free : db.hasFlushing = false) : db.flusher = none := by
  cases flusher : db.flusher with
  | none => rfl
  | some job =>
      rw [(work.named.flusher job flusher).1] at free
      cases free

theorem set_job_work_files (db : DB) (work : WorkFiles db) (worker : Worker) (job later : MergeJob)
    (running : db.job worker = some job) (files : MergeFiles later) : WorkFiles (db.setJob later worker) := by
  have all : ∀ other ∈ inFlight (db.setJob later worker), MergeFiles other := by
    intro other inside
    rcases set_job_members db worker job later other running inside with rfl | before
    · exact files
    · exact work_merge_files db work other before
  cases worker <;> exact work_files_of _ work.named.flusher work.flush all

theorem fresh_merge_files (tables : List Table) (job : MergeJob) (fresh : FreshJob tables job)
    (named : ∀ table ∈ tables, IsTable table.name) : MergeFiles job := by
  have unbuilt : ∀ io outputs, job.built ≠ some (io, outputs) := by simp [fresh.unbuilt]
  refine ⟨fresh.seqs, fun io outputs built => absurd built (unbuilt io outputs), fun io outputs built =>
    absurd built (unbuilt io outputs), fun _ => fresh.unbuilt, fun _ groups grouped => ?_, fun table member =>
    named table (fresh.present table member)⟩
  rw [fresh.unmerged] at grouped
  cases grouped

theorem start_merge_files (cfg : Config) (job next : MergeJob) (seqs : List Nat) (groups : List (List Record))
    (single : job.leveled = false → ∃ seq, seqs = [seq]) (same : seqs.length = groups.length)
    (inputs : ∀ table ∈ job.inputs, IsTable table.name) (done : startBuild cfg job seqs groups = .ok next) :
    MergeFiles next := by
  obtain ⟨ops, outputs, built, rfl⟩ := start_build_spec cfg job next seqs groups done
  obtain ⟨writes, names⟩ := build_groups_writes cfg seqs groups ops outputs built
  have whole : WritesTables [] (seqs ++ []) (ops ++ [.fsyncDir]) :=
    writes_append [] seqs [] ops _ writes (writes_sync [])
  rw [List.append_nil] at whole
  refine ⟨single, ?_, ?_, ?_, ?_, inputs⟩
  · intro io results built
    cases built
    exact names same
  · intro io results built
    cases built
    exact whole
  · intro none
    cases none
  · intro tiered found grouped
    cases grouped
    obtain ⟨seq, only⟩ := single tiered
    rw [← same, only]
    rfl

theorem run_merge_files (cfg : Config) (job next : MergeJob) (files : MergeFiles job)
    (done : runMerge cfg job = .ok next) : MergeFiles next := by
  rw [runMerge] at done
  obtain ⟨records, merges, done⟩ := bind_returns _ _ _ done
  by_cases leveled : job.leveled = true
  · rw [if_pos leveled] at done
    cases done
    refine ⟨files.single, files.outputs, files.writes, fun none => ?_, fun tiered => ?_, files.inputs⟩
    · cases none
    · rw [show job.leveled = false from tiered] at leveled
      cases leveled
  · rw [if_neg leveled] at done
    have single := files.single (Bool.eq_false_iff.mpr leveled)
    refine start_merge_files cfg job next job.seqs [records] (fun _ => single) ?_ files.inputs done
    obtain ⟨seq, only⟩ := single
    rw [only]
    rfl

section Moves

variable (cfg : Config) (db next : DB) (kind : Kind) (ops : List DiskOp) (garbage : List Bytes)

theorem move_work_files (work : WorkFiles db) (objects : Objects db) (move : Move cfg found db kind next ops garbage) :
    WorkFiles next := by
  have old := work_merge_files db work
  cases move with
  | sealed filled free =>
      refine work_files_of _ (fun job running => ?_) work.flush old
      rw [show (sealedDb db).flusher = db.flusher from rfl, work_idle db work free] at running
      cases running
  | snapshot k has noJob index =>
      refine work_files_of _ (fun job running => ?_) (fun job running io sst built => ?_) old
      · cases running
        exact ⟨has, rfl⟩
      · cases running
        cases built
  | separated job rec stored rest current grown io running unbuilt pending object separates =>
      refine work_files_of _ (fun other same => ?_) (fun other same io sst built => ?_) old
      · cases same
        exact work.named.flusher job running
      · cases same
        rw [unbuilt] at built
        cases built
  | flushBuilt job current bytes sst running unbuilt finished object built =>
      have log := (objects.logs current (List.mem_of_getElem? object)).2
      refine work_files_of _ (fun other same => ?_) (fun other same io table result => ?_) old
      · cases same
        exact work.named.flusher job running
      · cases same
        cases result
        have synced : WritesTables [] [] (if job.written = true then [FsOp.fsync current.name] else []) := by
          split
          · exact writes_one_log [] current.name log _ rfl (by simp)
          · exact ⟨List.nil_sublist _, by simp, by simp⟩
        exact writes_append [] [job.seq] [] _ _
          (writes_append [] [] [job.seq] _ _ synced (writes_table [] job.seq bytes)) (writes_sync [])
  | flushIo job op rest sst running building =>
      refine work_files_of _ (fun other same => ?_) (fun other same io table result => ?_) old
      · cases same
        exact work.named.flusher job running
      · cases same
        cases result
        exact writes_tail [] [job.seq] rest op (work.flush job running _ sst building)
  | published job sst running complete =>
      exact work_files_of _ (fun other none => by cases none) (fun other none => by cases none) old
  | picked picked job noJob picks =>
      obtain ⟨⟨seq, rfl, _⟩, fresh⟩ := pick_job_fresh cfg db picked job picks
      refine work_files_of _ work.named.flusher work.flush (fun other inside => ?_)
      rcases List.mem_append.mp inside with new | caller
      · rw [← Option.some.inj (Option.mem_toList.mp new)]
        exact fresh_merge_files db.sstables job fresh objects.tables
      · exact old other (List.mem_append_right _ caller)
  | pickedAll many =>
      refine work_files_of _ work.named.flusher work.flush (fun other inside => ?_)
      rcases List.mem_append.mp inside with compactor | caller
      · exact old other (List.mem_append_left _ compactor)
      · rcases List.mem_append.mp caller with before | new
        · exact old other (List.mem_append_right _ before)
        · rw [List.mem_singleton.mp new]
          refine fresh_merge_files db.sstables _ ⟨fun table member => member, ?_, rfl, rfl, fun _ => ⟨_, rfl⟩⟩
            objects.tables
          exact List.ne_nil_of_length_pos (Nat.lt_trans Nat.zero_lt_one many)
  | merged worker job later running unmerged merges =>
      have here := old job (job_running db worker job running)
      exact set_job_work_files db work worker job later running (run_merge_files cfg job later here merges)
  | reserved job later groups running grouped unbuilt builds =>
      have here := old job (job_running db .compactor job running)
      obtain ⟨_, _, _, shape⟩ := start_build_spec cfg job later _ groups builds
      refine work_files_of _ work.named.flusher work.flush (fun other inside => ?_)
      rcases List.mem_append.mp inside with new | caller
      · rw [← Option.some.inj (Option.mem_toList.mp new)]
        refine start_merge_files cfg job later _ groups (fun tiered => ?_) (List.length_range' ..) here.inputs builds
        refine ⟨db.nextSeq, ?_⟩
        rw [here.whole tiered groups grouped]
        rfl
      · exact old other (List.mem_append_right _ caller)
  | mergeIo worker job op rest outputs running building =>
      have here := old job (job_running db worker job running)
      refine set_job_work_files db work worker job _ running
        ⟨here.single, fun io results same => ?_, fun io results same => ?_, fun none => ?_, here.whole, here.inputs⟩
      · cases same
        exact here.outputs _ outputs building
      · cases same
        exact writes_tail [] job.seqs rest op (here.writes _ outputs building)
      · rw [here.waiting none] at building
        cases building
  | installed worker job outputs running complete =>
      have here := old job (job_running db worker job running)
      obtain ⟨tables, eq, _⟩ := install_job_spec db job outputs (fun tiered =>
        single_output job outputs (here.single tiered) (here.outputs [] outputs complete))
      have left :=
        ended_jobs db { db with sstables := tables, nextId := db.nextId + outputs.length, compacting := false }
        worker rfl rfl
      rw [eq]
      have all : ∀ other ∈ inFlight ({ db with
          sstables := tables, nextId := db.nextId + outputs.length, compacting := false }.endJob worker),
            MergeFiles other :=
        fun other inside => old other (end_job_members db worker job other running (left ▸ inside))
      cases worker <;> exact work_files_of _ work.named.flusher work.flush all
  | _ => exact work_files_of _ work.named.flusher work.flush old

theorem move_logs (logs : ∀ log ∈ db.logs, log.Aligned ∧ LogName log.name)
    (move : Move cfg found db kind next ops garbage) :
    ∀ log ∈ next.logs, log.Aligned ∧ LogName log.name := by
  have set : ∀ (k : Nat) (current later : ValueLog) (io : List DiskOp), db.logs[k]? = some current →
      Appended current later io → ∀ log ∈ db.logs.set k later, log.Aligned ∧ LogName log.name := by
    intro k current later io object appended log member
    rcases List.mem_or_eq_of_mem_set member with old | rfl
    · exact logs log old
    · refine ⟨appended.aligned, ?_⟩
      rw [appended.grows.name]
      exact (logs current (List.mem_of_getElem? object)).2
  cases move with
  | flushed k current later recs vlogOps bytes sst filled free index object separated built =>
      have aligned := (logs current (List.mem_of_getElem? object)).1
      exact set k current later vlogOps object (separate_all_spec cfg current later _ recs vlogOps aligned separated).1
  | collected merged relocated opened later vlogOps bytes sst free quiet flushed merges opens relocates built =>
      obtain ⟨rfl, aligned⟩ := open_log_spec _ _ _ opened opens
      have appended := (relocate_all_spec db.logs db.vlogs _ later merged relocated vlogOps aligned relocates).1
      intro log member
      rcases List.mem_append.mp member with old | new
      · exact logs log old
      · rw [List.mem_singleton.mp new]
        exact ⟨appended.aligned, appended.grows.name ▸ vlog_log_name (db.currentGen + 1)⟩
  | separated job rec stored rest current later io running unbuilt pending object separates =>
      have aligned := (logs current (List.mem_of_getElem? object)).1
      exact set job.log current later ops object
        (separate_record_spec cfg current later rec stored ops aligned separates).1
  | picked picked job noJob picks =>
      obtain ⟨⟨seq, rfl, _⟩, _⟩ := pick_job_fresh cfg db picked job picks
      exact logs
  | merged worker job later running unmerged merges => cases worker <;> exact logs
  | mergeIo worker job op rest outputs running building => cases worker <;> exact logs
  | installed worker job outputs running complete =>
      have same : (installJob db job outputs).logs = db.logs := by
        obtain ⟨_, _, frame⟩ := install_job_frame db job outputs
        rw [frame]
      cases worker <;> exact fun log member => logs log (same ▸ member)
  | _ => exact logs

theorem locked_ops (objects : Objects db) (move : Move cfg found db kind next ops garbage) (locked : kind ≠ .worked) :
    ∃ seqs, SectionOps next seqs ops ∧
      (seqs = [] ∨ seqs = [db.nextSeq] ∧ db.nextSeq < next.nextSeq ∧ workSeqs next = workSeqs db) := by
  have nothing : WritesTables [] [] [] := ⟨List.nil_sublist _, by simp, by simp⟩
  have wal : ∀ kind : Kind, SectionOps next [] kind.walOps := fun kind =>
    ⟨[], [], kind.walOps, by simp, nothing, .inl rfl, wal_ops_files kind⟩
  cases move with
  | wrote write bytes forced encoded =>
      refine ⟨[], ?_, .inl rfl⟩
      rw [wal_append_bytes (writeRecord write) bytes encoded]
      exact wal (.wrote write forced)
  | synced => exact ⟨[], wal .synced, .inl rfl⟩
  | sealed filled free => exact ⟨[], wal .sealed, .inl rfl⟩
  | flushed k current later recs vlogOps bytes sst filled free index object separated built =>
      obtain ⟨aligned, named⟩ := objects.logs current (List.mem_of_getElem? object)
      obtain ⟨appended, _⟩ := separate_all_spec cfg current later _ recs vlogOps aligned separated
      have log := writes_log [] vlogOps current later named appended (by simp)
      have synced : WritesTables [] [] (if vlogOps.isEmpty = true then [] else [FsOp.fsync current.name]) := by
        split
        · exact nothing
        · exact writes_one_log [] current.name named _ rfl (by simp)
      have first := writes_append [] [] [] _ _ log synced
      have table := writes_append [] [] [db.nextSeq] _ _ first (writes_table [] db.nextSeq bytes)
      have front := writes_append [] [db.nextSeq] [] _ _ table (writes_sync [])
      exact ⟨[db.nextSeq],
        ⟨_, writeManifestLocked (flushedDb db k later sst), [.truncate walName], rfl, front, .inr rfl,
        wal_ops_files .flushed⟩, .inr ⟨rfl, Nat.lt_succ_self _, rfl⟩⟩
  | collected merged relocated opened later vlogOps bytes sst free quiet flushed merges opens relocates built =>
      obtain ⟨rfl, aligned⟩ := open_log_spec _ _ _ opened opens
      obtain ⟨appended, _⟩ := relocate_all_spec db.logs db.vlogs _ later merged relocated vlogOps aligned relocates
      have named := vlog_log_name (db.currentGen + 1)
      have log := writes_log [] vlogOps _ later named appended (by simp)
      have created := writes_one_log [] _ named (.create (vlogName (db.currentGen + 1))) rfl (by simp)
      have synced := writes_one_log [] _ named (.fsync (vlogName (db.currentGen + 1))) rfl (by simp)
      have first := writes_append [] [] [] _ _ (writes_append [] [] [] _ _ created log) synced
      have table := writes_append [] [] [db.nextSeq] _ _ first (writes_table [] db.nextSeq bytes)
      have front := writes_append [] [db.nextSeq] [] _ _ table (writes_sync [])
      exact ⟨[db.nextSeq],
        ⟨_, writeManifestLocked (collectedDb db later sst), [], by rw [List.append_nil]; rfl, front, .inr rfl,
        by simp⟩, .inr ⟨rfl, Nat.lt_succ_self _, rfl⟩⟩
  | published job sst running complete =>
      exact ⟨[], ⟨[], writeManifestLocked (flusherPublish db job sst), _, rfl, nothing, .inr rfl,
        wal_ops_files .published⟩, .inl rfl⟩
  | installed worker job outputs running complete =>
      refine ⟨[], ⟨[], writeManifestLocked (installJob db job outputs), [], by simp, nothing, .inr ?_, by simp⟩,
        .inl rfl⟩
      cases worker <;> rfl
  | separated job rec stored rest current later io running unbuilt pending object separates => exact absurd rfl locked
  | flushIo job op rest sst running building => exact absurd rfl locked
  | mergeIo worker job op rest outputs running building => exact absurd rfl locked
  | _ => exact ⟨[], ⟨[], [], [], rfl, nothing, .inl rfl, by simp⟩, .inl rfl⟩

theorem move_garbage (work : WorkFiles db) (objects : Objects db) (move : Move cfg found db kind next ops garbage) :
    ∀ name ∈ garbage, IsTable name ∨ LogName name := by
  cases move with
  | collected merged relocated opened later vlogOps bytes sst free quiet flushed merges opens relocates built =>
      intro name member
      rcases List.mem_append.mp member with inTables | inLogs
      · obtain ⟨table, inside, rfl⟩ := List.mem_map.mp inTables
        exact .inl (objects.tables table inside)
      · obtain ⟨entry, _, stale⟩ := List.mem_filterMap.mp inLogs
        split at stale
        · cases stale
        · obtain ⟨log, object, rfl⟩ := Option.map_eq_some_iff.mp stale
          exact .inr (objects.logs log (List.mem_of_getElem? object)).2
  | installed worker job outputs running complete =>
      intro name member
      obtain ⟨table, inside, rfl⟩ := List.mem_map.mp member
      exact .inl (work.inputs job (job_running db worker job running) table inside)
  | _ => simp

end Moves

-- The table names that workers have yet to rename a file to.
def owedBy (seqs : List Nat) : Option (List DiskOp) → List Bytes
  | none => seqs.map sstName
  | some io => installs io

def flushOwed (db : DB) : List Bytes :=
  if db.hasFlushing then owedBy [db.flushingSeq] (db.flusher.bind (fun job => job.built.map Prod.fst)) else []

def mergeOwed (job : MergeJob) : List Bytes := owedBy job.seqs (job.built.map Prod.fst)

def owed (db : DB) : List Bytes := flushOwed db ++ (inFlight db).flatMap mergeOwed

theorem flush_owed_running (db : DB) (work : WorkFiles db) (job : FlushJob) (running : db.flusher = some job) :
    flushOwed db = owedBy [job.seq] (job.built.map Prod.fst) := by
  obtain ⟨has, reserved⟩ := work.named.flusher job running
  rw [flushOwed, if_pos has, running, reserved]
  rfl

theorem flush_owed_held (db : DB) (work : WorkFiles db) : (flushOwed db).Sublist ((flushSeqs db).map sstName) := by
  cases has : db.hasFlushing with
  | false => simp [flushOwed, has]
  | true =>
      rw [flushSeqs, if_pos has]
      cases running : db.flusher with
      | none => simp [flushOwed, has, running, owedBy]
      | some job =>
          rw [flush_owed_running db work job running, ← (work.named.flusher job running).2]
          cases built : job.built with
          | none => exact List.Sublist.refl _
          | some result => exact (work.flush job running result.1 result.2 built).installs

theorem merge_owed_held (job : MergeJob) (files : MergeFiles job) : (mergeOwed job).Sublist (job.seqs.map sstName) := by
  rw [mergeOwed]
  cases built : job.built with
  | none => exact List.Sublist.refl _
  | some result => exact (files.writes result.1 result.2 built).installs

theorem flat_map_sublist {A B : Type} (items : List A) (f g : A → List B)
    (each : ∀ item ∈ items, (f item).Sublist (g item)) :
    (items.flatMap f).Sublist (items.flatMap g) := by
  induction items with
  | nil => exact List.Sublist.refl _
  | cons item rest ih =>
      rw [List.flatMap_cons, List.flatMap_cons]
      exact (each item (by simp)).append (ih (fun other member => each other (by simp [member])))

theorem owed_held (db : DB) (work : WorkFiles db) : (owed db).Sublist ((workSeqs db).map sstName) := by
  rw [owed, workSeqs, List.map_append, List.map_flatMap]
  exact (flush_owed_held db work).append
    (flat_map_sublist _ _ _ (fun job inside => merge_owed_held job (work_merge_files db work job inside)))

theorem installs_split (op : DiskOp) (rest : List DiskOp) :
    (installs (op :: rest)).Perm (installs [op] ++ installs rest) := by
  rw [installs, installs, installs, ← List.filterMap_append]
  rfl

theorem owed_set (db : DB) (worker : Worker) (job later : MergeJob) (done : List Bytes)
    (running : db.job worker = some job) (less : (done ++ mergeOwed later).Subperm (mergeOwed job)) :
    (done ++ owed (db.setJob later worker)).Subperm (owed db) := by
  obtain ⟨before, after, jobs, set, _⟩ := job_split db worker job running
  have flush : flushOwed (db.setJob later worker) = flushOwed db := by cases worker <;> rfl
  refine List.subperm_ext_iff.mpr (fun name _ => ?_)
  have fewer := less.count_le name
  simp only [owed, flush, set later, jobs, List.flatMap_append, List.flatMap_cons, List.count_append] at fewer ⊢
  omega

theorem owed_flush (db next : DB) (done : List Bytes) (jobs : inFlight next = inFlight db)
    (less : (done ++ flushOwed next).Subperm (flushOwed db)) : (done ++ owed next).Subperm (owed db) := by
  rw [owed, owed, jobs, ← List.append_assoc]
  exact (List.subperm_append_right _).mpr less

section Owing

variable (cfg : Config) (db next : DB) (kind : Kind) (ops : List DiskOp) (garbage : List Bytes)

theorem job_seqs_held (worker : Worker) (job : MergeJob) (running : db.job worker = some job) :
    job.seqs.Sublist (workSeqs db) := by
  obtain ⟨before, after, jobs, _⟩ := job_split db worker job running
  rw [workSeqs, jobs, List.flatMap_append, List.flatMap_cons]
  exact (((List.sublist_append_left _ _).trans (List.sublist_append_right _ _)).trans (List.sublist_append_right _ _))

theorem worked_writes (work : WorkFiles db) (objects : Objects db) (move : Move cfg found db .worked next ops garbage) :
    WritesTables [] (workSeqs db) ops := by
  cases move with
  | separated job rec stored rest current later io running unbuilt pending object separates =>
      obtain ⟨aligned, named⟩ := objects.logs current (List.mem_of_getElem? object)
      obtain ⟨appended, _⟩ := separate_record_spec cfg current later rec stored ops aligned separates
      exact writes_within [] [] _ ops (List.nil_sublist _) (writes_log [] ops current later named appended (by simp))
  | flushIo job op rest sst running building =>
      obtain ⟨has, reserved⟩ := work.named.flusher job running
      have held : [job.seq].Sublist (workSeqs db) := by
        rw [workSeqs, flushSeqs, if_pos has, reserved]
        exact List.sublist_append_left _ _
      exact writes_within [] _ _ _ held (writes_part [] _ _ [op] (by simp) (work.flush job running _ sst building))
  | mergeIo worker job op rest outputs running building =>
      exact writes_within [] _ _ _ (job_seqs_held db worker job running)
        (writes_part [] _ _ [op] (by simp) (work.merges job (job_running db worker job running) _ outputs building))
  | _ => exact ⟨List.nil_sublist _, by simp, by simp⟩

theorem worked_owed (work : WorkFiles db) (objects : Objects db) (move : Move cfg found db .worked next ops garbage) :
    (installs ops ++ owed next).Subperm (owed db) := by
  have workNext := move_work_files cfg db next .worked ops garbage work objects move
  have old := work_merge_files db work
  cases move with
  | separated job rec stored rest current later io running unbuilt pending object separates =>
      obtain ⟨aligned, named⟩ := objects.logs current (List.mem_of_getElem? object)
      obtain ⟨appended, _⟩ := separate_record_spec cfg current later rec stored ops aligned separates
      have none : installs ops = [] :=
        List.sublist_nil.mp (writes_log [] ops current later named appended (by simp)).installs
      refine owed_flush db _ (installs ops) rfl ?_
      rw [none, flush_owed_running db work job running, flush_owed_running _ workNext _ rfl]
      exact List.Subperm.refl _
  | flushBuilt job current bytes sst running unbuilt finished object built =>
      refine owed_flush db _ [] rfl ?_
      obtain ⟨has, reserved⟩ := work.named.flusher job running
      have before : flushOwed db = [sstName db.flushingSeq] := by
        rw [flush_owed_running db work job running, unbuilt, reserved]
        rfl
      have after := flush_owed_held _ workNext
      rw [flushSeqs, if_pos has] at after
      rw [before]
      exact after.subperm
  | flushIo job op rest sst running building =>
      refine owed_flush db _ (installs [op]) rfl ?_
      rw [flush_owed_running db work job running, flush_owed_running _ workNext _ rfl, building]
      exact (installs_split op rest).symm.subperm
  | merged worker job later running unmerged merges =>
      refine owed_set db worker job later [] running ?_
      have here := old job (job_running db worker job running)
      have after := merge_owed_held later (run_merge_files cfg job later here merges)
      rw [run_merge_seqs cfg job later merges] at after
      rw [mergeOwed, mergeOwed, here.waiting unmerged]
      exact after.subperm
  | mergeIo worker job op rest outputs running building =>
      refine owed_set db worker job _ (installs [op]) running ?_
      rw [mergeOwed, mergeOwed, building]
      exact (installs_split op rest).symm.subperm

theorem merge_job_owed (db : DB) (job : MergeJob) (inside : job ∈ inFlight db) (name : Bytes)
    (owes : name ∈ mergeOwed job) :
    name ∈ owed db :=
  List.mem_append_right _ (List.mem_flatMap.mpr ⟨job, inside, owes⟩)

theorem locked_owed (work : WorkFiles db) (move : Move cfg found db kind next ops garbage) (locked : kind ≠ .worked) :
    ∀ name ∈ owed next, name ∈ owed db ∨ ∃ n, name = sstName n ∧ db.nextSeq ≤ n ∧ n < next.nextSeq := by
  have takes : ∀ (job : MergeJob) (count : Nat) (name : Bytes),
      (mergeOwed job).Sublist ((List.range' db.nextSeq count).map sstName) → name ∈ mergeOwed job →
      ∃ n, name = sstName n ∧ db.nextSeq ≤ n ∧ n < db.nextSeq + count := by
    intro job count name held member
    obtain ⟨n, inside, rfl⟩ := List.mem_map.mp (held.subset member)
    exact ⟨n, rfl, List.mem_range'_1.mp inside⟩
  intro name member
  cases move with
  | sealed filled free =>
      rcases List.mem_append.mp member with flush | merge
      · have only : flushOwed (sealedDb db) = [sstName db.nextSeq] := by
          simp [flushOwed, sealedDb, work_idle db work free, owedBy]
        rw [only, List.mem_singleton] at flush
        exact .inr ⟨db.nextSeq, flush, le_refl _, Nat.lt_succ_self _⟩
      · exact .inl (List.mem_append_right _ merge)
  | snapshot k has noJob index =>
      rcases List.mem_append.mp member with flush | merge
      · refine .inl (List.mem_append_left _ ?_)
        simpa [flushOwed, has, noJob] using flush
      · exact .inl (List.mem_append_right _ merge)
  | published job sst running complete =>
      rcases List.mem_append.mp member with flush | merge
      · simp [flushOwed, flusherPublish] at flush
      · exact .inl (List.mem_append_right _ merge)
  | picked picked job noJob picks =>
      have fresh := (pick_job_fresh cfg db picked job picks).2
      have all : mergeOwed job = job.seqs.map sstName := by rw [mergeOwed, fresh.unbuilt]; rfl
      cases strategy : cfg.leveled with
      | false =>
          obtain ⟨rfl, shape, _⟩ := pick_job_tiered cfg db picked job strategy picks
          have seqs : job.seqs = List.range' db.nextSeq 1 := by rw [shape]; rfl
          rcases List.mem_append.mp member with flush | merge
          · exact .inl (List.mem_append_left _ flush)
          · obtain ⟨other, inside, owes⟩ := List.mem_flatMap.mp merge
            rcases List.mem_append.mp inside with new | caller
            · rw [← Option.some.inj (Option.mem_toList.mp new)] at owes
              exact .inr (takes job 1 name (by rw [all, seqs]) owes)
            · exact .inl (merge_job_owed db other (List.mem_append_right _ caller) name owes)
      | true =>
          obtain ⟨rfl, pick, _, rfl⟩ := pick_job_leveled cfg db picked job strategy picks
          refine .inl ?_
          simpa [owed, flushOwed, inFlight, noJob, mergeOwed, owedBy] using member
  | pickedAll many =>
      rcases List.mem_append.mp member with flush | merge
      · exact .inl (List.mem_append_left _ flush)
      · obtain ⟨other, inside, owes⟩ := List.mem_flatMap.mp merge
        rcases List.mem_append.mp inside with compactor | caller
        · exact .inl (merge_job_owed db other (List.mem_append_left _ compactor) name owes)
        · rcases List.mem_append.mp caller with before | new
          · exact .inl (merge_job_owed db other (List.mem_append_right _ before) name owes)
          · rw [List.mem_singleton.mp new] at owes
            exact .inr (takes _ 1 name (List.Sublist.refl _) owes)
  | reserved job later groups running grouped unbuilt builds =>
      obtain ⟨io, outputs, built, rfl⟩ := start_build_spec cfg job later _ groups builds
      rcases List.mem_append.mp member with flush | merge
      · exact .inl (List.mem_append_left _ flush)
      · obtain ⟨other, inside, owes⟩ := List.mem_flatMap.mp merge
        rcases List.mem_append.mp inside with new | caller
        · rw [← Option.some.inj (Option.mem_toList.mp new)] at owes
          refine .inr (takes _ groups.length name ?_ owes)
          have writes := (build_groups_writes cfg _ groups io outputs built).1
          have whole := (writes_append [] _ [] io _ writes (writes_sync [])).installs
          rw [List.append_nil] at whole
          exact whole
        · exact .inl (merge_job_owed db other (List.mem_append_right _ caller) name owes)
  | installed worker job outputs running complete =>
      have here := work_merge_files db work job (job_running db worker job running)
      obtain ⟨tables, eq, _⟩ := install_job_spec db job outputs (fun tiered =>
        single_output job outputs (here.single tiered) (here.outputs [] outputs complete))
      have left :=
        ended_jobs db { db with sstables := tables, nextId := db.nextId + outputs.length, compacting := false }
        worker rfl rfl
      rw [eq] at member
      rcases List.mem_append.mp member with flush | merge
      · refine .inl (List.mem_append_left _ ?_)
        cases worker <;> exact flush
      · rw [left] at merge
        obtain ⟨other, inside, owes⟩ := List.mem_flatMap.mp merge
        exact .inl (merge_job_owed db other (end_job_members db worker job other running inside) name owes)
  | separated job rec stored rest current later io running unbuilt pending object separates => exact absurd rfl locked
  | flushBuilt job current bytes sst running unbuilt finished object built => exact absurd rfl locked
  | flushIo job op rest sst running building => exact absurd rfl locked
  | merged worker job later running unmerged merges => exact absurd rfl locked
  | mergeIo worker job op rest outputs running building => exact absurd rfl locked
  | _ => exact .inl member

end Owing

end Tombstash
