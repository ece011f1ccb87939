import Tombstash.Levels

set_option autoImplicit false

namespace Tombstash

variable {found : Bytes}

-- What a move does to the list of tables, the flush slot and the merges.
inductive TableChange (cfg : Config) (db next : DB) : Prop
  | still (tables : next.sstables = db.sstables) (slot : next.hasFlushing = db.hasFlushing)
      (seq : next.flushingSeq = db.flushingSeq)
      (jobs : ∀ job ∈ inFlight next, ∃ before ∈ inFlight db, SameJob before job)
  | sealed (tables : next.sstables = db.sstables) (seq : next.flushingSeq = db.nextSeq)
      (jobs : inFlight next = inFlight db)
  | pushed (table : Table) (tables : next.sstables = table :: db.sstables) (id : table.id = db.nextId)
      (flat : table.level = 0) (slot : next.hasFlushing = false) (jobs : inFlight next = inFlight db)
      (number : db.hasFlushing = false ∧ tableSeq table = db.nextSeq ∨ db.hasFlushing = true ∧
        tableSeq table = db.flushingSeq)
  | collected (table : Table) (tables : next.sstables = [table]) (flat : table.level = 0)
      (slot : next.hasFlushing = false) (jobs : inFlight next = [])
  | tiered (job : MergeJob) (tables : next.sstables = db.sstables) (slot : next.hasFlushing = db.hasFlushing)
      (seq : next.flushingSeq = db.flushingSeq) (jobs : inFlight next = [job]) (simple : job.leveled = false)
      (placed : TieredPlaced db.sstables job) (whole : cfg.leveled = true → job.inputs = db.sstables)
  | leveled (pick : LeveledPick) (source : Int) (first : Table) (rest : List Table)
      (tables : next.sstables = db.sstables)
      (slot : next.hasFlushing = db.hasFlushing) (seq : next.flushingSeq = db.flushingSeq)
      (jobs : inFlight next = [⟨pick.inputs, pick.dropTombstones, pick.destLevel, true, [], none, none⟩])
      (strategy : cfg.leveled = true) (choice : LeveledChoice db.sstables pick source first rest)
      (order : LevelOrder db.sstables)
  | installed (job : MergeJob) (outputs : List (Bytes × SSTable)) (running : inFlight db = [job])
      (complete : job.built = some ([], outputs)) (tables : next.sstables = (installJob db job outputs).sstables)
      (slot : next.hasFlushing = db.hasFlushing) (seq : next.flushingSeq = db.flushingSeq) (jobs : inFlight next = [])

theorem same_jobs (db next : DB) (same : inFlight next = inFlight db) :
    ∀ job ∈ inFlight next, ∃ before ∈ inFlight db, SameJob before job := by
  intro job member
  exact ⟨job, same ▸ member, rfl, rfl, rfl, rfl⟩

theorem set_job_change (cfg : Config) (db : DB) (worker : Worker) (job next : MergeJob)
    (single : (inFlight db).length ≤ 1) (running : db.job worker = some job) (same : SameJob job next) :
    TableChange cfg db (db.setJob next worker) := by
  obtain ⟨alone, set, _⟩ := only_job db worker job single running
  have jobs : ∀ other ∈ inFlight (db.setJob next worker), ∃ before ∈ inFlight db, SameJob before other := by
    intro other member
    rw [set next, List.mem_singleton] at member
    rw [member, alone]
    exact ⟨job, by simp, same⟩
  cases worker <;> exact .still rfl rfl rfl jobs

theorem move_table_change (cfg : Config) (db next : DB) (i : Nat) (log : ValueLog) (kind : Kind) (ops : List DiskOp)
    (garbage : List Bytes) (sound : Sound True db i log) (numbered : Numbered db)
    (move : Move cfg found db kind next ops garbage) (calm : kind.Picks → inFlight db = [])
    (ready : kind = .picked → cfg.leveled = true → LevelOrder db.sstables) (bound : next.nextSeq < 2 ^ 64) :
    TableChange cfg db next := by
  cases move with
  | rest => exact .still rfl rfl rfl (same_jobs db db rfl)
  | wrote write bytes sync encoded => exact .still rfl rfl rfl (same_jobs db _ rfl)
  | waits waiters => exact .still rfl rfl rfl (same_jobs db _ rfl)
  | bloom on => exact .still rfl rfl rfl (same_jobs db _ rfl)
  | synced => exact .still rfl rfl rfl (same_jobs db db rfl)
  | snapshot k has noJob index => exact .still rfl rfl rfl (same_jobs db _ rfl)
  | separated job rec stored rest current grown io running unbuilt next object separates =>
      exact .still rfl rfl rfl (same_jobs db _ rfl)
  | flushBuilt job current bytes sst running unbuilt finished object built =>
      exact .still rfl rfl rfl (same_jobs db _ rfl)
  | flushIo job op rest sst running building => exact .still rfl rfl rfl (same_jobs db _ rfl)
  | sealed filled free => exact .sealed rfl rfl rfl
  | flushed k current grown recs vlogOps bytes sst filled free index object separated built =>
      exact .pushed ⟨db.nextId, sstName db.nextSeq, 0, sst⟩ rfl rfl rfl free rfl
        (.inl ⟨free, sst_table_seq _ _ _ _ (Nat.lt_of_succ_lt bound)⟩)
  | collected merged relocated opened grown vlogOps bytes sst free quiet flushed merges opens relocates built =>
      have noJobs : inFlight db = [] := by
        have flag := sound.flag trivial
        rw [quiet] at flag
        simpa using flag
      exact .collected ⟨db.nextId, sstName db.nextSeq, 0, sst⟩ rfl rfl free noJobs
  | published job sst running complete =>
      have has : db.hasFlushing = true := by
        cases flushing : db.hasFlushing with
        | true => rfl
        | false =>
            rw [sound.idle flushing] at running
            cases running
      have reserved := (sound.flusher job running).reserved
      refine .pushed ⟨db.nextId, sstName job.seq, 0, sst⟩ rfl rfl rfl rfl rfl (.inr ⟨has, ?_⟩)
      rw [sst_table_seq _ _ _ _ (by rw [reserved]; exact Nat.lt_trans (flushing_seq_fresh db numbered has) bound),
        reserved]
  | picked picked job noJob picks =>
      obtain ⟨_, noCallers⟩ := no_jobs db (calm trivial)
      cases strategy : cfg.leveled with
      | false =>
          obtain ⟨rfl, shape, _, placed⟩ := pick_job_tiered cfg db picked job strategy picks
          refine .tiered job rfl rfl rfl (by simp [inFlight, noCallers]) (by rw [shape]) placed (fun leveled => ?_)
          rw [strategy] at leveled
          cases leveled
      | true =>
          obtain ⟨rfl, pick, chosen, rfl⟩ := pick_job_leveled cfg db picked job strategy picks
          obtain ⟨source, first, rest, choice⟩ := pick_leveled_choice cfg db.sstables pick chosen
          exact .leveled pick source first rest rfl rfl rfl (by simp [inFlight, noCallers]) strategy choice
            (ready rfl strategy)
  | pickedAll many =>
      obtain ⟨noCompactor, noCallers⟩ := no_jobs db (calm trivial)
      exact .tiered ⟨db.sstables, true, 0, false, [db.nextSeq], none, none⟩ rfl rfl rfl
        (by simp [inFlight, noCompactor, noCallers]) rfl ⟨[], [], by simp, fun _ => rfl⟩ (fun _ => rfl)
  | merged worker job next running unmerged merges =>
      have merge := sound.merges job (by simp [(only_job db worker job (sound.single trivial) running).1])
      exact set_job_change cfg db worker job next (sound.single trivial) running
        (run_merge_sound cfg db.sstables job next merge unmerged merges).2
  | reserved job next groups running grouped unbuilt builds =>
      have same : SameJob job next := by
        obtain ⟨_, _, _, rfl⟩ := start_build_spec cfg job next _ groups builds
        exact ⟨rfl, rfl, rfl, rfl⟩
      obtain ⟨alone, set, _⟩ := only_job db .compactor job (sound.single trivial) running
      refine .still rfl rfl rfl (fun other member => ?_)
      have only : inFlight { db with nextSeq := db.nextSeq + groups.length, compactor := some next } = [next] :=
        set next
      rw [only, List.mem_singleton] at member
      rw [member, alone]
      exact ⟨job, by simp, same⟩
  | mergeIo worker job op rest outputs running building =>
      exact set_job_change cfg db worker job _ (sound.single trivial) running ⟨rfl, rfl, rfl, rfl⟩
  | installed worker job outputs running complete =>
      obtain ⟨alone, _, _⟩ := only_job db worker job (sound.single trivial) running
      have after := sound_installed db i log worker job outputs sound running complete
      have merge := sound.merges job (by simp [alone])
      obtain ⟨whole, _⟩ := built_outputs db.sstables job [] outputs merge complete
      obtain ⟨tables, eq, _⟩ := install_job_spec db job outputs whole
      have none : inFlight ({ installJob db job outputs with compacting := false }.endJob worker) = [] := by
        have flag := after.flag trivial
        have off : ({ installJob db job outputs with compacting := false }.endJob worker).compacting = false := by
          cases worker <;> rfl
        rw [off] at flag
        simpa using flag
      rw [eq] at none ⊢
      cases worker <;> exact .installed job outputs alone complete (by rw [eq]; rfl) rfl rfl none

-- Merges in flight know their place, and in a leveled session a pending flush
-- is newer than the level-0 tables that it could be sorted among.
structure Arranged (cfg : Config) (db : DB) : Prop where
  fits : ∀ table ∈ db.sstables, LevelFits table
  placed : ∀ job ∈ inFlight db, Placed db.sstables job
  strategy : cfg.leveled = false → ∀ job ∈ inFlight db, job.leveled = false
  pending : cfg.leveled = true → (∃ table ∈ db.sstables, table.level ≠ 0) → db.hasFlushing = true →
    ∀ table ∈ db.sstables, table.level = 0 → tableSeq table < db.flushingSeq
  waiting : cfg.leveled = true → ∀ job ∈ inFlight db, job.leveled = true → db.hasFlushing = true →
    ∀ table ∈ db.sstables, table.id ∉ tableIds job.inputs → table.level = 0 → tableSeq table < db.flushingSeq
  swept : cfg.leveled = true → ∀ job ∈ inFlight db, job.leveled = false →
    ∀ table ∈ db.sstables, table.id ∉ tableIds job.inputs → table.level = 0

theorem level_fits_flat (table : Table) (flat : table.level = 0) : LevelFits table := by
  refine ⟨by omega, ?_, fun deep => absurd flat deep⟩
  unfold intMax
  omega

theorem installed_member (db : DB) (i : Nat) (log : ValueLog) (job : MergeJob) (outputs : List (Bytes × SSTable))
    (sound : Sound True db i log) (running : inFlight db = [job]) (complete : job.built = some ([], outputs))
    (table : Table) (member : table ∈ (installJob db job outputs).sstables) :
    (table ∈ db.sstables ∧ table.id ∉ tableIds job.inputs) ∨
    table ∈ outputTables db.nextId job.outputLevel outputs := by
  obtain ⟨whole, _⟩ := built_outputs db.sstables job [] outputs (sound.merges job (by simp [running])) complete
  obtain ⟨tables, eq, perm⟩ := install_job_spec db job outputs whole
  rw [eq] at member
  rcases List.mem_append.mp (perm.mem_iff.mp member) with kept | new
  · obtain ⟨present, away⟩ := List.mem_filter.mp kept
    exact .inl ⟨present, by simpa [notAmong] using away⟩
  · exact .inr new

theorem output_fits (db : DB) (i : Nat) (log : ValueLog) (job : MergeJob) (outputs : List (Bytes × SSTable))
    (sound : Sound True db i log) (running : inFlight db = [job]) (complete : job.built = some ([], outputs))
    (placed : Placed db.sstables job) (table : Table)
      (member : table ∈ outputTables db.nextId job.outputLevel outputs) :
    LevelFits table := by
  obtain ⟨_, _, level, inside⟩ := output_tables_member _ _ _ table member
  by_cases leveled : job.leveled = true
  · have place := placed.leveled leveled
    have deep := place.deep
    rw [MergeJob.outputLevel, if_pos leveled] at level
    refine ⟨by omega, by rw [level]; exact place.bounded, fun _ => ?_⟩
    have merge := sound.merges job (by simp [running])
    obtain ⟨groups, grouped, represent⟩ := merge.built [] outputs complete
    obtain ⟨_, _, _, _, filled⟩ := merge.merged groups grouped
    obtain ⟨group, inGroups, represents⟩ := forall_two_right _ groups outputs represent.flip _ inside
    rw [represents_records _ group represents]
    exact filled leveled group inGroups
  · rw [MergeJob.outputLevel, if_neg leveled] at level
    exact level_fits_flat table level

section Changes

variable (cfg : Config) (db next : DB) (i : Nat) (log : ValueLog) (sound : Sound True db i log) (numbered : Numbered db)
variable (arranged : Arranged cfg db)

include sound numbered arranged in
theorem pushed_arranged (table : Table) (tables : next.sstables = table :: db.sstables) (id : table.id = db.nextId)
    (flat : table.level = 0) (slot : next.hasFlushing = false) (jobs : inFlight next = inFlight db)
    (number : db.hasFlushing = false ∧ tableSeq table = db.nextSeq ∨ db.hasFlushing = true ∧
      tableSeq table = db.flushingSeq) :
    Arranged cfg next := by
  have fresh : table.id ∉ tableIds db.sstables := by
    intro member
    obtain ⟨other, inside, same⟩ := List.mem_map.mp member
    have bound := sound.older other inside
    omega
  refine ⟨?_, fun job member => ?_, ?_, ?_, ?_, ?_⟩
  · rw [tables]
    exact List.forall_mem_cons.mpr ⟨level_fits_flat table flat, arranged.fits⟩
  · rw [jobs] at member
    rw [tables]
    refine placed_push db.sstables table job (arranged.placed job member) fresh flat
      (fun leveled other inside away zero => ?_) (fun _ other inside => (arranged.fits other inside).low)
    have session : cfg.leveled = true := by
      cases strategy : cfg.leveled with
      | true => rfl
      | false =>
          rw [arranged.strategy strategy job member] at leveled
          cases leveled
    rcases number with ⟨_, value⟩ | ⟨has, value⟩
    · show tableSeq other < tableSeq table
      rw [value]
      exact table_seq_fresh db numbered other inside
    · show tableSeq other < tableSeq table
      rw [value]
      exact arranged.waiting session job member leveled has other inside away zero
  · rw [jobs]
    exact arranged.strategy
  · rw [slot]
    intro _ _ has
    cases has
  · rw [slot]
    intro _ _ _ _ has
    cases has
  · rw [tables, jobs]
    intro leveled job member simple
    exact List.forall_mem_cons.mpr ⟨fun _ => flat, arranged.swept leveled job member simple⟩

include sound arranged in
theorem leveled_pick_arranged (pick : LeveledPick) (source : Int) (first : Table) (rest : List Table)
    (tables : next.sstables = db.sstables) (slot : next.hasFlushing = db.hasFlushing)
    (seq : next.flushingSeq = db.flushingSeq)
    (jobs : inFlight next = [⟨pick.inputs, pick.dropTombstones, pick.destLevel, true, [], none, none⟩])
    (strategy : cfg.leveled = true) (choice : LeveledChoice db.sstables pick source first rest)
    (order : LevelOrder db.sstables) : Arranged cfg next := by
  have placed := pick_placed db.sstables pick source first rest order sound.formed choice arranged.fits
  refine ⟨tables ▸ arranged.fits, ?_, ?_, ?_, ?_, ?_⟩
  · rw [jobs, tables]
    exact List.forall_mem_cons.mpr ⟨⟨fun simple => (by cases simple), fun _ => placed⟩, by simp⟩
  · intro tiered
    rw [strategy] at tiered
    cases tiered
  · rw [tables, slot, seq]
    exact arranged.pending
  · rw [jobs, tables, slot, seq]
    refine fun leveled => List.forall_mem_cons.mpr ⟨fun _ has table member away zero => ?_, by simp⟩
    obtain ⟨members, all, _⟩ := source_tables_members db.sstables source first rest choice.chosen
    have deep : source ≠ 0 := by
      intro none
      apply away
      refine List.mem_map_of_mem ?_
      rw [show (⟨pick.inputs, pick.dropTombstones, pick.destLevel, true, [], Option.none,
        Option.none⟩ : MergeJob).inputs =
        pick.inputs from rfl, choice.inputs, all none]
      exact List.mem_append_left _ ((mem_at_level db.sstables 0 table).mpr ⟨member, zero⟩)
    obtain ⟨present, level⟩ := members first (by simp)
    exact arranged.pending leveled ⟨first, present, by rw [level]; exact deep⟩ has table member zero
  · rw [jobs]
    exact fun _ => List.forall_mem_cons.mpr ⟨fun simple => (by cases simple), by simp⟩

include sound arranged in
theorem installed_arranged (job : MergeJob) (outputs : List (Bytes × SSTable)) (running : inFlight db = [job])
    (complete : job.built = some ([], outputs)) (tables : next.sstables = (installJob db job outputs).sstables)
    (slot : next.hasFlushing = db.hasFlushing) (seq : next.flushingSeq = db.flushingSeq) (jobs : inFlight next = []) :
    Arranged cfg next := by
  have inside : job ∈ inFlight db := by simp [running]
  have placed := arranged.placed job inside
  have members := installed_member db i log job outputs sound running complete
  refine ⟨?_, by simp [jobs], by simp [jobs], ?_, by simp [jobs], by simp [jobs]⟩
  · rw [tables]
    intro table member
    rcases members table member with ⟨old, _⟩ | new
    · exact arranged.fits table old
    · exact output_fits db i log job outputs sound running complete placed table new
  · rw [tables, slot, seq]
    intro session deep has table member zero
    by_cases leveled : job.leveled = true
    · rcases members table member with ⟨old, away⟩ | new
      · exact arranged.waiting session job inside leveled has table old away zero
      · have level := (output_tables_member _ _ _ table new).2.2.1
        have below := (placed.leveled leveled).deep
        rw [MergeJob.outputLevel, if_pos leveled] at level
        omega
    · exfalso
      obtain ⟨lowest, inTables, notFlat⟩ := deep
      apply notFlat
      rcases members lowest inTables with ⟨old, away⟩ | new
      · exact arranged.swept session job inside (Bool.eq_false_iff.mpr leveled) lowest old away
      · rw [(output_tables_member _ _ _ lowest new).2.2.1, MergeJob.outputLevel, if_neg leveled]

end Changes

theorem table_change_arranged (cfg : Config) (db next : DB) (i : Nat) (log : ValueLog) (sound : Sound True db i log)
    (numbered : Numbered db) (arranged : Arranged cfg db) (change : TableChange cfg db next) : Arranged cfg next := by
  cases change with
  | still tables slot seq jobs =>
      refine ⟨tables ▸ arranged.fits, fun job member => ?_, fun tiered job member => ?_, ?_,
        fun leveled job member => ?_, fun leveled job member => ?_⟩
      · obtain ⟨before, inside, same⟩ := jobs job member
        rw [tables]
        exact placed_same db.sstables before job same (arranged.placed before inside)
      · obtain ⟨before, inside, same⟩ := jobs job member
        exact same.leveled.trans (arranged.strategy tiered before inside)
      · rw [tables, slot, seq]
        exact arranged.pending
      · obtain ⟨before, inside, same⟩ := jobs job member
        rw [tables, slot, seq, same.inputs, same.leveled]
        exact arranged.waiting leveled before inside
      · obtain ⟨before, inside, same⟩ := jobs job member
        rw [tables, same.inputs, same.leveled]
        exact arranged.swept leveled before inside
  | sealed tables seq jobs =>
      refine ⟨tables ▸ arranged.fits, ?_, ?_, ?_, ?_, ?_⟩
      · rw [tables, jobs]
        exact arranged.placed
      · rw [jobs]
        exact arranged.strategy
      · rw [tables, seq]
        exact fun _ _ _ table member _ => table_seq_fresh db numbered table member
      · rw [tables, seq]
        exact fun _ _ _ _ _ table member _ _ => table_seq_fresh db numbered table member
      · rw [tables, jobs]
        exact arranged.swept
  | pushed table tables id flat slot jobs number =>
      exact pushed_arranged cfg db next i log sound numbered arranged table tables id flat slot jobs number
  | collected table tables flat slot jobs =>
      refine ⟨?_, by simp [jobs], by simp [jobs], by simp [slot], by simp [jobs], by simp [jobs]⟩
      rw [tables]
      exact List.forall_mem_cons.mpr ⟨level_fits_flat table flat, by simp⟩
  | tiered job tables slot seq jobs simple placed whole =>
      refine ⟨tables ▸ arranged.fits, ?_, ?_, ?_, ?_, ?_⟩
      · rw [jobs, tables]
        refine List.forall_mem_cons.mpr ⟨⟨fun _ => placed, fun leveled => ?_⟩, by simp⟩
        rw [simple] at leveled
        cases leveled
      · rw [jobs]
        exact fun _ => List.forall_mem_cons.mpr ⟨simple, by simp⟩
      · rw [tables, slot, seq]
        exact arranged.pending
      · rw [jobs]
        refine fun _ => List.forall_mem_cons.mpr ⟨fun leveled => ?_, by simp⟩
        rw [simple] at leveled
        cases leveled
      · rw [jobs, tables]
        refine fun leveled => List.forall_mem_cons.mpr ⟨fun _ table member away => ?_, by simp⟩
        rw [whole leveled] at away
        exact absurd (List.mem_map_of_mem member) away
  | leveled pick source first rest tables slot seq jobs strategy choice order =>
      exact leveled_pick_arranged cfg db next i log sound arranged pick source first rest tables slot seq jobs
        strategy choice order
  | installed job outputs running complete tables slot seq jobs =>
      exact installed_arranged cfg db next i log sound arranged job outputs running complete tables slot seq jobs

theorem range_ends (table : Table) (formed : table.sst.WellFormed) (filled : table.sst.records ≠ []) :
    HasKey table table.sst.minKey ∧ HasKey table table.sst.maxKey := by
  rw [formed.minKey, formed.maxKey]
  refine ⟨⟨table.sst.records.head filled, List.head_mem filled, ?_⟩,
    ⟨table.sst.records.getLast filled, List.getLast_mem filled, ?_⟩⟩
  · rw [headKey, List.head?_eq_some_head filled]
    rfl
  · rw [lastKey, List.getLast?_eq_some_getLast filled]
    rfl

theorem sorted_level_before (a b : Table) (sorted : tableBefore b a = false)
    (flat : a.level = b.level → a.level = 0 → LevelBefore a b ∨ LevelBefore b a)
    (deep : a.level = b.level → a.level ≠ 0 → RangesApart a b ∧ b.sst.minKey ≤ b.sst.maxKey) : LevelBefore a b := by
  rw [← Bool.not_eq_true, table_before_iff] at sorted
  rcases lt_trichotomy a.level b.level with less | same | more
  · exact .inl less
  · by_cases zero : a.level = 0
    · rcases flat same zero with before | (less | ⟨_, number⟩)
      · exact before
      · omega
      · rw [if_pos (by omega)] at number
        exact absurd (.inr ⟨same.symm, by rw [if_pos (by omega)]; exact number⟩) sorted
    · obtain ⟨apart, ordered⟩ := deep same zero
      refine .inr ⟨same, ?_⟩
      rw [if_neg zero]
      rcases apart with before | after
      · exact before
      · exact absurd (.inr ⟨same.symm, by rw [if_neg (by omega)]; exact lt_of_le_of_lt ordered after⟩) sorted
  · exact absurd (.inl more) sorted

theorem leveled_outputs {serial : Prop} (db : DB) (job : MergeJob) (outputs : List (Bytes × SSTable))
    (merge : MergeSound serial db.sstables job) (complete : job.built = some ([], outputs))
    (leveled : job.leveled = true) :
    (∀ table ∈ outputTables db.nextId job.destLevel outputs, table.sst.WellFormed ∧
      table.sst.records ≠ [] ∧ ∀ key, HasKey table key → ∃ input ∈ job.inputs, HasKey input key) ∧
    ∀ a ∈ outputTables db.nextId job.destLevel outputs, ∀ b ∈ outputTables db.nextId job.destLevel outputs,
      a.id ≠ b.id → RangesApart a b := by
  obtain ⟨groups, grouped, represent⟩ := merge.built [] outputs complete
  obtain ⟨records, merges, flat, _, filled⟩ := merge.merged groups grouped
  obtain ⟨_, good⟩ := built_outputs db.sstables job [] outputs merge complete
  obtain ⟨ascending, _, _⟩ := merged_records_fit job.inputs merge.formed _ records merges
  rw [← flat] at ascending
  have spec : ∀ table ∈ outputTables db.nextId job.destLevel outputs, ∃ (k : Nat) (group : List Record),
      groups[k]? = some group ∧ table.id = db.nextId + k ∧ table.sst.records = group ∧ table.sst.WellFormed := by
    intro table member
    obtain ⟨k, group, atK, id, same, _⟩ :=
      merged_stamp_output (fun _ _ => none) db.nextId job.inputs groups job.destLevel
      outputs represent table member
    exact ⟨k, group, atK, id, same, (good _ (output_tables_member _ _ _ table member).2.2.2).1⟩
  have nonempty : ∀ table ∈ outputTables db.nextId job.destLevel outputs, table.sst.records ≠ [] := by
    intro table member
    obtain ⟨_, group, atK, _, same, _⟩ := spec table member
    rw [same]
    exact filled leveled group (List.mem_of_getElem? atK)
  refine ⟨fun table member => ⟨(good _ (output_tables_member _ _ _ table member).2.2.2).1, nonempty table member, ?_⟩,
    ?_⟩
  · rintro key ⟨rec, inside, rfl⟩
    obtain ⟨input, inInputs, there⟩ := (good _ (output_tables_member _ _ _ table member).2.2.2).2 rec inside
    exact ⟨input, inInputs, rec, there, rfl⟩
  · intro a inA b inB different
    obtain ⟨j, left, atJ, idA, sameA, formedA⟩ := spec a inA
    obtain ⟨k, right, atK, idB, sameB, formedB⟩ := spec b inB
    obtain ⟨⟨lowA, inLowA, lowKeyA⟩, highA, inHighA, highKeyA⟩ := range_ends a formedA (nonempty a inA)
    obtain ⟨⟨lowB, inLowB, lowKeyB⟩, highB, inHighB, highKeyB⟩ := range_ends b formedB (nonempty b inB)
    rw [sameA] at inLowA inHighA
    rw [sameB] at inLowB inHighB
    rw [RangesApart, ← lowKeyA, ← highKeyA, ← lowKeyB, ← highKeyB]
    rcases Nat.lt_trichotomy j k with less | same | more
    · exact .inl (groups_apart groups ascending j k left right atJ atK less highA lowB inHighA inLowB)
    · exact absurd (by rw [idA, idB, same]) different
    · exact .inr (groups_apart groups ascending k j right left atK atJ more highB lowA inHighB inLowA)

theorem cleared_apart (job : MergeJob) (kept output : Table) (formed : output.sst.WellFormed)
    (filled : output.sst.records ≠ []) (origin : ∀ key, HasKey output key → ∃ input ∈ job.inputs, HasKey input key)
    (clear : (∀ input ∈ job.inputs, ∀ key, HasKey input key → key < kept.sst.minKey) ∨
      (∀ input ∈ job.inputs, ∀ key, HasKey input key → kept.sst.maxKey < key)) :
    RangesApart kept output := by
  obtain ⟨low, high⟩ := range_ends output formed filled
  obtain ⟨lowInput, inLow, hasLow⟩ := origin _ low
  obtain ⟨highInput, inHigh, hasHigh⟩ := origin _ high
  rcases clear with below | above
  · exact .inr (below highInput inHigh _ hasHigh)
  · exact .inl (above lowInput inLow _ hasLow)

section Restored

variable (db : DB) (i : Nat) (log : ValueLog) (job : MergeJob) (outputs : List (Bytes × SSTable))
    (sound : Sound True db i log)
  (running : inFlight db = [job]) (complete : job.built = some ([], outputs)) (leveled : job.leveled = true)

include sound running complete leveled in
theorem leveled_install_order (fits : ∀ table ∈ db.sstables, LevelFits table) (placed : LeveledPlaced db.sstables job) :
    (installJob db job outputs).sstables.Pairwise LevelBefore := by
  obtain ⟨new, newApart⟩ := leveled_outputs db job outputs (sound.merges job (by simp [running])) complete leveled
  have shape : (installJob db job outputs).sstables = reorderSstables
      (db.sstables.filter (notAmong (tableIds job.inputs)) ++ outputTables db.nextId job.destLevel outputs) := by
    unfold installJob
    rw [if_pos leveled]
    rfl
  have deepDest := placed.deep
  have kept : ∀ table ∈ db.sstables.filter (notAmong (tableIds job.inputs)),
      table ∈ db.sstables ∧ table.id ∉ tableIds job.inputs := by
    intro table member
    obtain ⟨present, away⟩ := List.mem_filter.mp member
    exact ⟨present, by simpa [notAmong] using away⟩
  have ordered : ∀ table : Table, table.sst.WellFormed → table.sst.records ≠ [] →
    table.sst.minKey ≤ table.sst.maxKey := by
    intro table formed filled
    exact (has_key_range table formed _ (range_ends table formed filled).1).2
  have keptNew : ∀ a ∈ db.sstables.filter (notAmong (tableIds job.inputs)),
      ∀ b ∈ outputTables db.nextId job.destLevel outputs, a.level = b.level → RangesApart a b := by
    intro a inA b inB same
    obtain ⟨present, away⟩ := kept a inA
    obtain ⟨formed, filled, origin⟩ := new b inB
    have level := (output_tables_member _ _ _ b inB).2.2.1
    exact cleared_apart job a b formed filled origin (placed.clear a present away (same.trans level))
  rw [shape]
  have perm := List.perm_insertionSort (fun a b : Table => tableBefore b a = false)
    (db.sstables.filter (notAmong (tableIds job.inputs)) ++ outputTables db.nextId job.destLevel outputs)
  have apart := (perm.map Table.id).nodup_iff.mpr
    (installed_ids_nodup db.sstables db.nextId job.destLevel (tableIds job.inputs) outputs sound.distinct sound.older)
  refine List.Pairwise.imp_of_mem ?_ ((reorder_sorted _).and (List.pairwise_map.mp apart))
  rintro a b inA inB ⟨sorted, different⟩
  rcases List.mem_append.mp (perm.mem_iff.mp inA) with keptA | newA
  · rcases List.mem_append.mp (perm.mem_iff.mp inB) with keptB | newB
    · have either : LevelBefore a b ∨ LevelBefore b a := by
        rcases before_total _ a b keptA keptB (fun same => different (by rw [same])) with before | before
        · exact .inl (pairwise_before _ _ placed.kept a b before)
        · exact .inr (pairwise_before _ _ placed.kept b a before)
      refine sorted_level_before a b sorted (fun _ _ => either) (fun same deep => ⟨?_, ?_⟩)
      · rcases either with (less | ⟨_, range⟩) | (less | ⟨_, range⟩)
        · omega
        · rw [if_neg deep] at range
          exact .inl range
        · omega
        · rw [if_neg (by omega)] at range
          exact .inr range
      · exact ordered b (sound.formed b (kept b keptB).1) ((fits b (kept b keptB).1).filled (by omega))
    · have level := (output_tables_member _ _ _ b newB).2.2.1
      obtain ⟨formed, filled, _⟩ := new b newB
      exact sorted_level_before a b sorted (fun same zero => by omega)
        (fun same _ => ⟨keptNew a keptA b newB same, ordered b formed filled⟩)
  · have level := (output_tables_member _ _ _ a newA).2.2.1
    rcases List.mem_append.mp (perm.mem_iff.mp inB) with keptB | newB
    · refine sorted_level_before a b sorted (fun same zero => by omega)
        (fun same deep => ⟨ranges_apart_symm b a (keptNew b keptB a newA same.symm), ?_⟩)
      exact ordered b (sound.formed b (kept b keptB).1) ((fits b (kept b keptB).1).filled (by omega))
    · obtain ⟨formed, filled, _⟩ := new b newB
      exact sorted_level_before a b sorted (fun same zero => by omega)
        (fun _ _ => ⟨newApart a newA b newB different, ordered b formed filled⟩)

end Restored

theorem table_change_order (cfg : Config) (db next : DB) (i : Nat) (log : ValueLog) (sound : Sound True db i log)
    (numbered : Numbered db) (arranged : Arranged cfg db) (change : TableChange cfg db next)
    (session : cfg.leveled = true) (order : LevelOrder db.sstables) : LevelOrder next.sstables := by
  cases change with
  | still tables slot seq jobs => rwa [tables]
  | sealed tables seq jobs => rwa [tables]
  | tiered job tables slot seq jobs simple placed whole => rwa [tables]
  | leveled pick source first rest tables slot seq jobs strategy choice ready => rwa [tables]
  | collected table tables flat slot jobs =>
      rw [tables]
      exact .inl (List.forall_mem_cons.mpr ⟨flat, by simp⟩)
  | pushed table tables id flat slot jobs number =>
      rw [tables]
      by_cases allFlat : ∀ other ∈ db.sstables, other.level = 0
      · exact .inl (List.forall_mem_cons.mpr ⟨flat, allFlat⟩)
      · obtain ⟨deep, inside, notFlat⟩ : ∃ other ∈ db.sstables, other.level ≠ 0 := by
          simpa using allFlat
        rcases order with none | ordered
        · exact absurd (none deep inside) notFlat
        · refine .inr (List.pairwise_cons.mpr ⟨fun other member => ?_, ordered⟩)
          have low := (arranged.fits other member).low
          by_cases zero : other.level = 0
          · refine .inr ⟨by omega, ?_⟩
            rw [if_pos flat]
            show tableSeq other < tableSeq table
            rcases number with ⟨_, value⟩ | ⟨has, value⟩
            · rw [value]
              exact table_seq_fresh db numbered other member
            · rw [value]
              exact arranged.pending session ⟨deep, inside, notFlat⟩ has other member zero
          · exact .inl (by omega)
  | installed job outputs running complete tables slot seq jobs =>
      have inside : job ∈ inFlight db := by simp [running]
      rw [tables]
      by_cases leveled : job.leveled = true
      · exact .inr (leveled_install_order db i log job outputs sound running complete leveled arranged.fits
          ((arranged.placed job inside).leveled leveled))
      · refine .inl (fun table member => ?_)
        rcases installed_member db i log job outputs sound running complete table member with ⟨old, away⟩ | new
        · exact arranged.swept session job inside (Bool.eq_false_iff.mpr leveled) table old away
        · rw [(output_tables_member _ _ _ table new).2.2.1, MergeJob.outputLevel, if_neg leveled]

end Tombstash
