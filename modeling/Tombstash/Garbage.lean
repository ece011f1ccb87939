import Tombstash.DiskCommits

set_option autoImplicit false

namespace Tombstash

variable {found : Bytes} {serial : Prop}

theorem mem_reserved (db : DB) (n : Nat) : n ∈ reservedSeqs db ↔ n ∈ db.sstables.map tableSeq ∨ n ∈ workSeqs db := by
  rw [reservedSeqs, workSeqs, List.append_assoc, List.mem_append]

-- Where the tables and the numbers after some moves come from.
structure Traces (db next : DB) : Prop where
  tables : ∀ table ∈ next.sstables, table ∈ db.sstables ∨ tableSeq table ∈ workSeqs db ∨ db.nextSeq ≤ tableSeq table
  work : ∀ n ∈ workSeqs next, n ∈ workSeqs db ∨ db.nextSeq ≤ n
  counter : db.nextSeq ≤ next.nextSeq

theorem traces_same (db next : DB) (tables : next.sstables = db.sstables) (work : workSeqs next = workSeqs db)
    (counter : db.nextSeq ≤ next.nextSeq) : Traces db next :=
  ⟨fun _ member => .inl (tables ▸ member), fun _ member => .inl (work ▸ member), counter⟩

theorem set_job_work (db : DB) (worker : Worker) (job next : MergeJob) (running : db.job worker = some job)
    (same : next.seqs = job.seqs) : workSeqs (db.setJob next worker) = workSeqs db := by
  obtain ⟨before, after, jobs, set, _⟩ := job_split db worker job running
  have moved := set next
  cases worker <;> simp [workSeqs, jobs, moved, same] <;> rfl

theorem installed_traces (db : DB) (i : Nat) (log : ValueLog) (worker : Worker) (job : MergeJob)
    (outputs : List (Bytes × SSTable)) (sound : Sound serial db i log) (numbered : Numbered db)
    (small : db.nextSeq < 2 ^ 64) (running : db.job worker = some job) (complete : job.built = some ([], outputs)) :
    Traces db ({ installJob db job outputs with compacting := false }.endJob worker) := by
  have inside := job_running db worker job running
  have merge := sound.merges job inside
  obtain ⟨whole, _⟩ := built_outputs db.sstables job [] outputs merge complete
  obtain ⟨tables, eq, perm⟩ := install_job_spec db job outputs whole
  have fits : ∀ n ∈ job.seqs, n < 2 ^ 64 := fun n member => (merge_seq db job n numbered small inside member).2
  have values := output_seqs db.nextId job.outputLevel outputs job.seqs (merge.named [] outputs complete) fits
  have origin : ∀ table ∈ tables, table ∈ db.sstables ∨ tableSeq table ∈ workSeqs db ∨ db.nextSeq ≤ tableSeq table := by
    intro table member
    rcases List.mem_append.mp (perm.mem_iff.mp member) with kept | new
    · exact .inl (List.mem_filter.mp kept).1
    · have held : tableSeq table ∈ job.seqs := values ▸ List.mem_map_of_mem new
      exact .inr (.inl (List.mem_append_right _ (List.mem_flatMap.mpr ⟨job, inside, held⟩)))
  have left := ended_jobs db { db with sstables := tables, nextId := db.nextId + outputs.length, compacting := false }
    worker rfl rfl
  have work : ∀ n ∈ flushSeqs db ++ (inFlight (db.endJob worker)).flatMap MergeJob.seqs, n ∈ workSeqs db := by
    intro n member
    rcases List.mem_append.mp member with flush | merges
    · exact List.mem_append_left _ flush
    · obtain ⟨other, there, held⟩ := List.mem_flatMap.mp merges
      exact List.mem_append_right _
        (List.mem_flatMap.mpr ⟨other, end_job_members db worker job other running there, held⟩)
  rw [eq]
  refine ⟨by cases worker <;> exact origin, fun n member => .inl (work n ?_), by cases worker <;> exact Nat.le_refl _⟩
  rw [workSeqs, left] at member
  cases worker <;> exact member

theorem move_traces (cfg : Config) (db next : DB) (i : Nat) (log : ValueLog) (kind : Kind) (ops : List DiskOp)
    (garbage : List Bytes) (sound : Sound serial db i log) (numbered : Numbered db)
    (move : Move cfg found db kind next ops garbage) (bound : next.nextSeq < 2 ^ 64) : Traces db next := by
  have above : ∀ n, n = db.nextSeq → n ∈ workSeqs db ∨ db.nextSeq ≤ n := fun n same => .inr (le_of_eq same.symm)
  -- A table in front, under a number that is new or was held.
  have push : ∀ id seq sst, seq < 2 ^ 64 → (seq ∈ workSeqs db ∨ db.nextSeq ≤ seq) →
      ∀ table ∈ (⟨id, sstName seq, 0, sst⟩ : Table) :: db.sstables,
        table ∈ db.sstables ∨ tableSeq table ∈ workSeqs db ∨ db.nextSeq ≤ tableSeq table := by
    intro id seq sst fits known table member
    rcases List.mem_cons.mp member with rfl | old
    · rw [sst_table_seq id seq 0 sst fits]
      exact .inr known
    · exact .inl old
  cases move with
  | merged worker job next running unmerged merges =>
      have same := set_job_work db worker job next running (run_merge_seqs cfg job next merges)
      cases worker <;> exact traces_same db _ rfl same (Nat.le_refl _)
  | mergeIo worker job op rest outputs running building =>
      have same := set_job_work db worker job { job with built := some (rest, outputs) } running rfl
      cases worker <;> exact traces_same db _ rfl same (Nat.le_refl _)
  | sealed filled free =>
      refine ⟨fun table member => .inl member, fun n member => ?_, Nat.le_succ _⟩
      rcases List.mem_append.mp member with flush | merge
      · exact above n (by simpa [flushSeqs, sealedDb] using flush)
      · exact .inl (List.mem_append_right _ merge)
  | flushed k current grown recs vlogOps bytes sst filled free index object separated built =>
      exact ⟨push _ _ _ (Nat.lt_of_succ_lt bound) (above _ rfl), fun n member => .inl member, Nat.le_succ _⟩
  | collected merged relocated opened grown vlogOps bytes sst free quiet flushed merges opens relocates built =>
      refine ⟨fun table member => ?_, fun n member => .inl member, Nat.le_succ _⟩
      rw [List.mem_singleton.mp member, sst_table_seq _ _ _ _ (Nat.lt_of_succ_lt bound)]
      exact .inr (above _ rfl)
  | published job sst running complete =>
      obtain ⟨held, fits⟩ := flusher_seq db i log job sound numbered bound running
      refine ⟨push _ _ _ fits (.inl (List.mem_append_left _ held)), fun n member => ?_, Nat.le_refl _⟩
      rcases List.mem_append.mp member with flush | merge
      · cases flush
      · exact .inl (List.mem_append_right _ merge)
  | picked picked job noJob picks =>
      have seqs : ∀ n ∈ job.seqs, n = db.nextSeq := by
        cases strategy : cfg.leveled with
        | false =>
            obtain ⟨_, shape, _⟩ := pick_job_tiered cfg db picked job strategy picks
            rw [shape]
            simp
        | true =>
            obtain ⟨_, pick, _, rfl⟩ := pick_job_leveled cfg db picked job strategy picks
            simp
      obtain ⟨⟨seq, rfl, counter⟩, _⟩ := pick_job_fresh cfg db picked job picks
      refine ⟨fun table member => .inl member, fun n member => ?_, counter⟩
      rcases List.mem_append.mp member with flush | merge
      · exact .inl (List.mem_append_left _ flush)
      · simp only [inFlight, Option.toList_some, List.cons_append, List.nil_append, List.flatMap_cons,
          List.mem_append] at merge
        rcases merge with new | old
        · exact above n (seqs n new)
        · refine .inl (List.mem_append_right _ ?_)
          rw [inFlight, noJob]
          exact old
  | pickedAll many =>
      refine ⟨fun table member => .inl member, fun n member => ?_, Nat.le_succ _⟩
      rcases List.mem_append.mp member with flush | merge
      · exact .inl (List.mem_append_left _ flush)
      · simp only [inFlight, ← List.append_assoc, List.flatMap_append, List.mem_append] at merge
        rcases merge with old | new
        · refine .inl (List.mem_append_right _ ?_)
          simpa only [inFlight, List.flatMap_append, List.mem_append] using old
        · exact above n (by simpa using new)
  | reserved job next groups running grouped unbuilt builds =>
      obtain ⟨_, _, _, rfl⟩ := start_build_spec cfg job next _ groups builds
      refine ⟨fun table member => .inl member, fun n member => ?_, Nat.le_add_right _ _⟩
      rcases List.mem_append.mp member with flush | merge
      · exact .inl (List.mem_append_left _ flush)
      · simp only [inFlight, Option.toList_some, List.cons_append, List.nil_append, List.flatMap_cons,
          List.mem_append] at merge
        rcases merge with new | old
        · exact .inr (List.mem_range'_1.mp new).1
        · exact .inl
            (List.mem_append_right _ (by rw [inFlight, List.flatMap_append]; exact List.mem_append_right _ old))
  | installed worker job outputs running complete =>
      have counter : ({ installJob db job outputs with compacting := false }.endJob worker).nextSeq = db.nextSeq := by
        have same := install_counter db job outputs
        cases worker <;> exact same
      rw [counter] at bound
      exact installed_traces db i log worker job outputs sound numbered bound running complete
  | _ => exact traces_same db _ rfl rfl (Nat.le_refl _)

theorem traces_unused (db next : DB) (traces : Traces db next) (n : Nat) (old : n < db.nextSeq)
    (unused : n ∉ reservedSeqs db) :
    n ∉ reservedSeqs next := by
  rw [mem_reserved, not_or] at unused
  rw [mem_reserved, not_or]
  refine ⟨fun member => ?_, fun member => ?_⟩
  · obtain ⟨table, inside, rfl⟩ := List.mem_map.mp member
    rcases traces.tables table inside with kept | held | above
    · exact unused.1 (List.mem_map_of_mem kept)
    · exact unused.2 held
    · omega
  · rcases traces.work n member with held | above
    · exact unused.2 held
    · omega

theorem traces_removed (db next : DB) (numbered : Numbered db) (traces : Traces db next) (table : Table)
    (member : table ∈ db.sstables) (gone : table ∉ next.sstables) : tableSeq table ∉ reservedSeqs next := by
  have fresh := table_seq_fresh db numbered table member
  have notHeld : tableSeq table ∉ workSeqs db := by
    intro held
    have whole := numbered.distinct
    rw [reservedSeqs, List.append_assoc] at whole
    exact (List.nodup_append.mp whole).2.2 _ (List.mem_map_of_mem member) _ held rfl
  have unique : (db.sstables.map tableSeq).Nodup := by
    have whole := numbered.distinct
    rw [reservedSeqs, List.append_assoc] at whole
    exact (List.nodup_append.mp whole).1
  rw [mem_reserved, not_or]
  refine ⟨fun again => ?_, fun again => ?_⟩
  · obtain ⟨other, inside, same⟩ := List.mem_map.mp again
    rcases traces.tables other inside with kept | held | above
    · exact gone (List.inj_on_of_nodup_map unique kept member same ▸ inside)
    · exact notHeld (same ▸ held)
    · omega
  · rcases traces.work _ again with held | above
    · exact notHeld held
    · omega

-- The file of a table or of a log that the store is done with.
def Stale (db : DB) (name : Bytes) : Prop :=
  (∃ seq, seq < db.nextSeq ∧ seq ∉ reservedSeqs db ∧ name = sstName seq) ∨
    ∃ gen : UInt32, gen.toNat < db.currentGen.toNat ∧ name = vlogName gen

theorem stale_kept (db next : DB) (traces : Traces db next) (gens : db.currentGen.toNat ≤ next.currentGen.toNat)
    (name : Bytes) (stale : Stale db name) : Stale next name := by
  rcases stale with ⟨seq, old, unused, rfl⟩ | ⟨gen, older, rfl⟩
  · exact .inl ⟨seq, Nat.lt_of_lt_of_le old traces.counter, traces_unused db next traces seq old unused, rfl⟩
  · exact .inr ⟨gen, Nat.lt_of_lt_of_le older gens, rfl⟩

theorem stale_not_live (db : DB) (numbered : Numbered db) (small : db.nextSeq < 2 ^ 64) (name : Bytes)
    (stale : Stale db name) :
    name ∉ liveFiles db := by
  rcases stale with ⟨seq, old, unused, rfl⟩ | ⟨gen, older, rfl⟩
  · rw [mem_reserved, not_or] at unused
    exact unused_files_live db numbered small seq (Nat.lt_trans old small) unused.1 _ (by simp [tableFiles])
  · intro live
    rcases List.mem_cons.mp live with same | needed
    · exact absurd ((vlog_first gen).symm.trans (congrArg (fun n => n[0]?) same)) (by decide)
    rcases List.mem_cons.mp needed with same | inTables
    · rw [vlog_name_injective _ _ same] at older
      exact Nat.lt_irrefl _ older
    · obtain ⟨table, inside, same⟩ := List.mem_map.mp inTables
      have kind := sst_first (tableSeq table)
      rw [← numbered.named table inside, same] at kind
      exact absurd ((vlog_first gen).symm.trans kind) (by decide)

theorem work_file_seq (db : DB) (i : Nat) (log : ValueLog) (sound : Sound serial db i log) (numbered : Numbered db)
    (small : db.nextSeq < 2 ^ 64) (name : Bytes) (member : name ∈ workFiles db) :
    name = vlogName db.currentGen ∧ db.flusher ≠ none ∨ ∃ seq ∈ workSeqs db, seq < 2 ^ 64 ∧ name ∈ tableFiles seq := by
  rcases List.mem_append.mp member with flush | merge
  · cases running : db.flusher with
    | none => simp [flusherFiles, running] at flush
    | some job =>
        rcases (mem_flusher_files db job running name).mp flush with log | files
        · exact .inl ⟨log, Option.some_ne_none job⟩
        · obtain ⟨held, fits⟩ := flusher_seq db i log job sound numbered small running
          exact .inr ⟨job.seq, List.mem_append_left _ held, fits, files⟩
  · obtain ⟨job, running, inJob⟩ := List.mem_flatMap.mp merge
    obtain ⟨seq, inSeqs, files⟩ := List.mem_flatMap.mp inJob
    obtain ⟨held, fits⟩ := merge_seq db job seq numbered small running inSeqs
    exact .inr ⟨seq, List.mem_append_right _ held, fits, files⟩

theorem unheld_not_work (db : DB) (i : Nat) (log : ValueLog) (sound : Sound serial db i log) (numbered : Numbered db)
    (small : db.nextSeq < 2 ^ 64) (seq : Nat) (fits : seq < 2 ^ 64) (unheld : seq ∉ workSeqs db) (name : Bytes)
    (files : name ∈ tableFiles seq) : name ∉ workFiles db := by
  intro member
  rcases work_file_seq db i log sound numbered small name member with ⟨rfl, _⟩ | ⟨other, held, otherFits, there⟩
  · exact absurd ((vlog_first _).symm.trans (table_file_first seq _ files)) (by decide)
  · exact unheld (table_files_injective seq other fits otherFits name files there ▸ held)

theorem stale_not_work (db : DB) (i : Nat) (log : ValueLog) (sound : Sound serial db i log) (numbered : Numbered db)
    (small : db.nextSeq < 2 ^ 64) (name : Bytes) (stale : Stale db name) : name ∉ workFiles db := by
  rcases stale with ⟨seq, old, unused, rfl⟩ | ⟨gen, older, rfl⟩
  · rw [mem_reserved, not_or] at unused
    exact unheld_not_work db i log sound numbered small seq (Nat.lt_trans old small) unused.2 _ (by simp [tableFiles])
  · intro member
    rcases work_file_seq db i log sound numbered small _ member with ⟨same, _⟩ | ⟨seq, _, _, there⟩
    · rw [vlog_name_injective _ _ same] at older
      exact Nat.lt_irrefl _ older
    · exact absurd ((vlog_first gen).symm.trans (table_file_first seq _ there)) (by decide)

-- The inputs of the merges in flight: in the list, or done with.
def Known (db : DB) : Prop := ∀ job ∈ inFlight db, ∀ table ∈ job.inputs,
  table.name = sstName (tableSeq table) ∧ tableSeq table < db.nextSeq ∧
    (table ∈ db.sstables ∨ tableSeq table ∉ reservedSeqs db)

theorem known_inputs (db next : DB) (numbered : Numbered db) (known : Known db) (traces : Traces db next)
    (table : Table) (input : ∃ job ∈ inFlight db, table ∈ job.inputs) :
    table.name = sstName (tableSeq table) ∧ tableSeq table < next.nextSeq ∧
      (table ∈ next.sstables ∨ tableSeq table ∉ reservedSeqs next) := by
  obtain ⟨job, running, member⟩ := input
  obtain ⟨name, old, place⟩ := known job running table member
  refine ⟨name, Nat.lt_of_lt_of_le old traces.counter, ?_⟩
  rcases place with there | unused
  · by_cases still : table ∈ next.sstables
    · exact .inl still
    · exact .inr (traces_removed db next numbered traces table there still)
  · exact .inr (traces_unused db next traces _ old unused)

theorem move_known (cfg : Config) (db next : DB) (i : Nat) (log : ValueLog) (kind : Kind) (ops : List DiskOp)
    (garbage : List Bytes) (sound : Sound serial db i log) (numbered : Numbered db) (known : Known db)
    (move : Move cfg found db kind next ops garbage) (bound : next.nextSeq < 2 ^ 64) : Known next := by
  have traces := move_traces cfg db next i log kind ops garbage sound numbered move bound
  have old : ∀ table, (∃ job ∈ inFlight db, table ∈ job.inputs) → _ := known_inputs db next numbered known traces
  -- The inputs of a fresh job are in the list.
  have fresh : next.sstables = db.sstables → ∀ table ∈ db.sstables,
      table.name = sstName (tableSeq table) ∧ tableSeq table < next.nextSeq ∧
        (table ∈ next.sstables ∨ tableSeq table ∉ reservedSeqs next) := by
    intro same table member
    exact ⟨numbered.named table member, Nat.lt_of_lt_of_le (table_seq_fresh db numbered table member) traces.counter,
      .inl (same ▸ member)⟩
  have set : ∀ worker job later, db.job worker = some job → later.inputs = job.inputs →
      ∀ other ∈ inFlight (db.setJob later worker), ∀ table ∈ other.inputs, ∃ job ∈ inFlight db, table ∈ job.inputs := by
    intro worker job later running same other member table input
    rcases set_job_members db worker job later other running member with rfl | there
    · exact ⟨job, job_running db worker job running, same ▸ input⟩
    · exact ⟨other, there, input⟩
  cases move with
  | picked picked job noJob picks =>
      obtain ⟨⟨seq, rfl, _⟩, start⟩ := pick_job_fresh cfg db picked job picks
      intro other member table input
      rcases List.mem_cons.mp member with rfl | caller
      · exact fresh rfl table (start.present table input)
      · exact old table ⟨other, List.mem_append_right _ caller, input⟩
  | pickedAll many =>
      intro other member table input
      simp only [inFlight, ← List.append_assoc] at member
      rcases List.mem_append.mp member with there | new
      · exact old table ⟨other, there, input⟩
      · rw [List.mem_singleton.mp new] at input
        exact fresh rfl table input
  | merged worker job later running unmerged merges =>
      have merge := sound.merges job (job_running db worker job running)
      have same := (run_merge_sound cfg db.sstables job later merge unmerged merges).2.inputs
      exact fun other member table input => old table (set worker job later running same other member table input)
  | reserved job later groups running grouped unbuilt builds =>
      have merge := sound.merges job (job_running db .compactor job running)
      have same := (reserve_merge_sound cfg db.sstables job later _ groups merge grouped (by simp) builds).2.inputs
      exact fun other member table input => old table (set .compactor job later running same other member table input)
  | mergeIo worker job op rest outputs running building =>
      exact fun other member table input => old table
        (set worker job { job with built := some (rest, outputs) } running rfl other member table input)
  | installed worker job outputs running complete =>
      intro other member table input
      refine old table ⟨other, end_job_members db worker job other running ?_, input⟩
      obtain ⟨whole, _⟩ :=
        built_outputs db.sstables job [] outputs (sound.merges job (job_running db worker job running)) complete
      obtain ⟨tables, eq, _⟩ := install_job_spec db job outputs whole
      rw [eq] at member
      exact ended_jobs db { db with sstables := tables, nextId := db.nextId + outputs.length, compacting := false }
        worker
        rfl rfl ▸ member
  | _ => exact fun other member table input => old table ⟨other, member, input⟩

theorem move_garbage_stale (cfg : Config) (db next : DB) (i : Nat) (log : ValueLog) (kind : Kind) (ops : List DiskOp)
    (garbage : List Bytes) (sound : Sound serial db i log) (numbered : Numbered db) (known : Known db)
    (move : Move cfg found db kind next ops garbage) (bound : next.nextSeq < 2 ^ 64)
    (gens : next.currentGen ≠ db.currentGen → db.currentGen.toNat < next.currentGen.toNat) :
    ∀ name ∈ garbage, Stale next name := by
  have traces := move_traces cfg db next i log kind ops garbage sound numbered move bound
  cases move with
  | collected merged relocated opened grown vlogOps bytes sst free quiet flushed merges opens relocates built =>
      intro name member
      rcases List.mem_append.mp member with inTables | inLogs
      · obtain ⟨table, inside, rfl⟩ := List.mem_map.mp inTables
        have fresh := table_seq_fresh db numbered table inside
        have gone : table ∉ (collectedDb db grown sst).sstables := by
          intro again
          rw [List.mem_singleton.mp again, sst_table_seq _ _ _ _ (Nat.lt_of_succ_lt bound)] at fresh
          exact Nat.lt_irrefl _ fresh
        exact .inl ⟨tableSeq table, Nat.lt_succ_of_lt fresh, traces_removed db _ numbered traces table inside gone,
          numbered.named table inside⟩
      · simp only [staleLogs, sound.vlogs, List.filterMap_cons, List.filterMap_nil, sound.object] at inLogs
        have different : db.currentGen ≠ db.currentGen + 1 := by simp
        rw [if_neg different, Option.map_some] at inLogs
        refine .inr ⟨db.currentGen, gens (by simp [collectedDb]), ?_⟩
        rw [List.mem_singleton.mp inLogs, sound.name]
  | installed worker job outputs running complete =>
      intro name member
      obtain ⟨table, input, rfl⟩ := List.mem_map.mp member
      obtain ⟨named, old, place⟩ := known job (job_running db worker job running) table input
      refine .inl ⟨tableSeq table, Nat.lt_of_lt_of_le old traces.counter, ?_, named⟩
      rcases place with there | unused
      · refine traces_removed db _ numbered traces table there (fun again => ?_)
        obtain ⟨whole, _⟩ :=
          built_outputs db.sstables job [] outputs (sound.merges job (job_running db worker job running))
          complete
        obtain ⟨tables, eq, perm⟩ := install_job_spec db job outputs whole
        have inside : table ∈ tables := by
          rw [eq] at again
          cases worker <;> exact again
        rcases List.mem_append.mp (perm.mem_iff.mp inside) with kept | new
        · have away := (List.mem_filter.mp kept).2
          simp only [notAmong, decide_eq_true_eq] at away
          exact away (List.mem_map_of_mem input)
        · exact absurd (sound.older table there) (Nat.not_lt_of_le (output_tables_member _ _ _ table new).1)
      · exact traces_unused db _ traces _ old unused
  | _ => simp

end Tombstash
