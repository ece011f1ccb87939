import Tombstash.Refine

set_option autoImplicit false

namespace Tombstash

variable {found : Bytes} {serial : Prop}

def tableSeq (table : Table) : Nat := seqOfPath table.name

def flushSeqs (db : DB) : List Nat := if db.hasFlushing then [db.flushingSeq] else []

-- The sequence numbers that workers hold.
def workSeqs (db : DB) : List Nat := flushSeqs db ++ (inFlight db).flatMap MergeJob.seqs

-- The sequence numbers in use: those of tables and those that workers hold.
def reservedSeqs (db : DB) : List Nat :=
  db.sstables.map tableSeq ++ flushSeqs db ++ (inFlight db).flatMap MergeJob.seqs

structure Numbered (db : DB) : Prop where
  named : ∀ table ∈ db.sstables, table.name = sstName (tableSeq table)
  fresh : ∀ n ∈ reservedSeqs db, n < db.nextSeq
  distinct : (reservedSeqs db).Nodup

theorem table_seq_fresh (db : DB) (numbered : Numbered db) (table : Table) (member : table ∈ db.sstables) :
    tableSeq table < db.nextSeq :=
  numbered.fresh _ (List.mem_append_left _ (List.mem_append_left _ (List.mem_map_of_mem member)))

theorem flushing_seq_fresh (db : DB) (numbered : Numbered db) (has : db.hasFlushing = true) :
    db.flushingSeq < db.nextSeq :=
  numbered.fresh _ (List.mem_append_left _ (List.mem_append_right _ (by simp [flushSeqs, has])))

-- The names in use: those of tables and those that workers build files for.
def usedNames (db : DB) : List Bytes := db.sstables.map Table.name ++ (workSeqs db).map sstName

-- What the numbers of the workers have to do with their files.
structure WorkNamed (db : DB) : Prop where
  flusher : ∀ job, db.flusher = some job → db.hasFlushing = true ∧ job.seq = db.flushingSeq
  single : ∀ job ∈ inFlight db, job.leveled = false → ∃ seq, job.seqs = [seq]
  outputs : ∀ job ∈ inFlight db, ∀ io outputs, job.built = some (io, outputs) →
    outputs.map Prod.fst = job.seqs.map sstName

-- The names and the numbers after a move: old ones, and new ones from next_seq_ on.
structure Renames (db next : DB) : Prop where
  taken : ∃ count, (usedNames next).Subperm ((List.range' db.nextSeq count).map sstName ++ usedNames db) ∧
    db.nextSeq + count ≤ next.nextSeq
  work : ∀ n ∈ workSeqs next, n ∈ workSeqs db ∨ db.nextSeq ≤ n ∧ n < next.nextSeq

theorem subperm_map {A B : Type} (f : A → B) (left right : List A) (sub : left.Subperm right) :
    (left.map f).Subperm (right.map f) := by
  obtain ⟨middle, perm, inside⟩ := sub
  exact ⟨middle.map f, perm.map f, inside.map f⟩

theorem renames_same (db next : DB) (tables : next.sstables = db.sstables) (same : workSeqs next = workSeqs db)
    (counter : db.nextSeq ≤ next.nextSeq) : Renames db next := by
  refine ⟨⟨0, ?_, by omega⟩, fun n member => .inl (same ▸ member)⟩
  rw [usedNames, usedNames, tables, same]
  exact List.Subperm.refl _

theorem renames_reserve (db next : DB) (count : Nat) (tables : next.sstables = db.sstables)
    (held : (workSeqs next).Subperm (List.range' db.nextSeq count ++ workSeqs db))
    (counter : db.nextSeq + count ≤ next.nextSeq) :
    Renames db next := by
  refine ⟨⟨count, List.subperm_ext_iff.mpr (fun name _ => ?_), counter⟩, fun n member => ?_⟩
  · have mapped := (subperm_map sstName _ _ held).count_le name
    simp only [usedNames, tables, List.map_append, List.count_append] at mapped ⊢
    omega
  · rcases List.mem_append.mp (held.subset member) with new | old
    · have bounds := List.mem_range'_1.mp new
      exact .inr ⟨bounds.1, by omega⟩
    · exact .inl old

theorem renames_push (db next : DB) (table : Table) (kept : List Table) (shape : next.sstables = table :: kept)
    (old : kept.Sublist db.sstables) (name : table.name = sstName db.nextSeq) (same : workSeqs next = workSeqs db)
    (counter : db.nextSeq + 1 ≤ next.nextSeq) : Renames db next := by
  refine ⟨⟨1, ?_, counter⟩, fun n member => .inl (same ▸ member)⟩
  rw [usedNames, usedNames, shape, same, List.map_cons, name]
  exact (((old.map Table.name).append_right _).cons_cons _).subperm

-- A move takes its new numbers from next_seq_ on.
structure Renumbers (db next : DB) : Prop where
  named : ∀ table ∈ next.sstables, table.name = sstName (tableSeq table)
  taken : ∃ count, (reservedSeqs next).Subperm (List.range' db.nextSeq count ++ reservedSeqs db) ∧
    db.nextSeq + count ≤ next.nextSeq

theorem renumbers_numbered (db next : DB) (numbered : Numbered db) (renumbers : Renumbers db next) : Numbered next := by
  obtain ⟨count, taken, counter⟩ := renumbers.taken
  refine ⟨renumbers.named, fun n member => ?_, ?_⟩
  · rcases List.mem_append.mp (taken.subset member) with new | old
    · have bound := (List.mem_range'_1.mp new).2
      omega
    · have bound := numbered.fresh n old
      omega
  · obtain ⟨middle, perm, sub⟩ := taken
    have whole : (List.range' db.nextSeq count ++ reservedSeqs db).Nodup := by
      refine List.nodup_append.mpr ⟨List.nodup_range', numbered.distinct, ?_⟩
      intro new inNew old inOld same
      have low := (List.mem_range'_1.mp inNew).1
      have high := numbered.fresh old inOld
      omega
    exact perm.nodup_iff.mp (whole.sublist sub)

theorem sst_table_seq (id : Nat) (seq : Nat) (level : Int) (sst : SSTable) (small : seq < 2 ^ 64) :
    tableSeq ⟨id, sstName seq, level, sst⟩ = seq :=
  seq_of_sst_name seq small

theorem run_merge_seqs (cfg : Config) (job next : MergeJob) (done : runMerge cfg job = .ok next) :
    next.seqs = job.seqs := by
  rw [runMerge] at done
  obtain ⟨records, merges, done⟩ := bind_returns _ _ _ done
  split at done
  · cases done
    rfl
  · obtain ⟨_, _, _, rfl⟩ := start_build_spec cfg job next job.seqs _ done
    rfl

theorem set_job_seqs (db : DB) (worker : Worker) (job next : MergeJob) (running : db.job worker = some job)
    (same : next.seqs = job.seqs) : workSeqs (db.setJob next worker) = workSeqs db := by
  obtain ⟨before, after, jobs, set, _⟩ := job_split db worker job running
  have moved := set next
  cases worker <;> simp [workSeqs, jobs, moved, same] <;> rfl

theorem output_names (start : Nat) (level : Int) (outputs : List (Bytes × SSTable)) :
    (outputTables start level outputs).map Table.name = outputs.map Prod.fst := by
  have fsts : outputs.zipIdx.map Prod.fst = outputs := List.zipIdx_map_fst 0 outputs
  rw [outputTables, List.map_map]
  conv_rhs => rw [← fsts, List.map_map]
  rfl

theorem seqs_of_names (seqs : List Nat) (small : ∀ n ∈ seqs, n < 2 ^ 64) : (seqs.map sstName).map seqOfPath = seqs := by
  rw [List.map_map]
  conv_rhs => rw [← List.map_id seqs]
  exact List.map_inj_left.mpr (fun n member => seq_of_sst_name n (small n member))

theorem output_seqs (start : Nat) (level : Int) (outputs : List (Bytes × SSTable)) (seqs : List Nat)
    (named : outputs.map Prod.fst = seqs.map sstName) (small : ∀ n ∈ seqs, n < 2 ^ 64) :
    (outputTables start level outputs).map tableSeq = seqs := by
  have mapped := congrArg (List.map seqOfPath) ((output_names start level outputs).trans named)
  rw [List.map_map, seqs_of_names seqs small] at mapped
  exact mapped

theorem single_output (job : MergeJob) (outputs : List (Bytes × SSTable)) (single : ∃ seq, job.seqs = [seq])
    (named : outputs.map Prod.fst = job.seqs.map sstName) : ∃ output, outputs = [output] := by
  obtain ⟨seq, only⟩ := single
  have same := congrArg List.length named
  rw [only, List.length_map] at same
  exact List.length_eq_one_iff.mp same

theorem install_counter (db : DB) (job : MergeJob) (outputs : List (Bytes × SSTable)) :
    (installJob db job outputs).nextSeq = db.nextSeq := by
  obtain ⟨_, _, frame⟩ := install_job_frame db job outputs
  rw [frame]

theorem move_counter (cfg : Config) (db next : DB) (kind : Kind) (ops : List DiskOp) (garbage : List Bytes)
    (move : Move cfg found db kind next ops garbage) : db.nextSeq ≤ next.nextSeq := by
  cases move with
  | sealed filled free => exact Nat.le_succ _
  | flushed k current grown recs vlogOps bytes sst filled free index object separated built => exact Nat.le_succ _
  | collected merged relocated opened grown vlogOps bytes sst free quiet flushed merges opens relocates built =>
      exact Nat.le_succ _
  | picked picked job noJob picks =>
      obtain ⟨⟨seq, rfl, above⟩, _⟩ := pick_job_fresh cfg db picked job picks
      exact above
  | pickedAll many => exact Nat.le_succ _
  | merged worker job next running unmerged merges => cases worker <;> exact le_refl _
  | reserved job next groups running grouped unbuilt builds => exact Nat.le_add_right _ _
  | mergeIo worker job op rest outputs running building => cases worker <;> exact le_refl _
  | installed worker job outputs running complete =>
      have same := install_counter db job outputs
      cases worker <;> exact le_of_eq same.symm
  | _ => exact le_refl _

theorem move_renames (cfg : Config) (db next : DB) (kind : Kind) (ops : List DiskOp) (garbage : List Bytes)
    (work : WorkNamed db) (move : Move cfg found db kind next ops garbage) : Renames db next := by
  cases move with
  | sealed filled free =>
      refine renames_reserve db _ 1 rfl (List.Perm.subperm (List.perm_iff_count.mpr (fun n => ?_))) (le_refl _)
      simp [workSeqs, flushSeqs, sealedDb, free, inFlight, List.count_cons]
  | flushed k current grown recs vlogOps bytes sst filled free index object separated built =>
      exact renames_push db _ _ db.sstables rfl (List.Sublist.refl _) rfl rfl (le_refl _)
  | collected merged relocated opened grown vlogOps bytes sst free quiet flushed merges opens relocates built =>
      exact renames_push db _ _ [] rfl (List.nil_sublist _) rfl rfl (le_refl _)
  | published job sst running complete =>
      obtain ⟨has, reserved⟩ := work.flusher job running
      refine ⟨⟨0, List.Perm.subperm (List.perm_iff_count.mpr (fun name => ?_)), le_refl _⟩, fun n member => .inl ?_⟩
      · simp [usedNames, workSeqs, flushSeqs, flusherPublish, has, reserved, inFlight, List.count_cons]
        omega
      · exact List.mem_append_right _ (by simpa [workSeqs, flushSeqs, flusherPublish, inFlight] using member)
  | picked picked job noJob picks =>
      cases strategy : cfg.leveled with
      | false =>
          obtain ⟨rfl, shape, _⟩ := pick_job_tiered cfg db picked job strategy picks
          have seqs : job.seqs = [db.nextSeq] := by rw [shape]
          refine renames_reserve db _ 1 rfl (List.Perm.subperm (List.perm_iff_count.mpr (fun n => ?_))) (le_refl _)
          simp [workSeqs, flushSeqs, inFlight, noJob, seqs, List.count_cons]
          omega
      | true =>
          obtain ⟨rfl, pick, _, rfl⟩ := pick_job_leveled cfg db picked job strategy picks
          refine renames_same db _ rfl ?_ (le_refl _)
          simp [workSeqs, flushSeqs, inFlight, noJob]
  | pickedAll many =>
      refine renames_reserve db _ 1 rfl (List.Perm.subperm (List.perm_iff_count.mpr (fun n => ?_))) (le_refl _)
      simp [workSeqs, flushSeqs, inFlight, List.count_cons]
      omega
  | merged worker job next running unmerged merges =>
      have same := set_job_seqs db worker job next running (run_merge_seqs cfg job next merges)
      cases worker <;> exact renames_same db _ rfl same (le_refl _)
  | mergeIo worker job op rest outputs running building =>
      have same := set_job_seqs db worker job { job with built := some (rest, outputs) } running rfl
      cases worker <;> exact renames_same db _ rfl same (le_refl _)
  | reserved job next groups running grouped unbuilt builds =>
      obtain ⟨_, _, _, rfl⟩ := start_build_spec cfg job next _ groups builds
      have here : db.compactor = some job := running
      refine renames_reserve db _ groups.length rfl (List.subperm_ext_iff.mpr (fun n _ => ?_)) (le_refl _)
      simp only [workSeqs, inFlight, here, flushSeqs, Option.toList_some, List.flatMap_append, List.flatMap_cons,
        List.flatMap_nil, List.append_nil, List.count_append]
      omega
  | installed worker job outputs running complete =>
      obtain ⟨before, after, jobs, _, ended⟩ := job_split db worker job running
      have inside := job_running db worker job running
      have named := work.outputs job inside [] outputs complete
      obtain ⟨tables, eq, perm⟩ := install_job_spec db job outputs (fun tiered =>
        single_output job outputs (work.single job inside tiered) named)
      have left :=
        ended_jobs db { db with sstables := tables, nextId := db.nextId + outputs.length, compacting := false }
        worker rfl rfl
      rw [ended] at left
      rw [eq]
      have held :
        workSeqs ({ db with sstables := tables, nextId := db.nextId + outputs.length, compacting := false }.endJob
          worker) = flushSeqs db ++ (before ++ after).flatMap MergeJob.seqs := by
        rw [workSeqs, left]
        cases worker <;> rfl
      have members : ∀ n ∈ flushSeqs db ++ (before ++ after).flatMap MergeJob.seqs, n ∈ workSeqs db := by
        intro n member
        simp only [workSeqs, jobs, List.flatMap_append, List.flatMap_cons, List.mem_append] at member ⊢
        exact member.imp id (fun both => both.imp id .inr)
      -- The names of the outputs move from the job to the tables.
      have taken :
        (tables.map Table.name ++ (flushSeqs db ++ (before ++ after).flatMap MergeJob.seqs).map sstName).Subperm
          (usedNames db) := by
        refine List.subperm_ext_iff.mpr (fun name _ => ?_)
        have split := (perm.map Table.name).count_eq name
        rw [List.map_append, output_names, named, List.count_append] at split
        have kept :=
          ((List.filter_sublist (p := notAmong (tableIds job.inputs)) (l := db.sstables)).map Table.name).count_le name
        simp only [usedNames, workSeqs, jobs, List.flatMap_append, List.flatMap_cons, List.map_append,
          List.count_append]
          at kept split ⊢
        omega
      cases worker <;>
        exact ⟨⟨0, by rw [usedNames, held]; exact taken, le_refl _⟩, fun n member => .inl (members n (held ▸ member))⟩
  | _ => exact renames_same db _ rfl rfl (le_refl _)

theorem sound_work_named (db : DB) (i : Nat) (log : ValueLog) (sound : Sound serial db i log) : WorkNamed db := by
  refine ⟨fun job running => ⟨?_, (sound.flusher job running).reserved⟩,
    fun job inside => (sound.merges job inside).seqs, fun job inside => (sound.merges job inside).named⟩
  cases flushing : db.hasFlushing with
  | true => rfl
  | false =>
      rw [sound.idle flushing] at running
      cases running

theorem reserved_of_names (db : DB) (small : ∀ n ∈ workSeqs db, n < 2 ^ 64) :
    reservedSeqs db = (usedNames db).map seqOfPath := by
  rw [usedNames, List.map_append, seqs_of_names _ small, List.map_map, reservedSeqs, List.append_assoc]
  rfl

theorem move_renumbers (cfg : Config) (db next : DB) (i : Nat) (log : ValueLog) (kind : Kind) (ops : List DiskOp)
    (garbage : List Bytes) (sound : Sound serial db i log) (numbered : Numbered db)
    (move : Move cfg found db kind next ops garbage) (bound : next.nextSeq < 2 ^ 64) : Renumbers db next := by
  have renames := move_renames cfg db next kind ops garbage (sound_work_named db i log sound) move
  obtain ⟨count, taken, counter⟩ := renames.taken
  have before : db.nextSeq < 2 ^ 64 := by omega
  have oldSmall : ∀ n ∈ workSeqs db, n < 2 ^ 64 := fun n member =>
    Nat.lt_trans (numbered.fresh n (by rw [reservedSeqs, List.append_assoc]; exact List.mem_append_right _ member))
      before
  have newSmall : ∀ n ∈ workSeqs next, n < 2 ^ 64 := fun n member =>
    (renames.work n member).elim (oldSmall n) (fun new => Nat.lt_trans new.2 bound)
  have rangeSmall : ∀ n ∈ List.range' db.nextSeq count, n < 2 ^ 64 := fun n member => by
    have inside := (List.mem_range'_1.mp member).2
    omega
  refine ⟨fun table member => ?_, count, ?_, counter⟩
  · have canonical : ∀ n, n < 2 ^ 64 → table.name = sstName n → table.name = sstName (tableSeq table) := by
      intro n small same
      rw [tableSeq, same, seq_of_sst_name n small]
    rcases List.mem_append.mp (taken.subset (List.mem_append_left _ (List.mem_map_of_mem member))) with new | old
    · obtain ⟨n, inside, same⟩ := List.mem_map.mp new
      exact canonical n (rangeSmall n inside) same.symm
    · rcases List.mem_append.mp old with table' | work
      · obtain ⟨other, inside, same⟩ := List.mem_map.mp table'
        rw [tableSeq, ← same]
        exact numbered.named other inside
      · obtain ⟨n, inside, same⟩ := List.mem_map.mp work
        exact canonical n (oldSmall n inside) same.symm
  · have mapped := subperm_map seqOfPath _ _ taken
    rw [List.map_append, seqs_of_names _ rangeSmall, ← reserved_of_names next newSmall,
      ← reserved_of_names db oldSmall] at mapped
    exact mapped

theorem move_numbered (cfg : Config) (db next : DB) (i : Nat) (log : ValueLog) (kind : Kind) (ops : List DiskOp)
    (garbage : List Bytes) (sound : Sound serial db i log) (numbered : Numbered db)
    (move : Move cfg found db kind next ops garbage) (bound : next.nextSeq < 2 ^ 64) : Numbered next :=
  renumbers_numbered db next numbered
    (move_renumbers cfg db next i log kind ops garbage sound numbered move bound)

theorem fresh_numbered : Numbered DB.fresh :=
  ⟨by simp [DB.fresh], by simp [reservedSeqs, flushSeqs, inFlight, DB.fresh],
    by simp [reservedSeqs, flushSeqs, inFlight, DB.fresh]⟩

end Tombstash
