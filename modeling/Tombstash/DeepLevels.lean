import Tombstash.Interleave
import Tombstash.SessionRuns

set_option autoImplicit false

namespace Tombstash

variable {found : Bytes} {serial : Prop}

-- A leveled merge in flight: what it leaves at its level is beside its inputs.
structure LeveledClear (tables : List Table) (job : MergeJob) : Prop where
  deep : 1 ≤ job.destLevel
  bounded : job.destLevel ≤ intMax
  clear : ∀ table ∈ tables, table.id ∉ tableIds job.inputs → table.level = job.destLevel →
    (∀ input ∈ job.inputs, ∀ key, HasKey input key → key < table.sst.minKey) ∨
      (∀ input ∈ job.inputs, ∀ key, HasKey input key → table.sst.maxKey < key)

-- Only the compactor makes tables past level 0, so this holds however merges overlap.
structure Layered (db : DB) : Prop where
  fits : ∀ table ∈ db.sstables, LevelFits table
  apart : db.sstables.Pairwise LevelApart
  callers : ∀ job ∈ db.callers, job.leveled = false
  clear : ∀ job, db.compactor = some job → job.leveled = true → LeveledClear db.sstables job

theorem leveled_clear_flat (tables more : List Table) (job : MergeJob) (clear : LeveledClear tables job)
    (members : ∀ table ∈ more, table ∈ tables ∨ table.level = 0) : LeveledClear more job := by
  refine ⟨clear.deep, clear.bounded, fun table member away level => ?_⟩
  rcases members table member with old | flat
  · exact clear.clear table old away level
  · have deep := clear.deep
    omega

theorem layered_flat (db next : DB) (layered : Layered db)
    (members : ∀ table ∈ next.sstables, table ∈ db.sstables ∨ table.level = 0)
    (apart : next.sstables.Pairwise LevelApart) (callers : ∀ job ∈ next.callers, job.leveled = false)
    (compactor : ∀ job, next.compactor = some job → db.compactor = some job) : Layered next := by
  refine ⟨fun table member => ?_, apart, callers, fun job running leveled =>
    leveled_clear_flat _ _ job (layered.clear job (compactor job running) leveled) members⟩
  rcases members table member with old | flat
  · exact layered.fits table old
  · exact level_fits_flat table flat

theorem layered_same (db next : DB) (layered : Layered db) (tables : next.sstables = db.sstables)
    (callers : next.callers = db.callers) (compactor : next.compactor = db.compactor) : Layered next :=
  layered_flat db next layered (by rw [tables]; exact fun _ member => .inl member) (by rw [tables]; exact layered.apart)
    (by rw [callers]; exact layered.callers) (by rw [compactor]; exact fun _ running => running)

theorem flat_apart (flat other : Table) (zero : flat.level = 0) :
    LevelApart flat other := fun _ deep => absurd zero deep

theorem layered_push (db next : DB) (table : Table) (layered : Layered db)
    (tables : next.sstables = table :: db.sstables) (flat : table.level = 0) (callers : next.callers = db.callers)
    (compactor : next.compactor = db.compactor) : Layered next := by
  refine layered_flat db next layered ?_ ?_ (by rw [callers]; exact layered.callers)
    (by rw [compactor]; exact fun _ running => running)
  · rw [tables]
    intro other member
    rcases List.mem_cons.mp member with rfl | old
    · exact .inr flat
    · exact .inl old
  · rw [tables]
    exact List.pairwise_cons.mpr ⟨fun other _ => flat_apart table other flat, layered.apart⟩

theorem leveled_clear_job (tables : List Table) (job next : MergeJob) (same : SameJob job next)
    (clear : LeveledClear tables job) :
    LeveledClear tables next :=
  ⟨by rw [same.dest]; exact clear.deep, by rw [same.dest]; exact clear.bounded,
    by rw [same.inputs, same.dest]; exact clear.clear⟩

theorem layered_compactor (db next : DB) (job later : MergeJob) (layered : Layered db)
    (running : db.compactor = some job) (same : SameJob job later) (tables : next.sstables = db.sstables)
    (callers : next.callers = db.callers) (compactor : next.compactor = some later) : Layered next := by
  refine ⟨by rw [tables]; exact layered.fits, by rw [tables]; exact layered.apart,
    by rw [callers]; exact layered.callers, ?_⟩
  intro other here leveled
  rw [compactor] at here
  cases here
  rw [tables]
  exact leveled_clear_job _ job later same (layered.clear job running (same.leveled ▸ leveled))

theorem layered_set_job (db : DB) (worker : Worker) (job later : MergeJob) (layered : Layered db)
    (running : db.job worker = some job) (same : SameJob job later) : Layered (db.setJob later worker) := by
  cases worker with
  | compactor => exact layered_compactor db _ job later layered running same rfl rfl rfl
  | caller index =>
      refine layered_flat db _ layered (fun _ member => .inl member) layered.apart (fun other member => ?_)
        (fun _ here => here)
      rcases List.mem_or_eq_of_mem_set member with old | new
      · exact layered.callers other old
      · rw [new, same.leveled]
        exact layered.callers job (List.mem_of_getElem? running)

theorem layered_picked (cfg : Config) (db next : DB) (job : MergeJob)
    (formed : ∀ table ∈ db.sstables, table.sst.WellFormed) (layered : Layered db)
    (picks : pickJob cfg db = some (next, job)) : Layered { next with compactor := some job } := by
  cases strategy : cfg.leveled with
  | false =>
      obtain ⟨rfl, shape, _⟩ := pick_job_tiered cfg db next job strategy picks
      refine ⟨layered.fits, layered.apart, layered.callers, fun other here leveled => ?_⟩
      cases here
      rw [shape] at leveled
      cases leveled
  | true =>
      obtain ⟨rfl, pick, chosen, rfl⟩ := pick_job_leveled cfg db next job strategy picks
      obtain ⟨source, first, rest, choice⟩ := pick_leveled_choice cfg db.sstables pick chosen
      refine ⟨layered.fits, layered.apart, layered.callers, fun other here _ => ?_⟩
      cases here
      have low := choice.nonneg
      have high := choice.bounded
      have dest := choice.dest
      refine ⟨?_, ?_, pick_clear db.sstables pick source first rest formed choice layered.apart layered.fits⟩
      · change 1 ≤ pick.destLevel
        omega
      · change pick.destLevel ≤ intMax
        omega

section Install

variable (db : DB) (i : Nat) (log : ValueLog) (job : MergeJob) (outputs : List (Bytes × SSTable)) (layered : Layered db)
  (merge : MergeSound serial db.sstables job) (complete : job.built = some ([], outputs))

include layered merge complete in
theorem tiered_install_layered (tiered : job.leveled = false) :
    (∀ table ∈ (installJob db job outputs).sstables, table ∈ db.sstables ∨ table.level = 0) ∧
      (installJob db job outputs).sstables.Pairwise LevelApart := by
  obtain ⟨whole, _⟩ := built_outputs db.sstables job [] outputs merge complete
  obtain ⟨tables, eq, perm⟩ := install_job_spec db job outputs whole
  have flat : ∀ table ∈ outputTables db.nextId job.outputLevel outputs, table.level = 0 := by
    intro table member
    rw [(output_tables_member _ _ _ table member).2.2.1, MergeJob.outputLevel, tiered]
    rfl
  rw [eq]
  refine ⟨fun table member => ?_, (perm.pairwise_iff (fun {a b} => symm)).mpr ?_⟩
  · rcases List.mem_append.mp (perm.mem_iff.mp member) with kept | new
    · exact .inl (List.mem_filter.mp kept).1
    · exact .inr (flat table new)
  · refine List.pairwise_append.mpr ⟨layered.apart.sublist List.filter_sublist, ?_, fun a _ b new => ?_⟩
    · exact List.pairwise_of_forall_mem_list (fun a new b _ => flat_apart a b (flat a new))
    · exact symm (flat_apart b a (flat b new))

include layered merge complete in
theorem leveled_install_layered (sound : (tableIds db.sstables).Nodup)
    (older : ∀ table ∈ db.sstables, table.id < db.nextId) (leveled : job.leveled = true)
    (clear : LeveledClear db.sstables job) :
    (∀ table ∈ (installJob db job outputs).sstables, LevelFits table) ∧
      (installJob db job outputs).sstables.Pairwise LevelApart := by
  obtain ⟨whole, _⟩ := built_outputs db.sstables job [] outputs merge complete
  obtain ⟨tables, eq, perm⟩ := install_job_spec db job outputs whole
  obtain ⟨new, newApart⟩ := leveled_outputs db job outputs merge complete leveled
  have dest : job.outputLevel = job.destLevel := by rw [MergeJob.outputLevel, if_pos leveled]
  rw [dest] at perm
  have distinct := installed_ids_nodup db.sstables db.nextId job.destLevel (tableIds job.inputs) outputs sound older
  rw [tableIds, List.map_append] at distinct
  have outputIds := (List.nodup_append.mp distinct).2.1
  rw [eq]
  refine ⟨fun table member => ?_, (perm.pairwise_iff (fun {a b} => symm)).mpr ?_⟩
  · rcases List.mem_append.mp (perm.mem_iff.mp member) with kept | made
    · exact layered.fits table (List.mem_filter.mp kept).1
    · have level := (output_tables_member _ _ _ table made).2.2.1
      have deep := clear.deep
      exact ⟨by omega, by rw [level]; exact clear.bounded, fun _ => (new table made).2.1⟩
  · refine List.pairwise_append.mpr ⟨layered.apart.sublist List.filter_sublist, ?_, fun a inA b inB same _ => ?_⟩
    · refine (List.pairwise_map.mp outputIds).imp_of_mem
        (fun {a b} inA inB different _ _ => newApart a inA b inB different)
    · obtain ⟨present, away⟩ := List.mem_filter.mp inA
      obtain ⟨formed, filled, origin⟩ := new b inB
      have level := (output_tables_member _ _ _ b inB).2.2.1
      exact cleared_apart job a b formed filled origin
        (clear.clear a present (by simpa [notAmong] using away) (same.trans level))

end Install

theorem layered_installed (db : DB) (i : Nat) (log : ValueLog) (worker : Worker) (job : MergeJob)
    (outputs : List (Bytes × SSTable)) (sound : Sound serial db i log) (layered : Layered db)
    (running : db.job worker = some job) (complete : job.built = some ([], outputs)) :
    Layered ({ installJob db job outputs with compacting := false }.endJob worker) := by
  have merge := sound.merges job (job_running db worker job running)
  obtain ⟨whole, _⟩ := built_outputs db.sstables job [] outputs merge complete
  obtain ⟨tables, eq, _⟩ := install_job_spec db job outputs whole
  cases strategy : job.leveled with
  | false =>
      obtain ⟨members, apart⟩ := tiered_install_layered db job outputs layered merge complete strategy
      cases worker with
      | compactor =>
          refine layered_flat db _ layered members apart ?_ nofun
          rw [eq]
          exact layered.callers
      | caller index =>
          refine layered_flat db _ layered members apart (fun other member => ?_) ?_
          · rw [eq] at member
            exact layered.callers other (List.mem_of_mem_eraseIdx member)
          · rw [eq]
            exact fun _ here => here
  | true =>
      cases worker with
      | compactor =>
          obtain ⟨fits, apart⟩ :=
            leveled_install_layered db job outputs layered merge complete sound.distinct sound.older
            strategy (layered.clear job running strategy)
          refine ⟨fits, apart, ?_, nofun⟩
          rw [eq]
          exact layered.callers
      | caller index =>
          have tiered := layered.callers job (List.mem_of_getElem? running)
          rw [strategy] at tiered
          cases tiered

theorem move_layered (cfg : Config) (db : DB) (i : Nat) (log : ValueLog) (kind : Kind) (next : DB) (ops : List DiskOp)
    (garbage : List Bytes) (sound : Sound serial db i log) (move : Move cfg found db kind next ops garbage)
    (layered : Layered db) : Layered next := by
  cases move with
  | flushed k current grown recs vlogOps bytes sst filled free index object separated built =>
      exact layered_push db _ ⟨db.nextId, sstName db.nextSeq, 0, sst⟩ layered rfl rfl rfl rfl
  | published job sst running complete =>
      exact layered_push db _ ⟨db.nextId, sstName job.seq, 0, sst⟩ layered rfl rfl rfl rfl
  | collected merged relocated opened grown vlogOps bytes sst free quiet flushed merges opens relocates built =>
      refine layered_flat db _ layered (fun table member => .inr ?_) (List.pairwise_singleton _ _) layered.callers
        (fun _ here => here)
      rw [List.mem_singleton.mp member]
  | picked picked job noJob picks => exact layered_picked cfg db picked job sound.formed layered picks
  | pickedAll many =>
      refine layered_flat db _ layered (fun _ member => .inl member) layered.apart (fun job member => ?_)
        (fun _ here => here)
      rcases List.mem_append.mp member with old | new
      · exact layered.callers job old
      · rw [List.mem_singleton.mp new]
  | merged worker job later running unmerged merges =>
      exact layered_set_job db worker job later layered running
        (run_merge_sound cfg db.sstables job later (sound.merges job (job_running db worker job running))
          unmerged merges).2
  | reserved job later groups running grouped unbuilt builds =>
      have same : SameJob job later := by
        obtain ⟨_, _, _, rfl⟩ := start_build_spec cfg job later _ groups builds
        exact ⟨rfl, rfl, rfl, rfl⟩
      exact layered_compactor db _ job later layered running same rfl rfl rfl
  | mergeIo worker job op rest outputs running building =>
      exact layered_set_job db worker job _ layered running ⟨rfl, rfl, rfl, rfl⟩
  | installed worker job outputs running complete =>
      exact layered_installed db i log worker job outputs sound layered running complete
  | _ => exact layered_same db _ layered rfl rfl rfl

-- The levels of a MANIFEST and the tables it names.
def DeepStore (m : ManifestData) (ssts : List SSTable) : Prop :=
  (∀ table ∈ tablesFrom 0 m.tables ssts, LevelFits table) ∧ (tablesFrom 0 m.tables ssts).Pairwise LevelApart

theorem layered_saved (db : DB) (seq : Nat) (layered : Layered db) :
    DeepStore (manifestAt seq db) (db.sstables.map Table.sst) := by
  have same := tables_from_map (fun table => (table.level, table.sst)) (fun _ _ => rfl) 0 db.sstables
  refine ⟨fun table member => ?_, ?_⟩
  · have inside := List.mem_map_of_mem (f := fun table : Table => (table.level, table.sst)) member
    rw [manifestAt, manifestOf, same] at inside
    obtain ⟨old, present, eq⟩ := List.mem_map.mp inside
    simp only [Prod.mk.injEq] at eq
    obtain ⟨low, high, filled⟩ := layered.fits old present
    exact ⟨eq.1 ▸ low, eq.1 ▸ high, fun deep => eq.2 ▸ filled (eq.1 ▸ deep)⟩
  · have pairs : (db.sstables.map (fun table => (table.level, table.sst))).Pairwise
        (fun a b => a.1 = b.1 → a.1 ≠ 0 → a.2.maxKey < b.2.minKey ∨ b.2.maxKey < a.2.minKey) :=
      List.pairwise_map.mpr layered.apart
    rw [← same] at pairs
    have back := List.pairwise_map.mp pairs
    exact back

theorem layered_carried : Carried serial Layered DeepStore where
  fresh := ⟨nofun, List.Pairwise.nil, nofun, nofun⟩
  moves := fun cfg _ db i log kind next ops garbage sound _ move =>
    move_layered cfg db i log kind next ops garbage sound move
  saved := layered_saved
  loaded := fun _ _ _ _ _ _ _ _ _ held => ⟨held.1, held.2, nofun, nofun⟩

-- A split into consecutive groups, none of them empty.
def SplitsMerge (job : MergeJob) : Prop :=
  ∀ groups, job.groups = some groups →
    mergeRecords (job.inputs.map Table.sst) job.dropTombstones = .ok groups.flatten ∧ ∀ group ∈ groups, group ≠ []

-- Past level 0 the ranges of a level are those of some keys and disjoint, in
-- every state, with merges that overlap in any way and across sessions.
theorem deep_levels_disjoint (cfg : Config) (start last : Sys) (events : List Event) (starts : start.Starts cfg)
    (done : start.Run events last) :
    (∀ level : Int, 1 ≤ level →
      (∀ table ∈ atLevel last.db.sstables level, table.sst.records ≠ [] ∧ table.sst.minKey ≤ table.sst.maxKey) ∧
      (atLevel last.db.sstables level).Pairwise RangesApart) ∧
    ∀ job ∈ inFlight last.db, job.leveled = true → SplitsMerge job := by
  have running := run_running layered_carried cfg start last events starts done
  obtain ⟨i, log, sound, _⟩ := running.inv.state
  refine ⟨fun level deep => ⟨fun table member => ?_, ?_⟩, fun job inside leveled groups grouped => ?_⟩
  · obtain ⟨present, same⟩ := (mem_at_level _ level table).mp member
    have filled := (running.holds.fits table present).filled (by omega)
    exact ⟨filled,
      (has_key_range table (sound.formed table present) _ (range_ends table (sound.formed table present) filled).1).2⟩
  · refine (running.holds.apart.sublist List.filter_sublist).imp_of_mem (fun {a b} inA inB apart => ?_)
    have levelA := ((mem_at_level _ level a).mp inA).2
    have levelB := ((mem_at_level _ level b).mp inB).2
    exact apart (by omega) (by omega)
  · obtain ⟨records, merges, flat, _, filled⟩ := (sound.merges job inside).merged groups grouped
    exact ⟨by rw [flat]; exact merges, filled leveled⟩

-- Leveled, with tables of one record.
def smallLeveled : Config := { smallStore 1000 1 with leveled := true, leveledTargetBytes := 1 }

-- Two flushes and a merge of level 0.
def mergedLevel : List Event :=
  List.replicate 7 .io ++ whole (.put [1] [2] false) 1 ++ whole .flush 13 ++ whole (.put [2] [3] false) 1 ++
    whole .flush 13 ++ [.lock .compactorPick, .work (.mergeRun .compactor), .lock .mergeReserve] ++
    List.replicate 9 (.work (.mergeIo .compactor)) ++ [.lock (.mergeInstall .compactor)]

theorem merged_level_disjoint :
    ((Sys.fresh smallLeveled).execAll mergedLevel).map (fun s => (atLevel s.db.sstables 1).length) = some 2 ∧
      ∀ last, (Sys.fresh smallLeveled).execAll mergedLevel = some last →
      (atLevel last.db.sstables 1).Pairwise RangesApart := by
  refine ⟨by decide +kernel, fun last done => ?_⟩
  have levels :=
    (deep_levels_disjoint smallLeveled _ last mergedLevel (fresh_starts _) (exec_all_run _ last mergedLevel done)).1
  exact (levels 1 (by decide)).2

end Tombstash
