import Tombstash.Quiescence

set_option autoImplicit false

namespace Tombstash

theorem pick_leveled_exact (cfg : Config) (tables : List Table)
    (small : ∀ source, sourceLevel cfg tables = some source → source < intMax) :
    pickLeveled cfg tables = chooseLeveled cfg tables := by
  rw [pickLeveled, chooseLeveled]
  by_cases pending : leveledPending cfg tables = true
  · rw [if_pos pending, if_pos pending]
    cases selected : sourceLevel cfg tables with
    | none => rfl
    | some source =>
        dsimp only
        cases chosen : sourceTables tables source with
        | none => rfl
        | some taken => simp only [if_neg (not_le.mpr (small source selected))]
  · rw [if_neg pending, if_neg pending]

theorem build_groups_done (cfg : Config) (seqs : List Nat) (groups : List (List Record))
    (all : ∀ group ∈ groups, ∃ bytes sst, buildAndOpen cfg group = .ok (bytes, sst))
    (same : seqs.length = groups.length) :
    ∃ ops, buildGroups cfg seqs groups = .ok (ops, (seqs.map sstName).zip (groups.map (builtTable cfg))) := by
  induction groups generalizing seqs with
  | nil =>
      have none : seqs = [] := List.eq_nil_of_length_eq_zero same
      subst none
      exact ⟨[], rfl⟩
  | cons group rest ih =>
      cases seqs with
      | nil => simp at same
      | cons seq seqs =>
          obtain ⟨bytes, sst, built⟩ := all group (by simp)
          obtain ⟨ops, others⟩ := ih seqs (fun other member => all other (by simp [member])) (by simpa using same)
          have here : builtTable cfg group = sst := by rw [builtTable, built]
          refine ⟨writeTable (sstName seq) bytes ++ ops, ?_⟩
          rw [buildGroups, built, others, List.map_cons, List.map_cons, List.zip_cons_cons, here]
          rfl

theorem step_within (cfg : Config) (db : DB) (label : Label) (effect : Effect)
    (done : perform cfg db label = some effect) (limits : WithinLimits effect.db) :
    step cfg db label = some effect := by
  rw [step, done, Option.filter_some, if_pos (decide_eq_true limits)]

def leveledJob (pick : LeveledPick) (seqs : List Nat) (groups : Option (List (List Record)))
    (built : Option (List DiskOp × List (Bytes × SSTable))) : MergeJob :=
  ⟨pick.inputs, pick.dropTombstones, pick.destLevel, true, seqs, groups, built⟩

-- The store while the compactor is at work and nothing else is.
def working (db : DB) (seq : Nat) (job : MergeJob) :
    DB := { db with nextSeq := seq, compacting := true, compactor := some job }

section Working

variable (cfg : Config) (db : DB) (pick : LeveledPick) (limits : db.sstables.length < 2 ^ 31)

include limits

theorem compactor_picks (strategy : cfg.leveled = true) (idle : db.compactor = none) (numbers : db.nextSeq < 2 ^ 64)
    (picked : pickLeveled cfg db.sstables = some pick) :
    step cfg db .compactorPick = quiet (working db db.nextSeq (leveledJob pick [] none none)) := by
  refine step_within cfg db _ _ ?_ ⟨numbers, limits⟩
  rw [perform, idle]
  simp only [pickJob, strategy, if_true, picked, Option.map_some]
  rfl

theorem compactor_merges (numbers : db.nextSeq < 2 ^ 64) (merged : List Record)
    (merges : mergeRecords (pick.inputs.map Table.sst) pick.dropTombstones = .ok merged) :
    step cfg (working db db.nextSeq (leveledJob pick [] none none)) (.mergeRun .compactor) =
      quiet (working db db.nextSeq
        (leveledJob pick [] (some (splitGroups cfg.leveledTargetBytes [] 0 merged)) none)) := by
  have merging : runMerge cfg (leveledJob pick [] none none) =
      .ok (leveledJob pick [] (some (splitGroups cfg.leveledTargetBytes [] 0 merged)) none) := by
    rw [runMerge, leveledJob, merges]
    rfl
  refine step_within cfg _ _ _ ?_ ⟨numbers, limits⟩
  have held : (working db db.nextSeq (leveledJob pick [] none none)).job .compactor = some
    (leveledJob pick [] none none) := rfl
  have unmerged : (leveledJob pick [] none none).groups.isNone = true := rfl
  simp only [perform, held, unmerged, if_true, merging]
  rfl

theorem compactor_reserves (groups : List (List Record)) (numbers : db.nextSeq + groups.length < 2 ^ 64)
    (ops : List DiskOp) (outputs : List (Bytes × SSTable))
    (built : buildGroups cfg (List.range' db.nextSeq groups.length) groups = .ok (ops, outputs)) :
    step cfg (working db db.nextSeq (leveledJob pick [] (some groups) none)) .mergeReserve =
      quiet (working db (db.nextSeq + groups.length)
        (leveledJob pick (List.range' db.nextSeq groups.length) (some groups)
        (some (ops ++ [.fsyncDir], outputs)))) := by
  have starting : startBuild cfg (leveledJob pick [] (some groups) none) (List.range' db.nextSeq groups.length) groups =
      .ok (leveledJob pick (List.range' db.nextSeq groups.length) (some groups)
        (some (ops ++ [.fsyncDir], outputs))) := by
    rw [startBuild, built]
    rfl
  refine step_within cfg _ _ _ ?_ ⟨numbers, limits⟩
  have held : (working db db.nextSeq (leveledJob pick [] (some groups) none)).compactor =
      some (leveledJob pick [] (some groups) none) := rfl
  have merged : (leveledJob pick [] (some groups) none).groups = some groups := rfl
  have unbuilt : (leveledJob pick [] (some groups) none).built = none := rfl
  have numbered : (working db db.nextSeq (leveledJob pick [] (some groups) none)).nextSeq = db.nextSeq := rfl
  simp only [perform, held, merged, unbuilt, numbered, starting]
  rfl

theorem compactor_writes (seq : Nat) (seqs : List Nat) (groups : List (List Record)) (numbers : seq < 2 ^ 64)
    (ops : List DiskOp) (outputs : List (Bytes × SSTable)) (rest : List Label) :
    run cfg (working db seq (leveledJob pick seqs (some groups) (some (ops, outputs))))
        (List.replicate ops.length (.mergeIo .compactor) ++ rest) =
      run cfg (working db seq (leveledJob pick seqs (some groups) (some ([], outputs)))) rest := by
  induction ops with
  | nil => rfl
  | cons op ops ih =>
      have stepped : step cfg (working db seq (leveledJob pick seqs (some groups) (some (op :: ops, outputs))))
        (.mergeIo .compactor) =
          some { db := working db seq (leveledJob pick seqs (some groups) (some (ops, outputs))), ops := [op] } :=
        step_within cfg _ _ _ rfl ⟨numbers, limits⟩
      rw [List.length_cons, List.replicate_succ, List.cons_append, run, stepped]
      exact ih

end Working

theorem compactor_round (cfg : Config) (db : DB) (strategy : cfg.leveled = true) (idle : db.compactor = none)
    (calm : db.compacting = false) (state : LeveledState db) (all : AllBuild cfg db) (low : 1 ≤ cfg.minMerge)
    (high : (cfg.minMerge : Int) ≤ intMax) (pending : leveledPending cfg db.sstables = true)
    (small : ∀ source, sourceLevel cfg db.sstables = some source → source < intMax)
    (limits : db.sstables.length < 2 ^ 31)
    (nextLimits : ∀ next, doLeveledCompaction cfg (builtTable cfg) db = .ok (some next) → WithinLimits next) :
    ∃ next count, doLeveledCompaction cfg (builtTable cfg) db = .ok (some next) ∧
      run cfg db (.compactorPick :: .mergeRun .compactor :: .mergeReserve ::
        (List.replicate count (.mergeIo .compactor) ++ [.mergeInstall .compactor])) = some next := by
  obtain ⟨pick, merged, source, newer, older, rest, picked, merges, round⟩ :=
    leveled_merge cfg (builtTable cfg) db state low high pending
  have done := do_leveled_done cfg (builtTable cfg) db pick merged picked merges
  have within := nextLimits _ done
  have merging := compactor_merges cfg db pick limits (lt_of_le_of_lt (Nat.le_add_right _ _) within.1) merged merges
  generalize splitGroups cfg.leveledTargetBytes [] 0 merged = groups at done within round merging
  have numbers : db.nextSeq + groups.length < 2 ^ 64 := within.1
  obtain ⟨ops, built⟩ := build_groups_done cfg (List.range' db.nextSeq groups.length) groups
    (fun group member => all group (round.ascending group member) (round.origin group member)) (by simp)
  rw [← pick_leveled_exact cfg db.sstables small] at picked
  have picking := compactor_picks cfg db pick limits strategy idle (by omega) picked
  have reserving := compactor_reserves cfg db pick limits groups numbers ops _ built
  refine ⟨_, (ops ++ [FsOp.fsyncDir]).length, done, ?_⟩
  rw [run, picking, quiet, Option.bind_some, run, merging, quiet, Option.bind_some, run, reserving,
    quiet, Option.bind_some, compactor_writes cfg db pick limits _ _ groups numbers]
  rw [run, step_within cfg _ (.mergeInstall .compactor) _ rfl within, Option.bind_some, run]
  obtain ⟨memtable, flushing, hasFlushing, flushingSeq, sstables, logs, vlogs, gen, nextSeq, bloom, compacting,
    nextId, waiters, flusher, compactor, callers⟩ := db
  cases idle
  cases calm
  rfl

end Tombstash
