import Tombstash.Failures
import Tombstash.Interleave
import Tombstash.Tiered

set_option autoImplicit false

namespace Tombstash

variable {found : Bytes}

-- The steps that need no further call: those of the background threads, and of
-- a writer that waits in maybe_seal.
def Label.unattended (label : Label) : Bool := label.background || decide (label = .wakeSeal)

def compactionPending (cfg : Config) (db : DB) : Bool :=
  if cfg.leveled then leveledPending cfg db.sstables
  else (pickCompaction cfg.bucket (db.sstables.map Table.sst) cfg.minMerge).isSome

-- What wait_for_idle waits for.
def isIdle (cfg : Config) (db : DB) : Bool := !db.compacting && !compactionPending cfg db && !db.hasFlushing

def failure {A : Type} : Except Error A → Option Error
  | .error e => some e
  | .ok _ => none

-- The exception that the work of a label outside the lock ends with.
def thrown (cfg : Config) (db : DB) : Label → Option Error
  | .flusherSeparate =>
      match db.flusher with
      | some job =>
          match job.built, job.pending, db.logs[job.log]? with
          | none, rec :: _, some log => failure (separateRecord cfg log rec)
          | _, _, _ => none
      | none => none
  | .flusherBuild =>
      match db.flusher with
      | some job =>
          match job.built, job.pending, db.logs[job.log]? with
          | none, [], some _ => failure (buildAndOpen cfg job.finished)
          | _, _, _ => none
      | none => none
  | .mergeRun worker =>
      match db.job worker with
      | some job => if job.groups.isNone then failure (runMerge cfg job) else none
      | none => none
  | _ => none

-- The steps that a flush has left, with those of its table's merges apart.
def flushSteps (db : DB) : Nat :=
  match db.flusher with
  | none => if db.hasFlushing then db.flushingMemtable.snapshot.length + 9 else 0
  | some job =>
      match job.built with
      | none => job.pending.length + 8
      | some (ops, _) => ops.length + 1

def mergeSteps (db : DB) : Nat :=
  match db.compactor with
  | none => 0
  | some job =>
      match job.built with
      | none => 7
      | some (ops, _) => ops.length + 1

-- The tables that a running merge will make one of, all but that one.
def mergedAway (db : DB) : Nat :=
  match db.compactor with
  | none => 0
  | some job => job.inputs.length - 1

def tablesLeft (db : DB) : Nat := db.sstables.length + (if db.hasFlushing then 1 else 0) - mergedAway db

def memtableSteps (db : DB) : Nat := if db.memtable.isEmpty then 0 else db.memtable.snapshot.length + 17

-- Each merge takes away a table at least, and takes eight steps.
def workLeft (db : DB) : Nat := db.sealWaiters + memtableSteps db + flushSteps db + mergeSteps db + 8 * tablesLeft db

-- A size-tiered merge is built in one piece of work.
def Whole (db : DB) :
    Prop := ∀ job, db.compactor = some job → job.leveled = false → job.built = none → job.groups = none

theorem build_one_steps (cfg : Config) (seqs : List Nat) (records : List Record) (ops : List DiskOp)
    (outputs : List (Bytes × SSTable)) (done : buildGroups cfg seqs [records] = .ok (ops, outputs)) :
    ops.length ≤ 4 := by
  cases seqs with
  | nil =>
      cases done
      exact Nat.zero_le _
  | cons seq rest =>
      rw [buildGroups] at done
      obtain ⟨table, built, done⟩ := bind_returns _ _ _ done
      have last : buildGroups cfg rest [] = .ok ([], []) := by cases rest <;> rfl
      rw [last] at done
      cases done
      exact Nat.le_refl _

theorem run_merge_whole (cfg : Config) (job next : MergeJob) (done : runMerge cfg job = .ok next) :
    next.inputs = job.inputs ∧ next.leveled = job.leveled ∧
      (job.leveled = false → ∃ ops outputs, next.built = some (ops, outputs) ∧ ops.length ≤ 5) := by
  rw [runMerge] at done
  obtain ⟨records, merges, done⟩ := bind_returns _ _ _ done
  split at done
  · next leveled =>
      cases done
      exact ⟨rfl, rfl, fun tiered => by rw [leveled] at tiered; cases tiered⟩
  · obtain ⟨ops, outputs, built, rfl⟩ := start_build_spec cfg job next _ _ done
    refine ⟨rfl, rfl, fun _ => ⟨_, _, rfl, ?_⟩⟩
    rw [List.length_append]
    exact Nat.add_le_add_right (build_one_steps cfg job.seqs records ops outputs built) 1

theorem move_whole (cfg : Config) (db next : DB) (kind : Kind) (ops : List DiskOp) (garbage : List Bytes)
    (move : Move cfg found db kind next ops garbage) (whole : Whole db) : Whole next := by
  cases move with
  | picked middle job noJob picks =>
      intro other same tiered unbuilt
      cases same
      exact (pick_job_fresh cfg db middle job picks).2.unmerged
  | merged worker job later running unmerged merges =>
      cases worker with
      | caller index => exact whole
      | compactor =>
          intro other same tiered unbuilt
          cases same
          obtain ⟨_, same, built⟩ := run_merge_whole cfg job later merges
          obtain ⟨work, outputs, there, _⟩ := built (same.symm.trans tiered)
          rw [there] at unbuilt
          cases unbuilt
  | reserved job later groups running grouped unbuilt builds =>
      intro other same tiered none
      cases same
      obtain ⟨work, outputs, _, rfl⟩ := start_build_spec cfg job later _ _ builds
      cases none
  | mergeIo worker job op rest outputs running building =>
      cases worker with
      | caller index => exact whole
      | compactor =>
          intro other same tiered unbuilt
          cases same
          cases unbuilt
  | installed worker job outputs running complete =>
      cases worker with
      | compactor =>
          intro other same
          cases same
      | caller index =>
          have kept : (installJob db job outputs).compactor = db.compactor := by
            obtain ⟨_, _, frame⟩ := install_job_frame db job outputs
            rw [frame]
          intro other same
          exact whole other (kept.symm.trans same)
  | _ => exact whole

-- A size-tiered store without compact_all.
structure Working (cfg : Config) (db : DB) : Prop where
  inv : ∃ history, Inv cfg db history
  sized : SizedMems db
  whole : Whole db
  callers : db.callers = []

theorem fresh_working (cfg : Config) : Working cfg DB.fresh := by
  refine ⟨⟨[], fresh_inv cfg⟩, ⟨logged_empty, logged_empty⟩, fun job running => ?_, rfl⟩
  cases running

theorem move_working (cfg : Config) (db next : DB) (kind : Kind) (ops : List DiskOp) (garbage : List Bytes)
    (tiered : cfg.leveled = false) (working : Working cfg db) (move : Move cfg found db kind next ops garbage)
    (background : kind ≠ .pickedAll) (bound : next.nextSeq < 2 ^ 64) : Working cfg next := by
  obtain ⟨⟨history, inv⟩, sized, whole, callers⟩ := working
  have calm : kind.Picks → inFlight db = [] := by
    intro picks
    cases move with
    | picked middle job noJob chosen => rw [inFlight, noJob, callers]; rfl
    | pickedAll many => exact absurd rfl background
    | _ => cases picks
  have kept := move_inv cfg db next history kind ops garbage inv move calm
    (fun _ leveled => by rw [tiered] at leveled; cases leveled) bound
  obtain ⟨i, log, _, _, _, _, sound, _⟩ := inv.refined
  exact ⟨⟨_, kept.inv⟩, move_sized cfg db i log kind next ops garbage sound move sized,
    move_whole cfg db next kind ops garbage move whole, move_callers cfg db next kind ops garbage move
    background callers⟩

theorem step_working (cfg : Config) (db : DB) (label : Label) (effect : Effect) (tiered : cfg.leveled = false)
    (working : Working cfg db) (background : label ≠ .compactAllPick) (done : step cfg db label = some effect) :
    Working cfg effect.db := by
  obtain ⟨⟨middle, front, back, early, late, first, second, takes, one, two, _, _, _⟩, bound, _⟩ :=
    step_moves cfg db label effect done
  obtain ⟨_, _, all⟩ := takes_picks label first second takes
  obtain ⟨_, _, _, notAll, _⟩ := plain_kind second (takes_plain label first second takes)
  have middleBound := lt_of_le_of_lt (move_counter cfg middle effect.db second back late two) bound
  have between :=
    move_working cfg db middle first front early tiered working one (fun pick => background (all pick)) middleBound
  exact move_working cfg middle effect.db second back late tiered between two notAll bound

theorem run_working (cfg : Config) (db later : DB) (labels : List Label) (tiered : cfg.leveled = false)
    (working : Working cfg db) (background : .compactAllPick ∉ labels) (done : run cfg db labels = some later) :
    Working cfg later := by
  induction labels generalizing db with
  | nil =>
      cases done
      exact working
  | cons label rest ih =>
      rw [List.mem_cons, not_or] at background
      obtain ⟨effect, stepped, remaining⟩ := Option.bind_eq_some_iff.mp done
      exact ih effect.db (step_working cfg db label effect tiered working (fun same => background.1 same.symm) stepped)
        background.2 remaining

theorem working_sound (cfg : Config) (db : DB) (working : Working cfg db) : ∃ i log, Sound True db i log := by
  obtain ⟨history, inv⟩ := working.inv
  obtain ⟨i, log, _, _, _, _, sound, _⟩ := inv.refined
  exact ⟨i, log, sound⟩

theorem working_inputs (cfg : Config) (db : DB) (job : MergeJob) (tiered : cfg.leveled = false)
    (working : Working cfg db) (running : db.compactor = some job) :
    ∃ front back, db.sstables = front ++ job.inputs ++ back ∧ job.inputs ≠ [] ∧ job.leveled = false := by
  obtain ⟨⟨history, inv⟩, _, _, _⟩ := working
  have flight : job ∈ inFlight db := by simp [inFlight, running]
  have flat := inv.arranged.strategy tiered job flight
  obtain ⟨front, back, split, _⟩ := (inv.arranged.placed job flight).tiered flat
  obtain ⟨i, log, _, _, _, _, sound, _⟩ := inv.refined
  exact ⟨front, back, split, (sound.merges job flight).nonempty, flat⟩

theorem picked_many (cfg : Config) (db next : DB) (job : MergeJob) (tiered : cfg.leveled = false)
    (picks : pickJob cfg db = some (next, job)) : 2 ≤ job.inputs.length := by
  rw [pickJob, tiered, if_neg (by simp)] at picks
  obtain ⟨pick, chosen, same⟩ := Option.map_eq_some_iff.mp picks
  cases same
  have spec := pick_compaction_spec cfg.bucket (db.sstables.map Table.sst) cfg.minMerge
  rw [chosen] at spec
  obtain ⟨least, i, j, b, preferred, rfl⟩ := spec
  have bounded := maximal_run_inside _ _ _ _ preferred.qualifies.1
  have long := preferred.qualifies.2
  rw [bucketsOf, List.length_map, List.length_map] at bounded
  have inputs := range_filter_map db.sstables i (j - i) (by omega)
  rw [runPick, inputs, List.length_take, List.length_drop]
  omega

theorem flush_drops (db : DB) (logs : List ValueLog) (job : FlushJob)
    (drops : flushSteps { db with logs := logs, flusher := some job } < flushSteps db) :
    workLeft { db with logs := logs, flusher := some job } < workLeft db := by
  show db.sealWaiters + memtableSteps db + flushSteps _ + mergeSteps db + 8 * tablesLeft db < _
  rw [workLeft]
  omega

theorem merge_drops (db : DB) (job next : MergeJob) (running : db.compactor = some job)
    (same : next.inputs = job.inputs) (drops : mergeSteps { db with compactor := some next } < mergeSteps db) :
    workLeft { db with compactor := some next } < workLeft db := by
  have tables : tablesLeft { db with compactor := some next } = tablesLeft db := by
    simp only [tablesLeft, mergedAway, running, same]
  show db.sealWaiters + memtableSteps db + flushSteps db + mergeSteps _ + 8 * tablesLeft _ < _
  rw [workLeft, tables]
  omega

section Descent

variable (cfg : Config) (db : DB) (tiered : cfg.leveled = false) (working : Working cfg db)

include tiered working

theorem merged_away_bound : mergedAway db ≤ db.sstables.length := by
  cases running : db.compactor with
  | none => simp [mergedAway, running]
  | some job =>
      obtain ⟨front, back, split, _⟩ := working_inputs cfg db job tiered working running
      simp only [mergedAway, running, split, List.length_append]
      omega

theorem publish_drops (job : FlushJob) (sst : SSTable) (running : db.flusher = some job)
    (complete : job.built = some ([], sst)) :
    workLeft (flusherPublish db job sst) < workLeft db := by
  have bound := merged_away_bound cfg db tiered working
  obtain ⟨i, log, sound⟩ := working_sound cfg db working
  have has : db.hasFlushing = true := by
    cases free : db.hasFlushing with
    | true => rfl
    | false => rw [sound.idle free] at running; cases running
  have steps : flushSteps db = 1 := by simp [flushSteps, running, complete]
  have tables : tablesLeft (flusherPublish db job sst) = tablesLeft db := by
    simp only [tablesLeft, flusherPublish, has, List.length_cons, if_true]
    rfl
  show db.sealWaiters + memtableSteps db + 0 + mergeSteps db + 8 * tablesLeft (flusherPublish db job sst) < _
  rw [workLeft, tables, steps]
  omega

theorem merged_drops (job next : MergeJob) (running : db.compactor = some job) (unmerged : job.groups = none)
    (merges : runMerge cfg job = .ok next) : workLeft { db with compactor := some next } < workLeft db := by
  obtain ⟨_, _, _, _, flat⟩ := working_inputs cfg db job tiered working running
  obtain ⟨i, log, sound⟩ := working_sound cfg db working
  have unbuilt := (sound.merges job (by simp [inFlight, running])).waiting unmerged
  obtain ⟨inputs, _, built⟩ := run_merge_whole cfg job next merges
  obtain ⟨ops, outputs, there, few⟩ := built flat
  refine merge_drops db job next running inputs ?_
  simp only [mergeSteps, running, unbuilt, there]
  omega

theorem install_drops (job : MergeJob) (outputs : List (Bytes × SSTable)) (running : db.compactor = some job)
    (complete : job.built = some ([], outputs)) :
    workLeft (mergeInstall db .compactor job outputs).db < workLeft db := by
  obtain ⟨front, back, split, filled, flat⟩ := working_inputs cfg db job tiered working running
  obtain ⟨i, log, sound⟩ := working_sound cfg db working
  have merge := sound.merges job (by simp [inFlight, running])
  obtain ⟨⟨name, sst⟩, rfl⟩ := (built_outputs db.sstables job [] outputs merge complete).1 flat
  have distinct := sound.distinct
  rw [split] at distinct
  obtain ⟨awayFront, awayBack⟩ := nodup_middle front job.inputs back distinct
  have steps : mergeSteps db = 1 := by simp [mergeSteps, running, complete]
  have positive := List.length_pos_iff.mpr filled
  simp only [mergeInstall, installJob, flat, installMergeResult, DB.endJob, Bool.false_eq_true, if_false]
  rw [split, replace_inputs_segment (tableIds job.inputs) _ front job.inputs back filled
    (fun table member => List.mem_map_of_mem member) awayFront awayBack]
  show db.sealWaiters + memtableSteps db + flushSteps db + 0 + 8 * tablesLeft _ < _
  simp only [workLeft, tablesLeft, mergedAway, running, steps, split, List.length_append,
    List.length_cons, List.length_nil]
  omega

theorem wake_drops (effect : Effect) (done : perform cfg db .wakeSeal = some effect) :
    workLeft effect.db < workLeft db := by
  simp only [perform] at done
  split at done
  · next ready =>
      obtain ⟨waiting, free⟩ := ready
      have bound := merged_away_bound cfg db tiered working
      obtain ⟨i, log, sound⟩ := working_sound cfg db working
      have idle := sound.idle free
      cases done
      cases filled : db.memtable.isEmpty with
      | true =>
          simp only [sealLocked, filled, if_true]
          show (db.sealWaiters - 1) + memtableSteps db + flushSteps db + mergeSteps db + 8 * tablesLeft db < _
          rw [workLeft]
          omega
      | false =>
          simp only [sealLocked, filled, Bool.false_eq_true, if_false]
          show (db.sealWaiters - 1) + 0 + flushSteps _ + mergeSteps db + 8 * tablesLeft _ < _
          simp only [workLeft, memtableSteps, flushSteps, tablesLeft, mergedAway, idle, free, filled, if_true,
            Bool.false_eq_true, if_false] at bound ⊢
          omega
  · cases done

theorem background_drops (label : Label) (effect : Effect) (background : label.background = true)
    (work : Work cfg db label effect) :
    workLeft effect.db < workLeft db := by
  cases work with
  | snapshot i has noJob index =>
      refine flush_drops db db.logs _ ?_
      simp only [flushSteps, noJob, has, if_true]
      omega
  | separated job rec stored rest log later ops running unbuilt waiting object separates =>
      refine flush_drops db _ _ ?_
      simp only [flushSteps, running, unbuilt, waiting, List.length_cons]
      omega
  | built job log bytes sst running unbuilt finished object builds =>
      refine flush_drops db db.logs _ ?_
      simp only [flushSteps, running, unbuilt, finished, writeTable, List.length_append,
        List.length_cons, List.length_nil]
      split <;> simp
  | flushIo job op rest sst running building =>
      refine flush_drops db db.logs _ ?_
      simp only [flushSteps, running, building, List.length_cons]
      omega
  | published job sst running complete => exact publish_drops cfg db tiered working job sst running complete
  | picked next job noJob picks =>
      have many := picked_many cfg db next job tiered picks
      obtain ⟨rfl, shape, _, front, back, split, _⟩ := pick_job_tiered cfg db next job tiered picks
      have unbuilt : job.built = none := by rw [shape]
      have sum := congrArg List.length split
      simp only [List.length_append] at sum
      show db.sealWaiters + memtableSteps db + flushSteps db + mergeSteps _ + 8 * tablesLeft _ < _
      simp only [workLeft, mergeSteps, tablesLeft, mergedAway, noJob, unbuilt]
      omega
  | pickedAll many => cases background
  | merged worker job next running unmerged merges =>
      cases worker with
      | compactor => exact merged_drops cfg db tiered working job next running unmerged merges
      | caller index => cases background
  | reserved job next groups running grouped unbuilt builds =>
      -- a size-tiered merge is not cut in groups
      obtain ⟨_, _, _, _, flat⟩ := working_inputs cfg db job tiered working running
      rw [working.whole job running flat unbuilt] at grouped
      cases grouped
  | mergeIo worker job op rest outputs running building =>
      cases worker with
      | compactor =>
          have here : db.compactor = some job := running
          refine merge_drops db job _ running rfl ?_
          simp only [mergeSteps, here, building, List.length_cons]
          omega
      | caller index => cases background
  | installed worker job outputs running complete =>
      cases worker with
      | compactor => exact install_drops cfg db tiered working job outputs running complete
      | caller index => cases background

theorem unattended_drops (label : Label) (effect : Effect) (unattended : label.unattended = true)
    (done : perform cfg db label = some effect) : workLeft effect.db < workLeft db := by
  have labels : label.background = true ∨ label = .wakeSeal := by
    rw [Label.unattended, Bool.or_eq_true, decide_eq_true_eq] at unattended
    exact unattended
  rcases labels with background | rfl
  · exact background_drops cfg db tiered working label effect background
      (perform_work cfg db effect label (background_works label background) done)
  · exact wake_drops cfg db tiered working effect done

end Descent

theorem failure_only_io {A : Type} (result : Except Error A) (io : OnlyIo result) :
    (∃ value, result = .ok value) ∨ ∃ what, failure result = some (.system what) := by
  cases result with
  | ok value => exact .inl ⟨value, rfl⟩
  | error e =>
      obtain ⟨what, rfl⟩ := io e rfl
      exact .inr ⟨what, rfl⟩

-- Some thread can go on, or its call in the file system fails.
def GoesOn (cfg : Config) (db : DB) : Prop :=
  ∃ label, label.unattended = true ∧
    ((∃ effect, perform cfg db label = some effect) ∨ ∃ what, thrown cfg db label = some (.system what))

section Throwing

variable (cfg : Config) (db : DB) (i : Nat) (log : ValueLog) (sound : Sound True db i log)

include sound

theorem separates_only_io (sized : SizedMems db) (job : FlushJob) (rec : Record) (rest : List Record)
    (running : db.flusher = some job) (waiting : job.pending = rec :: rest) : OnlyIo (separateRecord cfg log rec) := by
  obtain ⟨originals, snapshot, _⟩ := (sound.flusher job running).progress
  obtain ⟨_, writes, fits⟩ := sized
  exact separate_record_only_io cfg log rec (snapshot_sized _ writes fits rec (by rw [snapshot, waiting]; simp))

theorem builds_only_io (sized : SizedMems db) (job : FlushJob) (running : db.flusher = some job)
    (finished : job.pending = []) :
    OnlyIo (buildAndOpen cfg job.finished) := by
  obtain ⟨originals, snapshot, separations⟩ := (sound.flusher job running).progress
  rw [finished, List.append_nil] at snapshot
  obtain ⟨_, writes, fits⟩ := sized
  refine build_only_io cfg job.finished ?_ (fun rec member => ?_) (fun rec member => ?_)
  · exact separations_ascending log originals job.finished separations
      (snapshot ▸ snapshot_ascending db.flushingMemtable)
  · obtain ⟨original, inside, separation⟩ := forall_two_right _ _ _ separations rec member
    exact separation_shaped log original rec
      (snapshot_shaped db.flushingMemtable original (snapshot ▸ inside)).1 separation
  · obtain ⟨original, inside, separation⟩ := forall_two_right _ _ _ separations rec member
    exact separation_sized log original rec separation (snapshot_sized _ writes fits original (snapshot ▸ inside))

theorem run_merge_only_io (job : MergeJob) (flat : job.leveled = false) (running : db.compactor = some job) :
    OnlyIo (runMerge cfg job) := by
  have merge := sound.merges job (by simp [inFlight, running])
  obtain ⟨records, merges, ascending, origin, _⟩ := merge_tables_spec job.inputs merge.formed job.dropTombstones
  have storable : ∀ rec ∈ records, Storable rec := by
    intro rec member
    obtain ⟨table, present, inside⟩ := origin rec member
    exact (merge.formed table present).storable rec inside
  obtain ⟨seq, seqs⟩ := merge.seqs flat
  rw [runMerge, flat]
  refine only_io_bind _ _ (by rw [merges]; exact only_io_ok _) (fun merged same => ?_)
  rw [merges] at same
  cases same
  rw [if_neg (by simp), startBuild, seqs, buildGroups]
  have io := build_only_io cfg records ascending (fun rec member => storable_shaped rec (storable rec member))
    (fun rec member => ⟨(storable rec member).key, (storable rec member).value⟩)
  refine only_io_bind _ _ (only_io_bind _ _ io (fun _ _ => ?_)) (fun _ _ => only_io_ok _)
  exact only_io_bind _ _ (only_io_ok _) (fun _ _ => only_io_ok _)

theorem thrown_system (sized : SizedMems db) (flat : ∀ job, db.compactor = some job → job.leveled = false)
    (label : Label) (background : label.background = true) (e : Error) (throws : thrown cfg db label = some e) :
    ∃ what, e = .system what := by
  have fails : ∀ {A : Type} (result : Except Error A), OnlyIo result → failure result = some e →
    ∃ what, e = .system what := by
    intro A result io failed
    cases result with
    | ok value => cases failed
    | error other =>
        cases failed
        exact io e rfl
  cases label with
  | flusherSeparate =>
      simp only [thrown] at throws
      split at throws
      · next job running =>
          split at throws
          · next rec rest other _ waiting object =>
              rw [(sound.flusher job running).target, sound.object] at object
              cases object
              exact fails _ (separates_only_io cfg db i log sound sized job rec rest running waiting) throws
          · cases throws
      · cases throws
  | flusherBuild =>
      simp only [thrown] at throws
      split at throws
      · next job running =>
          split at throws
          · next finished _ => exact fails _ (builds_only_io cfg db i log sound sized job running finished) throws
          · cases throws
      · cases throws
  | mergeRun worker =>
      cases worker with
      | compactor =>
          simp only [thrown, DB.job] at throws
          split at throws
          · next job running =>
              split at throws
              · exact fails _ (run_merge_only_io cfg db i log sound job (flat job running) running) throws
              · cases throws
          · cases throws
      | caller index => cases background
  | _ => cases throws

end Throwing

section GoingOn

variable (cfg : Config) (db : DB) (working : Working cfg db)

include working

theorem separated_goes_on (job : FlushJob) (rec : Record) (rest : List Record) (running : db.flusher = some job)
    (unbuilt : job.built = none) (waiting : job.pending = rec :: rest) : GoesOn cfg db := by
  obtain ⟨i, log, sound⟩ := working_sound cfg db working
  have object : db.logs[job.log]? = some log := by rw [(sound.flusher job running).target]; exact sound.object
  refine ⟨.flusherSeparate, rfl, ?_⟩
  rcases failure_only_io _ (separates_only_io cfg db i log sound working.sized job rec rest running waiting) with
    ⟨⟨later, stored, ops⟩, done⟩ | ⟨what, fails⟩
  · refine .inl (Option.isSome_iff_exists.mp ?_)
    simp only [perform, running, unbuilt, Option.isNone_none, if_true, separateNext, waiting, object, done]
    rfl
  · exact .inr ⟨what, by simp only [thrown, running, unbuilt, waiting, object, fails]⟩

theorem built_goes_on (job : FlushJob) (running : db.flusher = some job) (unbuilt : job.built = none)
    (finished : job.pending = []) :
    GoesOn cfg db := by
  obtain ⟨i, log, sound⟩ := working_sound cfg db working
  have object : db.logs[job.log]? = some log := by rw [(sound.flusher job running).target]; exact sound.object
  refine ⟨.flusherBuild, rfl, ?_⟩
  rcases failure_only_io _ (builds_only_io cfg db i log sound working.sized job running finished) with
    ⟨⟨bytes, sst⟩, done⟩ | ⟨what, fails⟩
  · refine .inl (Option.isSome_iff_exists.mp ?_)
    simp only [perform, running, unbuilt, Option.isNone_none, if_true, flusherBuild, finished, object, done]
    rfl
  · exact .inr ⟨what, by simp only [thrown, running, unbuilt, finished, object, fails]⟩

theorem flusher_goes_on (has : db.hasFlushing = true) : GoesOn cfg db := by
  cases running : db.flusher with
  | none =>
      obtain ⟨i, log, sound⟩ := working_sound cfg db working
      exact ⟨.flusherSnapshot, rfl, .inl ⟨_, by simp only [perform, has, running, (sound_index db i log sound).1]; rfl⟩⟩
  | some job =>
      cases built : job.built with
      | none =>
          cases waiting : job.pending with
          | nil => exact built_goes_on cfg db working job running built waiting
          | cons rec rest => exact separated_goes_on cfg db working job rec rest running built waiting
      | some work =>
          obtain ⟨ops, sst⟩ := work
          cases ops with
          | nil => exact ⟨.flusherPublish, rfl, .inl ⟨_, by simp only [perform, running, built]; rfl⟩⟩
          | cons op rest => exact ⟨.flusherIo, rfl, .inl ⟨_, by simp only [perform, running, built]; rfl⟩⟩

theorem compactor_goes_on (job : MergeJob) (tiered : cfg.leveled = false) (running : db.compactor = some job) :
    GoesOn cfg db := by
  obtain ⟨_, _, _, _, flat⟩ := working_inputs cfg db job tiered working running
  cases built : job.built with
  | none =>
      have unmerged := working.whole job running flat built
      obtain ⟨i, log, sound⟩ := working_sound cfg db working
      refine ⟨.mergeRun .compactor, rfl, ?_⟩
      rcases failure_only_io _ (run_merge_only_io cfg db i log sound job flat running) with ⟨next, done⟩ | ⟨what, fails⟩
      · exact .inl ⟨_, by simp only [perform, DB.job, running, unmerged, Option.isNone_none, if_true, done]; rfl⟩
      · exact .inr ⟨what, by simp only [thrown, DB.job, running, unmerged, Option.isNone_none, if_true, fails]⟩
  | some work =>
      obtain ⟨ops, outputs⟩ := work
      cases ops with
      | nil => exact ⟨.mergeInstall .compactor, rfl, .inl ⟨_, by simp only [perform, DB.job, running, built]; rfl⟩⟩
      | cons op rest => exact ⟨.mergeIo .compactor, rfl, .inl ⟨_, by simp only [perform, DB.job, running, built]; rfl⟩⟩

-- Nobody waits for ever: where no thread can go on, wait_for_idle returns and no
-- writer is left in its wait.
theorem working_goes_on (tiered : cfg.leveled = false) : GoesOn cfg db ∨ isIdle cfg db = true ∧ db.sealWaiters = 0 := by
  cases has : db.hasFlushing with
  | true => exact .inl (flusher_goes_on cfg db working has)
  | false =>
      cases running : db.compactor with
      | some job => exact .inl (compactor_goes_on cfg db working job tiered running)
      | none =>
          by_cases waiting : 0 < db.sealWaiters
          · exact .inl ⟨.wakeSeal, rfl, .inl ⟨_, by simp only [perform, waiting, has, and_self, if_true]; rfl⟩⟩
          · cases chosen : pickCompaction cfg.bucket (db.sstables.map Table.sst) cfg.minMerge with
            | some pick =>
                exact .inl ⟨.compactorPick, rfl, .inl ⟨_, by
                  simp only [perform, running, pickJob, tiered, Bool.false_eq_true, if_false, chosen, Option.map_some];
                    rfl⟩⟩
            | none =>
                obtain ⟨i, log, sound⟩ := working_sound cfg db working
                have calm : db.compacting = false := by rw [sound.flag trivial, inFlight, running, working.callers]; rfl
                exact .inr ⟨by simp [isIdle, compactionPending, tiered, chosen, calm, has], by omega⟩

end GoingOn

theorem unattended_run_drops (cfg : Config) (db later : DB) (labels : List Label) (tiered : cfg.leveled = false)
    (working : Working cfg db) (unattended : ∀ label ∈ labels, label.unattended = true)
    (done : run cfg db labels = some later) :
    labels.length + workLeft later ≤ workLeft db := by
  induction labels generalizing db with
  | nil =>
      cases done
      exact Nat.le_of_eq (Nat.zero_add _)
  | cons label rest ih =>
      obtain ⟨here, others⟩ := List.forall_mem_cons.mp unattended
      obtain ⟨effect, stepped, remaining⟩ := Option.bind_eq_some_iff.mp done
      have less := unattended_drops cfg db tiered working label effect here (Option.filter_eq_some_iff.mp stepped).1
      have next :=
        step_working cfg db label effect tiered working (fun same => by rw [same] at here; cases here) stepped
      have rest := ih effect.db next others remaining
      rw [List.length_cons]
      omega

-- When the clients stop, the background threads and the waiting writers come to
-- an end, whatever order they run in, and wait_for_idle returns then.
theorem background_work_ends (cfg : Config) (before : List Label) (db : DB) (tiered : cfg.leveled = false)
    (background : .compactAllPick ∉ before) (reached : run cfg DB.fresh before = some db) (labels : List Label)
    (later : DB) (unattended : ∀ label ∈ labels, label.unattended = true) (done : run cfg db labels = some later) :
    labels.length ≤ workLeft db ∧ (GoesOn cfg later ∨ isIdle cfg later = true ∧ later.sealWaiters = 0) := by
  have working := run_working cfg DB.fresh db before tiered (fresh_working cfg) background reached
  have bound := unattended_run_drops cfg db later labels tiered working unattended done
  have further : Label.compactAllPick ∉ labels := fun member => by
    have allowed := unattended _ member
    cases allowed
  exact ⟨by omega, working_goes_on cfg later (run_working cfg db later labels tiered working further done) tiered⟩

-- Two sealed memtables, the second by a writer that waits for the first, and
-- the merge of their tables.
def oneFlush : List Label :=
  [.flusherSnapshot, .flusherSeparate, .flusherBuild] ++ List.replicate 5 .flusherIo ++ [.flusherPublish]

def waitingWriter : List Label := [.put [1] [1, 1] false, .put [2] [2, 2] false]

def releasedWriter : List Label :=
  oneFlush ++ [.wakeSeal] ++ oneFlush ++ [.compactorPick, .mergeRun .compactor] ++ ioSteps .compactor ++
    [.mergeInstall .compactor]

theorem released_writer_ends :
    ∃ db later, run (smallStore 3 1000) DB.fresh waitingWriter = some db ∧ db.sealWaiters = 1 ∧
      run (smallStore 3 1000) db releasedWriter = some later ∧ releasedWriter.length ≤ workLeft db ∧
      (GoesOn (smallStore 3 1000) later ∨ isIdle (smallStore 3 1000) later = true ∧ later.sealWaiters = 0) := by
  have value : ((run (smallStore 3 1000) DB.fresh waitingWriter).bind (fun db =>
      (run (smallStore 3 1000) db releasedWriter).map (fun later => db.sealWaiters))) = some 1 := by decide +kernel
  obtain ⟨db, first, value⟩ := Option.bind_eq_some_iff.mp value
  obtain ⟨later, second, waits⟩ := Option.map_eq_some_iff.mp value
  exact ⟨db, later, first, waits, second, background_work_ends _ waitingWriter db rfl (by decide) first
    releasedWriter later (by decide) second⟩

end Tombstash
