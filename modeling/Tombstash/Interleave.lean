import Tombstash.Store

set_option autoImplicit false

namespace Tombstash

variable {found : Bytes}

theorem move_callers (cfg : Config) (db next : DB) (kind : Kind) (ops : List DiskOp) (garbage : List Bytes)
    (move : Move cfg found db kind next ops garbage) (background : kind ≠ .pickedAll) (none : db.callers = []) :
    next.callers = [] := by
  have set : ∀ job worker, (db.setJob job worker).callers = [] := by
    intro job worker
    cases worker <;> simp [DB.setJob, none]
  cases move with
  | pickedAll many => exact absurd rfl background
  | picked picked job noJob picks =>
      obtain ⟨⟨seq, rfl, _⟩, _⟩ := pick_job_fresh cfg db picked job picks
      exact none
  | merged worker job next running unmerged merges => exact set next worker
  | mergeIo worker job op rest outputs running building => exact set _ worker
  | installed worker job outputs running complete =>
      have kept : (installJob db job outputs).callers = [] := by
        obtain ⟨_, _, frame⟩ := install_job_frame db job outputs
        rw [frame]
        exact none
      cases worker <;> simp [DB.endJob, kept]
  | _ => exact none

theorem step_callers (cfg : Config) (db : DB) (label : Label) (effect : Effect) (done : step cfg db label = some effect)
    (background : label ≠ .compactAllPick) (none : db.callers = []) : effect.db.callers = [] := by
  obtain ⟨⟨middle, front, back, early, late, first, second, takes, one, two, _⟩, _⟩ :=
    step_moves cfg db label effect done
  have kind : first ≠ .pickedAll := fun picked => background ((takes_picks label first second takes).2.2 picked)
  exact move_callers cfg middle effect.db second back late two
    (plain_kind second (takes_plain label first second takes)).2.2.2.1
    (move_callers cfg db middle first front early one kind none)

theorem background_calm (cfg : Config) (db : DB) (labels : List Label) (background : .compactAllPick ∉ labels)
    (none : db.callers = []) : CalmRun cfg db labels := by
  induction labels generalizing db with
  | nil => trivial
  | cons label rest ih =>
      rw [List.mem_cons, not_or] at background
      intro effect stepped
      refine ⟨fun picks => ?_, ih effect.db background.2 (step_callers cfg db label effect stepped
        (fun same => background.1 same.symm) none)⟩
      rcases picks with rfl | rfl
      · cases compactor : db.compactor with
        | none => simp [inFlight, compactor, none]
        | some job => simp [step, perform, compactor] at stepped
      · exact absurd rfl background.1

theorem calm_get (cfg : Config) (before after : List Label) (db later : DB) (key : Bytes)
    (first : run cfg DB.fresh before = some db) (second : run cfg db after = some later)
    (calmBefore : CalmRun cfg DB.fresh before) (calmAfter : CalmRun cfg db after) :
    (getLocked db key).finish later.logs key = .ok (valueOf (applied before) key) := by
  obtain ⟨here, order⟩ :=
    run_inv cfg DB.fresh db [] before (fresh_inv cfg) (fun _ => .inl (by simp [DB.fresh])) calmBefore first
  obtain ⟨there, _⟩ := run_inv cfg db later _ after here.inv order calmAfter second
  exact inv_get cfg db _ later.logs key here.inv there.logs (inv_small cfg later _ there.inv)

theorem run_append (cfg : Config) (db : DB) (front back : List Label) :
    run cfg db (front ++ back) = (run cfg db front).bind (fun middle => run cfg middle back) := by
  induction front generalizing db with
  | nil => rfl
  | cons label rest ih =>
      rw [List.cons_append, run, run, Option.bind_assoc]
      exact congrArg _ (funext (fun effect => ih effect.db))

theorem run_callers (cfg : Config) (db later : DB) (labels : List Label) (background : .compactAllPick ∉ labels)
    (none : db.callers = []) (done : run cfg db labels = some later) : later.callers = [] := by
  induction labels generalizing db with
  | nil =>
      cases done
      exact none
  | cons label rest ih =>
      rw [List.mem_cons, not_or] at background
      obtain ⟨effect, stepped, remaining⟩ := Option.bind_eq_some_iff.mp done
      exact ih effect.db background.2
        (step_callers cfg db label effect stepped (fun same => background.1 same.symm) none) remaining

-- Without compact_all a store answers every get with the last write before it.
-- The get may read its tables at any later time.
theorem background_store_refines_map (cfg : Config) (before after : List Label) (db later : DB) (key : Bytes)
    (background : .compactAllPick ∉ before ++ after) (first : run cfg DB.fresh before = some db)
    (second : run cfg db after = some later) :
    (getLocked db key).finish later.logs key = .ok (valueOf (applied before) key) := by
  have early : .compactAllPick ∉ before := fun inside => background (List.mem_append_left _ inside)
  have late : .compactAllPick ∉ after := fun inside => background (List.mem_append_right _ inside)
  exact calm_get cfg before after db later key first second (background_calm cfg DB.fresh before early rfl)
    (background_calm cfg db after late (run_callers cfg DB.fresh db before early rfl first))

-- Buckets of tables within a factor of two, as for a size ratio of 2.
def smallStore (threshold valueSepThreshold : Nat) : Config where
  threshold := threshold
  minMerge := 2
  bucket := fun size => Int.ofNat (Nat.log2 size)
  valueSepThreshold := valueSepThreshold
  leveled := false
  leveledTargetBytes := 2 * threshold
  levelBudget := fun _ => 16 * threshold
  bloomSize := smallBloom

-- Two small tables, and a larger one that deletes a key of the first.
def shadowedKey : List Label :=
  [.put [1] [10] false, .flush, .put [2] [20] false, .flush, .del [1] false, .del (List.replicate 60 7) false, .flush]

def ioSteps (worker : Worker) : List Label := List.replicate 5 (.mergeIo worker)

-- A background merge around which gc replaces everything.
def mergeThenCollect : List Label :=
  [.compactorPick, .mergeRun .compactor] ++ ioSteps .compactor ++ [.mergeInstall .compactor, .gc [], .put [2] [21] true]

theorem small_store_keeps_deletion :
    (run (smallStore 1000 1) DB.fresh shadowedKey).bind (fun db =>
      (run (smallStore 1000 1) db mergeThenCollect).map (fun later => (getLocked db [2]).finish later.logs [2])) =
    some (.ok (some [20])) := by
  obtain ⟨later, whole⟩ := Option.isSome_iff_exists.mp
    (by decide +kernel : (run (smallStore 1000 1) DB.fresh (shadowedKey ++ mergeThenCollect)).isSome = true)
  rw [run_append] at whole
  obtain ⟨db, first, second⟩ := Option.bind_eq_some_iff.mp whole
  have answer := background_store_refines_map (smallStore 1000 1) shadowedKey mergeThenCollect db later [2] (by decide)
    first second
  rw [first, Option.bind_some, second, Option.map_some, answer]
  decide

-- The compactor picks the two oldest tables, then compact_all picks all three
-- and installs first. The late install finds its inputs gone.
def overlappingMerges : List Label :=
  [.compactorPick, .compactAllPick, .mergeRun (.caller 0), .mergeRun .compactor] ++ ioSteps (.caller 0) ++
    ioSteps .compactor ++ [.mergeInstall (.caller 0), .mergeInstall .compactor]

theorem overlapping_merges_resurrect :
    (run (smallStore 1000 1000) DB.fresh (shadowedKey ++ overlappingMerges)).map (fun db => db.get [1]) =
        some (.ok (some [10])) ∧
      valueOf (applied (shadowedKey ++ overlappingMerges)) [1] = none := by
  decide +kernel

theorem calm_append (cfg : Config) (db middle : DB) (front back : List Label) (done : run cfg db front = some middle)
    (calm : CalmRun cfg db (front ++ back)) : CalmRun cfg db front ∧ CalmRun cfg middle back := by
  induction front generalizing db with
  | nil =>
      cases done
      exact ⟨trivial, calm⟩
  | cons label rest ih =>
      obtain ⟨effect, stepped, remaining⟩ := Option.bind_eq_some_iff.mp done
      obtain ⟨here, others⟩ := calm effect stepped
      obtain ⟨early, late⟩ := ih effect.db remaining others
      refine ⟨fun other again => ?_, late⟩
      rw [stepped] at again
      cases again
      exact ⟨here, early⟩

-- With merges that do not overlap, compact_all included, every get returns the
-- last write.
theorem calm_store_refines_map (cfg : Config) (before after : List Label) (db later : DB) (key : Bytes)
    (first : run cfg DB.fresh before = some db) (second : run cfg db after = some later)
    (calm : CalmRun cfg DB.fresh (before ++ after)) :
    (getLocked db key).finish later.logs key = .ok (valueOf (applied before) key) := by
  obtain ⟨early, late⟩ := calm_append cfg DB.fresh db before after first calm
  exact calm_get cfg before after db later key first second early late

-- The same merges one after the other.
def separateMerges : List Label :=
  [.compactorPick, .mergeRun .compactor] ++ ioSteps .compactor ++
    [.mergeInstall .compactor, .compactAllPick, .mergeRun (.caller 0)] ++ ioSteps (.caller 0) ++
    [.mergeInstall (.caller 0)]

theorem separate_merges_keep_deletion :
    (run (smallStore 1000 1000) DB.fresh (shadowedKey ++ separateMerges)).map (fun db => db.get [1]) =
    some (.ok none) := by
  obtain ⟨db, done⟩ := Option.isSome_iff_exists.mp
    (by decide +kernel : (run (smallStore 1000 1000) DB.fresh (shadowedKey ++ separateMerges)).isSome = true)
  have answer := calm_store_refines_map (smallStore 1000 1000) (shadowedKey ++ separateMerges) [] db db [1] done rfl
    (by rw [List.append_nil]; decide +kernel)
  rw [done, Option.map_some, DB.get, answer]
  decide

-- compact_all picks during a background merge and finishes before it.
def clearedFlag : List Label :=
  [.compactorPick, .compactAllPick, .mergeRun (.caller 0), .mergeRun .compactor] ++ ioSteps (.caller 0) ++
    ioSteps .compactor ++ [.mergeInstall (.caller 0)]

def gcStarts (db : DB) : Bool := !db.compacting && !db.hasFlushing

-- gc finds the flag down while the background merge waits to install. The
-- table installed afterwards points into the generation that gc removed.
theorem gc_overlaps_merge :
    (run (smallStore 1000 1) DB.fresh (shadowedKey ++ clearedFlag)).map
    (fun db => (gcStarts db, (inFlight db).length)) =
        some (true, 1) ∧
      (run (smallStore 1000 1) DB.fresh (shadowedKey ++ clearedFlag ++ [.gc [], .mergeInstall .compactor])).map
        (fun db => db.get [1]) = some (.error mapAt) := by
  decide +kernel

-- With merges that do not overlap, gc starts only between merges, and every
-- separated record of a table points into a generation that is open.
theorem calm_gc_excludes_merges (cfg : Config) (labels : List Label) (db : DB)
    (done : run cfg DB.fresh labels = some db) (calm : CalmRun cfg DB.fresh labels) :
    (gcStarts db = true → inFlight db = []) ∧
      ∀ table ∈ db.sstables, ∀ rec ∈ table.sst.records, rec.separated = true →
        ∃ i, logIndex db.vlogs rec.vptr.gen = some i := by
  obtain ⟨kept, _⟩ := run_inv cfg DB.fresh db [] labels (fresh_inv cfg) (fun _ => .inl (by simp [DB.fresh])) calm done
  obtain ⟨i, log, _, _, _, _, sound, _, _⟩ := kept.inv.refined
  refine ⟨fun starts => ?_, fun table member rec inside separated => ⟨i, ?_⟩⟩
  · have down : db.compacting = false := by
      simp only [gcStarts, Bool.and_eq_true, Bool.not_eq_true'] at starts
      exact starts.1
    have flag := sound.flag trivial
    rw [down] at flag
    simpa using flag
  · rw [(sound.ranges trivial table member rec inside separated).1, sound.gen]
    exact (sound_index db i log sound).1

theorem gc_between_merges :
    (run (smallStore 1000 1) DB.fresh (shadowedKey ++ separateMerges)).map
    (fun db => (gcStarts db, (inFlight db).length)) =
      some (true, 0) := by
  obtain ⟨db, done⟩ := Option.isSome_iff_exists.mp
    (by decide +kernel : (run (smallStore 1000 1) DB.fresh (shadowedKey ++ separateMerges)).isSome = true)
  have flag : (run (smallStore 1000 1) DB.fresh (shadowedKey ++ separateMerges)).map gcStarts = some true := by
    decide +kernel
  rw [done, Option.map_some, Option.some.injEq] at flag
  have none := (calm_gc_excludes_merges (smallStore 1000 1) _ db done (by decide +kernel)).1 flag
  rw [done, Option.map_some, none, flag]
  rfl

end Tombstash
