import Tombstash.Flush
import Tombstash.Work

set_option autoImplicit false

namespace Tombstash

-- What a move does to the write-ahead logs and to the tables, or that it picks,
-- works outside the lock or has nothing to do. Other moves are internal.
inductive Kind where
  | wrote (write : Write) (sync : Bool)
  | synced
  | sealed
  | flushed
  | collected
  | published
  | picked
  | pickedAll
  | worked
  | internal
  | idle
deriving DecidableEq

-- The moves that a section may end with.
def Kind.Plain : Kind → Prop
  | .sealed | .collected | .idle => True
  | _ => False

def Kind.writes : Kind → List Write
  | .wrote write _ => [write]
  | _ => []

def sealedDb (db : DB) : DB :=
  { db with
    flushingSeq := db.nextSeq
    nextSeq := db.nextSeq + 1
    flushingMemtable := db.memtable
    memtable := {}
    hasFlushing := true }

def flushedDb (db : DB) (i : Nat) (log : ValueLog) (sst : SSTable) : DB :=
  { db with
    nextSeq := db.nextSeq + 1
    logs := db.logs.set i log
    sstables := ⟨db.nextId, sstName db.nextSeq, 0, sst⟩ :: db.sstables
    nextId := db.nextId + 1
    memtable := {} }

def collectedDb (db : DB) (log : ValueLog) (sst : SSTable) : DB :=
  { db with
    nextSeq := db.nextSeq + 1
    sstables := [⟨db.nextId, sstName db.nextSeq, 0, sst⟩]
    nextId := db.nextId + 1
    logs := db.logs ++ [log]
    vlogs := [(db.currentGen + 1, db.logs.length)]
    currentGen := db.currentGen + 1 }

def flushOps (db : DB) (log : ValueLog) (vlogOps : List DiskOp) (bytes : Bytes) (next : DB) : List DiskOp :=
  vlogOps ++ (if vlogOps.isEmpty then [] else [FsOp.fsync log.name]) ++ writeTable (sstName db.nextSeq) bytes ++
    [.fsyncDir] ++ writeManifestLocked next ++ [.truncate walName]

-- The moves that the labels are made of, with what the code computes in each.
-- found is what gc finds at the path of the new generation.
inductive Move (cfg : Config) (found : Bytes) (db : DB) : Kind → DB → List DiskOp → List Bytes → Prop
  | rest : Move cfg found db .idle db [] []
  | wrote (write : Write) (bytes : Bytes) (sync : Bool) (encoded : walAppend (writeRecord write) = .ok bytes) :
      Move cfg found db (.wrote write sync) { db with memtable := db.memtable.apply write }
        ([.append walName bytes] ++ if sync then [.fsync walName] else []) []
  | waits (waiters : Nat) : Move cfg found db .idle { db with sealWaiters := waiters } [] []
  | bloom (on : Bool) : Move cfg found db .idle { db with bloomEnabled := on } [] []
  | synced : Move cfg found db .synced db [.fsync walName] []
  | sealed (filled : db.memtable.isEmpty = false) (free : db.hasFlushing = false) :
      Move cfg found db .sealed (sealedDb db)
        [.fsync walName, .rename walName flushingWalName, .fsyncDir, .truncate walName] []
  | flushed (i : Nat) (log later : ValueLog) (recs : List Record) (ops : List DiskOp) (bytes : Bytes) (sst : SSTable)
      (filled : db.memtable.isEmpty = false) (free : db.hasFlushing = false)
      (index : logIndex db.vlogs db.currentGen = some i) (object : db.logs[i]? = some log)
      (separated : separateAll cfg log db.memtable.snapshot = .ok (later, recs, ops))
      (built : buildAndOpen cfg recs = .ok (bytes, sst)) :
      Move cfg found db .flushed (flushedDb db i later sst) (flushOps db log ops bytes (flushedDb db i later sst)) []
  | collected (merged relocated : List Record) (opened log : ValueLog) (ops : List DiskOp)
      (bytes : Bytes) (sst : SSTable) (free : db.hasFlushing = false) (calm : db.compacting = false)
      (flushed : db.memtable.isEmpty = true) (merges : mergeRecords (db.sstables.map Table.sst) true = .ok merged)
      (opens : openLog (vlogName (db.currentGen + 1)) (db.currentGen + 1) found = .ok opened)
      (relocates : relocateAll db.logs db.vlogs opened merged = .ok (log, relocated, ops))
      (built : buildAndOpen cfg relocated = .ok (bytes, sst)) :
      Move cfg found db .collected (collectedDb db log sst)
        ([.create opened.name] ++ ops ++ [.fsync opened.name] ++ writeTable (sstName db.nextSeq) bytes ++
          [.fsyncDir] ++ writeManifestLocked (collectedDb db log sst))
        (db.sstables.map Table.name ++ staleLogs db (db.currentGen + 1))
  | snapshot (i : Nat) (has : db.hasFlushing = true) (noJob : db.flusher = none)
      (index : logIndex db.vlogs db.currentGen = some i) :
      Move cfg found db .internal
        { db with flusher := some ⟨db.flushingSeq, i, db.flushingMemtable.snapshot, [], false, none⟩ } [] []
  | separated (job : FlushJob) (rec stored : Record) (rest : List Record) (log later : ValueLog) (ops : List DiskOp)
      (running : db.flusher = some job) (unbuilt : job.built = none) (next : job.pending = rec :: rest)
      (object : db.logs[job.log]? = some log) (separates : separateRecord cfg log rec = .ok (later, stored, ops)) :
      Move cfg found db .worked (separatedDb db job later rest stored (!ops.isEmpty)) ops []
  | flushBuilt (job : FlushJob) (log : ValueLog) (bytes : Bytes) (sst : SSTable) (running : db.flusher = some job)
      (unbuilt : job.built = none) (finished : job.pending = []) (object : db.logs[job.log]? = some log)
      (built : buildAndOpen cfg job.finished = .ok (bytes, sst)) :
      Move cfg found db .worked
        { db with flusher := some { job with
            built := some ((if job.written then [FsOp.fsync log.name] else []) ++ writeTable (sstName job.seq) bytes ++
              [.fsyncDir], sst) } } [] []
  | flushIo (job : FlushJob) (op : DiskOp) (rest : List DiskOp) (sst : SSTable) (running : db.flusher = some job)
      (building : job.built = some (op :: rest, sst)) :
      Move cfg found db .worked { db with flusher := some { job with built := some (rest, sst) } } [op] []
  | published (job : FlushJob) (sst : SSTable) (running : db.flusher = some job)
      (complete : job.built = some ([], sst)) :
      Move cfg found db .published (flusherPublish db job sst)
        (writeManifestLocked (flusherPublish db job sst) ++ [.unlink flushingWalName]) []
  | picked (next : DB) (job : MergeJob) (noJob : db.compactor = none) (picks : pickJob cfg db = some (next, job)) :
      Move cfg found db .picked { next with compactor := some job } [] []
  | pickedAll (many : 1 < db.sstables.length) :
      Move cfg found db .pickedAll
        { db with
          nextSeq := db.nextSeq + 1
          compacting := true
          callers := db.callers ++ [⟨db.sstables, true, 0, false, [db.nextSeq], none, none⟩] } [] []
  | merged (worker : Worker) (job next : MergeJob) (running : db.job worker = some job) (unmerged : job.groups = none)
      (merges : runMerge cfg job = .ok next) : Move cfg found db .worked (db.setJob next worker) [] []
  | reserved (job next : MergeJob) (groups : List (List Record)) (running : db.compactor = some job)
      (grouped : job.groups = some groups) (unbuilt : job.built = none)
      (builds : startBuild cfg job (List.range' db.nextSeq groups.length) groups = .ok next) :
      Move cfg found db .internal { db with nextSeq := db.nextSeq + groups.length, compactor := some next } [] []
  | mergeIo (worker : Worker) (job : MergeJob) (op : DiskOp) (rest : List DiskOp) (outputs : List (Bytes × SSTable))
      (running : db.job worker = some job) (building : job.built = some (op :: rest, outputs)) :
      Move cfg found db .worked (db.setJob { job with built := some (rest, outputs) } worker) [op] []
  | installed (worker : Worker) (job : MergeJob) (outputs : List (Bytes × SSTable)) (running : db.job worker = some job)
      (complete : job.built = some ([], outputs)) :
      Move cfg found db .internal ({ installJob db job outputs with compacting := false }.endJob worker)
        (writeManifestLocked (installJob db job outputs)) (job.inputs.map Table.name)

-- The move that a step of the label starts with.
def Label.kind : Label → Kind
  | .put key value forced => .wrote (key, some value) forced
  | .del key forced => .wrote (key, none) forced
  | .sync => .synced
  | .flush | .gc _ => .flushed
  | .flusherPublish => .published
  | .compactorPick => .picked
  | .compactAllPick => .pickedAll
  | .flusherSeparate | .flusherBuild | .flusherIo | .mergeRun _ | .mergeIo _ => .worked
  | .flusherSnapshot | .mergeReserve | .mergeInstall _ => .internal
  | .wakeSeal | .setBloomEnabled _ => .idle

-- The move that it may end with.
def Label.after : Label → Kind
  | .put _ _ _ | .del _ _ | .wakeSeal => .sealed
  | .gc _ => .collected
  | _ => .idle

-- The kinds of the two moves that a step of the label is made of. A flush of
-- an empty memtable does nothing.
def Label.Takes (label : Label) (first second : Kind) : Prop :=
  (first = label.kind ∨ label.kind = .flushed ∧ first = .idle) ∧ (second = label.after ∨ second = .idle)

theorem takes_unsealed (label : Label) (first second : Kind) (takes : label.Takes first second) : first ≠ .sealed := by
  rintro rfl
  rcases takes.1 with same | ⟨_, idle⟩
  · cases label <;> cases same
  · cases idle

-- What gc finds at the path of its new generation.
def Label.found : Label → Bytes
  | .gc existing => existing
  | _ => []

variable {found : Bytes}

theorem seal_locked_move (cfg : Config) (db : DB) (free : db.hasFlushing = false) :
    ∃ kind, (kind = .sealed ∨ kind = .idle) ∧ Move cfg found db kind (sealLocked db).1 (sealLocked db).2 [] := by
  rw [sealLocked]
  cases filled : db.memtable.isEmpty with
  | true => exact ⟨.idle, .inr rfl, .rest⟩
  | false => exact ⟨.sealed, .inl rfl, .sealed filled free⟩

theorem maybe_seal_move (cfg : Config) (db : DB) :
    ∃ kind, (kind = .sealed ∨ kind = .idle) ∧ Move cfg found db kind (maybeSeal cfg db).1 (maybeSeal cfg db).2 [] := by
  rw [maybeSeal]
  by_cases small : db.memtable.sizeBytes.toNat < cfg.threshold
  · rw [if_pos small]
    exact ⟨.idle, .inr rfl, .rest⟩
  · rw [if_neg small]
    by_cases taken : db.hasFlushing = true
    · rw [if_pos taken]
      exact ⟨.idle, .inr rfl, .waits _⟩
    · rw [if_neg taken]
      exact seal_locked_move cfg db (Bool.eq_false_iff.mpr taken)

theorem flush_returns (cfg : Config) (db next : DB) (ops : List DiskOp) (done : flushLocked cfg db = .ok (next, ops)) :
    (db.memtable.isEmpty = true ∧ next = db ∧ ops = []) ∨
      ∃ i log later recs vlogOps bytes sst, db.memtable.isEmpty = false ∧ logIndex db.vlogs db.currentGen = some i ∧
        db.logs[i]? = some log ∧ separateAll cfg log db.memtable.snapshot = .ok (later, recs, vlogOps) ∧
        buildAndOpen cfg recs = .ok (bytes, sst) ∧ next = flushedDb db i later sst ∧
        ops = flushOps db log vlogOps bytes (flushedDb db i later sst) := by
  rw [flushLocked] at done
  cases filled : db.memtable.isEmpty with
  | true =>
      rw [filled, if_pos rfl] at done
      cases done
      exact .inl ⟨rfl, rfl, rfl⟩
  | false =>
      rw [filled, if_neg (by simp)] at done
      cases index : logIndex db.vlogs db.currentGen with
      | none => simp [index] at done
      | some i =>
          cases object : db.logs[i]? with
          | none => simp [index, object, lookupLog] at done
          | some log =>
              simp only [index, object, lookupLog, Option.bind_some] at done
              obtain ⟨⟨later, recs, vlogOps⟩, separated, done⟩ := bind_returns _ _ _ done
              obtain ⟨⟨bytes, sst⟩, built, done⟩ := bind_returns _ _ _ done
              cases done
              exact .inr ⟨i, log, later, recs, vlogOps, bytes, sst, rfl, rfl, object, separated, built, rfl, rfl⟩

theorem flush_locked_move (cfg : Config) (db next : DB) (ops : List DiskOp) (free : db.hasFlushing = false)
    (done : flushLocked cfg db = .ok (next, ops)) :
    (∃ kind, (kind = .flushed ∨ kind = .idle) ∧ Move cfg found db kind next ops []) ∧ next.memtable.isEmpty = true ∧
      next.hasFlushing = false ∧
      next.compacting = db.compacting ∧ next.sstables.length ≤ db.sstables.length + 1 := by
  rcases flush_returns cfg db next ops done with
    ⟨empty, rfl, rfl⟩ | ⟨i, log, later, recs, vlogOps, bytes, sst, filled, index, object, separated, built, rfl, rfl⟩
  · exact ⟨⟨.idle, .inr rfl, .rest⟩, empty, free, rfl, Nat.le_succ _⟩
  · exact ⟨⟨.flushed, .inl rfl, .flushed i log later recs vlogOps bytes sst filled free index object separated built⟩,
      rfl, free, rfl, le_refl _⟩

theorem apply_write_returns (cfg : Config) (db next : DB) (write : Write) (sync : Bool) (ops : List DiskOp)
    (done : applyWrite cfg db write sync = .ok (next, ops)) :
    ∃ bytes, walAppend (writeRecord write) = .ok bytes ∧
      next = (maybeSeal cfg { db with memtable := db.memtable.apply write }).1 ∧
      ops = ([.append walName bytes] ++ if sync then [.fsync walName] else []) ++
        (maybeSeal cfg { db with memtable := db.memtable.apply write }).2 := by
  rw [applyWrite] at done
  obtain ⟨bytes, encoded, done⟩ := bind_returns _ _ _ done
  simp only [pure, Except.pure] at done
  cases done
  exact ⟨bytes, encoded, rfl, rfl⟩

theorem apply_write_moves (cfg : Config) (db next : DB) (write : Write) (sync : Bool) (ops : List DiskOp)
    (done : applyWrite cfg db write sync = .ok (next, ops)) :
    ∃ middle front back second, (second = .sealed ∨ second = .idle) ∧
    Move cfg found db (.wrote write sync) middle front [] ∧
      Move cfg found middle second next back [] ∧ ops = front ++ back ∧ middle.sstables = db.sstables := by
  obtain ⟨bytes, encoded, rfl, rfl⟩ := apply_write_returns cfg db next write sync ops done
  obtain ⟨second, plain, seals⟩ := maybe_seal_move cfg { db with memtable := db.memtable.apply write }
  exact ⟨_, _, _, second, plain, .wrote write bytes sync encoded, seals, rfl, rfl⟩

-- A call of gc_value_log that returns: its flush and, on a store with tables,
-- the parts of the collection.
theorem gc_returns (cfg : Config) (db : DB) (existing : Bytes) (effect : Effect)
    (done : gcValueLog cfg db existing = .ok effect) :
    ∃ flushed flushOps, flushLocked cfg db = .ok (flushed, flushOps) ∧
      ((flushed.sstables = [] ∧ effect = { db := flushed, ops := flushOps }) ∨
        flushed.sstables ≠ [] ∧ ∃ merged opened later relocated ops bytes sst,
          mergeRecords (flushed.sstables.map Table.sst) true = .ok merged ∧
          openLog (vlogName (flushed.currentGen + 1)) (flushed.currentGen + 1) existing = .ok opened ∧
          relocateAll flushed.logs flushed.vlogs opened merged = .ok (later, relocated, ops) ∧
          buildAndOpen cfg relocated = .ok (bytes, sst) ∧
          effect = {
            db := collectedDb flushed later sst
            ops := flushOps ++
              ([.create opened.name] ++ ops ++ [.fsync opened.name] ++ writeTable (sstName flushed.nextSeq) bytes ++
              [.fsyncDir] ++ writeManifestLocked (collectedDb flushed later sst))
            garbage := flushed.sstables.map Table.name ++ staleLogs flushed (flushed.currentGen + 1) }) := by
  rw [gcValueLog] at done
  obtain ⟨⟨flushed, flushOps⟩, flush, done⟩ := bind_returns _ _ _ done
  dsimp only at done
  refine ⟨flushed, flushOps, flush, ?_⟩
  by_cases none : flushed.sstables.isEmpty = true
  · rw [if_pos none] at done
    cases done
    exact .inl ⟨List.isEmpty_iff.mp none, rfl⟩
  · rw [if_neg none] at done
    obtain ⟨collected, collects, done⟩ := bind_returns _ _ _ done
    cases done
    rw [gcCollect] at collects
    obtain ⟨merged, merges, collects⟩ := bind_returns _ _ _ collects
    obtain ⟨opened, opens, collects⟩ := bind_returns _ _ _ collects
    obtain ⟨⟨later, relocated, ops⟩, relocates, collects⟩ := bind_returns _ _ _ collects
    obtain ⟨⟨bytes, sst⟩, built, collects⟩ := bind_returns _ _ _ collects
    cases collects
    exact .inr ⟨fun empty => none (List.isEmpty_iff.mpr empty), merged, opened, later, relocated, ops, bytes,
      sst, merges, opens, relocates, built, rfl⟩

theorem gc_moves (cfg : Config) (db : DB) (existing : Bytes) (effect : Effect) (free : db.hasFlushing = false)
    (calm : db.compacting = false) (done : gcValueLog cfg db existing = .ok effect) :
    ∃ middle front back garbage first second, (first = .flushed ∨ first = .idle) ∧
    (second = .collected ∨ second = .idle) ∧
      Move cfg existing db first middle front [] ∧ Move cfg existing middle second effect.db back garbage ∧
      effect.ops = front ++ back ∧ effect.garbage = garbage ∧ middle.sstables.length ≤ db.sstables.length + 1 := by
  obtain ⟨flushed, flushOps, flush, outcome⟩ := gc_returns cfg db existing effect done
  obtain ⟨⟨first, plain, move⟩, empty, stillFree, same, grown⟩ := flush_locked_move cfg db flushed flushOps free flush
  rcases outcome with
    ⟨_, rfl⟩ | ⟨_, merged, opened, later, relocated, ops, bytes, sst, merges, opens, relocates, built, rfl⟩
  · exact ⟨flushed, flushOps, [], [], first, .idle, plain, .inr rfl, move, .rest, by simp, rfl, grown⟩
  · exact ⟨flushed, flushOps, _, _, first, .collected, plain, .inl rfl, move,
      .collected merged relocated opened later ops bytes sst stillFree (same.trans calm) empty merges opens
      relocates built, rfl,
      rfl, grown⟩

-- A step is made of two moves.
def StepMoves (cfg : Config) (db : DB) (label : Label) (effect : Effect) : Prop :=
  ∃ middle front back early late first second, label.Takes first second ∧
    Move cfg label.found db first middle front early ∧ Move cfg label.found middle second effect.db back late ∧
    effect.ops = front ++ back ∧ effect.garbage = early ++ late ∧
    middle.sstables.length ≤ max effect.db.sstables.length (db.sstables.length + 1)

theorem single_move (cfg : Config) (db : DB) (label : Label) (kind : Kind) (effect : Effect)
    (takes : kind = label.kind ∨ label.kind = .flushed ∧ kind = .idle)
    (move : Move cfg label.found db kind effect.db effect.ops effect.garbage) : StepMoves cfg db label effect :=
  ⟨effect.db, effect.ops, [], effect.garbage, [], kind, .idle, ⟨takes, .inr rfl⟩, move, .rest, by simp, by simp,
    le_max_left _ _⟩

theorem of_except_some (result : Except Error (DB × List DiskOp)) (effect : Effect)
    (done : ofExcept result = some effect) :
    ∃ db ops, result = .ok (db, ops) ∧ effect = { db := db, ops := ops } := by
  cases result with
  | error e => cases done
  | ok value =>
      cases done
      exact ⟨_, _, rfl, rfl⟩

theorem write_moves (cfg : Config) (db : DB) (label : Label) (write : Write) (sync : Bool) (effect : Effect)
    (kind : label.kind = .wrote write sync) (after : label.after = .sealed)
    (done : ofExcept (applyWrite cfg db write sync) = some effect) : StepMoves cfg db label effect := by
  obtain ⟨next, written, wrote, rfl⟩ := of_except_some _ _ done
  obtain ⟨middle, front, back, second, plain, first, seals, ops, same⟩ :=
    apply_write_moves cfg db next write sync _ wrote
  exact ⟨middle, front, back, [], [], _, second, ⟨.inl kind.symm, by rw [after]; exact plain⟩, first, seals, ops, rfl,
    by rw [same]; omega⟩

theorem work_move (cfg : Config) (db : DB) (label : Label) (effect : Effect) (works : label.works = true)
    (done : perform cfg db label = some effect) : Move cfg found db label.kind effect.db effect.ops effect.garbage := by
  cases perform_work cfg db effect label works done with
  | snapshot i has noJob index => exact .snapshot i has noJob index
  | separated job rec stored rest log later ops running unbuilt waiting object separates =>
      exact .separated job rec stored rest log later ops running unbuilt waiting object separates
  | built job log bytes sst running unbuilt finished object builds =>
      exact .flushBuilt job log bytes sst running unbuilt finished object builds
  | flushIo job op rest sst running building => exact .flushIo job op rest sst running building
  | published job sst running complete => exact .published job sst running complete
  | picked next job noJob picks => exact .picked next job noJob picks
  | pickedAll many => exact .pickedAll many
  | merged worker job next running unmerged merges => exact .merged worker job next running unmerged merges
  | reserved job next groups running grouped unbuilt builds =>
      exact .reserved job next groups running grouped unbuilt builds
  | mergeIo worker job op rest outputs running building =>
      exact .mergeIo worker job op rest outputs running building
  | installed worker job outputs running complete => exact .installed worker job outputs running complete

theorem worked_move (cfg : Config) (db : DB) (label : Label) (effect : Effect) (works : label.kind = .worked)
    (done : perform cfg db label = some effect) : Move cfg found db .worked effect.db effect.ops effect.garbage := by
  rw [← works]
  cases label <;> first | exact work_move cfg db _ effect rfl done | cases works

theorem perform_moves (cfg : Config) (db : DB) (label : Label) (effect : Effect)
    (done : perform cfg db label = some effect) : StepMoves cfg db label effect := by
  cases label with
  | put key value sync => exact write_moves cfg db _ _ sync effect rfl rfl done
  | del key sync => exact write_moves cfg db _ _ sync effect rfl rfl done
  | wakeSeal =>
      simp only [perform] at done
      by_cases ready : 0 < db.sealWaiters ∧ db.hasFlushing = false
      · rw [if_pos ready] at done
        cases done
        obtain ⟨second, plain, seals⟩ := seal_locked_move cfg { db with sealWaiters := db.sealWaiters - 1 } ready.2
        exact ⟨_, [], _, [], [], .idle, second, ⟨.inl rfl, plain⟩, .waits (db.sealWaiters - 1), seals, by simp, rfl,
          by simp only; omega⟩
      · rw [if_neg ready] at done
        cases done
  | sync =>
      cases done
      exact single_move cfg db .sync .synced _ (.inl rfl) .synced
  | flush =>
      simp only [perform] at done
      split at done
      · cases done
      · next free =>
          obtain ⟨next, ops, flush, rfl⟩ := of_except_some _ _ done
          obtain ⟨⟨kind, plain, move⟩, _⟩ := flush_locked_move cfg db next ops (Bool.eq_false_iff.mpr free) flush
          exact single_move cfg db .flush kind _ (plain.imp id (fun idle => ⟨rfl, idle⟩)) move
  | gc existing =>
      simp only [perform] at done
      split at done
      · cases done
      · next waits =>
          obtain ⟨calm, free⟩ := Bool.or_eq_false_iff.mp (Bool.eq_false_iff.mpr waits)
          obtain ⟨middle, front, back, garbage, kind, after, plain, ends, first, second, ops, left, grown⟩ :=
            gc_moves cfg db existing effect free calm (to_option_ok _ _ done)
          exact ⟨middle, front, back, [], garbage, kind, after, ⟨plain.imp id (fun idle => ⟨rfl, idle⟩), ends⟩, first,
            second, ops, by simp [left], by omega⟩
  | setBloomEnabled on =>
      cases done
      exact single_move cfg db (.setBloomEnabled on) .idle _ (.inl rfl) (.bloom on)
  | _ => exact single_move cfg db _ _ effect (.inl rfl) (work_move cfg db _ effect rfl done)

theorem step_moves (cfg : Config) (db : DB) (label : Label) (effect : Effect) (done : step cfg db label = some effect) :
    StepMoves cfg db label effect ∧ WithinLimits effect.db := by
  obtain ⟨performed, bounded⟩ := Option.filter_eq_some_iff.mp done
  exact ⟨perform_moves cfg db label effect performed, by simpa using bounded⟩

end Tombstash
