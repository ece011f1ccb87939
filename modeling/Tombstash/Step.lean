import Tombstash.Leveled

set_option autoImplicit false

namespace Tombstash

-- Who runs a merge: the background compactor or a call of compact_all.
inductive Worker where
  | compactor
  | caller (index : Nat)
deriving DecidableEq, Repr

-- One critical section of mu_, or one stretch of work between two of them.
-- gc is given what it finds at the path of the new generation.
inductive Label where
  | put (key value : Bytes) (sync : Bool)
  | del (key : Bytes) (sync : Bool)
  | wakeSeal
  | sync
  | flush
  | gc (existing : Bytes)
  | setBloomEnabled (on : Bool)
  | flusherSnapshot
  | flusherSeparate
  | flusherBuild
  | flusherIo
  | flusherPublish
  | compactorPick
  | compactAllPick
  | mergeRun (worker : Worker)
  | mergeReserve
  | mergeIo (worker : Worker)
  | mergeInstall (worker : Worker)
deriving DecidableEq, Repr

-- What a step leaves to the file system: its steps in order, and the files of
-- objects it marked obsolete, which are unlinked when the last reader is gone.
structure Effect where
  db : DB
  ops : List DiskOp := []
  garbage : List Bytes := []

def quiet (db : DB) : Option Effect := some { db := db }

def ofExcept (result : Except Error (DB × List DiskOp)) : Option Effect :=
  match result with
  | .error _ => none
  | .ok (db, ops) => some { db := db, ops := ops }

def DB.job (db : DB) : Worker → Option MergeJob
  | .compactor => db.compactor
  | .caller i => db.callers[i]?

def DB.setJob (db : DB) (job : MergeJob) : Worker → DB
  | .compactor => { db with compactor := some job }
  | .caller i => { db with callers := db.callers.set i job }

def DB.endJob (db : DB) : Worker → DB
  | .compactor => { db with compactor := none }
  | .caller i => { db with callers := db.callers.eraseIdx i }

-- The relocation loop of gc_value_log.
def relocateAll (logs : List ValueLog) (vlogs : List (UInt32 × Nat)) :
    ValueLog → List Record → Except Error (ValueLog × List Record × List DiskOp)
  | log, [] => .ok (log, [], [])
  | log, rec :: rest =>
      if rec.separated then do
        let v ← readPtr logs vlogs rec.vptr
        let (log', ptr) ← log.append rec.key v
        let (log'', rest', ops) ← relocateAll logs vlogs log' rest
        return (log'', { rec with vptr := ptr } :: rest', vlogWrite log rec.key v :: ops)
      else do
        let (log', rest', ops) ← relocateAll logs vlogs log rest
        return (log', rec :: rest', ops)

-- The names of the logs that gc erases from the map.
def staleLogs (db : DB) (gen : UInt32) : List Bytes :=
  db.vlogs.filterMap (fun entry => if entry.1 = gen then none else (db.logs[entry.2]?).map ValueLog.name)

-- The part of gc_value_log after its flush, on a store with tables.
def gcCollect (cfg : Config) (db : DB) (existing : Bytes) : Except Error Effect := do
  let merged ← mergeRecords (db.sstables.map Table.sst) true
  let newGen := db.currentGen + 1
  let opened ← openLog (vlogName newGen) newGen existing
  let (newVlog, relocated, vlogOps) ← relocateAll db.logs db.vlogs opened merged
  let seq := db.nextSeq
  let (bytes, sst) ← buildAndOpen cfg relocated
  let collected : DB :=
    { db with
      nextSeq := seq + 1
      sstables := [⟨db.nextId, sstName seq, 0, sst⟩]
      nextId := db.nextId + 1
      logs := db.logs ++ [newVlog]
      vlogs := [(newGen, db.logs.length)]
      currentGen := newGen }
  return {
    db := collected
    ops := [.create opened.name] ++ vlogOps ++ [.fsync opened.name] ++ writeTable (sstName seq) bytes ++ [.fsyncDir] ++
      writeManifestLocked collected
    garbage := db.sstables.map Table.name ++ staleLogs db newGen }

def gcValueLog (cfg : Config) (db : DB) (existing : Bytes) : Except Error Effect := do
  let (flushed, flushOps) ← flushLocked cfg db
  if flushed.sstables.isEmpty then return { db := flushed, ops := flushOps }
  else do
    let effect ← gcCollect cfg flushed existing
    return { effect with ops := flushOps ++ effect.ops }

def pickJob (cfg : Config) (db : DB) : Option (DB × MergeJob) :=
  if cfg.leveled then
    (pickLeveled cfg db.sstables).map (fun pick =>
      ({ db with compacting := true }, ⟨pick.inputs, pick.dropTombstones, pick.destLevel, true, [], none, none⟩))
  else
    (pickCompaction cfg.bucket (db.sstables.map Table.sst) cfg.minMerge).map (fun pick =>
      ({ db with nextSeq := db.nextSeq + 1, compacting := true },
        ⟨pick.indices.filterMap (fun i => db.sstables[i]?), pick.dropTombstones, 0, false, [db.nextSeq], none, none⟩))

-- The files of a merge, one for each group and reserved sequence number.
def buildGroups (cfg : Config) : List Nat → List (List Record) → Except Error (List DiskOp × List (Bytes × SSTable))
  | seq :: seqs, group :: groups => do
      let (bytes, sst) ← buildAndOpen cfg group
      let (ops, outputs) ← buildGroups cfg seqs groups
      return (writeTable (sstName seq) bytes ++ ops, (sstName seq, sst) :: outputs)
  | _, _ => .ok ([], [])

def startBuild (cfg : Config) (job : MergeJob) (seqs : List Nat) (groups : List (List Record)) :
    Except Error MergeJob := do
  let (ops, outputs) ← buildGroups cfg seqs groups
  return { job with seqs := seqs, groups := some groups, built := some (ops ++ [.fsyncDir], outputs) }

-- The off-lock work after a pick: the whole output of a size-tiered merge or
-- compact_all, or the groups of a leveled one, whose names are reserved later.
def runMerge (cfg : Config) (job : MergeJob) : Except Error MergeJob := do
  let merged ← mergeRecords (job.inputs.map Table.sst) job.dropTombstones
  if job.leveled then return { job with groups := some (splitGroups cfg.leveledTargetBytes [] 0 merged) }
  else startBuild cfg job job.seqs [merged]

def installJob (db : DB) (job : MergeJob) (outputs : List (Bytes × SSTable)) : DB :=
  if job.leveled then installLeveled db job outputs
  else
    match outputs with
    | (name, sst) :: _ => installMergeResult db job.inputs name sst
    | [] => db

def flusherPublish (db : DB) (job : FlushJob) (sst : SSTable) : DB :=
  { db with
    sstables := ⟨db.nextId, sstName job.seq, 0, sst⟩ :: db.sstables
    nextId := db.nextId + 1
    flushingMemtable := {}
    hasFlushing := false
    flusher := none }

def separateNext (cfg : Config) (db : DB) (job : FlushJob) : Option Effect :=
  match job.pending, db.logs[job.log]? with
  | rec :: rest, some log =>
      match separateRecord cfg log rec with
      | .error _ => none
      | .ok (log', rec', ops) =>
          some {
            db := { db with
              logs := db.logs.set job.log log'
              flusher := some { job with
                pending := rest
                finished := job.finished ++ [rec']
                written := job.written || !ops.isEmpty } }
            ops := ops }
  | _, _ => none

def flusherBuild (cfg : Config) (db : DB) (job : FlushJob) : Option Effect :=
  match job.pending, db.logs[job.log]? with
  | [], some log =>
      match buildAndOpen cfg job.finished with
      | .error _ => none
      | .ok (bytes, sst) =>
          let sync := if job.written then [FsOp.fsync log.name] else []
          quiet { db with flusher := some { job with
            built := some (sync ++ writeTable (sstName job.seq) bytes ++ [.fsyncDir], sst) } }
  | _, _ => none

def mergeInstall (db : DB) (worker : Worker) (job : MergeJob) (outputs : List (Bytes × SSTable)) : Effect :=
  let installed := installJob db job outputs
  { db := { installed with compacting := false }.endJob worker
    ops := writeManifestLocked installed
    garbage := job.inputs.map Table.name }

-- The effect of a label; none where its section would wait, would find
-- nothing to do, or fails.
def perform (cfg : Config) (db : DB) : Label → Option Effect
  | .put key value sync => ofExcept (applyWrite cfg db (key, some value) sync)
  | .del key sync => ofExcept (applyWrite cfg db (key, none) sync)
  | .wakeSeal =>
      if 0 < db.sealWaiters ∧ db.hasFlushing = false then
        let (sealed, ops) := sealLocked { db with sealWaiters := db.sealWaiters - 1 }
        some { db := sealed, ops := ops }
      else none
  | .sync => some { db := db, ops := [.fsync walName] }
  | .flush => if db.hasFlushing then none else ofExcept (flushLocked cfg db)
  | .gc existing => if db.compacting || db.hasFlushing then none else (gcValueLog cfg db existing).toOption
  | .setBloomEnabled on => quiet { db with bloomEnabled := on }
  | .flusherSnapshot =>
      match db.hasFlushing, db.flusher, logIndex db.vlogs db.currentGen with
      | true, none, some i =>
          quiet { db with flusher := some ⟨db.flushingSeq, i, db.flushingMemtable.snapshot, [], false, none⟩ }
      | _, _, _ => none
  | .flusherSeparate =>
      match db.flusher with
      | some job => if job.built.isNone then separateNext cfg db job else none
      | none => none
  | .flusherBuild =>
      match db.flusher with
      | some job => if job.built.isNone then flusherBuild cfg db job else none
      | none => none
  | .flusherIo =>
      match db.flusher with
      | some job =>
          match job.built with
          | some (op :: rest, sst) =>
              some { db := { db with flusher := some { job with built := some (rest, sst) } }, ops := [op] }
          | _ => none
      | none => none
  | .flusherPublish =>
      match db.flusher with
      | some job =>
          match job.built with
          | some ([], sst) =>
              let published := flusherPublish db job sst
              some { db := published, ops := writeManifestLocked published ++ [.unlink flushingWalName] }
          | _ => none
      | none => none
  | .compactorPick =>
      match db.compactor with
      | some _ => none
      | none => (pickJob cfg db).map (fun picked => { db := { picked.1 with compactor := some picked.2 } })
  | .compactAllPick =>
      if db.sstables.length ≤ 1 then none
      else
        quiet { db with
          nextSeq := db.nextSeq + 1
          compacting := true
          callers := db.callers ++ [⟨db.sstables, true, 0, false, [db.nextSeq], none, none⟩] }
  | .mergeRun worker =>
      match db.job worker with
      | some job =>
          if job.groups.isNone then
            match runMerge cfg job with
            | .error _ => none
            | .ok job' => quiet (db.setJob job' worker)
          else none
      | none => none
  | .mergeReserve =>
      match db.compactor with
      | some job =>
          match job.groups, job.built with
          | some groups, none =>
              match startBuild cfg job (List.range' db.nextSeq groups.length) groups with
              | .error _ => none
              | .ok job' => quiet { db with nextSeq := db.nextSeq + groups.length, compactor := some job' }
          | _, _ => none
      | none => none
  | .mergeIo worker =>
      match db.job worker with
      | some job =>
          match job.built with
          | some (op :: rest, outputs) =>
              some { db := db.setJob { job with built := some (rest, outputs) } worker, ops := [op] }
          | _ => none
      | none => none
  | .mergeInstall worker =>
      match db.job worker with
      | some job =>
          match job.built with
          | some ([], outputs) => some (mergeInstall db worker job outputs)
          | _ => none
      | none => none

-- next_seq_ is a 64-bit counter, and every table holds an open descriptor, an
-- int. Runs that would use them up are not modelled.
def WithinLimits (db : DB) : Prop := db.nextSeq < 2 ^ 64 ∧ db.sstables.length < 2 ^ 31

instance (db : DB) : Decidable (WithinLimits db) := inferInstanceAs (Decidable (_ ∧ _))

def step (cfg : Config) (db : DB) (label : Label) : Option Effect :=
  (perform cfg db label).filter (fun effect => decide (WithinLimits effect.db))

def run (cfg : Config) : DB → List Label → Option DB
  | db, [] => some db
  | db, label :: rest => (step cfg db label).bind (fun effect => run cfg effect.db rest)

-- The write a label applies, if any.
def Label.write : Label → Option Write
  | .put key value _ => some (key, some value)
  | .del key _ => some (key, none)
  | _ => none

def applied (labels : List Label) : List Write := labels.filterMap Label.write

-- The state the constructor leaves in a fresh directory.
def DB.fresh : DB := { logs := [ValueLog.opened (vlogName 0) 0 []], vlogs := [(0, 0)] }

end Tombstash
