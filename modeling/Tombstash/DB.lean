import Mathlib.Data.List.Sort
import Tombstash.Compaction
import Tombstash.Manifest
import Tombstash.Memtable
import Tombstash.ValueLog
import Tombstash.Wal

set_option autoImplicit false

namespace Tombstash

abbrev DiskOp := FsOp Bytes

-- The constructor's arguments. Floating point enters through bucket, the
-- level budgets and the filter sizes, which are left arbitrary.
structure Config where
  threshold : Nat
  minMerge : Nat
  bucket : Nat → Int
  valueSepThreshold : Nat
  leveled : Bool
  leveledTargetBytes : Nat
  levelBudget : Int → Nat
  bloomSize : Nat → BloomSize

-- A shared_ptr<SSTable>: id is the identity of the object, level its entry in
-- level_of_, which exists for every table of sstables_.
structure Table where
  id : Nat
  name : Bytes
  level : Int
  sst : SSTable
deriving DecidableEq

-- The local variables of one round of flush_loop. built holds the remaining
-- file-system steps and the table once the records are separated.
structure FlushJob where
  seq : Nat
  log : Nat
  pending : List Record
  finished : List Record
  written : Bool
  built : Option (List DiskOp × SSTable)

-- The local variables of a merge between its pick and its install.
structure MergeJob where
  inputs : List Table
  dropTombstones : Bool
  destLevel : Int
  leveled : Bool
  seqs : List Nat
  groups : Option (List (List Record))
  built : Option (List DiskOp × List (Bytes × SSTable))

-- The members of DB and the threads at work on it. logs holds every ValueLog
-- object ever opened, vlogs the map from generations to them. sealWaiters
-- counts the writers that wait in maybe_seal, callers are running compact_all
-- calls.
structure DB where
  memtable : Memtable := {}
  flushingMemtable : Memtable := {}
  hasFlushing : Bool := false
  flushingSeq : Nat := 0
  sstables : List Table := []
  logs : List ValueLog
  vlogs : List (UInt32 × Nat)
  currentGen : UInt32 := 0
  nextSeq : Nat := 0
  bloomEnabled : Bool := true
  compacting : Bool := false
  nextId : Nat := 0
  sealWaiters : Nat := 0
  flusher : Option FlushJob := none
  compactor : Option MergeJob := none
  callers : List MergeJob := []

def logIndex (vlogs : List (UInt32 × Nat)) (gen : UInt32) : Option Nat :=
  (vlogs.find? (fun entry => decide (entry.1 = gen))).map Prod.snd

def lookupLog (logs : List ValueLog) (vlogs : List (UInt32 × Nat)) (gen : UInt32) : Option ValueLog :=
  (logIndex vlogs gen).bind (fun i => logs[i]?)

def mapAt : Error := .outOfRange "map::at"

-- vlogs_.at(gen)->read(ptr)
def readPtr (logs : List ValueLog) (vlogs : List (UInt32 × Nat)) (ptr : ValuePtr) : Except Error Bytes :=
  match lookupLog logs vlogs ptr.gen with
  | none => .error mapAt
  | some log => log.read ptr

def manifestOf (db : DB) : ManifestData :=
  ⟨db.nextSeq, db.currentGen, db.sstables.map (fun table => ⟨table.name, table.level⟩)⟩

def writeManifestLocked (db : DB) : List DiskOp := manifestOps (manifestOf db)

-- SSTable::build of a .tmp file and its rename.
def writeTable (name bytes : Bytes) : List DiskOp :=
  [.truncate (tmpName name), .append (tmpName name) bytes, .fsync (tmpName name), .rename (tmpName name) name]

def buildAndOpen (cfg : Config) (records : List Record) : Except Error (Bytes × SSTable) := do
  let bytes ← buildTable cfg.bloomSize records
  let sst ← openTable bytes
  return (bytes, sst)

def shouldSeparate (cfg : Config) (rec : Record) : Bool :=
  decide (rec.op = Op.put) && decide (cfg.valueSepThreshold ≤ rec.value.length)

def vlogWrite (log : ValueLog) (key value : Bytes) :
    DiskOp := .pwrite log.name log.appendOff.toNat (vlogEntry key value)

-- The loop body of both flushes.
def separateRecord (cfg : Config) (log : ValueLog) (rec : Record) : Except Error (ValueLog × Record × List DiskOp) :=
  if shouldSeparate cfg rec then do
    let (log', ptr) ← log.append rec.key rec.value
    return (log', { rec with separated := true, vptr := ptr, value := [] }, [vlogWrite log rec.key rec.value])
  else .ok (log, rec, [])

def separateAll (cfg : Config) : ValueLog → List Record → Except Error (ValueLog × List Record × List DiskOp)
  | log, [] => .ok (log, [], [])
  | log, rec :: rest => do
      let (log', rec', ops) ← separateRecord cfg log rec
      let (log'', rest', ops') ← separateAll cfg log' rest
      return (log'', rec' :: rest', ops ++ ops')

def flushLocked (cfg : Config) (db : DB) : Except Error (DB × List DiskOp) :=
  if db.memtable.isEmpty then .ok (db, [])
  else
    match logIndex db.vlogs db.currentGen, lookupLog db.logs db.vlogs db.currentGen with
    | some i, some log => do
        let seq := db.nextSeq
        let (log', recs, vlogOps) ← separateAll cfg log db.memtable.snapshot
        let (bytes, sst) ← buildAndOpen cfg recs
        let flushed : DB :=
          { db with
            nextSeq := seq + 1
            logs := db.logs.set i log'
            sstables := ⟨db.nextId, sstName seq, 0, sst⟩ :: db.sstables
            nextId := db.nextId + 1 }
        let sync := if vlogOps.isEmpty then [] else [FsOp.fsync log.name]
        return ({ flushed with memtable := {} },
          vlogOps ++ sync ++ writeTable (sstName seq) bytes ++ [.fsyncDir] ++ writeManifestLocked flushed ++
            [.truncate walName])
    | _, _ => .error mapAt

def sealLocked (db : DB) : DB × List DiskOp :=
  if db.memtable.isEmpty then (db, [])
  else
    ({ db with
        flushingSeq := db.nextSeq
        nextSeq := db.nextSeq + 1
        flushingMemtable := db.memtable
        memtable := {}
        hasFlushing := true },
      [.fsync walName, .rename walName flushingWalName, .fsyncDir, .truncate walName])

-- maybe_seal up to its wait: a writer that finds the slot taken waits.
def maybeSeal (cfg : Config) (db : DB) : DB × List DiskOp :=
  if db.memtable.sizeBytes.toNat < cfg.threshold then (db, [])
  else if db.hasFlushing then ({ db with sealWaiters := db.sealWaiters + 1 }, [])
  else sealLocked db

-- put and del
def applyWrite (cfg : Config) (db : DB) (write : Write) (sync : Bool) : Except Error (DB × List DiskOp) := do
  let bytes ← walAppend (writeRecord write)
  let (db', ops) := maybeSeal cfg { db with memtable := db.memtable.apply write }
  return (db', [.append walName bytes] ++ (if sync then [.fsync walName] else []) ++ ops)

-- The loop of install_merge_result over sstables_.
def replaceInputs (inputs : List Nat) (output : Table) : Bool → List Table → List Table
  | inserted, [] => if inserted then [] else [output]
  | inserted, table :: rest =>
      if table.id ∈ inputs then
        if inserted then replaceInputs inputs output true rest else output :: replaceInputs inputs output true rest
      else table :: replaceInputs inputs output inserted rest

def tableIds (tables : List Table) : List Nat := tables.map Table.id

def installMergeResult (db : DB) (inputs : List Table) (name : Bytes) (sst : SSTable) : DB :=
  { db with
    sstables := replaceInputs (tableIds inputs) ⟨db.nextId, name, 0, sst⟩ false db.sstables
    nextId := db.nextId + 1 }

-- The order of reorder_sstables_locked.
def tableBefore (a b : Table) : Bool :=
  if a.level ≠ b.level then decide (a.level < b.level)
  else if a.level = 0 then decide (seqOfPath a.name > seqOfPath b.name)
  else decide (a.sst.minKey < b.sst.minKey)

-- std::stable_sort
def reorderSstables (tables : List Table) : List Table :=
  tables.insertionSort (fun a b => tableBefore b a = false)

def installLeveled (db : DB) (job : MergeJob) (outputs : List (Bytes × SSTable)) : DB :=
  { db with
    sstables := reorderSstables (db.sstables.filter (fun table => decide (table.id ∉ tableIds job.inputs)) ++
      outputs.zipIdx.map (fun entry => ⟨db.nextId + entry.2, entry.1.1, job.destLevel, entry.1.2⟩))
    nextId := db.nextId + outputs.length }

end Tombstash
