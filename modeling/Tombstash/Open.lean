import Tombstash.Step

set_option autoImplicit false

namespace Tombstash

def fileData (disk : Disk Bytes) (name : Bytes) : Option Bytes := (disk name).map File.data

-- SSTable(path)
def openFile (disk : Disk Bytes) (name : Bytes) : Except Error SSTable :=
  match fileData disk name with
  | none => .error (.system "SSTable open: ")
  | some bytes => openTable bytes

-- The loops that open the tables of a store, newest first.
def openTables (disk : Disk Bytes) : Nat → List ManifestEntry → Except Error (List Table)
  | _, [] => .ok []
  | id, entry :: rest => do
      let sst ← openFile disk entry.name
      let others ← openTables disk (id + 1) rest
      return ⟨id, entry.name, entry.level, sst⟩ :: others

-- What cleanup_orphans does with one directory entry.
def isOrphan (live : List Bytes) (gen : UInt32) (name : Bytes) : Except Error Bool :=
  if isTmp name then .ok true
  else do
    match ← parseSeq name with
    | some _ => return decide (name ∉ live)
    | none =>
        match ← parseVlogGen name with
        | some found => return decide (found ≠ gen)
        | none => return false

def cleanupOrphans (live : List Bytes) (gen : UInt32) : List Bytes → Except Error (List DiskOp)
  | [] => .ok []
  | name :: rest => do
      let orphan ← isOrphan live gen name
      let others ← cleanupOrphans live gen rest
      return if orphan then .unlink name :: others else others

-- The branch of the constructor that finds a MANIFEST.
def loadManifest (listing : List Bytes) (disk : Disk Bytes) (m : ManifestData) : Except Error (DB × List DiskOp) := do
  let tables ← openTables disk 0 m.tables
  let log ← openLog (vlogName m.currentGen) m.currentGen ((fileData disk (vlogName m.currentGen)).getD [])
  let orphans ← cleanupOrphans (m.tables.map ManifestEntry.name) m.currentGen listing
  return ({ sstables := tables, logs := [log], vlogs := [(m.currentGen, 0)], currentGen := m.currentGen,
            nextSeq := m.nextSeq, nextId := tables.length },
    .create (vlogName m.currentGen) :: orphans)

def findSstables : List Bytes → Except Error (List (Nat × Bytes))
  | [] => .ok []
  | name :: rest =>
      if isTmp name then findSstables rest
      else do
        let seq ← parseSeq name
        let others ← findSstables rest
        return seq.toList.map (fun found => (found, name)) ++ others

def maxSeq (found : List (Nat × Bytes)) : Nat := found.foldl (fun m entry => max m entry.1) 0

-- load_sstables: the tables and next_seq_.
def loadSstables (listing : List Bytes) (disk : Disk Bytes) : Except Error (List Table × Nat) := do
  let found ← findSstables listing
  let sorted := found.insertionSort (fun a b => b.1 ≤ a.1)
  let tables ← openTables disk 0 (sorted.map (fun entry => ⟨entry.2, 0⟩))
  return (tables, if found.isEmpty then 0 else (maxSeq found + 1) % 2 ^ 64)

def findVlogs (disk : Disk Bytes) : List Bytes → Except Error (List ValueLog)
  | [] => .ok []
  | name :: rest => do
      match ← parseVlogGen name with
      | none => findVlogs disk rest
      | some gen => do
          let log ← openLog name gen ((fileData disk name).getD [])
          let others ← findVlogs disk rest
          return log :: others

def maxGen (logs : List ValueLog) : UInt32 := logs.foldl (fun m log => max m log.gen) 0

-- The map from generations to the opened logs; a later file of the same
-- generation replaces an earlier one.
def vlogIndex (logs : List ValueLog) :
    List (UInt32 × Nat) := (logs.zipIdx.map (fun entry => (entry.1.gen, entry.2))).reverse

-- load_vlogs: the logs it finds, or the log of generation 0 that it creates.
def loadVlogs (listing : List Bytes) (disk : Disk Bytes) : Except Error (List ValueLog × List DiskOp) := do
  let found ← findVlogs disk listing
  if found.isEmpty then
    let log ← openLog (vlogName 0) 0 ((fileData disk (vlogName 0)).getD [])
    return ([log], [.create (vlogName 0)])
  else return (found, [])

-- The branch that bootstraps from the directory.
def loadDirectory (listing : List Bytes) (disk : Disk Bytes) : Except Error (DB × List DiskOp) := do
  let (tables, nextSeq) ← loadSstables listing disk
  let (logs, ops) ← loadVlogs listing disk
  return ({ sstables := tables, logs := logs, vlogs := vlogIndex logs, currentGen := maxGen logs, nextSeq := nextSeq,
            nextId := tables.length },
    (listing.filter isTmp).map FsOp.unlink ++ ops)

-- Replay applies any op other than Put as a deletion.
def recordWrite (rec : Record) : Write := (rec.key, if rec.op = Op.put then some rec.value else none)

def replayFile (disk : Disk Bytes) (name : Bytes) : List Write := ((fileData disk name).elim [] replay).map recordWrite

-- flush_locked and the removal of the log it has made obsolete.
def finishRecovery (cfg : Config) (db : DB) (hadFlushing : Bool) : Except Error (DB × List DiskOp) :=
  if hadFlushing then do
    let (flushed, ops) ← flushLocked cfg db
    return (flushed, ops ++ [.unlink flushingWalName, .fsyncDir])
  else .ok (db, [])

-- The constructor on a directory with the given files, listed in some order.
def openDB (cfg : Config) (listing : List Bytes) (disk : Disk Bytes) : Except Error (DB × List DiskOp) := do
  let man ← manifestRead (fileData disk manifestName)
  let (loaded, loadOps) ←
    match man with
    | some m => loadManifest listing disk m
    | none => loadDirectory listing disk
  let recovered := { loaded with memtable := memOf (replayFile disk flushingWalName ++ replayFile disk walName) }
  let (opened, flushOps) ← finishRecovery cfg recovered (disk flushingWalName).isSome
  return (opened, [.create walName] ++ loadOps ++ flushOps ++ if man.isNone then writeManifestLocked opened else [])

-- Its work up to the flush: the tables, the value log and both logs are read.
def loadDB (listing : List Bytes) (disk : Disk Bytes) : Except Error DB := do
  let man ← manifestRead (fileData disk manifestName)
  let (loaded, _) ←
    match man with
    | some m => loadManifest listing disk m
    | none => loadDirectory listing disk
  return { loaded with memtable := memOf (replayFile disk flushingWalName ++ replayFile disk walName) }

-- The constructor returns. Only where it finds a wal-flushing.log can it fail,
-- with everything loaded, in the writes of its own flush.
def Reopens (cfg : Config) (listing : List Bytes) (disk : Disk Bytes) : Prop :=
  (∃ opened, openDB cfg listing disk = .ok opened) ∨
    (disk flushingWalName).isSome = true ∧ ∃ loaded what, loadDB listing disk = .ok loaded ∧
      flushLocked cfg loaded = .error (.system what) ∧ openDB cfg listing disk = .error (.system what)

-- A directory listing names the files that exist, each once.
def Lists (disk : Disk Bytes) (listing : List Bytes) : Prop :=
  listing.Nodup ∧ ∀ name, name ∈ listing ↔ (disk name).isSome = true

end Tombstash
